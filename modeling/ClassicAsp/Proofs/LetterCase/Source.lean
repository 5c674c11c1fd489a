import ClassicAsp.Proofs.LetterCase.Character
import ClassicAsp.Proofs.Lexeme.Source

/-! Letter case of lexemes. The letters of a page neither decide where a lexeme ends nor which kind
it is, so that every reader gives small letters for small letters. -/
namespace ClassicAsp

open Text (lower_cons toLower_eq_iff toLower_ne caseBlind_isDigit caseBlind_isNameChar CaseBlind)

def Lexeme.lower : Lexeme → Lexeme
  | markup s => markup (Text.lower s)
  | identifier s => identifier (Text.lower s)
  | operator o s => operator o (Text.lower s)
  | string s => string (Text.lower s)
  | integer s => integer (Text.lower s)
  | float s => float (Text.lower s)
  | date s => date (Text.lower s)
  | comment s => comment (Text.lower s)
  | l => l

def ScanError.lower : ScanError → ScanError
  | invalidDateChar c => invalidDateChar c.toLower
  | e => e

def lowerAnswer {ε α : Type} (error : ε → ε) (value : α → α) : Except ε α → Except ε α
  | .ok a => .ok (value a)
  | .error e => .error (error e)

def Source.lower (s : Source) : Source := { s with rest := Text.lower s.rest }

theorem Operator.findWord?_lower (s : Text) : findWord? (Text.lower s) = findWord? s := by
  unfold findWord?
  simp only [Text.sameWord_lower]

namespace Lexeme

theorem readName_lower (c : Char) (s : Text) :
    readName c.toLower (Text.lower s) = Prod.map lower Text.lower (readName c s) := by
  have hword : c.toLower :: (Text.lower s).takeWhile isNameChar =
      Text.lower (c :: s.takeWhile isNameChar) := by
    rw [caseBlind_isNameChar.takeWhile_lower]
    rfl
  unfold readName
  rw [hword, caseBlind_isNameChar.dropWhile_lower]
  dsimp only [Prod.map]
  rw [Operator.findWord?_lower]
  split <;> rfl

@[simp] theorem readSign_cons {c : Char} (hp : c ≠ '+') (hm : c ≠ '-') (s : Text) :
    readSign (c :: s) = ([], c :: s) := by
  unfold readSign
  split
  · next e => exact absurd (List.cons.inj e).1 hp
  · next e => exact absurd (List.cons.inj e).1 hm
  · rfl

theorem readSign_lower (s : Text) :
    readSign (Text.lower s) = Prod.map Text.lower Text.lower (readSign s) := by
  cases s with
  | nil => rfl
  | cons c s =>
    by_cases hp : c = '+'
    · rw [hp]
      rfl
    by_cases hm : c = '-'
    · rw [hm]
      rfl
    have hp' : c.toLower ≠ '+' := toLower_ne (by decide) hp
    have hm' : c.toLower ≠ '-' := toLower_ne (by decide) hm
    simp [hp', hm', hp, hm]

theorem readExponent_lower (s : Text) :
    readExponent (Text.lower s) = Prod.map Text.lower Text.lower (readExponent s) := by
  cases s with
  | nil => rfl
  | cons c s =>
    have hc := Text.toLower_eq_or_iff (k := 'e') (l := 'E') (by decide) c
    rw [lower_cons, readExponent, readExponent, readSign_lower]
    simp only [Prod.map, hc, caseBlind_isDigit.any_head?_lower, caseBlind_isDigit.takeWhile_lower,
      caseBlind_isDigit.dropWhile_lower]
    split <;> simp

@[simp] theorem readFraction_cons {c : Char} (hc : c ≠ '.') (s : Text) :
    readFraction (c :: s) = ([], c :: s) := by
  unfold readFraction
  split
  · next e => exact absurd (List.cons.inj e).1 hc
  · rfl

theorem readFraction_lower (s : Text) :
    readFraction (Text.lower s) = Prod.map Text.lower Text.lower (readFraction s) := by
  cases s with
  | nil => rfl
  | cons c s =>
    by_cases hc : c = '.'
    · subst hc
      change ('.' :: (Text.lower s).takeWhile Char.isDigit, (Text.lower s).dropWhile Char.isDigit) =
        ('.' :: Text.lower (s.takeWhile Char.isDigit), Text.lower (s.dropWhile Char.isDigit))
      rw [caseBlind_isDigit.takeWhile_lower, caseBlind_isDigit.dropWhile_lower]
    · have hc' : c.toLower ≠ '.' := toLower_ne (by decide) hc
      simp [hc', hc]

theorem readNumber_lower (c : Char) (s : Text) :
    readNumber c.toLower (Text.lower s) = Prod.map lower Text.lower (readNumber c s) := by
  unfold readNumber
  rw [caseBlind_isDigit.takeWhile_lower, caseBlind_isDigit.dropWhile_lower, readFraction_lower]
  dsimp only [Prod.map]
  rw [readExponent_lower]
  simp only [Prod.map, Text.lower_eq_nil]
  split <;> simp [lower]

theorem radixDigit?_lower (c : Char) : radixDigit? c.toLower = radixDigit? c := by
  have hh := Text.toLower_eq_or_iff (k := 'h') (l := 'H') (by decide) c
  have ho := Text.toLower_eq_or_iff (k := 'o') (l := 'O') (by decide) c
  simp only [radixDigit?, hh, ho]

theorem caseBlind_radixDigit {c : Char} {p : Char → Bool} (h : radixDigit? c = some p) :
    CaseBlind p := by
  unfold radixDigit? at h
  split at h
  · cases h
    exact Text.caseBlind_isHexDigit
  split at h
  · cases h
    exact caseBlind_isDigit
  · cases h

theorem readRadix?_lower (s : Text) :
    readRadix? (Text.lower s) = (readRadix? s).map (Prod.map lower Text.lower) := by
  cases s with
  | nil => rfl
  | cons c s =>
    by_cases hc : c = '&'
    · subst hc
      cases s with
      | nil => rfl
      | cons m s =>
        change readRadix? ('&' :: m.toLower :: Text.lower s) = _
        rw [readRadix?, readRadix?, radixDigit?_lower]
        cases hp : radixDigit? m with
        | none => rfl
        | some p =>
          have hblind := caseBlind_radixDigit hp
          simp only [Option.bind_some, hblind.any_head?_lower, hblind.takeWhile_lower,
            hblind.dropWhile_lower]
          split <;> rfl
    · have hc' : c.toLower ≠ '&' := toLower_ne (by decide) hc
      simp [hc', hc]

theorem toLower_eq_break (c : Char) :
    c.toLower = '\r' ∨ c.toLower = '\n' ↔ c = '\r' ∨ c = '\n' := by
  rw [toLower_eq_iff (by decide), toLower_eq_iff (by decide)]

theorem lowerAnswer_cons (c : Char) (r : Except ScanError Text) :
    (lowerAnswer ScanError.lower Text.lower r).map (c.toLower :: ·) =
      lowerAnswer ScanError.lower Text.lower (r.map (c :: ·)) := by
  cases r <;> rfl

theorem readString_lower (s : Text) :
    readString (Text.lower s) =
      Prod.map (lowerAnswer ScanError.lower Text.lower) Text.lower (readString s) := by
  fun_induction readString s with
  | case1 => rfl
  | case2 s r rest hr ih =>
    change readString ('"' :: '"' :: Text.lower s) = _
    rw [readString, ih, hr]
    exact Prod.ext (lowerAnswer_cons '"' r) rfl
  | case3 s h =>
    have hs : (Text.lower s).head? ≠ some '"' := by
      rw [ne_eq, Text.head?_lower_eq_iff (by decide)]
      intro hq
      exact h s.tail (List.eq_cons_of_mem_head? hq)
    exact readString_end hs
  | case4 s => rfl
  | case5 c s _ _ _ h =>
    simp [readString_break ((toLower_eq_break c).2 h)]
    rfl
  | case6 c s _ hq hp h r rest hr ih =>
    have hq' : c.toLower ≠ '"' := toLower_ne (by decide) hq
    have hp' : c.toLower = '%' → (Text.lower s).head? ≠ some '>' :=
      Text.head?_lower_ne (by decide) (by decide) hp
    have hr' : ¬ (c.toLower = '\r' ∨ c.toLower = '\n') := mt (toLower_eq_break c).1 h
    rw [lower_cons, readString_cons hq' hp' hr', ih, hr]
    exact Prod.ext (lowerAnswer_cons c r) rfl

theorem readComment_lower (s : Text) :
    readComment (Text.lower s) = Prod.map Text.lower Text.lower (readComment s) := by
  fun_induction readComment s with
  | case1 | case2 | case3 => rfl
  | case4 c s hn hp t rest ht ih =>
    have hn' : c.toLower ≠ '\n' := toLower_ne (by decide) hn
    have hp' : c.toLower = '%' → (Text.lower s).head? ≠ some '>' :=
      Text.head?_lower_ne (by decide) (by decide) hp
    have hr := toLower_eq_iff (c := c) (k := '\r') (by decide)
    rw [lower_cons, readComment_cons hn' hp', ih, ht]
    simp only [Prod.map, hr]
    split <;> rfl

theorem readDate_cons {c : Char} {s : Text} (hc : c ≠ '#') (hp : c = '%' → s.head? ≠ some '>') :
    readDate (c :: s) =
      if c = '\r' ∨ c = '\n' then (.error .unterminatedDate, s)
      else if isDateChar c then ((readDate s).1.map (c :: ·), (readDate s).2)
      else (.error (.invalidDateChar c), s) := by
  conv_lhs => unfold readDate
  split
  · next e => cases e
  · next e =>
    cases e
    exact absurd rfl hc
  · next e =>
    cases e
    exact absurd rfl (hp rfl)
  · next e =>
    cases e
    rfl

theorem readDate_lower (s : Text) :
    readDate (Text.lower s) =
      Prod.map (lowerAnswer ScanError.lower Text.lower) Text.lower (readDate s) := by
  induction s with
  | nil => rfl
  | cons c s ih =>
    by_cases hc : c = '#'
    · rw [hc]
      rfl
    by_cases hp : c = '%' ∧ s.head? = some '>'
    · obtain ⟨rfl, hs⟩ := hp
      rw [List.eq_cons_of_mem_head? hs]
      rfl
    have hc' : c.toLower ≠ '#' := toLower_ne (by decide) hc
    have hp' : c.toLower = '%' → (Text.lower s).head? ≠ some '>' := by
      apply Text.head?_lower_ne (by decide) (by decide)
      rintro t rfl rfl
      exact hp ⟨rfl, rfl⟩
    rw [lower_cons, readDate_cons hc' hp', readDate_cons hc fun hc hs => hp ⟨hc, hs⟩, ih]
    simp only [toLower_eq_break, Text.caseBlind_isDateChar c]
    split
    · rfl
    split
    · exact Prod.ext (lowerAnswer_cons c _) rfl
    · rfl

theorem readMarkup_lower (read s : Text) :
    readMarkup (Text.lower read) (Text.lower s) =
      Prod.map Text.lower (Option.map Text.lower) (readMarkup read s) := by
  fun_induction readMarkup read s with
  | case1 read => exact Prod.ext (Text.lower_reverse read).symm rfl
  | case2 read s => exact Prod.ext (Text.lower_reverse read).symm rfl
  | case3 read c s hc ih =>
    have hc' : c.toLower = '<' → (Text.lower s).head? ≠ some '%' :=
      Text.head?_lower_ne (by decide) (by decide) hc
    rw [lower_cons, readMarkup_cons hc', ← lower_cons]
    exact ih

theorem remark?_lower (s : Text) : remark? (Text.lower s) = (remark? s).map Text.lower := by
  unfold remark?
  rw [Text.expect_lower]
  cases Text.expect ['r', 'e', 'm'] s with
  | none => rfl
  | some t =>
    cases t with
    | nil => rfl
    | cons c t =>
      simp only [Option.map_some, lower_cons, toLower_eq_iff (k := ' ') (by decide),
        toLower_eq_iff (k := '\t') (by decide)]
      split <;> rfl

def symbolPairs : List (Char × Char) := [('<', '>'), ('<', '='), ('>', '='), ('\\', '\\')]

@[simp] theorem readSymbol?_single {c a : Char} (h : (c, a) ∉ symbolPairs) (s : Text) :
    readSymbol? c (a :: s) = (Operator.ofChar? c).map fun o => (o, a :: s) := by
  have hpairs : ∀ p ∈ symbolPairs, (c, a) ≠ p := by
    rintro p hp rfl
    exact h hp
  simp only [symbolPairs, List.forall_mem_cons, ne_eq, Prod.mk.injEq, not_and] at hpairs
  unfold readSymbol?
  split
  · next e => exact absurd (List.cons.inj e).1 (hpairs.1 rfl)
  · next e => exact absurd (List.cons.inj e).1 (hpairs.2.1 rfl)
  · next e => exact absurd (List.cons.inj e).1 (hpairs.2.2.1 rfl)
  · next e => exact absurd (List.cons.inj e).1 (hpairs.2.2.2.1 rfl)
  · rfl

@[simp] theorem readSymbol?_nil (c : Char) :
    readSymbol? c [] = (Operator.ofChar? c).map fun o => (o, []) := by
  unfold readSymbol?
  split
  · next e => cases e
  · next e => cases e
  · next e => cases e
  · next e => cases e
  · rfl

theorem readSymbol?_lower (c : Char) (s : Text) :
    readSymbol? c (Text.lower s) = (readSymbol? c s).map (Prod.map id Text.lower) := by
  have hsingle (t : Text) : ((Operator.ofChar? c).map fun o => (o, Text.lower t)) =
      ((Operator.ofChar? c).map fun o => (o, t)).map (Prod.map id Text.lower) := by
    rw [Option.map_map]
    rfl
  cases s with
  | nil =>
    rw [Text.lower_nil, readSymbol?_nil]
    exact hsingle []
  | cons a s =>
    by_cases hp : (c, a) ∈ symbolPairs
    · simp only [symbolPairs, List.mem_cons, Prod.mk.injEq, List.not_mem_nil, or_false] at hp
      rcases hp with ⟨rfl, rfl⟩ | ⟨rfl, rfl⟩ | ⟨rfl, rfl⟩ | ⟨rfl, rfl⟩ <;> rfl
    · have hp' : (c, a.toLower) ∉ symbolPairs := by
        have hmark (k : Char) (hk : k.isAlpha = false) := toLower_eq_iff (c := a) hk
        simpa (disch := decide) only [symbolPairs, List.mem_cons, Prod.mk.injEq, List.not_mem_nil,
          or_false, hmark] using hp
      rw [lower_cons, readSymbol?_single hp', readSymbol?_single hp, ← lower_cons]
      exact hsingle (a :: s)

theorem lower_spelling_of_readSymbol? {c : Char} {s rest : Text} {o : Operator}
    (h : readSymbol? c s = some (o, rest)) : Text.lower o.spelling = o.spelling := by
  have hall : ∀ o ∈ [Operator.unequal, .atMost, .atLeast, .divideDoubled] ++ Operator.symbols,
      Text.lower o.spelling = o.spelling := by decide
  apply hall
  unfold readSymbol? at h
  split at h
  · cases h
    simp
  · cases h
    simp
  · cases h
    simp
  · cases h
    simp
  · obtain ⟨p, hp, he⟩ := Option.map_eq_some_iff.1 h
    cases he
    exact List.mem_append_right _ (List.mem_of_find?_eq_some hp)

end Lexeme

namespace Source

theorem toLower_of_not_isAlphabetic {c : Char} (h : isAlphabetic c = false) : c.toLower = c := by
  apply Char.toLower_eq_of_not_isUpper
  intro hu
  rw [isAlphabetic_of_isAlpha (Text.isAlpha_iff.2 (.inl hu))] at h
  cases h

theorem lowerAnswer_map {f : Text → Lexeme} (hf : ∀ s, f (Text.lower s) = (f s).lower)
    (r : Except ScanError Text) :
    (lowerAnswer ScanError.lower Text.lower r).map f =
      lowerAnswer ScanError.lower Lexeme.lower (r.map f) := by
  cases r with
  | error e => rfl
  | ok s => exact congrArg Except.ok (hf s)

theorem lexeme_lower (c : Char) (s : Text) :
    lexeme c.toLower (Text.lower s) =
      Prod.map (lowerAnswer ScanError.lower Lexeme.lower) Text.lower (lexeme c s) := by
  have hremark := Lexeme.remark?_lower (c :: s)
  have hradix := Lexeme.readRadix?_lower (c :: s)
  rw [lower_cons] at hremark hradix
  have hpoint : (c.toLower == '.') = (c == '.') := by
    rw [Bool.eq_iff_iff, beq_iff_eq, beq_iff_eq, toLower_eq_iff (by decide)]
  unfold lexeme
  rw [hremark, hradix]
  cases Lexeme.remark? (c :: s) with
  | some t =>
    simp only [Option.map_some, Lexeme.readComment_lower]
    rfl
  | none =>
    simp only [Option.map_none, hpoint, Text.caseBlind_isAlphabetic c, caseBlind_isDigit c,
      Text.caseBlind_isAlphabetic.any_head?_lower, Lexeme.readName_lower, Lexeme.readNumber_lower]
    split
    · rfl
    next hname =>
    split
    · rfl
    -- what is read from here on starts with a character that has no case
    have hc : c.toLower = c := by
      apply toLower_of_not_isAlphabetic
      rw [Bool.not_eq_true, Bool.or_eq_false_iff] at hname
      exact hname.1
    rw [hc]
    cases Lexeme.readRadix? (c :: s) with
    | some p => rfl
    | none =>
      simp only [Option.map_none, Lexeme.readString_lower, Lexeme.readComment_lower,
        Lexeme.readDate_lower, Lexeme.readSymbol?_lower]
      split
      · rfl
      split
      · rfl
      split
      · exact Prod.ext (lowerAnswer_map (fun _ => rfl) _) rfl
      split
      · rfl
      split
      · exact Prod.ext (lowerAnswer_map (fun _ => rfl) _) rfl
      cases hr : Lexeme.readSymbol? c s with
      | none => rfl
      | some p =>
        obtain ⟨o, rest⟩ := p
        have hspelling := Lexeme.lower_spelling_of_readSymbol? hr
        simp only [Option.map_some, Prod.map, lowerAnswer, Lexeme.lower, hspelling, id_eq]

theorem nextMarkup_lower (s : Text) :
    nextMarkup (Text.lower s) =
      Prod.map (lowerAnswer ScanError.lower Lexeme.lower) lower (nextMarkup s) := by
  have hread := Lexeme.readMarkup_lower [] s
  rw [Text.lower_nil] at hread
  unfold nextMarkup
  rw [hread]
  obtain ⟨text, rest⟩ := Lexeme.readMarkup [] s
  cases rest <;> rfl

theorem nextCode_of_skip {s t : Text} {c : Char} (h : s.dropWhile isSeparator = c :: t)
    (hp : ¬ (c = '%' ∧ t.head? = some '>')) :
    nextCode s = ((lexeme c t).1, ofText .code (lexeme c t).2) := by
  unfold nextCode
  rw [h]
  split
  · next e => cases e
  · next e =>
    cases e
    exact absurd ⟨rfl, rfl⟩ hp
  · next e =>
    cases e
    rfl

theorem nextCode_lower (s : Text) :
    nextCode (Text.lower s) =
      Prod.map (lowerAnswer ScanError.lower Lexeme.lower) lower (nextCode s) := by
  have hskip := Text.caseBlind_isSeparator.dropWhile_lower s
  cases hs : s.dropWhile isSeparator with
  | nil =>
    rw [hs] at hskip
    unfold nextCode
    rw [hskip, hs]
    rfl
  | cons c t =>
    rw [hs, lower_cons] at hskip
    by_cases hp : c = '%' ∧ t.head? = some '>'
    · obtain ⟨rfl, ht⟩ := hp
      unfold nextCode
      rw [hskip, hs, List.eq_cons_of_mem_head? ht]
      exact nextMarkup_lower t.tail
    · have hp' : ¬ (c.toLower = '%' ∧ (Text.lower t).head? = some '>') := by
        rwa [toLower_eq_iff (by decide), Text.head?_lower_eq_iff (by decide)]
      rw [nextCode_of_skip hskip hp', nextCode_of_skip hs hp, lexeme_lower]
      rfl

theorem next_lower (s : Source) :
    s.lower.next = Prod.map (lowerAnswer ScanError.lower Lexeme.lower) lower s.next := by
  obtain ⟨mode, rest, ended⟩ := s
  cases ended with
  | true => rfl
  | false =>
    cases mode with
    | markup => exact nextMarkup_lower rest
    | code => exact nextCode_lower rest

theorem atLineEnd_lower (s : Source) : s.lower.atLineEnd = s.atLineEnd := by
  have hblank : CaseBlind fun c => c == ' ' || c == '\t' || c == '\r' :=
    Text.caseBlind_of_capitals (by decide)
  have hnewline : CaseBlind (· == '\n') := Text.caseBlind_of_capitals (by decide)
  unfold atLineEnd
  change ((Text.lower s.rest).dropWhile _).head?.all _ = _
  rw [hblank.dropWhile_lower]
  cases s.rest.dropWhile fun c => c == ' ' || c == '\t' || c == '\r' with
  | nil => rfl
  | cons c t => exact hnewline c

end Source
end ClassicAsp
