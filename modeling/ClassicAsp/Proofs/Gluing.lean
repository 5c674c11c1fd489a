import ClassicAsp.Proofs.Layout

/-! Tokens that are run into by what is laid out behind them. A name takes up the punctuation of
names, a number takes up a point, and a comment word takes up the rest of its line. What is left is
laid out from a later state, so reading still goes on with tokens of the page. -/
namespace ClassicAsp

open Lexeme (isName isNameChar)

theorem Lexeme.isName_append {w k : Text} (hw : isName w = true)
    (hk : ∀ c ∈ k, isNameChar c = true) : isName (w ++ k) = true := by
  cases w with
  | nil => cases hw
  | cons c s =>
    rw [isName, Bool.and_eq_true] at hw
    rw [List.cons_append, isName, List.all_append, Bool.and_eq_true, Bool.and_eq_true]
    refine ⟨?_, hw.2, List.all_eq_true.2 hk⟩
    cases s with
    | nil =>
      rcases Bool.or_eq_true_iff.1 hw.1 with ha | hp
      · rw [ha, Bool.true_or]
      · cases (Bool.and_eq_true_iff.1 hp).2
    | cons a s => exact hw.1

namespace Token

theorem yields_name {t : Token} (ht : t.IsWord) (hne : t ≠ .statement .rem) {rest : Text}
    (hr : ∀ c ∈ rest.head?, isAlphabetic c = false) :
    ∃ u, Yields (t.text ++ rest) [u] (rest.dropWhile isNameChar) := by
  obtain ⟨k, hk⟩ : ∃ k, k = rest.takeWhile isNameChar := ⟨_, rfl⟩
  have hall : ∀ c ∈ k, isNameChar c = true := by
    rw [hk]
    exact List.all_eq_true.1 List.all_takeWhile
  have hsplit : t.text ++ rest = t.text ++ k ++ rest.dropWhile isNameChar := by
    rw [hk, List.append_assoc, List.takeWhile_append_dropWhile]
  have hends : ∀ c ∈ (rest.dropWhile isNameChar).head?, isNameChar c = false := by
    intro c hc
    have hd := List.head?_dropWhile_not isNameChar rest
    rwa [Option.mem_def.1 hc] at hd
  -- the word is not the comment word, which ends in a letter and so not in what it takes up
  have hrem : Text.sameWord ['r', 'e', 'm'] (t.text ++ k) = true → False := by
    intro hs
    cases k with
    | nil => exact hne (ht.eq_rem (by rwa [List.append_nil] at hs))
    | cons a k =>
      have ha : a ∈ rest.head? := by
        cases rest with
        | nil => cases hk
        | cons b rest =>
          rw [List.takeWhile_cons] at hk
          split at hk
          · obtain ⟨rfl, -⟩ := List.cons.inj hk
            rfl
          · cases hk
      have hlow : a.toLower ∈ Text.lower ['r', 'e', 'm'] := by
        rw [(Text.sameWord_iff _ _).1 hs]
        exact List.mem_map_of_mem (by simp)
      have hletters : ∀ x ∈ Text.lower ['r', 'e', 'm'], x.isLower = true :=
        List.all_eq_true.1 (by decide)
      have halpha := Source.isAlphabetic_of_toLower (hletters _ hlow)
      rw [hr a ha] at halpha
      cases halpha
  have hnext := next_name (Lexeme.isName_append ht.name hall) hends fun hs => (hrem hs).elim
  rw [hsplit]
  cases ho : Operator.findWord? (t.text ++ k) with
  | none =>
    rw [ho] at hnext
    exact ⟨.ofName (t.text ++ k), Scans.yields ⟨_, _, hnext, rfl, rfl, by simp, rfl⟩⟩
  | some p =>
    rw [ho] at hnext
    exact ⟨.operator p, Scans.yields ⟨_, _, hnext, rfl, rfl, by simp, rfl⟩⟩

theorem yields_point {n : ℕ} (hn : n < 0x8000000000000000) {rest : Text} (hr : StopsNumber rest) :
    ∃ u, Yields (Nat.toDigits 10 n ++ '.' :: rest) [u] rest := by
  obtain ⟨x, hx⟩ := Binary64.read?_point hn
  have hfraction : Decimal.IsFraction ['.'] := Or.inr ⟨[], by simp [Decimal.IsDigits], rfl⟩
  have hnext := next_number (Decimal.isDigits_toDigits n) Nat.toDigits_ne_nil hfraction
    (Or.inl rfl) hr.noDigit (by simp) (fun _ => Lexeme.not_beginsExponent hr.noExponent)
  rw [if_neg (by simp), List.append_nil, List.append_assoc] at hnext
  refine ⟨.float x, Scans.yields ⟨_, rest, hnext, rfl, rfl, by simp, ?_⟩⟩
  simp [Lexeme.token, float?, hx, Except.map]

theorem yields_underscore (rest : Text) : ∃ u, Yields ('_' :: rest) [u] rest := by
  by_cases he : EndsLine rest
  · exact ⟨.continuation, (scans_continuation he).yields⟩
  · have hr : (Token.punctuation '_').Boundary rest := ⟨by simp, by simp, fun _ => he⟩
    exact ⟨.punctuation '_', (scans_punctuation (by decide) hr).yields⟩

end Token

namespace Layout

open Token (head_onset StopsNumber)

variable {o : Options} {s : Layout} {t : Token} {ts : List Token}

theorem Behind.lay_attached (h : s.Behind t) (hl : t ≠ .punctuation '(')
    (ht : (Lookback.ofToken t).spacesPunctuation = false) (c : Char) (ts : List Token) :
    lay o s (.punctuation c :: ts) = c :: lay o (s.after o (.punctuation c)) ts := by
  have hparen : s.afterParen = false := by
    by_contra hp
    exact hl (h.paren (by simpa using hp))
  have hspaces : s.spaces (.punctuation c) = false := h.spacing.trans ht
  rw [lay_cons o (h.not_closes _ ts), h.text_script rfl, hparen, hspaces]
  rfl

theorem Behind.head_lay (h : s.Behind t) (hl : t ≠ .punctuation '(') (hr : t ≠ .punctuation ')')
    (hu : ∀ u ∈ ts.head?, u.isMarkupLike = false → u.Legible) :
    ∀ c ∈ (lay o s ts).head?, c = ' ' ∨ c = '\n' ∨ Source.isPunctuation c = true := by
  intro c hc
  rcases head_onset (h.onset (o := o) hl hr ts) c hc with hb | hb | ⟨-, hp⟩
  · exact .inl hb
  · exact .inr (.inl hb)
  · exact .inr (.inr (hu _ hp rfl))

theorem Behind.stopsNumber (h : s.Behind t) (hl : t ≠ .punctuation '(')
    (hr : t ≠ .punctuation ')') (hu : ∀ u ∈ ts.head?, u.isMarkupLike = false → u.Legible) :
    StopsNumber (lay o s ts) := by
  constructor
  · intro c hc
    rcases h.head_lay hl hr hu c hc with rfl | rfl | hp
    · decide
    · decide
    · exact ((Source.isPunctuation_iff c).1 hp).2.2.1
  · intro c hc
    rcases h.head_lay hl hr hu c hc with rfl | rfl | hp
    · decide
    · decide
    · have ha := ((Source.isPunctuation_iff c).1 hp).2.1
      constructor
      · rintro rfl
        exact absurd ha (by decide)
      · rintro rfl
        exact absurd ha (by decide)

/-- Behind some punctuation the page goes on from a later state. -/
def Resumes (o : Options) (ts : List Token) (rest : Text) : Prop :=
  ∃ (run us : List Token) (s : Layout), ts = run ++ us ∧
    (∀ u ∈ run, ∃ c, u = .punctuation c) ∧ s.owesCode = false ∧ rest = lay o s us

theorem resumes_lay (hs : s.owesCode = false) (ts : List Token) : Resumes o ts (lay o s ts) :=
  ⟨[], ts, s, rfl, by simp, hs, rfl⟩

theorem Resumes.attached {c : Char} {rest : Text} (h : Resumes o ts rest) :
    Resumes o (.punctuation c :: ts) rest := by
  obtain ⟨run, us, s, rfl, hrun, hs, rfl⟩ := h
  refine ⟨.punctuation c :: run, us, s, rfl, ?_, hs, rfl⟩
  intro u hu
  rcases List.mem_cons.1 hu with rfl | hu
  · exact ⟨c, rfl⟩
  · exact hrun u hu

/-- What a name leaves is what is laid out behind the punctuation that it takes up. -/
theorem Behind.resumes_name (h : s.Behind t) (hl : t ≠ .punctuation '(')
    (hr : t ≠ .punctuation ')') (ht : (Lookback.ofToken t).spacesPunctuation = false)
    (ts : List Token) : Resumes o ts ((lay o s ts).dropWhile isNameChar) := by
  induction ts generalizing s t with
  | nil =>
    have hstop : ∀ c ∈ (lay o s []).head?, isNameChar c = false := by
      intro c hc
      rcases head_onset (h.onset (o := o) hl hr []) c hc with rfl | rfl | ⟨-, hp⟩
      · decide
      · decide
      · cases hp
    rw [show (lay o s []).dropWhile isNameChar = lay o s [] from
      Text.dropWhile_append (s := []) (by simp) hstop]
    exact resumes_lay h.code []
  | cons u us ih =>
    by_cases hu : ∃ c, u = .punctuation c ∧ isNameChar c = true
    · obtain ⟨c, rfl, hc⟩ := hu
      have hne : ∀ d, isNameChar d = false → Token.punctuation c ≠ .punctuation d := by
        rintro d hd ⟨⟩
        rw [hc] at hd
        cases hd
      have hbehind := behind_after o s (t := .punctuation c) rfl (by simp)
      rw [h.lay_attached hl ht, List.dropWhile_cons_of_pos hc]
      exact (ih hbehind (hne '(' (by decide)) (hne ')' (by decide)) rfl).attached
    · have hstop : ∀ c ∈ (lay o s (u :: us)).head?, isNameChar c = false := by
        intro c hc
        rcases head_onset (h.onset (o := o) hl hr (u :: us)) c hc with rfl | rfl | ⟨-, hp⟩
        · decide
        · decide
        · by_contra hname
          exact hu ⟨c, Option.some.inj hp, by simpa using hname⟩
      rw [show (lay o s (u :: us)).dropWhile isNameChar = lay o s (u :: us) from
        Text.dropWhile_append (s := []) (by simp) hstop]
      exact resumes_lay h.code (u :: us)

theorem Behind.resumes_digits (h : s.Behind t) (hl : t ≠ .punctuation '(')
    (hr : t ≠ .punctuation ')') (ht : (Lookback.ofToken t).spacesPunctuation = false)
    (hts : TokensSound ts) {n : ℕ} (hn : n < 0x8000000000000000) :
    ∃ u rest, Yields (Nat.toDigits 10 n ++ lay o s ts) [u] rest ∧ Resumes o ts rest := by
  by_cases hp : (lay o s ts).head? = some '.'
  · obtain ⟨us, rfl⟩ : ∃ us, ts = .punctuation '.' :: us := by
      rcases head_onset (h.onset (o := o) hl hr ts) '.' hp with hb | hb | ⟨-, hc⟩
      · cases hb
      · cases hb
      · exact ⟨ts.tail, List.eq_cons_of_mem_head? hc⟩
    have hbehind := behind_after o s (t := .punctuation '.') rfl (by simp)
    have hstop : StopsNumber (lay o (s.after o (.punctuation '.')) us) :=
      hbehind.stopsNumber (by simp) (by simp) hts.2.legible_head
    obtain ⟨u, hu⟩ := Token.yields_point hn hstop
    rw [h.lay_attached hl ht]
    exact ⟨u, _, hu, (resumes_lay hbehind.code us).attached⟩
  · have hstop := h.stopsNumber (o := o) hl hr hts.legible_head
    exact ⟨_, _, (Token.scans_digits hn hstop hp).yields, resumes_lay h.code ts⟩

/-- Every token of script but a comment word is read as some token, and what is left is laid out
from a later state. -/
theorem resumes_printed (s : Layout) (ht : t.Legible) (hset : t.Settles ts.head?)
    (hne : t ≠ .statement .rem) (hts : TokensSound ts) :
    ∃ u rest, Yields (t.printed ++ lay o (s.after o t) ts) [u] rest ∧ Resumes o ts rest := by
  have hcode : (s.after o t).owesCode = false := owesCode_after o s ht.script
  have happart : t.Apart ts.head? → (t = .punctuation '_' → o.rewrites = false) →
      ∃ u rest, Yields (t.printed ++ lay o (s.after o t) ts) [u] rest ∧ Resumes o ts rest := by
    intro hap ho
    have hr := boundary_after s ht hap hset hts.legible_head ho
    exact ⟨_, _, (Token.scans_printed ht hr).yields, resumes_lay hcode ts⟩
  have hword : t.IsWord → t.printed = t.text → (∀ e, t ≠ .lineEnd e) →
      (∀ c, t ≠ .punctuation c) → (Lookback.ofToken t).spacesPunctuation = false →
      ∃ u rest, Yields (t.printed ++ lay o (s.after o t) ts) [u] rest ∧ Resumes o ts rest := by
    intro hw hp he hc hsp
    have hbehind := behind_after o s ht.script he
    have hhead : ∀ c ∈ (lay o (s.after o t) ts).head?, isAlphabetic c = false := by
      intro c hmem
      rcases hbehind.head_lay (hc _) (hc _) hts.legible_head c hmem with rfl | rfl | hpunct
      · decide
      · decide
      · exact ((Source.isPunctuation_iff c).1 hpunct).2.1
    obtain ⟨u, hu⟩ := Token.yields_name hw hne hhead
    rw [hp]
    exact ⟨u, _, hu, hbehind.resumes_name (hc _) (hc _) hsp ts⟩
  cases t with
  | identifier x => exact hword ht rfl (by simp) (by simp) rfl
  | function f => exact hword (Token.isWord_function f) rfl (by simp) (by simp) rfl
  | keyword k => exact hword (Token.isWord_keyword k) rfl (by simp) (by simp) rfl
  | boolean b => exact hword (Token.isWord_boolean b) rfl (by simp) (by simp) rfl
  | constant c => exact hword (Token.isWord_constant c) rfl (by simp) (by simp) rfl
  | integer i =>
    have hbehind := behind_after o s (t := .integer i) rfl (by simp)
    obtain ⟨h0, hlt⟩ := ht
    rw [Token.printed_integer h0]
    exact hbehind.resumes_digits (by simp) (by simp) rfl hts (by omega)
  | float x =>
    have hbehind := behind_after o s (t := .float x) rfl (by simp)
    by_cases hw : x.IsWhole
    · have hlt : x.whole < 0x8000000000000000 := hw.whole_lt.trans (by decide)
      rw [Token.printed_whole ht hw]
      exact hbehind.resumes_digits (by simp) (by simp) rfl hts hlt
    · have hstop := hbehind.stopsNumber (o := o) (by simp) (by simp) hts.legible_head
      exact ⟨_, _, (Token.scans_float ht hw hstop).yields, resumes_lay hcode ts⟩
  | punctuation c =>
    by_cases hc : c = '_'
    · obtain ⟨u, hu⟩ := Token.yields_underscore (lay o (s.after o (.punctuation c)) ts)
      rw [show (Token.punctuation c).printed = ['_'] by rw [hc]; rfl]
      exact ⟨u, _, hu, resumes_lay hcode ts⟩
    · exact happart (fun h => absurd h hc) fun h => absurd (Token.punctuation.inj h) hc
  | statement w => exact happart (fun h => absurd (by rw [h]) hne) (by simp)
  | markup | directive | endOfInput => exact ht.elim
  | _ => exact happart trivial (by simp)

end Layout

end ClassicAsp
