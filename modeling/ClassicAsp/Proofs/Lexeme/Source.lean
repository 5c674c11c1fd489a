import ClassicAsp.Proofs.Lexeme.Literal

/-! Which reader takes a text over. The forms are tried in order, so each statement rules the
earlier ones out. What is read gives a token by its form alone, but for an underscore. -/
namespace ClassicAsp

namespace Source

open Lexeme (isName isNameChar remark? readName readNumber readRadix? readSymbol?)
open Decimal (isDigit_iff)

theorem isAlphabetic_of_isAlpha {c : Char} (h : c.isAlpha = true) : isAlphabetic c = true := by
  have hlt : c.toNat < 128 := by
    rcases Text.isAlpha_iff.1 h with hu | hl
    · have := Text.isUpper_iff.1 hu
      omega
    · have := Text.isLower_iff.1 hl
      omega
  rw [isAlphabetic, if_pos hlt]
  exact h

theorem isAlphabetic_of_toLower {c : Char} (h : c.toLower.isLower = true) :
    isAlphabetic c = true :=
  isAlphabetic_of_isAlpha (Text.isAlpha_of_toLower h)

theorem isNameChar_of_isAlphabetic {c : Char} (h : isAlphabetic c = true) :
    isNameChar c = true := by
  simp [isNameChar, isAlphanumeric, h]

theorem not_isAlphabetic_of_isDigit {c : Char} (h : c.isDigit = true) :
    isAlphabetic c = false := by
  have hb : 48 ≤ c.toNat ∧ c.toNat ≤ 57 := (isDigit_iff c).1 h
  rw [isAlphabetic, if_pos (by omega), Bool.eq_false_iff]
  intro ha
  rcases Text.isAlpha_iff.1 ha with hu | hl
  · have := Text.isUpper_iff.1 hu
    omega
  · have := Text.isLower_iff.1 hl
    omega

@[simp]
theorem remark?_of_head {c : Char} (h : c.toLower ≠ 'r') (s : Text) : remark? (c :: s) = none := by
  have he : Text.expect ['r', 'e', 'm'] (c :: s) = none := by
    rw [Text.expect, if_neg]
    intro hc
    exact h (hc.symm.trans rfl)
  rw [remark?, he]

theorem remark?_name {w rest : Text} (hw : ∀ c ∈ w, isNameChar c = true)
    (hr : ∀ c ∈ rest.head?, isNameChar c = false)
    (hrem : Text.sameWord ['r', 'e', 'm'] w = true → ∀ c ∈ rest.head?, c ≠ ' ' ∧ c ≠ '\t') :
    remark? (w ++ rest) = none := by
  cases he : Text.expect ['r', 'e', 'm'] (w ++ rest) with
  | none => rw [remark?, he]
  | some u =>
    obtain ⟨v, hv, hl⟩ := Text.expect_split he
    have hsame : w = v → u = rest ∧ Text.sameWord ['r', 'e', 'm'] w = true := by
      rintro rfl
      exact ⟨(List.append_cancel_left hv).symm, (Text.sameWord_iff _ _).2 hl.symm⟩
    rw [remark?, he]
    split
    · next c t hu =>
      obtain rfl : u = c :: t := Option.some.inj hu
      split
      · next hblank =>
        exfalso
        have hnot : isNameChar c = false := by
          rcases hblank with rfl | rfl
          · decide
          · decide
        rcases List.append_eq_append_iff.1 hv with ⟨a, rfl, hrest⟩ | ⟨a, rfl, hrest⟩
        · -- the comment word would go on behind the name, with a letter
          cases a with
          | nil =>
            obtain ⟨-, hs⟩ := hsame (by simp)
            have hc := hrem hs c (by rw [hrest]; rfl)
            rcases hblank with h | h
            · exact hc.1 h
            · exact hc.2 h
          | cons b a =>
            have hb : b.toLower ∈ Text.lower ['r', 'e', 'm'] := by
              rw [← hl]
              simp [Text.lower]
            have hlow : b.toLower.isLower = true := by
              have hall : ∀ x ∈ Text.lower ['r', 'e', 'm'], x.isLower = true :=
                List.all_eq_true.1 (by decide)
              exact hall _ hb
            have hname := isNameChar_of_isAlphabetic (isAlphabetic_of_toLower hlow)
            rw [hr b (by rw [hrest]; rfl)] at hname
            cases hname
        · -- the name would go on behind the comment word, with a blank
          cases a with
          | nil =>
            obtain ⟨hu, hs⟩ := hsame (by simp)
            have hc := hrem hs c (by rw [← hu]; rfl)
            rcases hblank with h | h
            · exact hc.1 h
            · exact hc.2 h
          | cons b a =>
            obtain ⟨rfl, -⟩ := List.cons.inj hrest
            rw [hw c (by simp)] at hnot
            cases hnot
      · rfl
    · rfl

/-- A name is read by the reader of names, whatever follows it. -/
theorem lexeme_name {c : Char} {s rest : Text} (hs : isName (c :: s) = true)
    (hrem : remark? (c :: s ++ rest) = none) :
    lexeme c (s ++ rest) =
      (.ok (readName c (s ++ rest)).1, (readName c (s ++ rest)).2) := by
  have hfirst : (isAlphabetic c || (c == '.' && (s ++ rest).head?.any isAlphabetic)) = true := by
    obtain ⟨hc, -⟩ := Bool.and_eq_true_iff.1 hs
    rcases Bool.or_eq_true_iff.1 hc with ha | hp
    · rw [ha, Bool.true_or]
    · obtain ⟨hdot, hh⟩ := Bool.and_eq_true_iff.1 hp
      cases s with
      | nil => cases hh
      | cons a s =>
        have hh : isAlphabetic a = true := hh
        simp [hdot, hh]
  unfold lexeme
  rw [List.cons_append] at hrem
  simp only [hrem, hfirst, if_true]

theorem lexeme_digit {c : Char} (hc : c.isDigit = true) (s : Text) :
    lexeme c s = (.ok (readNumber c s).1, (readNumber c s).2) := by
  have hr : c.toLower ≠ 'r' := by
    intro h
    have ha := isAlphabetic_of_toLower (c := c) (by rw [h]; decide)
    rw [not_isAlphabetic_of_isDigit hc] at ha
    cases ha
  have hdot : (c == '.') = false := by
    rw [beq_eq_false_iff_ne]
    rintro rfl
    cases hc
  unfold lexeme
  simp only [remark?_of_head hr, not_isAlphabetic_of_isDigit hc, hdot, hc, Bool.false_and,
    Bool.or_false, Bool.false_eq_true, if_false, if_true]

theorem lexeme_mark {c : Char} {s : Text} (ha : isAlphabetic c = false) (hd : c.isDigit = false)
    (hp : c = '.' → ∀ a ∈ s.head?, isAlphabetic a = false) (hx : readRadix? (c :: s) = none) :
    lexeme c s =
      if c = '\n' then (.ok (.lineEnd .newline), s)
      else if c = ':' then (.ok (.lineEnd .separator), s)
      else if c = '"' then ((Lexeme.readString s).1.map .string, (Lexeme.readString s).2)
      else if c = '\'' then (.ok (.comment (Lexeme.readComment s).1), (Lexeme.readComment s).2)
      else if c = '#' then ((Lexeme.readDate s).1.map .date, (Lexeme.readDate s).2)
      else match readSymbol? c s with
        | some (o, rest) => (.ok (.operator o o.spelling), rest)
        | none => (.ok (.punctuation c), s) := by
  have hr : c.toLower ≠ 'r' := by
    intro h
    rw [isAlphabetic_of_toLower (c := c) (by rw [h]; decide)] at ha
    cases ha
  have hfirst : (isAlphabetic c || (c == '.' && s.head?.any isAlphabetic)) = false := by
    rw [ha, Bool.false_or, Bool.and_eq_false_iff, beq_eq_false_iff_ne]
    by_cases hc : c = '.'
    · right
      cases s with
      | nil => rfl
      | cons a s => exact hp hc a rfl
    · exact Or.inl hc
  have h := lexeme.eq_def c s
  simp only [remark?_of_head hr, hfirst, hd, hx, Bool.false_eq_true, if_false] at h
  exact h

@[simp]
theorem readRadix?_of_head {c : Char} (h : c ≠ '&') (s : Text) : readRadix? (c :: s) = none := by
  unfold readRadix?
  split
  · next e => exact absurd (List.cons.inj e).1 h
  · rfl

theorem readRadix?_ampersand {s : Text} (h : ∀ c ∈ s.head?, c = ' ' ∨ c = '\n') :
    readRadix? ('&' :: s) = none := by
  cases s with
  | nil => rfl
  | cons c s =>
    rcases h c rfl with rfl | rfl
    · rfl
    · rfl

@[simp] theorem lexeme_newline (s : Text) : lexeme '\n' s = (.ok (.lineEnd .newline), s) := by
  rw [lexeme_mark (by decide) (by decide) (by simp) (readRadix?_of_head (by decide) s), if_pos rfl]

@[simp] theorem lexeme_separator (s : Text) : lexeme ':' s = (.ok (.lineEnd .separator), s) := by
  rw [lexeme_mark (by decide) (by decide) (by simp) (readRadix?_of_head (by decide) s)]
  rfl

@[simp] theorem lexeme_quote (s : Text) :
    lexeme '"' s = ((Lexeme.readString s).1.map .string, (Lexeme.readString s).2) := by
  rw [lexeme_mark (by decide) (by decide) (by simp) (readRadix?_of_head (by decide) s)]
  rfl

@[simp] theorem lexeme_apostrophe (s : Text) :
    lexeme '\'' s = (.ok (.comment (Lexeme.readComment s).1), (Lexeme.readComment s).2) := by
  rw [lexeme_mark (by decide) (by decide) (by simp) (readRadix?_of_head (by decide) s)]
  rfl

@[simp] theorem lexeme_hash (s : Text) :
    lexeme '#' s = ((Lexeme.readDate s).1.map .date, (Lexeme.readDate s).2) := by
  rw [lexeme_mark (by decide) (by decide) (by simp) (readRadix?_of_head (by decide) s)]
  rfl

theorem readSymbol?_of_blank {c : Char} {s : Text} (h : ∀ c ∈ s.head?, c = ' ' ∨ c = '\n') :
    readSymbol? c s = (Operator.ofChar? c).map fun o => (o, s) := by
  unfold readSymbol?
  split
  · simp at h
  · simp at h
  · simp at h
  · simp at h
  · rfl

theorem readSymbol?_operator {o : Operator} (ho : o ∉ Operator.words) {rest : Text}
    (hr : ∀ c ∈ rest.head?, c = ' ' ∨ c = '\n') :
    ∃ c s, o.spelling = c :: s ∧ isSpace c = false ∧ isAlphabetic c = false ∧
      c.isDigit = false ∧ c ∉ ['.', '%', '\n', ':', '"', '\'', '#'] ∧
      (c = '&' → s = []) ∧ readSymbol? c (s ++ rest) = some (o, rest) := by
  cases o with
  | unequal | atMost | atLeast | divideDoubled =>
    exact ⟨_, _, rfl, by decide, by decide, by decide, by decide, by decide, rfl⟩
  | mod | and | not | or | xor | eqv | imp | is => exact absurd (by decide) ho
  | _ =>
    refine ⟨_, [], rfl, by decide, by decide, by decide, by decide, fun _ => rfl, ?_⟩
    rw [List.nil_append, readSymbol?_of_blank hr]
    rfl

theorem lexeme_operator {o : Operator} (ho : o ∉ Operator.words) {rest : Text}
    (hr : ∀ c ∈ rest.head?, c = ' ' ∨ c = '\n') :
    ∃ c s, o.spelling = c :: s ∧ isSpace c = false ∧ c ≠ '%' ∧
      lexeme c (s ++ rest) = (.ok (.operator o o.spelling), rest) := by
  obtain ⟨c, s, hspell, hspace, ha, hd, hmark, hamp, hsym⟩ := readSymbol?_operator ho hr
  have hne {x : Char} (hx : x ∈ ['.', '%', '\n', ':', '"', '\'', '#']) : c ≠ x := by
    rintro rfl
    exact hmark hx
  refine ⟨c, s, hspell, hspace, hne (by simp), ?_⟩
  have hradix : readRadix? (c :: (s ++ rest)) = none := by
    by_cases hc : c = '&'
    · rw [hc, hamp hc]
      exact readRadix?_ampersand hr
    · exact readRadix?_of_head hc _
  rw [lexeme_mark ha hd (fun h => absurd h (hne (by simp))) hradix, if_neg (hne (by simp)),
    if_neg (hne (by simp)), if_neg (hne (by simp)), if_neg (hne (by simp)),
    if_neg (hne (by simp)), hsym]

def isPunctuation (c : Char) : Bool :=
  !isSpace c && !isAlphabetic c && !c.isDigit && !([':', '"', '\'', '#'].contains c) &&
    (Operator.ofChar? c).isNone

theorem isPunctuation_iff (c : Char) : isPunctuation c = true ↔
    isSpace c = false ∧ isAlphabetic c = false ∧ c.isDigit = false ∧
      (c ≠ ':' ∧ c ≠ '"' ∧ c ≠ '\'' ∧ c ≠ '#') ∧ Operator.ofChar? c = none := by
  simp only [isPunctuation, Bool.and_eq_true, Bool.not_eq_true', Option.isNone_iff_eq_none,
    and_assoc, List.contains_eq_mem, List.mem_cons, List.not_mem_nil, or_false,
    decide_eq_false_iff_not, not_or]

theorem readSymbol?_eq_none {c : Char} {s : Text} :
    readSymbol? c s = none ↔ Operator.ofChar? c = none := by
  constructor
  · intro h
    unfold readSymbol? at h
    split at h
    · cases h
    · cases h
    · cases h
    · cases h
    · exact Option.map_eq_none_iff.1 h
  · intro h
    unfold readSymbol?
    split
    · exact absurd h (by decide)
    · exact absurd h (by decide)
    · exact absurd h (by decide)
    · exact absurd h (by decide)
    · exact Option.map_eq_none_iff.2 h

theorem lexeme_punctuation {c : Char} {s : Text} (h : isPunctuation c = true)
    (hp : c = '.' → ∀ a ∈ s.head?, isAlphabetic a = false) :
    lexeme c s = (.ok (.punctuation c), s) := by
  obtain ⟨hs, ha, hd, ⟨h1, h2, h3, h4⟩, ho⟩ := (isPunctuation_iff c).1 h
  have hnl : c ≠ '\n' := by
    rintro rfl
    exact absurd hs (by decide)
  have hamp : c ≠ '&' := by
    rintro rfl
    exact absurd ho (by decide)
  rw [lexeme_mark ha hd hp (readRadix?_of_head hamp s), if_neg hnl, if_neg h1, if_neg h2,
    if_neg h3, if_neg h4, readSymbol?_eq_none.2 ho]

end Source

namespace Lexeme

def IsRead : Lexeme → Prop
  | identifier w => isName w = true ∧ Operator.findWord? w = none
  | string t => IsString t
  | operator o w => Operator.find? w = some o
  | integer w => '-' ∉ w ∧ '\n' ∉ w
  | float w => (∃ c ∈ w.head?, c.isDigit = true) ∧ '\n' ∉ w
  | date t => ∀ c ∈ t, isDateChar c = true
  | comment t => IsComment t
  | punctuation c => Source.isPunctuation c = true
  | markup _ | endOfInput => False
  | lineEnd _ => True

theorem IsNumeral.isRead {base : ℕ} {d w : Text} (h : IsNumeral base d w) : (integer w).IsRead :=
  ⟨h.not_mem rfl (by decide), h.not_mem rfl (by decide)⟩

theorem isRead_readName {c : Char} {s : Text}
    (h : (isAlphabetic c || (c == '.' && s.head?.any isAlphabetic)) = true) :
    (readName c s).1.IsRead := by
  obtain ⟨w, hw, -, h⟩ := readName_spec h
  rcases h with ⟨ho, h⟩ | ⟨o, ho, h⟩
  · rw [h]
    exact ⟨hw, ho⟩
  · rw [h]
    exact Operator.find?_of_findWord? ho

theorem isRead_readNumber {c : Char} {s : Text} (hc : c.isDigit = true) :
    (readNumber c s).1.IsRead := by
  rcases readNumber_spec (s := s) hc with ⟨w, hw, h⟩ | ⟨w, hw, h⟩
  · rw [h]
    exact hw.isRead
  · rw [h]
    exact ⟨⟨c, hw.1, hc⟩, hw.2⟩

end Lexeme

namespace Source

open Lexeme (IsRead remark? readName readNumber readRadix? readSymbol?)

theorem map_eq_ok {ε α β : Type} {f : α → β} {r : Except ε α} {b : β} (h : r.map f = .ok b) :
    ∃ a, r = .ok a ∧ f a = b := by
  cases r with
  | error => cases h
  | ok a =>
    cases h
    exact ⟨a, rfl, rfl⟩

/-- What is read of script that starts with `c`, and what is left: one of the forms of lexemes, with
what its reader gives. -/
inductive Form (c : Char) (s : Text) : Except ScanError Lexeme → Text → Prop where
  | remark {t body rest} (h : remark? (c :: s) = some t)
      (hr : Lexeme.readComment t = (body, rest)) : Form c s (.ok (.comment body)) rest
  | name {l rest} (h : (isAlphabetic c || (c == '.' && s.head?.any isAlphabetic)) = true)
      (hr : readName c s = (l, rest)) : Form c s (.ok l) rest
  | number {l rest} (h : c.isDigit = true) (hr : readNumber c s = (l, rest)) :
      Form c s (.ok l) rest
  | radix {l rest} (hr : readRadix? (c :: s) = some (l, rest)) : Form c s (.ok l) rest
  | newline (h : c = '\n') : Form c s (.ok (.lineEnd .newline)) s
  | separator (h : c = ':') : Form c s (.ok (.lineEnd .separator)) s
  | string {t rest} (h : c = '"') (hr : Lexeme.readString s = (.ok t, rest)) :
      Form c s (.ok (.string t)) rest
  | badString {e rest} (h : c = '"') (hr : Lexeme.readString s = (.error e, rest)) :
      Form c s (.error e) rest
  | comment {body rest} (h : c = '\'') (hr : Lexeme.readComment s = (body, rest)) :
      Form c s (.ok (.comment body)) rest
  | date {t rest} (h : c = '#') (hr : Lexeme.readDate s = (.ok t, rest)) :
      Form c s (.ok (.date t)) rest
  | badDate {e rest} (h : c = '#') (hr : Lexeme.readDate s = (.error e, rest)) :
      Form c s (.error e) rest
  | symbol {o rest} (hr : readSymbol? c s = some (o, rest)) :
      Form c s (.ok (.operator o o.spelling)) rest
  | punctuation (h : isSeparator c = false → isPunctuation c = true) :
      Form c s (.ok (.punctuation c)) s

theorem form_lexeme (c : Char) (s : Text) : Form c s (lexeme c s).1 (lexeme c s).2 := by
  unfold lexeme
  split
  · next h => exact .remark h rfl
  split
  · next h => exact .name h rfl
  split
  · next h => exact .number h rfl
  split
  · next h => exact .radix h
  split
  · next h => exact .newline h
  split
  · next h => exact .separator h
  split
  · next h =>
    cases hr : Lexeme.readString s with
    | mk r rest =>
      cases r with
      | error e => exact .badString h hr
      | ok t => exact .string h hr
  split
  · next h => exact .comment h rfl
  split
  · next h =>
    cases hr : Lexeme.readDate s with
    | mk r rest =>
      cases r with
      | error e => exact .badDate h hr
      | ok t => exact .date h hr
  split
  · next h => exact .symbol h
  · next hname hdigit _ _ hnl hcolon hquote hap hhash _ hsym =>
    refine .punctuation fun hc => ?_
    have ha := (Bool.or_eq_false_iff.1 (Bool.eq_false_iff.2 hname)).1
    have hs : isSpace c = false := by
      simpa [isSeparator, hnl] using hc
    exact (isPunctuation_iff c).2 ⟨hs, ha, by simpa using hdigit, ⟨hcolon, hquote, hap, hhash⟩,
      readSymbol?_eq_none.1 hsym⟩

theorem Form.of_eq {c : Char} {s rest : Text} {r : Except ScanError Lexeme}
    (h : lexeme c s = (r, rest)) : Form c s r rest := by
  have hform := form_lexeme c s
  rw [h] at hform
  exact hform

theorem isRead_lexeme {c : Char} {s rest : Text} {l : Lexeme} (hc : isSeparator c = false)
    (h : lexeme c s = (.ok l, rest)) : l.IsRead := by
  cases Form.of_eq h with
  | @remark t _ _ _ hr =>
    have hbody := (Lexeme.readComment_spec t).1
    rwa [hr] at hbody
  | name hf hr =>
    have hname := Lexeme.isRead_readName hf
    rwa [hr] at hname
  | number hd hr =>
    have hnumber := Lexeme.isRead_readNumber (s := s) hd
    rwa [hr] at hnumber
  | radix hr =>
    obtain ⟨base, d, w, hw, rfl⟩ := Lexeme.readRadix?_spec hr
    exact hw.isRead
  | newline | separator => trivial
  | string _ hr => exact (Lexeme.readString_spec (congrArg Prod.fst hr)).1
  | comment _ hr =>
    have hbody := (Lexeme.readComment_spec s).1
    rwa [hr] at hbody
  | date _ hr => exact Lexeme.readDate_spec (congrArg Prod.fst hr)
  | symbol => exact Operator.find?_spelling _
  | punctuation hp => exact hp hc

theorem lexeme_comment {c : Char} {s t rest : Text} (h : lexeme c s = (.ok (.comment t), rest)) :
    Lexeme.EndsComment rest := by
  cases Form.of_eq h with
  | @remark u _ _ _ hr =>
    have hend := (Lexeme.readComment_spec u).2
    rwa [hr] at hend
  | name hf hr =>
    obtain ⟨w, -, -, ⟨-, he⟩ | ⟨o, -, he⟩⟩ := Lexeme.readName_spec hf
    · cases he.symm.trans (congrArg Prod.fst hr)
    · cases he.symm.trans (congrArg Prod.fst hr)
  | number hd hr =>
    rcases Lexeme.readNumber_spec (s := s) hd with ⟨w, -, he⟩ | ⟨w, -, he⟩
    · cases he.symm.trans (congrArg Prod.fst hr)
    · cases he.symm.trans (congrArg Prod.fst hr)
  | radix hr =>
    obtain ⟨base, d, w, -, he⟩ := Lexeme.readRadix?_spec hr
    cases he
  | comment _ hr =>
    have hend := (Lexeme.readComment_spec s).2
    rwa [hr] at hend

end Source

namespace Lexeme

/-- What a lexeme gives as a token. A name gives a word of one of the lists, or stands for itself. -/
inductive Gives (atLineEnd : Bool) : Lexeme → Token → Prop where
  | statement {s w} : Gives atLineEnd (.identifier s) (.statement w)
  | function {s f} : Gives atLineEnd (.identifier s) (.function f)
  | keyword {s k} : Gives atLineEnd (.identifier s) (.keyword k)
  | boolean {s b} : Gives atLineEnd (.identifier s) (.boolean b)
  | constant {s c} : Gives atLineEnd (.identifier s) (.constant c)
  | identifier {s} (h : Token.ofName s = .identifier s) :
      Gives atLineEnd (.identifier s) (.identifier s)
  | operator {o w} : Gives atLineEnd (.operator o w) (.operator o)
  | string {s} : Gives atLineEnd (.string s) (.string s)
  | integer {s i} (h : integer? s = .ok i) : Gives atLineEnd (.integer s) (.integer i)
  | float {s x} (h : float? s = .ok x) : Gives atLineEnd (.float s) (.float x)
  | date {s} : Gives atLineEnd (.date s) (.date (.read s))
  | comment {s} : Gives atLineEnd (.comment s) (.comment (Text.trim s))
  | punctuation {c} (h : c = '_' → atLineEnd = false) :
      Gives atLineEnd (.punctuation c) (.punctuation c)
  | continuation (h : atLineEnd = true) : Gives atLineEnd (.punctuation '_') .continuation
  | lineEnd {e} : Gives atLineEnd (.lineEnd e) (.lineEnd e)
  | markup {s} : Gives atLineEnd (.markup s) (.markup s)
  | endOfInput : Gives atLineEnd .endOfInput .endOfInput

theorem Gives.of_token {l : Lexeme} {t : Token} {atLineEnd : Bool}
    (h : l.token atLineEnd = .ok t) : l.Gives atLineEnd t := by
  cases l with
  | identifier s =>
    obtain rfl : Token.ofName s = t := Except.ok.inj h
    rcases Token.ofName_cases s with ⟨w, hw⟩ | ⟨f, hf⟩ | ⟨k, hk⟩ | ⟨b, hb⟩ | ⟨c, hc⟩ | hs
    · exact hw ▸ .statement
    · exact hf ▸ .function
    · exact hk ▸ .keyword
    · exact hb ▸ .boolean
    · exact hc ▸ .constant
    · rw [hs]
      exact .identifier hs
  | integer s =>
    obtain ⟨i, hi, rfl⟩ := Source.map_eq_ok h
    exact .integer hi
  | float s =>
    obtain ⟨x, hx, rfl⟩ := Source.map_eq_ok h
    exact .float hx
  | punctuation c =>
    obtain rfl := Except.ok.inj h
    split
    · next hc =>
      obtain ⟨rfl, hend⟩ := hc
      exact .continuation hend
    · next hc => exact .punctuation fun he => by simpa [he] using hc
  | markup => cases h; exact .markup
  | operator => cases h; exact .operator
  | string => cases h; exact .string
  | date => cases h; exact .date
  | comment => cases h; exact .comment
  | lineEnd => cases h; exact .lineEnd
  | endOfInput => cases h; exact .endOfInput

end Lexeme

end ClassicAsp
