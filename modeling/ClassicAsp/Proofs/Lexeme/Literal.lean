import ClassicAsp.Lexeme.Source
import ClassicAsp.Proofs.Number.Decimal
import ClassicAsp.Proofs.Text
import ClassicAsp.Proofs.Vocabulary

/-! The readers of lexemes, both ways: what a lexeme that was read consists of, and which text is
read as a given lexeme with a given rest. -/
namespace ClassicAsp.Lexeme

open Decimal (IsDigits IsFraction IsExponent isDigit_iff)
open Text (Lacks lacks_cons lacks_append)

theorem isNameChar_of_isDigit {c : Char} (h : c.isDigit = true) : isNameChar c = true := by
  have hb := (isDigit_iff c).1 h
  have hn : isNumeric c = true := by
    simp [isNumeric, h, show c.toNat < 128 by omega]
  simp [isNameChar, isAlphanumeric, hn]

theorem not_isDigit {c : Char} (h : isNameChar c = false) : c.isDigit = false := by
  by_contra hd
  rw [isNameChar_of_isDigit (by simpa using hd)] at h
  cases h

theorem isName_head {c : Char} {s : Text} (h : isName (c :: s) = true) :
    isAlphabetic c = true ∨ c = '.' := by
  rw [isName, Bool.and_eq_true, Bool.or_eq_true, Bool.and_eq_true, beq_iff_eq] at h
  rcases h.1 with ha | hp
  · exact Or.inl ha
  · exact Or.inr hp.1

theorem isName_chars {w : Text} (h : isName w = true) : ∀ c ∈ w, isNameChar c = true := by
  cases w with
  | nil => simp
  | cons c s =>
    intro x hx
    rcases List.mem_cons.1 hx with rfl | hx
    · rcases isName_head h with ha | rfl
      · simp [isNameChar, isAlphanumeric, ha]
      · simp [isNameChar]
    · rw [isName, Bool.and_eq_true] at h
      exact List.all_eq_true.1 h.2 x hx

theorem readName_append {c : Char} {s rest : Text} (hs : isName (c :: s) = true)
    (hr : ∀ c ∈ rest.head?, isNameChar c = false) :
    readName c (s ++ rest) = (match Operator.findWord? (c :: s) with
      | some o => .operator o (c :: s)
      | none => .identifier (c :: s), rest) := by
  have hall : ∀ x ∈ s, isNameChar x = true := fun x hx => isName_chars hs x (by simp [hx])
  cases hw : Operator.findWord? (c :: s) with
  | none => simp only [readName, Text.takeWhile_append hall hr, Text.dropWhile_append hall hr, hw]
  | some o => simp only [readName, Text.takeWhile_append hall hr, Text.dropWhile_append hall hr, hw]

theorem readName_spec {c : Char} {s : Text}
    (h : (isAlphabetic c || (c == '.' && s.head?.any isAlphabetic)) = true) :
    ∃ w, isName w = true ∧ (∀ a ∈ (readName c s).2.head?, isNameChar a = false) ∧
      ((Operator.findWord? w = none ∧ (readName c s).1 = .identifier w) ∨
        ∃ o, Operator.findWord? w = some o ∧ (readName c s).1 = .operator o w) := by
  refine ⟨c :: s.takeWhile isNameChar, ?_, ?_, ?_⟩
  · rw [isName, List.all_takeWhile, Bool.and_true]
    rcases Bool.or_eq_true_iff.1 h with ha | hp
    · rw [ha, Bool.true_or]
    · obtain ⟨hc, hh⟩ := Bool.and_eq_true_iff.1 hp
      rw [hc, Bool.true_and]
      cases s with
      | nil => cases hh
      | cons a s =>
        have ha : isNameChar a = true := by
          have ha : isAlphabetic a = true := hh
          simp [isNameChar, isAlphanumeric, ha]
        rw [List.takeWhile_cons_of_pos ha]
        have hh : isAlphabetic a = true := hh
        simp [hh]
  · intro x hx
    have hd := List.head?_dropWhile_not isNameChar s
    rw [readName] at hx
    rw [Option.mem_def.1 hx] at hd
    exact hd
  · unfold readName
    dsimp only
    cases ho : Operator.findWord? (c :: s.takeWhile isNameChar) with
    | none => exact Or.inl ⟨rfl, rfl⟩
    | some o => exact Or.inr ⟨o, rfl, rfl⟩

theorem readSign_spec {sign s : Text} (hs : sign = [] ∨ sign = ['-']) {c : Char}
    (hc : c.isDigit = true) : readSign (sign ++ c :: s) = (sign, c :: s) := by
  rcases hs with rfl | rfl
  · unfold readSign
    split
    · next h => cases h; simp at hc
    · next h => cases h; simp at hc
    · rfl
  · rfl

/-- An exponent at the front of a text: its letter, at most one sign, and a digit. -/
def BeginsExponent (s : Text) : Prop :=
  ∃ e sign d t, (e = 'e' ∨ e = 'E') ∧ (sign = [] ∨ sign = ['+'] ∨ sign = ['-']) ∧
    d.isDigit = true ∧ s = e :: (sign ++ d :: t)

theorem not_beginsExponent {s : Text} (h : ∀ c ∈ s.head?, c ≠ 'e' ∧ c ≠ 'E') :
    ¬ BeginsExponent s := by
  rintro ⟨e, sign, d, t, he, -, -, rfl⟩
  rcases he with rfl | rfl
  · exact (h 'e' rfl).1 rfl
  · exact (h 'E' rfl).2 rfl

theorem not_beginsExponent_sign {e sign : Char} {s : Text} (hsign : sign.isDigit = false)
    (hs : ∀ c ∈ s.head?, c.isDigit = false) : ¬ BeginsExponent (e :: sign :: s) := by
  rintro ⟨e', marks, d, t, -, hmarks, hd, h⟩
  obtain ⟨-, h⟩ := List.cons.inj h
  have hdigit : s = d :: t → False := by
    rintro rfl
    rw [hs d rfl] at hd
    cases hd
  rcases hmarks with rfl | rfl | rfl
  · obtain ⟨rfl, -⟩ := List.cons.inj h
    rw [hsign] at hd
    cases hd
  · exact hdigit (List.cons.inj h).2
  · exact hdigit (List.cons.inj h).2

theorem readSign_cases (s : Text) :
    ∃ sign, (sign = [] ∨ sign = ['+'] ∨ sign = ['-']) ∧ s = sign ++ (readSign s).2 := by
  unfold readSign
  split
  · exact ⟨['+'], by simp, rfl⟩
  · exact ⟨['-'], by simp, rfl⟩
  · exact ⟨[], by simp, rfl⟩

@[simp]
theorem readExponent_nil {s : Text} (h : ¬ BeginsExponent s) : readExponent s = ([], s) := by
  cases s with
  | nil => rfl
  | cons c s =>
    simp only [readExponent]
    rw [if_neg]
    rintro ⟨hc, hdigit⟩
    obtain ⟨sign, hsign, hs⟩ := readSign_cases s
    cases hd : (readSign s).2 with
    | nil =>
      rw [hd] at hdigit
      cases hdigit
    | cons d t =>
      rw [hd] at hdigit
      rw [hd] at hs
      exact h ⟨c, sign, d, t, hc, hsign, hdigit, congrArg (c :: ·) hs⟩

theorem readExponent_append {e rest : Text} (he : IsExponent e)
    (hd : ∀ c ∈ rest.head?, c.isDigit = false) (hr : e = [] → ¬ BeginsExponent rest) :
    readExponent (e ++ rest) = (e, rest) := by
  rcases he with rfl | ⟨sign, t, hs, hne, ht, rfl⟩
  · exact readExponent_nil (hr rfl)
  · obtain ⟨c, t, rfl⟩ := List.exists_cons_of_ne_nil hne
    have hc : c.isDigit = true := ht c (by simp)
    have hsign := readSign_spec (s := t ++ rest) hs hc
    have htake := Text.takeWhile_append ht hd
    have hdrop := Text.dropWhile_append ht hd
    simp only [List.cons_append] at htake hdrop
    simp only [List.cons_append, List.append_assoc, readExponent, hsign, List.head?_cons,
      Option.any_some, hc, or_true, and_self, if_true, htake, hdrop]

theorem readFraction_append {f rest : Text} (hf : IsFraction f)
    (hd : ∀ c ∈ rest.head?, c.isDigit = false) (hp : f = [] → rest.head? ≠ some '.') :
    readFraction (f ++ rest) = (f, rest) := by
  rcases hf with rfl | ⟨t, ht, rfl⟩
  · rw [List.nil_append]
    unfold readFraction
    split
    · exact absurd rfl (hp rfl)
    · rfl
  · simp only [List.cons_append, readFraction, Text.takeWhile_append ht hd,
      Text.dropWhile_append ht hd]

/-- A number ends where no digit follows, and where neither a point nor an exponent can still
begin. -/
theorem readNumber_append {c : Char} {s f e rest : Text} (hs : IsDigits s) (hf : IsFraction f)
    (he : IsExponent e) (hd : ∀ c ∈ rest.head?, c.isDigit = false)
    (hp : f = [] → e = [] → rest.head? ≠ some '.') (hr : e = [] → ¬ BeginsExponent rest) :
    readNumber c (s ++ (f ++ (e ++ rest))) =
      (if f = [] ∧ e = [] then .integer (c :: s) else .float (c :: s ++ f ++ e), rest) := by
  have hde : ∀ c ∈ (e ++ rest).head?, c.isDigit = false := by
    rcases he with rfl | ⟨sign, t, -, -, -, rfl⟩
    · exact hd
    · intro c hc
      cases hc
      rfl
  have hdf : ∀ c ∈ (f ++ (e ++ rest)).head?, c.isDigit = false := by
    rcases hf with rfl | ⟨t, -, rfl⟩
    · exact hde
    · intro c hc
      cases hc
      rfl
  have hpe : f = [] → (e ++ rest).head? ≠ some '.' := by
    intro hf0
    rcases he with rfl | ⟨sign, t, -, -, -, rfl⟩
    · exact hp hf0 rfl
    · simp
  simp only [readNumber, Text.takeWhile_append hs hdf, Text.dropWhile_append hs hdf,
    readFraction_append hf hde hpe, readExponent_append he hd hr]
  split
  · next h => simp [h.1, h.2]
  · rfl

theorem newline_not_mem_fraction (s : Text) : '\n' ∉ (readFraction s).1 := by
  unfold readFraction
  split
  · rw [List.mem_cons, not_or]
    exact ⟨by decide, Text.not_mem_takeWhile rfl⟩
  · simp

theorem newline_not_mem_sign (s : Text) : '\n' ∉ (readSign s).1 := by
  unfold readSign
  split
  · simp
  · simp
  · simp

theorem newline_not_mem_exponent (s : Text) : '\n' ∉ (readExponent s).1 := by
  cases s with
  | nil => simp [readExponent]
  | cons c s =>
    simp only [readExponent]
    split
    · next h =>
      have hc : '\n' ≠ c := by
        rintro rfl
        rcases h.1 with h | h
        · cases h
        · cases h
      rw [List.mem_append, List.mem_cons, not_or, not_or]
      exact ⟨⟨hc, newline_not_mem_sign s⟩, Text.not_mem_takeWhile rfl⟩
    · simp

/-- An integer as it is written, with its base and its digits. Every decimal digit passes for an
octal one. -/
inductive IsNumeral : ℕ → Text → Text → Prop where
  | decimal {d : Text} (hne : d ≠ []) (hd : ∀ c ∈ d, c.isDigit = true) : IsNumeral 10 d d
  | hex {m : Char} {d : Text} (hm : m = 'h' ∨ m = 'H') (hne : d ≠ [])
      (hd : ∀ c ∈ d, isHexDigit c = true) : IsNumeral 16 d ('&' :: m :: d)
  | octal {m : Char} {d : Text} (hm : m = 'o' ∨ m = 'O') (hne : d ≠ [])
      (hd : ∀ c ∈ d, c.isDigit = true) : IsNumeral 8 d ('&' :: m :: d)

theorem isHexDigit_of_isDigit {c : Char} (h : c.isDigit = true) : isHexDigit c = true := by
  simp [isHexDigit, h]

theorem IsNumeral.isHexDigit {base : ℕ} {d w : Text} (h : IsNumeral base d w) :
    ∀ c ∈ d, Lexeme.isHexDigit c = true := by
  cases h with
  | decimal _ hd | octal _ _ hd => exact fun c hc => isHexDigit_of_isDigit (hd c hc)
  | hex _ _ hd => exact hd

theorem IsNumeral.digits_ne_nil {base : ℕ} {d w : Text} (h : IsNumeral base d w) : d ≠ [] := by
  cases h with
  | decimal hne | hex _ hne | octal _ hne => exact hne

theorem IsNumeral.not_mem {base : ℕ} {d w : Text} (h : IsNumeral base d w) {x : Char}
    (hx : Lexeme.isHexDigit x = false) (hmark : x ∉ ['&', 'h', 'H', 'o', 'O']) : x ∉ w := by
  have hdigits : x ∉ d := by
    intro hm
    rw [h.isHexDigit x hm] at hx
    cases hx
  cases h with
  | decimal => exact hdigits
  | hex hm | octal hm =>
    rcases hm with rfl | rfl <;> simp_all

theorem readNumber_spec {c : Char} {s : Text} (hc : c.isDigit = true) :
    (∃ w, IsNumeral 10 w w ∧ (readNumber c s).1 = .integer w) ∨
      ∃ w, (w.head? = some c ∧ '\n' ∉ w) ∧ (readNumber c s).1 = .float w := by
  have hwhole : IsNumeral 10 (c :: s.takeWhile Char.isDigit) (c :: s.takeWhile Char.isDigit) := by
    refine .decimal (by simp) ?_
    intro x hx
    rcases List.mem_cons.1 hx with rfl | hx
    · exact hc
    · exact List.all_eq_true.1 List.all_takeWhile x hx
  unfold readNumber
  dsimp only
  split
  · next h =>
    rw [h.1, h.2, List.append_nil, List.append_nil]
    exact Or.inl ⟨_, hwhole, rfl⟩
  · refine Or.inr ⟨_, ⟨rfl, ?_⟩, rfl⟩
    rw [List.mem_append, List.mem_append, not_or, not_or]
    exact ⟨⟨hwhole.not_mem rfl (by decide), newline_not_mem_fraction _⟩,
      newline_not_mem_exponent _⟩

theorem readRadix?_spec {s rest : Text} {l : Lexeme} (h : readRadix? s = some (l, rest)) :
    ∃ base d w, IsNumeral base d w ∧ l = .integer w := by
  unfold readRadix? at h
  split at h
  · next marker t =>
    obtain ⟨p, hp, h⟩ := Option.bind_eq_some_iff.1 h
    split at h
    · next hfirst =>
      obtain ⟨rfl, -⟩ := Prod.mk.inj (Option.some.inj h)
      have hdigits : ∀ c ∈ t.takeWhile p, p c = true := List.all_eq_true.1 List.all_takeWhile
      have hne : t.takeWhile p ≠ [] := by
        cases t with
        | nil => cases hfirst
        | cons a t => simp [show p a = true from hfirst]
      unfold radixDigit? at hp
      split at hp
      · next hm =>
        obtain rfl := Option.some.inj hp
        exact ⟨16, _, _, .hex hm hne hdigits, rfl⟩
      · split at hp
        · next hm =>
          obtain rfl := Option.some.inj hp
          exact ⟨8, _, _, .octal hm hne hdigits, rfl⟩
        · cases hp
    · cases h
  · cases h

structure IsString (s : Text) : Prop where
  noReturn : '\r' ∉ s
  noNewline : '\n' ∉ s
  noDelimiter : Lacks '%' '>' s

theorem IsString.tail {c : Char} {s : Text} (h : IsString (c :: s)) : IsString s :=
  ⟨fun hm => h.noReturn (by simp [hm]), fun hm => h.noNewline (by simp [hm]), h.noDelimiter.tail⟩

theorem readString_spec {s t : Text} (h : (readString s).1 = .ok t) :
    IsString t ∧ (t.head? = some '>' → s.head? = some '>') := by
  fun_induction readString s generalizing t with
  | case1 => cases h
  | case2 s r rest e ih =>
    cases hr : r with
    | error => rw [hr] at h; cases h
    | ok u =>
      obtain ⟨hu, -⟩ := ih (by rw [e]; exact hr)
      rw [hr] at h
      cases h
      exact ⟨⟨by simp [hu.noReturn], by simp [hu.noNewline], by simp [hu.noDelimiter]⟩, by simp⟩
  | case3 s => cases h; exact ⟨⟨by simp, by simp, by simp⟩, by simp⟩
  | case4 s => cases h
  | case5 c s => cases h
  | case6 c s h1 h2 h3 h4 r rest e ih =>
    cases hr : r with
    | error => rw [hr] at h; cases h
    | ok u =>
      obtain ⟨hu, hhead⟩ := ih (by rw [e]; exact hr)
      rw [hr] at h
      cases h
      refine ⟨⟨?_, ?_, lacks_cons.2 ⟨?_, hu.noDelimiter⟩⟩, by simp⟩
      · simp only [List.mem_cons, hu.noReturn, or_false]
        rintro rfl
        exact h4 (.inl rfl)
      · simp only [List.mem_cons, hu.noNewline, or_false]
        rintro rfl
        exact h4 (.inr rfl)
      · rintro rfl hgt
        have hs := hhead hgt
        cases s with
        | nil => cases hs
        | cons a s => exact h3 s rfl (by rw [Option.some.inj hs])

@[simp]
theorem readString_cons {c : Char} {s : Text} (hq : c ≠ '"') (hp : c = '%' → s.head? ≠ some '>')
    (hr : ¬ (c = '\r' ∨ c = '\n')) :
    readString (c :: s) = ((readString s).1.map (c :: ·), (readString s).2) := by
  conv_lhs => unfold readString
  split
  · next e => cases e
  · next e => cases e; exact absurd rfl hq
  · next e => cases e; exact absurd rfl hq
  · next e => cases e; exact absurd rfl (hp rfl)
  · next e => cases e; rw [if_neg hr]

theorem readString_end {s : Text} (h : s.head? ≠ some '"') :
    readString ('"' :: s) = (.ok [], s) := by
  unfold readString
  split
  · next e => cases e
  · next e =>
    cases e
    exact absurd rfl h
  · next e =>
    cases e
    rfl
  · next e => cases e
  · next hquote _ e =>
    cases e
    exact (hquote rfl).elim

@[simp] theorem readString_break {c : Char} (h : c = '\r' ∨ c = '\n') (s : Text) :
    readString (c :: s) = (.error .unterminatedString, s) := by
  rcases h with rfl | rfl <;> rfl

@[simp] theorem isString_nil : IsString [] := ⟨by simp, by simp, by simp⟩

@[simp] theorem isString_cons {c : Char} {s : Text} : IsString (c :: s) ↔
    ¬ (c = '\r' ∨ c = '\n') ∧ (c = '%' → s.head? ≠ some '>') ∧ IsString s := by
  constructor
  · intro h
    refine ⟨?_, (lacks_cons.1 h.noDelimiter).1, h.tail⟩
    rintro (rfl | rfl)
    · exact h.noReturn (by simp)
    · exact h.noNewline (by simp)
  · rintro ⟨hc, hp, hs⟩
    rw [not_or] at hc
    exact ⟨by simp [hs.noReturn, Ne.symm hc.1], by simp [hs.noNewline, Ne.symm hc.2],
      lacks_cons.2 ⟨hp, hs.noDelimiter⟩⟩

/-- The first place of a text that no string may hold, told by what a string is refused for
there. -/
inductive SpoiledBy : Text → ScanError → Prop where
  | lineBreak {u v : Text} {c : Char} (hu : IsString u) (hc : c = '\r' ∨ c = '\n') :
      SpoiledBy (u ++ c :: v) .unterminatedString
  | delimiter {u v : Text} (hu : IsString u) :
      SpoiledBy (u ++ '%' :: '>' :: v) .delimiterInString

theorem isString_or_spoiled (t : Text) : IsString t ∨ ∃ e, SpoiledBy t e := by
  induction t with
  | nil => exact Or.inl isString_nil
  | cons c t ih =>
    by_cases hc : c = '\r' ∨ c = '\n'
    · exact Or.inr ⟨_, @SpoiledBy.lineBreak [] t c isString_nil hc⟩
    by_cases hd : c = '%' ∧ t.head? = some '>'
    · obtain ⟨rfl, ht⟩ := hd
      obtain ⟨v, rfl⟩ : ∃ v, t = '>' :: v := ⟨t.tail, List.eq_cons_of_mem_head? ht⟩
      exact Or.inr ⟨_, @SpoiledBy.delimiter [] v isString_nil⟩
    have hp : c = '%' → t.head? ≠ some '>' := fun h ht => hd ⟨h, ht⟩
    -- a character that spoils nothing joins the part of the text before the first such place
    have hjoin {u v : Text} (ht : t = u ++ v) (hu : IsString u) : IsString (c :: u) := by
      refine isString_cons.2 ⟨hc, fun h hgt => hp h ?_, hu⟩
      rw [ht, List.head?_append, hgt, Option.some_or]
    rcases ih with ht | ⟨e, ht⟩
    · exact Or.inl (isString_cons.2 ⟨hc, hp, ht⟩)
    · cases ht with
      | lineBreak hu hb => exact Or.inr ⟨_, .lineBreak (hjoin rfl hu) hb⟩
      | delimiter hu => exact Or.inr ⟨_, .delimiter (hjoin rfl hu)⟩

@[simp] theorem head?_doubleQuotes (t : Text) : (Text.doubleQuotes t).head? = t.head? := by
  cases t with
  | nil => rfl
  | cons c t =>
    rw [Text.doubleQuotes_cons]
    split
    · next hc => rw [hc]; rfl
    · rfl

/-- The quotes of a text are read back as far as the text goes, whatever the string goes on
with. -/
theorem readString_doubleQuotes {t s : Text} (ht : IsString t)
    (hs : t.getLast? = some '%' → s.head? ≠ some '>') :
    readString (Text.doubleQuotes t ++ s) = ((readString s).1.map (t ++ ·), (readString s).2) := by
  induction t with
  | nil => exact Prod.ext (by cases h : (readString s).1 <;> simp [h, Except.map]) rfl
  | cons c t ih =>
    obtain ⟨hc, hp, htail⟩ := isString_cons.1 ht
    have hlast : t.getLast? = some '%' → s.head? ≠ some '>' := by
      intro hl
      apply hs
      rw [List.getLast?_cons, hl]
      rfl
    have hmap : ((readString s).1.map (t ++ ·)).map (c :: ·) =
        (readString s).1.map (c :: t ++ ·) := by
      cases (readString s).1 <;> rfl
    by_cases hq : c = '"'
    · subst hq
      change readString ('"' :: '"' :: (Text.doubleQuotes t ++ s)) = _
      rw [readString, ih htail hlast]
      exact Prod.ext hmap rfl
    · have hgt : c = '%' → (Text.doubleQuotes t ++ s).head? ≠ some '>' := by
        rintro rfl
        rw [List.head?_append, head?_doubleQuotes]
        cases t with
        | nil => exact hs rfl
        | cons a t => exact hp rfl
      rw [Text.doubleQuotes_cons, if_neg hq, List.singleton_append, List.cons_append,
        readString_cons hq hgt hc, ih htail hlast, hmap]

theorem readString_quote {t rest : Text} (h : IsString t) (hr : rest.head? ≠ some '"') :
    readString (Text.doubleQuotes t ++ '"' :: rest) = (.ok t, rest) := by
  rw [readString_doubleQuotes h (by simp), readString_end hr]
  exact Prod.ext (congrArg Except.ok (List.append_nil t)) rfl

/-- A quoted text is refused for the first place that spoils it. -/
theorem readString_spoiled {t : Text} {e : ScanError} (h : SpoiledBy t e) (rest : Text) :
    (readString (Text.doubleQuotes t ++ rest)).1 = .error e := by
  have happend (u v : Text) : Text.doubleQuotes (u ++ v) ++ rest =
      Text.doubleQuotes u ++ (Text.doubleQuotes v ++ rest) := by
    simp [Text.doubleQuotes]
  cases h with
  | @lineBreak u v c hu hc =>
    have hq : c ≠ '"' ∧ c ≠ '>' := by rcases hc with rfl | rfl <;> decide
    have hv : Text.doubleQuotes (c :: v) ++ rest = c :: (Text.doubleQuotes v ++ rest) := by
      rw [Text.doubleQuotes_cons, if_neg hq.1]
      rfl
    rw [happend, hv, readString_doubleQuotes hu (by simp [hq.2]), readString_break hc]
    rfl
  | @delimiter u v hu =>
    have hv : Text.doubleQuotes ('%' :: '>' :: v) ++ rest =
        '%' :: '>' :: (Text.doubleQuotes v ++ rest) := rfl
    rw [happend, hv, readString_doubleQuotes hu (by simp)]
    rfl

theorem head_of_readString {s t : Text} (h : (readString s).1 = .ok t) :
    (readString s).2.head? ≠ some '"' := by
  fun_induction readString s generalizing t with
  | case1 | case4 | case5 => cases h
  | case2 s r rest e ih | case6 c s _ _ _ _ r rest e ih =>
    rw [e] at ih
    cases r with
    | error => cases h
    | ok u => exact ih rfl
  | case3 s hquote =>
    intro hs
    exact hquote s.tail (List.eq_cons_of_mem_head? hs)

structure IsComment (s : Text) : Prop where
  noReturn : '\r' ∉ s
  noNewline : '\n' ∉ s

def EndsComment (s : Text) : Prop := s = [] ∨ s.head? = some '\n' ∨ ∃ t, s = '%' :: '>' :: t

theorem readComment_spec (s : Text) :
    IsComment (readComment s).1 ∧ EndsComment (readComment s).2 := by
  fun_induction readComment s with
  | case1 => exact ⟨⟨by simp, by simp⟩, .inl rfl⟩
  | case2 s => exact ⟨⟨by simp, by simp⟩, .inr (.inl rfl)⟩
  | case3 s => exact ⟨⟨by simp, by simp⟩, .inr (.inr ⟨s, rfl⟩)⟩
  | case4 c s h1 h2 t rest e ih =>
    rw [e] at ih
    obtain ⟨⟨hr, hn⟩, hend⟩ := ih
    refine ⟨?_, hend⟩
    dsimp only
    split
    · exact ⟨hr, hn⟩
    · next hc =>
      refine ⟨by simp [hr, Ne.symm hc], ?_⟩
      simp only [List.mem_cons, hn, or_false]
      rintro rfl
      exact h1 rfl

@[simp]
theorem readComment_cons {c : Char} {s : Text} (hn : c ≠ '\n') (hp : c = '%' → s.head? ≠ some '>') :
    readComment (c :: s) =
      (if c = '\r' then (readComment s).1 else c :: (readComment s).1, (readComment s).2) := by
  conv_lhs => unfold readComment
  split
  · next e => cases e
  · next e => cases e; exact absurd rfl hn
  · next e => cases e; exact absurd rfl (hp rfl)
  · next e => cases e; rfl

theorem readComment_of_ends {s : Text} (h : EndsComment s) : readComment s = ([], s) := by
  rcases h with rfl | h | ⟨t, rfl⟩
  · rfl
  · cases s with
    | nil => cases h
    | cons c s =>
      rw [List.head?_cons, Option.some.injEq] at h
      rw [h]
      rfl
  · rfl

theorem EndsComment.head_ne {s : Text} (h : EndsComment s) : s.head? ≠ some '>' := by
  rcases h with rfl | h | ⟨t, rfl⟩
  · simp
  · simp [h]
  · simp

theorem readComment_append {t rest : Text} (ht : IsComment t) (hd : Lacks '%' '>' t)
    (hr : EndsComment rest) : readComment (t ++ rest) = (t, rest) := by
  induction t with
  | nil => exact readComment_of_ends hr
  | cons c t ih =>
    have iht := ih ⟨fun hm => ht.noReturn (by simp [hm]), fun hm => ht.noNewline (by simp [hm])⟩
      hd.tail
    have hn : c ≠ '\n' := by
      rintro rfl
      exact ht.noNewline (by simp)
    have hc : c ≠ '\r' := by
      rintro rfl
      exact ht.noReturn (by simp)
    have hgt : c = '%' → (t ++ rest).head? ≠ some '>' := by
      cases t with
      | nil => exact fun _ => hr.head_ne
      | cons a t => exact (lacks_cons.1 hd).1
    rw [List.cons_append, readComment_cons hn hgt, iht, if_neg hc]

/-- What a comment takes up of its line makes no difference to where it ends. -/
theorem readComment_skip {t rest : Text} (hn : '\n' ∉ t) (hd : Lacks '%' '>' t)
    (hr : t.getLast? = some '%' → rest.head? ≠ some '>') :
    (readComment (t ++ rest)).2 = (readComment rest).2 := by
  induction t with
  | nil => rfl
  | cons c t ih =>
    have hc : c ≠ '\n' := by
      rintro rfl
      exact hn (by simp)
    have hgt : c = '%' → (t ++ rest).head? ≠ some '>' := by
      cases t with
      | nil =>
        rintro rfl
        exact hr rfl
      | cons a t => exact (lacks_cons.1 hd).1
    have hlast : t.getLast? = some '%' → rest.head? ≠ some '>' := by
      cases t with
      | nil => simp
      | cons a t => exact hr
    rw [List.cons_append, readComment_cons hc hgt]
    exact ih (fun hm => hn (by simp [hm])) hd.tail hlast

theorem readDate_spec {s t : Text} (h : (readDate s).1 = .ok t) :
    ∀ c ∈ t, isDateChar c = true := by
  fun_induction readDate s generalizing t with
  | case1 => cases h
  | case2 s => cases h; simp
  | case3 s => cases h
  | case4 c s => cases h
  | case5 c s _ _ _ hc r rest e ih =>
    cases hr : r with
    | error => rw [hr] at h; cases h
    | ok u =>
      rw [hr] at h
      cases h
      intro x hx
      rcases List.mem_cons.1 hx with rfl | hx
      · exact hc
      · exact ih (by rw [e]; exact hr) x hx
  | case6 c s => cases h

@[simp] theorem readDate_append {t : Text} (ht : ∀ c ∈ t, isDateChar c = true) (rest : Text) :
    readDate (t ++ '#' :: rest) = (.ok t, rest) := by
  induction t with
  | nil => rfl
  | cons c t ih =>
    have hc := ht c (by simp)
    have hne : ∀ x, isDateChar x = false → c ≠ x := by
      rintro x hx rfl
      rw [hx] at hc
      cases hc
    have hr : ¬ (c = '\r' ∨ c = '\n') := by
      rintro (h | h)
      · exact hne _ (by decide) h
      · exact hne _ (by decide) h
    rw [List.cons_append]
    unfold readDate
    split
    · next e => cases e
    · next e => exact absurd (List.cons.inj e).1 (hne _ (by decide))
    · next e => exact absurd (List.cons.inj e).1 (hne _ (by decide))
    · next e =>
      cases e
      rw [if_neg hr, if_pos hc, ih fun x hx => ht x (by simp [hx])]
      rfl

theorem readMarkup_spec {read s t : Text} {rest : Option Text} (h : readMarkup read s = (t, rest)) :
    ∃ u, t = read.reverse ++ u ∧ Lacks '<' '%' u ∧ (u.head? = some '%' → s.head? = some '%') := by
  fun_induction readMarkup read s with
  | case1 read => cases h; exact ⟨[], by simp, by simp, by simp⟩
  | case2 read s => cases h; exact ⟨[], by simp, by simp, by simp⟩
  | case3 read c s hc ih =>
    obtain ⟨u, rfl, hu, hhead⟩ := ih h
    refine ⟨c :: u, by simp, lacks_cons.2 ⟨?_, hu⟩, by simp⟩
    rintro rfl hp
    have hs := hhead hp
    cases s with
    | nil => cases hs
    | cons a s => exact hc s rfl (by rw [Option.some.inj hs])

@[simp]
theorem readMarkup_cons {c : Char} {s : Text} (h : c = '<' → s.head? ≠ some '%') (read : Text) :
    readMarkup read (c :: s) = readMarkup (c :: read) s := by
  conv_lhs => unfold readMarkup
  split
  · next e => cases e
  · next e => cases e; exact absurd rfl (h rfl)
  · next e => cases e; rfl

@[simp] theorem readMarkup_append {t : Text} (ht : Lacks '<' '%' t) (read rest : Text) :
    readMarkup read (t ++ '<' :: '%' :: rest) = (read.reverse ++ t, some rest) := by
  induction t generalizing read with
  | nil => simp [readMarkup]
  | cons c t ih =>
    have hc : c = '<' → (t ++ '<' :: '%' :: rest).head? ≠ some '%' := by
      cases t with
      | nil => simp
      | cons a t => exact (lacks_cons.1 ht).1
    rw [List.cons_append, readMarkup_cons hc, ih ht.tail]
    simp

theorem readMarkup_end {t : Text} (ht : Lacks '<' '%' t) (read : Text) :
    readMarkup read t = (read.reverse ++ t, none) := by
  induction t generalizing read with
  | nil => simp [readMarkup]
  | cons c t ih =>
    rw [readMarkup_cons (lacks_cons.1 ht).1, ih ht.tail]
    simp

end ClassicAsp.Lexeme
