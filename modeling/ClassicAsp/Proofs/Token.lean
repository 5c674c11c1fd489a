import ClassicAsp.Layout
import ClassicAsp.Proofs.DateLiteral
import ClassicAsp.Proofs.Lexeme.Source
import ClassicAsp.Proofs.Number.Binary64
import ClassicAsp.Proofs.Number.Integer

/-! Tokens as they are printed: what a token must hold for its printed form to show it, what may
follow that form, and which token is read from it. -/
namespace ClassicAsp

namespace Source

def skip (s : Text) : Text := s.dropWhile isSeparator

theorem skip_cons {c : Char} (h : isSeparator c = true) (s : Text) : skip (c :: s) = skip s := by
  simp [skip, h]

theorem skip_of_head {c : Char} (h : isSeparator c = false) (s : Text) :
    skip (c :: s) = c :: s := by
  simp [skip, h]

theorem next_congr {s t : Text} (h : skip s = skip t) :
    (ofText .code s).next = (ofText .code t).next := by
  change nextCode s = nextCode t
  unfold nextCode
  change s.dropWhile isSeparator = t.dropWhile isSeparator at h
  rw [h]

theorem next_of_lexeme {c : Char} {s rest : Text} {r : Except ScanError Lexeme}
    (hc : isSeparator c = false) (hd : c = '%' → s.head? ≠ some '>')
    (h : lexeme c s = (r, rest)) : (ofText .code (c :: s)).next = (r, ofText .code rest) := by
  change nextCode (c :: s) = _
  unfold nextCode
  rw [show (c :: s).dropWhile isSeparator = c :: s from skip_of_head hc s]
  split
  · next e => cases e
  · next e => cases e; exact absurd rfl (hd rfl)
  · next e => cases e; rw [h]

theorem skip_append {g : Text} (hg : ∀ c ∈ g, isSeparator c = true) (s : Text) :
    skip (g ++ s) = skip s :=
  List.dropWhile_append_of_pos hg

theorem next_quote (t rest : Text) : (ofText .code (Text.quote t ++ rest)).next =
    ((Lexeme.readString (Text.doubleQuotes t ++ '"' :: rest)).1.map .string,
      ofText .code (Lexeme.readString (Text.doubleQuotes t ++ '"' :: rest)).2) := by
  have hquote : Text.quote t ++ rest = '"' :: (Text.doubleQuotes t ++ '"' :: rest) := by
    simp [Text.quote]
  rw [hquote]
  exact next_of_lexeme (by decide) (by simp) (lexeme_quote _)

theorem not_isAlphabetic_of_isSpace {c : Char} (h : isSpace c = true) : isAlphabetic c = false := by
  have hall : ∀ r ∈ whiteSpace.ranges, ∀ n ∈ List.range' r.1 (r.2 + 1 - r.1),
      isAlphabetic (Char.ofNat n) = false := by
    decide +kernel
  obtain ⟨r, hr, hb⟩ := List.any_eq_true.1 h
  simp only [Bool.and_eq_true, decide_eq_true_eq] at hb
  have hc := hall r hr c.toNat (List.mem_range'_1.2 (by omega))
  rwa [Char.ofNat_toNat] at hc

end Source

namespace Token

def printed (t : Token) : Text := ({} : Layout).body {} t

/-- The token that is read from the printed form: a whole number has no fraction to show. -/
def reread : Token → Token
  | .float x => if x.IsWhole then .integer x.whole else .float x
  | t => t

/-- The printed form of a token of script shows it. -/
def Legible : Token → Prop
  | .identifier s => IsWord (.identifier s)
  | .string s => Lexeme.IsString s
  | .integer i => 0 ≤ i ∧ i < 0x8000000000000000
  | .float x => x.negative = false
  | .date d => DateLiteral.read d.write = d ∧ ∀ c ∈ d.write, Lexeme.isDateChar c = true
  | .comment s => Lexeme.IsComment s ∧ Text.trim s = s ∧ Text.Lacks '%' '>' s
  | .punctuation c => Source.isPunctuation c = true
  | .markup _ | .directive _ | .endOfInput => False
  | _ => True

def EndsLine (s : Text) : Prop := (Source.ofText .code s).atLineEnd = true

/-- What may follow a printed token for it to be read as that token alone. -/
def Boundary (t : Token) (rest : Text) : Prop :=
  match t with
  | .statement w => (∀ c ∈ rest.head?, Lexeme.isNameChar c = false) ∧
      (w = .rem → ∀ c ∈ rest.head?, c ≠ ' ' ∧ c ≠ '\t')
  | .identifier _ | .function _ | .keyword _ | .boolean _ | .constant _ | .integer _ | .float _ =>
    ∀ c ∈ rest.head?, Lexeme.isNameChar c = false
  | .operator _ => ∀ c ∈ rest.head?, c = ' ' ∨ c = '\n'
  | .string _ => rest.head? ≠ some '"'
  | .comment _ => rest = [] ∨ rest.head? = some '\n' ∨ ∃ s, rest = ' ' :: '%' :: '>' :: s
  | .punctuation c => (c = '%' → rest.head? ≠ some '>') ∧
      (c = '.' → ∀ a ∈ rest.head?, isAlphabetic a = false) ∧ (c = '_' → ¬ EndsLine rest)
  | .continuation => EndsLine rest
  | _ => True

end Token

def Scans (s : Text) (t : Token) (rest : Text) : Prop :=
  ∃ l left, (Source.ofText .code s).next = (.ok l, .ofText .code left) ∧
    Source.skip left = Source.skip rest ∧ l.isMarkup = false ∧ l ≠ .endOfInput ∧
    l.token (Source.ofText .code left).atLineEnd = .ok t

namespace Token

open Lexeme (isName isNameChar)
open Source (isSeparator lexeme)

theorem not_isSpace_of_isName {c : Char} {s : Text} (h : isName (c :: s) = true) :
    isSpace c = false := by
  rcases Lexeme.isName_head h with ha | rfl
  · by_contra hs
    rw [Source.not_isAlphabetic_of_isSpace (by simpa using hs)] at ha
    cases ha
  · decide

theorem not_isSeparator {c : Char} (h : isSpace c = false) : isSeparator c = false := by
  simp [isSeparator, h]

theorem next_name {w rest : Text} (hw : isName w = true)
    (hr : ∀ c ∈ rest.head?, isNameChar c = false)
    (hrem : Text.sameWord ['r', 'e', 'm'] w = true → ∀ c ∈ rest.head?, c ≠ ' ' ∧ c ≠ '\t') :
    (Source.ofText .code (w ++ rest)).next =
      (.ok (match Operator.findWord? w with
        | some o => .operator o w
        | none => .identifier w), .ofText .code rest) := by
  cases w with
  | nil => cases hw
  | cons c s =>
    have hpercent : c ≠ '%' := by
      rintro rfl
      rcases Lexeme.isName_head hw with ha | hp
      · exact absurd ha (by decide)
      · exact absurd hp (by decide)
    have hrem' := Source.remark?_name (Lexeme.isName_chars hw) hr hrem
    have hlex := Source.lexeme_name hw hrem'
    rw [Lexeme.readName_append hw hr] at hlex
    exact Source.next_of_lexeme (not_isSeparator (not_isSpace_of_isName hw))
      (fun h => absurd h hpercent) hlex

theorem scans_word {t : Token} (h : t.IsWord) {rest : Text}
    (hr : ∀ c ∈ rest.head?, isNameChar c = false)
    (hrem : t = .statement .rem → ∀ c ∈ rest.head?, c ≠ ' ' ∧ c ≠ '\t') :
    Scans (t.text ++ rest) t rest := by
  have hn := next_name h.name hr fun hs => hrem (h.eq_rem hs)
  rw [h.notOperator] at hn
  exact ⟨_, rest, hn, rfl, rfl, by simp, congrArg Except.ok h.classified⟩

theorem scans_operator (o : Operator) {rest : Text} (hr : ∀ c ∈ rest.head?, c = ' ' ∨ c = '\n') :
    Scans (o.spelling ++ rest) (.operator o) rest := by
  by_cases ho : o ∈ Operator.words
  · obtain ⟨hname, hfind, hrem⟩ := Operator.isName_word ho
    have hblank : ∀ c ∈ rest.head?, isNameChar c = false := by
      intro c hc
      rcases hr c hc with rfl | rfl
      · decide
      · decide
    have hn := next_name hname hblank fun hs => by rw [hrem] at hs; cases hs
    rw [hfind] at hn
    exact ⟨_, rest, hn, rfl, rfl, by simp, rfl⟩
  · obtain ⟨c, s, hspell, hspace, hpercent, hlex⟩ := Source.lexeme_operator ho hr
    have hn := Source.next_of_lexeme (not_isSeparator hspace) (fun h => absurd h hpercent) hlex
    rw [← List.cons_append, ← hspell] at hn
    exact ⟨_, rest, hn, rfl, rfl, by simp, rfl⟩

theorem next_number {w f e rest : Text} (hw : Decimal.IsDigits w) (hne : w ≠ [])
    (hf : Decimal.IsFraction f) (he : Decimal.IsExponent e)
    (hd : ∀ c ∈ rest.head?, c.isDigit = false)
    (hp : f = [] → e = [] → rest.head? ≠ some '.') (hr : e = [] → ¬ Lexeme.BeginsExponent rest) :
    (Source.ofText .code (w ++ (f ++ e) ++ rest)).next =
      (.ok (if f = [] ∧ e = [] then .integer w else .float (w ++ (f ++ e))), .ofText .code rest) := by
  obtain ⟨c, s, rfl⟩ := List.exists_cons_of_ne_nil hne
  have hc : c.isDigit = true := hw c (by simp)
  have hpercent : c ≠ '%' := by
    rintro rfl
    cases hc
  have hlex := Source.lexeme_digit hc (s ++ (f ++ (e ++ rest)))
  rw [Lexeme.readNumber_append (fun x hx => hw x (by simp [hx])) hf he hd hp hr] at hlex
  have hn := Source.next_of_lexeme (not_isSeparator (DateLiteral.isSpace_of_isDigit hc))
    (fun h => absurd h hpercent) hlex
  simpa using hn

structure StopsNumber (rest : Text) : Prop where
  noDigit : ∀ c ∈ rest.head?, c.isDigit = false
  noExponent : ∀ c ∈ rest.head?, c ≠ 'e' ∧ c ≠ 'E'

theorem stopsNumber {rest : Text} (hr : ∀ c ∈ rest.head?, isNameChar c = false) :
    StopsNumber rest ∧ rest.head? ≠ some '.' := by
  have hne : ∀ x, isNameChar x = true → ∀ c ∈ rest.head?, c ≠ x := by
    rintro x hx c hc rfl
    rw [hr c hc] at hx
    cases hx
  refine ⟨⟨fun c hc => Lexeme.not_isDigit (hr c hc), fun c hc => ⟨?_, ?_⟩⟩, ?_⟩
  · exact hne 'e' (by decide) c hc
  · exact hne 'E' (by decide) c hc
  · intro h
    exact hne '.' (by decide) '.' (by rw [h]; rfl) rfl

theorem scans_digits {n : ℕ} (hn : n < 0x8000000000000000) {rest : Text} (hr : StopsNumber rest)
    (hp : rest.head? ≠ some '.') : Scans (Nat.toDigits 10 n ++ rest) (.integer n) rest := by
  have hnext := next_number (Decimal.isDigits_toDigits n) Nat.toDigits_ne_nil (Or.inl rfl)
    (Or.inl rfl) hr.noDigit (fun _ _ => hp) (fun _ => Lexeme.not_beginsExponent hr.noExponent)
  rw [if_pos ⟨rfl, rfl⟩, List.append_nil, List.append_nil] at hnext
  refine ⟨_, rest, hnext, rfl, rfl, by simp, ?_⟩
  simp [Lexeme.token, integer?, Integer.read?_toDigits hn, Except.map]

@[simp] theorem printed_operator (o : Operator) : (Token.operator o).printed = o.spelling := by
  cases o <;> rfl

@[simp]
theorem printed_date (d : DateLiteral) : (Token.date d).printed = '#' :: (d.write ++ ['#']) := rfl

@[simp] theorem printed_comment (s : Text) :
    (Token.comment s).printed = if s = [] then ['\''] else '\'' :: ' ' :: s := rfl

@[simp] theorem printed_float (x : Binary64) :
    (Token.float x).printed = if x.reaches 15 then x.scientific else x.positional := rfl

/-- A float that is printed with a fraction or an exponent. -/
structure PrintedFraction (x : Binary64) (w f e : Text) : Prop where
  digits : Decimal.IsDigits w
  nonempty : w ≠ []
  fraction : Decimal.IsFraction f
  exponent : Decimal.IsExponent e
  marked : ¬ (f = [] ∧ e = [])
  printed : (Token.float x).printed = w ++ (f ++ e)
  read : Binary64.read? (w ++ (f ++ e)) = some x

theorem printed_fraction {x : Binary64} (hx : x.negative = false) (hw : ¬ x.IsWhole) :
    ∃ w f e, PrintedFraction x w f e := by
  have hsigned : ∀ s, x.signed s = s := by
    intro s
    simp [Binary64.signed, hx]
  have hprint : (Token.float x).printed =
      if x.reaches 15 then x.shortest.scientific else x.shortest.positional := by
    rw [printed_float, Binary64.scientific, Binary64.positional, hsigned, hsigned]
  by_cases hreach : x.reaches 15 = true
  · have hpos := Binary64.position_ne_zero hreach
    obtain ⟨c, f, hc, hf, ht, -⟩ := Decimal.scientific_form (Binary64.shortest_range hpos).1
    have hread := Binary64.read?_shortest_scientific hx hpos
    rw [if_pos hreach, ht] at hprint
    rw [ht] at hread
    refine ⟨[c], f, _, ?_, by simp, hf, Decimal.isExponent_ofInt _, by simp, hprint, hread⟩
    intro a ha
    rw [List.mem_singleton.1 ha]
    exact hc
  · obtain ⟨w, t, hdw, hne, hdt, ht⟩ :=
      Binary64.shortest_positional_fraction (by simpa using hreach) hw
    have hread := Binary64.read?_shortest_positional hx
    rw [if_neg hreach, ht] at hprint
    rw [ht] at hread
    exact ⟨w, '.' :: t, [], hdw, hne, Or.inr ⟨t, hdt, rfl⟩, Or.inl rfl, by simp,
      by simpa using hprint, by simpa using hread⟩

/-- With a fraction or an exponent it is a float again, even before a point. -/
theorem next_fraction {x : Binary64} (hx : x.negative = false) (hw : ¬ x.IsWhole) {rest : Text}
    (hd : ∀ c ∈ rest.head?, c.isDigit = false) (he : ¬ Lexeme.BeginsExponent rest) :
    (Source.ofText .code ((Token.float x).printed ++ rest)).next =
        (.ok (.float (Token.float x).printed), .ofText .code rest) ∧
      Binary64.read? (Token.float x).printed = some x := by
  obtain ⟨w, f, e, h⟩ := printed_fraction hx hw
  have hnext := next_number h.digits h.nonempty h.fraction h.exponent hd
    (fun h1 h2 => absurd ⟨h1, h2⟩ h.marked) (fun _ => he)
  rw [if_neg h.marked, ← h.printed] at hnext
  exact ⟨hnext, h.printed ▸ h.read⟩

theorem scans_float {x : Binary64} (hx : x.negative = false) (hw : ¬ x.IsWhole) {rest : Text}
    (hr : StopsNumber rest) : Scans ((Token.float x).printed ++ rest) (.float x) rest := by
  have he := Lexeme.not_beginsExponent hr.noExponent
  obtain ⟨hnext, hread⟩ := next_fraction hx hw hr.noDigit he
  refine ⟨_, rest, hnext, rfl, rfl, by simp, ?_⟩
  rw [Lexeme.token, float?, hread]
  rfl

theorem printed_whole {x : Binary64} (hx : x.negative = false) (hw : x.IsWhole) :
    (Token.float x).printed = Nat.toDigits 10 x.whole := by
  rw [printed_float, hw.1, if_neg Bool.false_ne_true, Binary64.positional, Binary64.signed, hx,
    if_neg Bool.false_ne_true, hw.shortest_positional]

theorem printed_integer {i : ℤ} (hi : 0 ≤ i) :
    (Token.integer i).printed = Nat.toDigits 10 i.natAbs := by
  change Text.ofInt i = _
  rw [Text.ofInt, if_neg (by omega), Text.ofNat]

theorem scans_string {s : Text} (hs : Lexeme.IsString s) {rest : Text}
    (hr : rest.head? ≠ some '"') : Scans ((Token.string s).printed ++ rest) (.string s) rest := by
  have hnext := Source.next_quote s rest
  rw [Lexeme.readString_quote hs hr] at hnext
  exact ⟨_, rest, hnext, rfl, rfl, by simp, rfl⟩

theorem next_date {t : Text} (ht : ∀ c ∈ t, Lexeme.isDateChar c = true) (rest : Text) :
    (Source.ofText .code ('#' :: (t ++ '#' :: rest))).next =
      (.ok (.date t), .ofText .code rest) := by
  have hlex := Source.lexeme_hash (t ++ '#' :: rest)
  rw [Lexeme.readDate_append ht] at hlex
  exact Source.next_of_lexeme (by decide) (by simp) hlex

theorem scans_date {d : DateLiteral} (hd : DateLiteral.read d.write = d)
    (hc : ∀ c ∈ d.write, Lexeme.isDateChar c = true) (rest : Text) :
    Scans ((Token.date d).printed ++ rest) (.date d) rest := by
  have hprint : (Token.date d).printed ++ rest = '#' :: (d.write ++ '#' :: rest) := by
    rw [printed_date]
    simp
  rw [hprint]
  refine ⟨_, rest, next_date hc rest, rfl, rfl, by simp, ?_⟩
  simp [Lexeme.token, hd]

/-- Whatever a text is read as is read from its own text again, which may stand in a literal if the
first text may. -/
theorem date_read_fixed (t : Text) :
    DateLiteral.read (DateLiteral.read t).write = DateLiteral.read t ∧
    ((∀ c ∈ t, Lexeme.isDateChar c = true) →
      (∀ c ∈ (DateLiteral.read t).write, Lexeme.isDateChar c = true) ∧
      ∀ rest : Text,
        (Source.ofText .code ('#' :: ((DateLiteral.read t).write ++ '#' :: rest))).next =
          (.ok (.date (DateLiteral.read t).write), .ofText .code rest) ∧
        Scans ((Token.date (DateLiteral.read t)).printed ++ rest)
          (.date (DateLiteral.read t)) rest) := by
  have hread := DateLiteral.read_write_read t
  refine ⟨hread, fun ht => ?_⟩
  have hwrite := DateLiteral.isDateChar_write_read ht
  exact ⟨hwrite, fun rest => ⟨next_date hwrite rest, scans_date hread hwrite rest⟩⟩

/-- A leap second at the end of a leap day, with the year behind blanks. -/
theorem date_read_fixed_leap :
    (∀ c ∈ " 29-feb-  2000\t23:59:60 ".toList, Lexeme.isDateChar c = true) ∧
      (DateLiteral.read " 29-feb-  2000\t23:59:60 ".toList).write =
        "02/29/2000 11:59:60 PM".toList ∧
      (Source.ofText .code "#02/29/2000 11:59:60 PM#)".toList).next =
        (.ok (.date "02/29/2000 11:59:60 PM".toList), .ofText .code [')']) := by
  have hchars : ∀ c ∈ " 29-feb-  2000\t23:59:60 ".toList, Lexeme.isDateChar c = true :=
    List.all_eq_true.1 (by decide +kernel)
  have hwrite : (DateLiteral.read " 29-feb-  2000\t23:59:60 ".toList).write =
      "02/29/2000 11:59:60 PM".toList := by
    decide +kernel
  have hnext := (((date_read_fixed _).2 hchars).2 [')']).1
  rw [hwrite] at hnext
  exact ⟨hchars, hwrite, hnext⟩

theorem scans_comment {s : Text} (hs : Lexeme.IsComment s) (ht : Text.trim s = s)
    (hl : Text.Lacks '%' '>' s) {rest : Text} (hr : (Token.comment s).Boundary rest) :
    Scans ((Token.comment s).printed ++ rest) (.comment s) rest := by
  obtain ⟨body, hprint, hbody, hlacks, htrim, hspace⟩ : ∃ body,
      (Token.comment s).printed = '\'' :: body ∧ Lexeme.IsComment body ∧
        Text.Lacks '%' '>' body ∧ Text.trim body = s ∧ Text.trim (body ++ [' ']) = s := by
    by_cases hnil : s = []
    · rw [hnil]
      exact ⟨[], rfl, ⟨by simp, by simp⟩, by simp, rfl, by decide⟩
    · have hp : (Token.comment s).printed = '\'' :: ' ' :: s := by
        rw [printed_comment, if_neg hnil]
      refine ⟨' ' :: s, hp, ⟨?_, ?_⟩, by simp [hl], ?_, ?_⟩
      · simp [hs.noReturn]
      · simp [hs.noNewline]
      · rw [Text.trim_cons (by decide), ht]
      · rw [List.cons_append, Text.trim_cons (by decide), Text.trim_append_space ht (by decide)]
  rw [hprint]
  have hread : ∀ u left, Lexeme.IsComment u → Text.Lacks '%' '>' u → Lexeme.EndsComment left →
      u ++ left = body ++ rest → (Source.ofText .code ('\'' :: (body ++ rest))).next =
        (.ok (.comment u), .ofText .code left) := by
    intro u left hu hlu hleft he
    have hlex := Source.lexeme_apostrophe (body ++ rest)
    rw [← he, Lexeme.readComment_append hu hlu hleft, he] at hlex
    exact Source.next_of_lexeme (by decide) (by simp) hlex
  rcases hr with rfl | hr | ⟨t, rfl⟩
  · have hn := hread body [] hbody hlacks (.inl rfl) rfl
    exact ⟨_, [], hn, rfl, rfl, by simp, by simp [Lexeme.token, htrim]⟩
  · have hn := hread body rest hbody hlacks (.inr (.inl hr)) rfl
    exact ⟨_, rest, hn, rfl, rfl, by simp, by simp [Lexeme.token, htrim]⟩
  · have hu : Lexeme.IsComment (body ++ [' ']) :=
      ⟨by simp [hbody.noReturn], by simp [hbody.noNewline]⟩
    have hlu : Text.Lacks '%' '>' (body ++ [' ']) := by simp [hlacks]
    have hn := hread (body ++ [' ']) ('%' :: '>' :: t) hu hlu (.inr (.inr ⟨t, rfl⟩)) (by simp)
    exact ⟨_, _, hn, (Source.skip_cons (by decide) _).symm, rfl, by simp,
      by simp [Lexeme.token, hspace]⟩

theorem scans_punctuation {c : Char} (hc : Source.isPunctuation c = true) {rest : Text}
    (hr : (Token.punctuation c).Boundary rest) :
    Scans ((Token.punctuation c).printed ++ rest) (.punctuation c) rest := by
  obtain ⟨hp, hdot, hline⟩ := hr
  have hsep := not_isSeparator ((Source.isPunctuation_iff c).1 hc).1
  have hnext := Source.next_of_lexeme hsep hp (Source.lexeme_punctuation hc hdot)
  refine ⟨_, rest, hnext, rfl, rfl, by simp, ?_⟩
  simp only [Lexeme.token]
  rw [if_neg]
  rintro ⟨h1, h2⟩
  exact hline h1 h2

theorem scans_continuation {rest : Text} (hr : EndsLine rest) :
    Scans (Token.continuation.printed ++ rest) .continuation rest := by
  have hnext := Source.next_of_lexeme (c := '_') (s := rest) (by decide) (by simp)
    (Source.lexeme_punctuation (by decide) (by simp))
  refine ⟨_, rest, hnext, rfl, rfl, by simp, ?_⟩
  simp only [Lexeme.token]
  rw [if_pos ⟨trivial, hr⟩]

theorem scans_lineEnd (e : LineEnd) (rest : Text) :
    Scans ((Token.lineEnd e).printed ++ rest) (.lineEnd e) rest := by
  cases e with
  | newline =>
    have hnext := Source.next_of_lexeme (by decide) (by simp) (Source.lexeme_newline rest)
    exact ⟨_, rest, hnext, rfl, rfl, by simp, rfl⟩
  | separator =>
    have hnext := Source.next_of_lexeme (by decide) (by simp) (Source.lexeme_separator (' ' :: rest))
    exact ⟨_, ' ' :: rest, hnext, Source.skip_cons (by decide) rest, rfl, by simp, rfl⟩

/-- A legible token is read from its printed form, whatever follows past its boundary. -/
theorem scans_printed {t : Token} (ht : t.Legible) {rest : Text} (hr : t.Boundary rest) :
    Scans (t.printed ++ rest) t.reread rest := by
  cases t with
  | statement w => exact scans_word (isWord_statement w) hr.1 fun h => hr.2 (by simpa using h)
  | function f => exact scans_word (isWord_function f) hr (by simp)
  | keyword k => exact scans_word (isWord_keyword k) hr (by simp)
  | boolean b => exact scans_word (isWord_boolean b) hr (by simp)
  | constant c => exact scans_word (isWord_constant c) hr (by simp)
  | identifier s => exact scans_word ht hr (by simp)
  | string s => exact scans_string ht hr
  | integer i =>
    obtain ⟨h0, hlt⟩ := ht
    obtain ⟨hstop, hp⟩ := stopsNumber hr
    have h := scans_digits (n := i.natAbs) (by omega) hstop hp
    rw [printed_integer h0]
    rwa [show (i.natAbs : ℤ) = i by omega] at h
  | float x =>
    obtain ⟨hstop, hp⟩ := stopsNumber hr
    by_cases hw : x.IsWhole
    · have hlt : x.whole < 0x8000000000000000 := hw.whole_lt.trans (by decide)
      rw [reread, if_pos hw, printed_whole ht hw]
      exact scans_digits hlt hstop hp
    · rw [reread, if_neg hw]
      exact scans_float ht hw hstop
  | date d => exact scans_date ht.1 ht.2 rest
  | comment s => exact scans_comment ht.1 ht.2.1 ht.2.2 hr
  | operator o =>
    rw [printed_operator]
    exact scans_operator o hr
  | punctuation c => exact scans_punctuation ht hr
  | lineEnd e => exact scans_lineEnd e rest
  | continuation => exact scans_continuation hr
  | markup | directive | endOfInput => exact ht.elim

/-- A token that was read is legible. Only a comment can hold what its printed form cannot. -/
theorem legible_of_isRead {l : Lexeme} {t : Token} {atLineEnd : Bool} (hl : l.IsRead)
    (h : l.token atLineEnd = .ok t) (hc : ∀ s, t = .comment s → Text.Lacks '%' '>' s) :
    t.Legible := by
  cases Lexeme.Gives.of_token h with
  | @identifier w hw =>
    have hword := isWord_ofName hl.1 hl.2
    rw [hw] at hword
    exact hword
  | string => exact hl
  | integer hi =>
    unfold integer? at hi
    split at hi
    · next j hj =>
      cases hi
      exact Integer.read?_unsigned hj hl.1
    · cases hi
  | float hx =>
    obtain ⟨⟨c, hc, hd⟩, -⟩ := hl
    unfold float? at hx
    split at hx
    · next y hy =>
      cases hx
      exact Binary64.negative_of_read? hc hd hy
    · cases hx
  | @date s => exact ⟨DateLiteral.read_write_read s, DateLiteral.isDateChar_write_read hl⟩
  | @comment s =>
    have hsub : ∀ c, c ∈ Text.trim s → c ∈ s := fun c hm => (Text.trim_infix s).subset hm
    exact ⟨⟨fun hm => hl.noReturn (hsub _ hm), fun hm => hl.noNewline (hsub _ hm)⟩,
      Text.trim_trim s, hc _ rfl⟩
  | punctuation => exact hl
  | markup | endOfInput => exact hl.elim
  | _ => trivial

end Token

end ClassicAsp
