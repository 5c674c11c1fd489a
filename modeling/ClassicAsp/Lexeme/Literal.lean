import ClassicAsp.Lexeme
import ClassicAsp.Text
import ClassicAsp.Text.Alphanumeric

/-!
The extent of each kind of lexeme. A function is given the text after the characters that decide
the kind, and returns the lexeme with the text left over, which is a suffix of what it was given.
-/
namespace ClassicAsp.Lexeme

def isNameChar (c : Char) : Bool := isAlphanumeric c || c == '_' || c == '.'

/-- A name starting with `c`. Some names are operators. -/
def readName (c : Char) (s : Text) : Lexeme × Text :=
  let word := c :: s.takeWhile isNameChar
  let lexeme := match Operator.findWord? word with
    | some o => operator o word
    | none => identifier word
  (lexeme, s.dropWhile isNameChar)

def readSign : Text → Text × Text
  | '+' :: s => (['+'], s)
  | '-' :: s => (['-'], s)
  | s => ([], s)

/-- An exponent at the front of a text; without a digit there is none. -/
def readExponent : Text → Text × Text
  | [] => ([], [])
  | c :: s =>
    let (sign, digits) := readSign s
    if (c = 'e' ∨ c = 'E') ∧ digits.head?.any Char.isDigit then
      (c :: sign ++ digits.takeWhile Char.isDigit, digits.dropWhile Char.isDigit)
    else ([], c :: s)

def readFraction : Text → Text × Text
  | '.' :: s => ('.' :: s.takeWhile Char.isDigit, s.dropWhile Char.isDigit)
  | s => ([], s)

/-- A decimal number starting with the digit `c`, which has a fraction or an exponent exactly if
it is a float. -/
def readNumber (c : Char) (s : Text) : Lexeme × Text :=
  let whole := c :: s.takeWhile Char.isDigit
  let (fraction, s) := readFraction (s.dropWhile Char.isDigit)
  let (exponent, s) := readExponent s
  let written := whole ++ fraction ++ exponent
  (if fraction = [] ∧ exponent = [] then integer written else float written, s)

def isHexDigit (c : Char) : Bool :=
  c.isDigit || ('a' ≤ c && c ≤ 'f') || ('A' ≤ c && c ≤ 'F')

/-- The digits that may follow a radix marker. An octal number takes every decimal digit here;
the wrong ones are found when it is converted. -/
def radixDigit? (marker : Char) : Option (Char → Bool) :=
  if marker = 'h' ∨ marker = 'H' then some isHexDigit
  else if marker = 'o' ∨ marker = 'O' then some Char.isDigit
  else none

/-- A hexadecimal or octal number. An ampersand that starts none is an operator. -/
def readRadix? : Text → Option (Lexeme × Text)
  | '&' :: marker :: s =>
    (radixDigit? marker).bind fun isDigit =>
      if s.head?.any isDigit then
        some (integer ('&' :: marker :: s.takeWhile isDigit), s.dropWhile isDigit)
      else none
  | _ => none

/-- A string constant after its opening quote. It ends on its own line and before `%>`. -/
def readString : Text → Except ScanError Text × Text
  | [] => (.error .unterminatedString, [])
  | '"' :: '"' :: s => let (r, rest) := readString s; (r.map ('"' :: ·), rest)
  | '"' :: s => (.ok [], s)
  | '%' :: '>' :: s => (.error .delimiterInString, '>' :: s)
  | c :: s =>
    if c = '\r' ∨ c = '\n' then (.error .unterminatedString, s)
    else let (r, rest) := readString s; (r.map (c :: ·), rest)

/-- A comment body, up to the newline or the `%>` that ends it. Carriage returns are dropped. -/
def readComment : Text → Text × Text
  | [] => ([], [])
  | '\n' :: s => ([], '\n' :: s)
  | '%' :: '>' :: s => ([], '%' :: '>' :: s)
  | c :: s =>
    let (t, rest) := readComment s
    (if c = '\r' then t else c :: t, rest)

/-- What dates are written with besides digits: separators, and the letters of the month names
and of `AM` and `PM`. -/
def dateChars : String := "/-: \tAPMJANFEBMARAPRMAYJUNJULAUGSEPOCTNOVDEC"

def isDateChar (c : Char) : Bool := c.isDigit || dateChars.toList.contains c.toUpper

/-- A date literal after its opening mark. -/
def readDate : Text → Except ScanError Text × Text
  | [] => (.error .unterminatedDate, [])
  | '#' :: s => (.ok [], s)
  | '%' :: '>' :: s => (.error .delimiterInDate, '>' :: s)
  | c :: s =>
    if c = '\r' ∨ c = '\n' then (.error .unterminatedDate, s)
    else if isDateChar c then let (r, rest) := readDate s; (r.map (c :: ·), rest)
    else (.error (.invalidDateChar c), s)

/-- Page text up to the delimiter that opens code, and what follows it, if there is one. -/
def readMarkup (read : Text) : Text → Text × Option Text
  | [] => (read.reverse, none)
  | '<' :: '%' :: s => (read.reverse, some s)
  | c :: s => readMarkup (c :: read) s

/-- What follows the comment word and the blank behind it. -/
def remark? (s : Text) : Option Text :=
  match Text.expect ['r', 'e', 'm'] s with
  | some (c :: s) => if c = ' ' ∨ c = '\t' then some s else none
  | _ => none

/-- The longest operator of symbols that starts with `c`. -/
def readSymbol? (c : Char) (s : Text) : Option (Operator × Text) :=
  match c, s with
  | '<', '>' :: s => some (.unequal, s)
  | '<', '=' :: s => some (.atMost, s)
  | '>', '=' :: s => some (.atLeast, s)
  | '\\', '\\' :: s => some (.divideDoubled, s)
  | c, s => (Operator.ofChar? c).map fun o => (o, s)

theorem readName_suffix (c : Char) (s : Text) : (readName c s).2 <:+ s :=
  List.dropWhile_suffix _

theorem readFraction_suffix (s : Text) : (readFraction s).2 <:+ s := by
  unfold readFraction
  split
  · exact (List.dropWhile_suffix _).trans (List.suffix_cons _ _)
  · exact List.suffix_refl _

theorem readSign_suffix (s : Text) : (readSign s).2 <:+ s := by
  unfold readSign
  split
  · exact List.suffix_cons _ _
  · exact List.suffix_cons _ _
  · exact List.suffix_refl _

theorem readExponent_suffix (s : Text) : (readExponent s).2 <:+ s := by
  cases s with
  | nil => exact List.suffix_refl _
  | cons c s =>
    simp only [readExponent]
    split
    · exact ((List.dropWhile_suffix _).trans (readSign_suffix s)).trans (List.suffix_cons _ _)
    · exact List.suffix_refl _

theorem readNumber_suffix (c : Char) (s : Text) : (readNumber c s).2 <:+ s := by
  simp only [readNumber]
  exact ((readExponent_suffix _).trans (readFraction_suffix _)).trans (List.dropWhile_suffix _)

theorem readRadix?_suffix {c : Char} {s rest : Text} {l : Lexeme}
    (h : readRadix? (c :: s) = some (l, rest)) : rest <:+ s := by
  unfold readRadix? at h
  split at h
  · next marker t e =>
    obtain ⟨-, rfl⟩ := List.cons.inj e
    obtain ⟨p, -, h⟩ := Option.bind_eq_some_iff.1 h
    split at h
    · obtain ⟨-, rfl⟩ := Prod.mk.inj (Option.some.inj h)
      exact (List.dropWhile_suffix _).trans (List.suffix_cons _ _)
    · simp at h
  · simp at h

theorem readString_suffix (s : Text) : (readString s).2 <:+ s := by
  fun_induction readString s with
  | case1 => exact List.suffix_refl _
  | case2 s r rest e ih =>
    rw [e] at ih
    exact (ih.trans (List.suffix_cons _ _)).trans (List.suffix_cons _ _)
  | case3 s => exact List.suffix_cons _ _
  | case4 s => exact List.suffix_cons _ _
  | case5 c s => exact List.suffix_cons _ _
  | case6 c s _ _ _ _ r rest e ih =>
    rw [e] at ih
    exact ih.trans (List.suffix_cons _ _)

theorem readComment_suffix (s : Text) : (readComment s).2 <:+ s := by
  fun_induction readComment s with
  | case1 | case2 | case3 => exact List.suffix_refl _
  | case4 c s _ _ t rest e ih =>
    rw [e] at ih
    exact ih.trans (List.suffix_cons _ _)

theorem readDate_suffix (s : Text) : (readDate s).2 <:+ s := by
  fun_induction readDate s with
  | case1 => exact List.suffix_refl _
  | case2 s => exact List.suffix_cons _ _
  | case3 s => exact List.suffix_cons _ _
  | case4 c s => exact List.suffix_cons _ _
  | case5 c s _ _ _ _ r rest e ih =>
    rw [e] at ih
    exact ih.trans (List.suffix_cons _ _)
  | case6 c s => exact List.suffix_cons _ _

/-- Markup and its delimiter account for every character. -/
theorem readMarkup_length {read s t rest : Text} (h : readMarkup read s = (t, some rest)) :
    t.length + rest.length + 2 = read.length + s.length := by
  fun_induction readMarkup read s with
  | case1 => simp at h
  | case2 read s =>
    obtain ⟨rfl, rfl⟩ : read.reverse = t ∧ s = rest := by simpa using h
    simp only [List.length_reverse, List.length_cons]
    omega
  | case3 read c s _ ih =>
    have := ih h
    simp only [List.length_cons] at this ⊢
    omega

theorem readMarkup_length_of_none {read s t : Text} (h : readMarkup read s = (t, none)) :
    t.length = read.length + s.length := by
  fun_induction readMarkup read s with
  | case1 read =>
    obtain rfl : read.reverse = t := by simpa using h
    simp
  | case2 => simp at h
  | case3 read c s _ ih =>
    have := ih h
    simp only [List.length_cons] at this ⊢
    omega

def isMarkup : Lexeme → Bool
  | markup _ => true
  | _ => false

theorem isMarkup_readName (c : Char) (s : Text) : (readName c s).1.isMarkup = false := by
  simp only [readName]
  split <;> rfl

theorem isMarkup_readNumber (c : Char) (s : Text) : (readNumber c s).1.isMarkup = false := by
  simp only [readNumber]
  split <;> rfl

theorem isMarkup_readRadix? {s rest : Text} {l : Lexeme} (h : readRadix? s = some (l, rest)) :
    l.isMarkup = false := by
  unfold readRadix? at h
  split at h
  · obtain ⟨p, -, h⟩ := Option.bind_eq_some_iff.1 h
    split at h
    · obtain ⟨rfl, -⟩ := Prod.mk.inj (Option.some.inj h)
      rfl
    · simp at h
  · simp at h

theorem remark?_suffix {c : Char} {s rest : Text} (h : remark? (c :: s) = some rest) :
    rest <:+ s := by
  unfold remark? at h
  split at h
  · next b t e =>
    split at h
    · cases h
      simp only [Text.expect] at e
      split at e
      · exact (List.suffix_cons _ _).trans (@Text.expect_suffix ['e', 'm'] _ _ e)
      · simp at e
    · simp at h
  · simp at h

theorem readSymbol?_suffix {c : Char} {s rest : Text} {o : Operator}
    (h : readSymbol? c s = some (o, rest)) : rest <:+ s := by
  unfold readSymbol? at h
  split at h
  · cases h; exact List.suffix_cons _ _
  · cases h; exact List.suffix_cons _ _
  · cases h; exact List.suffix_cons _ _
  · cases h; exact List.suffix_cons _ _
  · simp only [Option.map_eq_some_iff, Prod.mk.injEq] at h
    obtain ⟨_, -, -, rfl⟩ := h
    exact List.suffix_refl _

end ClassicAsp.Lexeme
