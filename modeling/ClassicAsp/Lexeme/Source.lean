import ClassicAsp.Lexeme.Literal

/-!
A page that is being read, one lexeme at a time. Main statement: every call that does not report
the end of input makes the source smaller, so that reading on, even past errors, comes to an end.
-/
namespace ClassicAsp

/-- The unread part of a page. Reading is over once the end has been met: markup that ends the
page is a lexeme, even when empty, and is read once. -/
structure Source where
  mode : Mode
  rest : Text
  ended : Bool := false
  deriving DecidableEq

namespace Source

def ofText (mode : Mode) (s : Text) : Source := { mode := mode, rest := s }

/-- White space that separates lexemes. A newline is a lexeme itself. -/
def isSeparator (c : Char) : Bool := isSpace c && c != '\n'

/-- The lexeme of a script that starts with `c`. The forms are tried in this order, so a name
starting with an `r` may still be a comment, and an ampersand may start a number. -/
def lexeme (c : Char) (s : Text) : Except ScanError Lexeme × Text :=
  if let some t := Lexeme.remark? (c :: s) then
    let (body, rest) := Lexeme.readComment t
    (.ok (.comment body), rest)
  else if isAlphabetic c || (c == '.' && s.head?.any isAlphabetic) then
    let (l, rest) := Lexeme.readName c s
    (.ok l, rest)
  else if c.isDigit then
    let (l, rest) := Lexeme.readNumber c s
    (.ok l, rest)
  else if let some (l, rest) := Lexeme.readRadix? (c :: s) then (.ok l, rest)
  else if c = '\n' then (.ok (.lineEnd .newline), s)
  else if c = ':' then (.ok (.lineEnd .separator), s)
  else if c = '"' then
    let (r, rest) := Lexeme.readString s
    (r.map .string, rest)
  else if c = '\'' then
    let (body, rest) := Lexeme.readComment s
    (.ok (.comment body), rest)
  else if c = '#' then
    let (r, rest) := Lexeme.readDate s
    (r.map .date, rest)
  else match Lexeme.readSymbol? c s with
    | some (o, rest) => (.ok (.operator o o.spelling), rest)
    | none => (.ok (.punctuation c), s)

def nextMarkup (s : Text) : Except ScanError Lexeme × Source :=
  match Lexeme.readMarkup [] s with
  | (text, some rest) => (.ok (.markup text), ofText .code rest)
  | (text, none) => (.ok (.markup text), { mode := .markup, rest := [], ended := true })

/-- The delimiter that closes code is not a lexeme; the markup behind it is. -/
def nextCode (s : Text) : Except ScanError Lexeme × Source :=
  match s.dropWhile isSeparator with
  | [] => (.ok .endOfInput, { mode := .code, rest := [], ended := true })
  | '%' :: '>' :: s => nextMarkup s
  | c :: s =>
    let (r, rest) := lexeme c s
    (r, ofText .code rest)

/-- Reads one lexeme. After an error the source stands behind the last character it looked at. -/
def next (s : Source) : Except ScanError Lexeme × Source :=
  if s.ended then (.ok .endOfInput, s)
  else match s.mode with
    | .markup => nextMarkup s.rest
    | .code => nextCode s.rest

/-- Whether only blanks are left before the next newline or the end. -/
def atLineEnd (s : Source) : Bool :=
  (s.rest.dropWhile fun c => c == ' ' || c == '\t' || c == '\r').head?.all (· == '\n')

/-- The unread characters, and one more as long as the end has not been met. -/
def size (s : Source) : Nat := s.rest.length + if s.ended then 0 else 1

@[simp] theorem size_ofText (mode : Mode) (s : Text) : (ofText mode s).size = s.length + 1 := rfl

theorem lexeme_suffix (c : Char) (s : Text) : (lexeme c s).2 <:+ s := by
  unfold lexeme
  split
  · next t e => exact (Lexeme.readComment_suffix t).trans (Lexeme.remark?_suffix e)
  split
  · exact Lexeme.readName_suffix c s
  split
  · exact Lexeme.readNumber_suffix c s
  split
  · next e => exact Lexeme.readRadix?_suffix e
  split
  · exact List.suffix_refl _
  split
  · exact List.suffix_refl _
  split
  · exact Lexeme.readString_suffix s
  split
  · exact Lexeme.readComment_suffix s
  split
  · exact Lexeme.readDate_suffix s
  split
  · next e => exact Lexeme.readSymbol?_suffix e
  · exact List.suffix_refl _

/-- What a call takes up at least: markup is split later, at most once per character. -/
def weight : Except ScanError Lexeme → Nat
  | .ok (.markup text) => max 1 text.length
  | .ok .endOfInput => 0
  | _ => 1

theorem size_nextMarkup (s : Text) :
    (nextMarkup s).2.size + weight (nextMarkup s).1 ≤ s.length + 1 := by
  unfold nextMarkup
  split
  · next text rest e =>
    have := Lexeme.readMarkup_length e
    simp only [size_ofText, weight, List.length_nil] at this ⊢
    omega
  · next text e =>
    have := Lexeme.readMarkup_length_of_none e
    simp only [size, weight, List.length_nil, if_true] at this ⊢
    omega

theorem isMarkup_lexeme {c : Char} {s : Text} {l : Lexeme} (h : (lexeme c s).1 = .ok l) :
    l.isMarkup = false := by
  unfold lexeme at h
  split at h
  · cases h; rfl
  split at h
  · cases h; exact Lexeme.isMarkup_readName c s
  split at h
  · cases h; exact Lexeme.isMarkup_readNumber c s
  split at h
  · next e => cases h; exact Lexeme.isMarkup_readRadix? e
  split at h
  · cases h; rfl
  split at h
  · cases h; rfl
  split at h
  · cases e : (Lexeme.readString s).1 with
    | error => simp [e, Except.map] at h
    | ok t => simp only [e, Except.map] at h; cases h; rfl
  split at h
  · cases h; rfl
  split at h
  · cases e : (Lexeme.readDate s).1 with
    | error => simp [e, Except.map] at h
    | ok t => simp only [e, Except.map] at h; cases h; rfl
  split at h
  · cases h; rfl
  · cases h; rfl

theorem weight_lexeme (c : Char) (s : Text) : weight (lexeme c s).1 ≤ 1 := by
  cases h : (lexeme c s).1 with
  | error => exact Nat.le_refl _
  | ok l =>
    have := isMarkup_lexeme h
    cases l <;> simp_all [weight, Lexeme.isMarkup]

theorem size_nextCode (s : Text) :
    (nextCode s).2.size + weight (nextCode s).1 ≤ s.length + 1 := by
  have h := (@List.dropWhile_suffix _ s isSeparator).length_le
  unfold nextCode
  split
  · simp [size, weight]
  · next t e =>
    rw [e] at h
    simp only [List.length_cons] at h
    have := size_nextMarkup t
    omega
  · next c t _ e =>
    rw [e] at h
    have := (lexeme_suffix c t).length_le
    have := weight_lexeme c t
    simp only [List.length_cons] at h
    simp only [size_ofText]
    omega

/-- Each call takes its weight from the size, so only the report of the end can leave it. -/
theorem size_next (s : Source) : s.next.2.size + weight s.next.1 ≤ s.size := by
  unfold next
  split
  · simp [weight]
  · next h =>
    have hs : s.size = s.rest.length + 1 := by simp [size, h]
    split
    · have := size_nextMarkup s.rest
      omega
    · have := size_nextCode s.rest
      omega

def reportsEnd : Except ScanError Lexeme → Bool
  | .ok .endOfInput => true
  | _ => false

theorem weight_pos {r : Except ScanError Lexeme} (h : reportsEnd r = false) : 0 < weight r := by
  unfold weight
  split
  · omega
  · simp [reportsEnd] at h
  · omega

/-- All calls up to the first that reports the end, each with the source it leaves. -/
def calls (s : Source) : List (Except ScanError Lexeme × Source) :=
  match h : s.next with
  | (r, rest) =>
    if hr : reportsEnd r then [(r, rest)]
    else
      have : rest.size < s.size := by
        have := size_next s
        have := weight_pos (Bool.eq_false_iff.2 hr)
        simp only [h] at *
        omega
      (r, rest) :: calls rest
termination_by s.size

end Source

end ClassicAsp
