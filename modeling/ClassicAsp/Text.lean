/-!
Page text is a list of characters. Script words compare without regard to ASCII case; no other
letter has a second case here.
-/
namespace ClassicAsp

abbrev Text := List Char

/-- Sets of characters by ranges of code points, each from its first to its last. -/
structure CharSet where
  ranges : List (Nat × Nat)

def CharSet.contains (s : CharSet) (c : Char) : Bool :=
  s.ranges.any fun r => r.1 ≤ c.toNat && c.toNat ≤ r.2

/-- The Unicode property White_Space. -/
def whiteSpace : CharSet where
  ranges := [(0x9, 0xd), (0x20, 0x20), (0x85, 0x85), (0xa0, 0xa0), (0x1680, 0x1680),
    (0x2000, 0x200a), (0x2028, 0x2029), (0x202f, 0x202f), (0x205f, 0x205f), (0x3000, 0x3000)]

def isSpace (c : Char) : Bool := whiteSpace.contains c

/-- The vertical tab is white space but not an ASCII blank. -/
def isAsciiBlank (c : Char) : Bool :=
  c == ' ' || c == '\t' || c == '\n' || c == '\x0c' || c == '\r'

namespace Text

def lower (s : Text) : Text := s.map Char.toLower

/-- Equal up to ASCII case, decided at the first character that differs. -/
def sameWord : Text → Text → Bool
  | [], [] => true
  | a :: s, b :: t => a.toLower == b.toLower && sameWord s t
  | _, _ => false

theorem sameWord_iff (s t : Text) : sameWord s t = true ↔ lower s = lower t := by
  induction s generalizing t with
  | nil => cases t <;> simp [sameWord, lower]
  | cons a s ih =>
    cases t with
    | nil => simp [sameWord, lower]
    | cons b t =>
      simp only [sameWord, Bool.and_eq_true, beq_iff_eq, ih]
      simp [lower]

/-- What follows `word` at the front of a text, where `word` may be spelled in any case. -/
def expect : Text → Text → Option Text
  | [], s => some s
  | a :: word, b :: s => if a.toLower = b.toLower then expect word s else none
  | _ :: _, [] => none

theorem expect_suffix {word s rest : Text} (h : expect word s = some rest) : rest <:+ s := by
  fun_induction expect word s with
  | case1 s => simp_all
  | case2 a word b s _ ih => exact (ih h).trans (List.suffix_cons _ _)
  | case3 => simp at h
  | case4 => simp at h

theorem expect_length {word s rest : Text} (h : expect word s = some rest) :
    rest.length + word.length = s.length := by
  fun_induction expect word s with
  | case1 s => simp_all
  | case2 a word b s _ ih => simp only [List.length_cons, ← ih h]; omega
  | case3 => simp at h
  | case4 => simp at h

def newlines (s : Text) : Nat := s.count '\n'

@[simp] theorem newlines_append (s t : Text) : newlines (s ++ t) = newlines s + newlines t :=
  List.count_append

/-- The pieces of a text whose current piece has been read, in reverse, as far as `piece`. -/
def piecesFrom (separator : Char) (piece : Text) : Text → List Text
  | [] => [piece.reverse]
  | c :: s =>
    if c = separator then piece.reverse :: piecesFrom separator [] s
    else piecesFrom separator (c :: piece) s

/-- What stands between the separators; a text without one is a single piece. -/
def pieces (separator : Char) (s : Text) : List Text := piecesFrom separator [] s

def lines (s : Text) : List Text := pieces '\n' s

def ofNat (n : Nat) : Text := Nat.toDigits 10 n

def ofInt (i : Int) : Text :=
  if i < 0 then '-' :: ofNat i.natAbs else ofNat i.natAbs

def trimStart (s : Text) : Text := s.dropWhile isSpace

def trim (s : Text) : Text := (trimStart (trimStart s).reverse).reverse

/-- Quotes inside of a string constant are written twice. -/
def doubleQuotes (s : Text) : Text :=
  s.flatMap fun c => if c = '"' then ['"', '"'] else [c]

def quote (s : Text) : Text := '"' :: (doubleQuotes s ++ ['"'])

@[simp] theorem doubleQuotes_nil : doubleQuotes [] = [] := rfl

theorem doubleQuotes_cons (c : Char) (s : Text) :
    doubleQuotes (c :: s) = (if c = '"' then ['"', '"'] else [c]) ++ doubleQuotes s := by
  simp [doubleQuotes]

end Text

end ClassicAsp
