import ClassicAsp.Text

/-!
Numbers and their texts. Integer literals are decimal, or after a marker hexadecimal (`&H`) or
octal (`&O`), and have no value if they do not fit in 64 bits. Decimals have two written forms,
positional (`1500`, `0.0025`) and scientific (`1.5E21`), which show the significant digits only.
The binary floating-point numbers of 64 bits are in exact arithmetic: reading rounds to the nearest
number, ties going to the even one; printing takes the fewest digits that read back.
-/
namespace ClassicAsp

namespace Integer

def digitValue? (base : Nat) (c : Char) : Option Nat :=
  let v := if c.isDigit then some (c.toNat - '0'.toNat)
    else if 'a' ≤ c ∧ c ≤ 'z' then some (c.toNat - 'a'.toNat + 10)
    else none
  v.filter (· < base)

/-- The positional value of a sequence of digits; every character has to be a digit. -/
def magnitude? (base : Nat) (s : Text) : Option Nat :=
  s.foldlM (fun n c => (digitValue? base c).map (base * n + ·)) 0

/-- The range of 64 bits in two's complement. -/
def inRange (i : Int) : Bool := -0x8000000000000000 ≤ i && i < 0x8000000000000000

/-- At most one sign, then at least one digit. -/
def signed? (base : Nat) (s : Text) : Option Int :=
  let value : Option Int := match s with
    | [] | ['+'] | ['-'] => none
    | '-' :: s => (magnitude? base s).map fun n => -(n : Int)
    | '+' :: s => (magnitude? base s).map Int.ofNat
    | s => (magnitude? base s).map Int.ofNat
  value.filter inRange

def read? (s : Text) : Option Int :=
  match Text.lower s with
  | '&' :: 'h' :: s => signed? 16 s
  | '&' :: 'o' :: s => signed? 8 s
  | s => signed? 10 s

end Integer

/-- The number `coefficient * 10 ^ exponent`. -/
structure Decimal where
  coefficient : Nat
  exponent : Int
  deriving DecidableEq, Repr

namespace Decimal

/-- Splits a sign from the front; no sign means a positive number. -/
def sign : Text → Bool × Text
  | '-' :: s => (true, s)
  | '+' :: s => (false, s)
  | s => (false, s)

/-- The value of the digits of an exponent. Once it is as large as this limit, digits no longer
count; no number of usual length is in range with such an exponent. -/
def exponentOf (digits : Text) : Nat :=
  digits.foldl (fun n c => if n < 0x10000 then 10 * n + (c.toNat - '0'.toNat) else n) 0

/-- An exponent takes the rest of the text, and has at least one digit. -/
def readExponent? : Text → Option Int
  | [] => some 0
  | c :: s =>
    if c = 'e' ∨ c = 'E' then
      let (negative, digits) := sign s
      if digits ≠ [] ∧ digits.all Char.isDigit then
        let n : Int := exponentOf digits
        some (if negative then -n else n)
      else none
    else none

/-- Reads a magnitude: digits with at most one point among them, then an exponent if any. -/
def read? (s : Text) : Option Decimal :=
  let whole := s.takeWhile Char.isDigit
  let (fraction, rest) := match s.dropWhile Char.isDigit with
    | '.' :: s => (s.takeWhile Char.isDigit, s.dropWhile Char.isDigit)
    | s => ([], s)
  if whole ++ fraction = [] then none
  else (readExponent? rest).map fun e =>
    ⟨Nat.ofDigitChars 10 (whole ++ fraction) 0, e - fraction.length⟩

def digits (d : Decimal) : Text := Nat.toDigits 10 d.coefficient

/-- The digits up to the last that is not zero; none at all for zero. -/
def significant (d : Decimal) : Text :=
  (d.digits.reverse.dropWhile (· == '0')).reverse

/-- How many digits stand before the point; not positive when zeros follow the point. -/
def point (d : Decimal) : Int := d.digits.length + d.exponent

/-- What the last digit counts when a decimal is cut after its first `n`, in units of the last of
all its digits. -/
def cutUnit (d : Decimal) (n : Nat) : Nat := Nat.pow 10 (d.digits.length - n)

/-- The decimal of the first `n` digits. -/
def cut (d : Decimal) (n : Nat) : Decimal :=
  ⟨d.coefficient / d.cutUnit n, d.exponent + (d.digits.length - n : Nat)⟩

/-- The next decimal with the same exponent. -/
def succ (d : Decimal) : Decimal := ⟨d.coefficient + 1, d.exponent⟩

/-- The two decimals of `n` digits around a decimal, the nearer one first. The higher one wins a
tie. -/
def neighbours (d : Decimal) (n : Nat) : List Decimal :=
  if d.cutUnit n ≤ 2 * (d.coefficient % d.cutUnit n) then [(d.cut n).succ, d.cut n]
  else [d.cut n, (d.cut n).succ]

def zeros (n : Nat) : Text := List.replicate n '0'

def positional (d : Decimal) : Text :=
  let s := d.significant
  if s = [] then ['0']
  else if d.point ≤ 0 then '0' :: '.' :: (zeros (-d.point).toNat ++ s)
  else if s.length ≤ d.point then s ++ zeros (d.point - s.length).toNat
  else s.take d.point.toNat ++ '.' :: s.drop d.point.toNat

/-- One digit before the point, and the exponent without sign or padding unless negative. -/
def scientific (d : Decimal) : Text :=
  match d.significant with
  | [] => ['0', 'E', '0']
  | [c] => c :: 'E' :: Text.ofInt (d.point - 1)
  | c :: s => c :: '.' :: (s ++ 'E' :: Text.ofInt (d.point - 1))

end Decimal

/-- The positions from one power of two to the next, two to the power of 52. -/
def Binary64.binade : Nat := 0x10000000000000

/-- One past the position of the largest magnitude. -/
def Binary64.limit : Nat := 2047 * binade

/-- A sign and the position among the finite magnitudes in increasing order, which is also the
bit pattern without its sign. Neighbours in the order differ by one, and an even position has an
even significand. -/
structure Binary64 where
  negative : Bool
  position : Nat
  finite : position < Binary64.limit
  deriving DecidableEq

namespace Binary64

/-- The least positive magnitude is `2 ^ -unitBits`. -/
def unitBits : Nat := 1074

/-- The magnitude counted in least positive magnitudes. The count is the position through the
first two binades; from there each binade doubles the distance between neighbours. -/
def units (x : Binary64) : Nat :=
  let shift := x.position / binade - 1
  (x.position - shift * binade) * Nat.pow 2 shift

/-- The nearest natural number to a quotient; of two, the even one. -/
def roundDiv (num den : Nat) : Nat :=
  let q := num / den
  let r := num % den
  if 2 * r < den ∨ (2 * r = den ∧ q % 2 = 0) then q else q + 1

/-- The position nearest to `num / den` units. Rounding a significand up to the next power of two
runs on into the first position of the next binade. -/
def nearestPosition (num den : Nat) : Nat :=
  let shift := Nat.log2 (num / den) - 52
  shift * binade + roundDiv num (den * Nat.pow 2 shift)

/-- A decimal far above or below all magnitudes is settled by its number of digits, so that the
size of its exponent costs nothing. -/
def positionOf (d : Decimal) : Nat :=
  if d.coefficient = 0 ∨ d.point < -330 then 0
  else if 310 < d.point then limit
  else nearestPosition (d.coefficient * Nat.pow 10 d.exponent.toNat * Nat.pow 2 unitBits)
    (Nat.pow 10 (-d.exponent).toNat)

/-- The number nearest to a decimal, if that is not past the largest one. -/
def ofDecimal? (negative : Bool) (d : Decimal) : Option Binary64 :=
  if h : positionOf d < limit then some ⟨negative, positionOf d, h⟩ else none

def read? (s : Text) : Option Binary64 :=
  let (negative, s) := Decimal.sign s
  (Decimal.read? s).bind (ofDecimal? negative)

/-- The magnitude as a decimal, every digit of it. -/
def exact (x : Binary64) : Decimal :=
  ⟨x.units * Nat.pow 5 unitBits, -(unitBits : Int)⟩

def readsBack (x : Binary64) (d : Decimal) : Bool := positionOf d == x.position

/-- The nearest to the magnitude of the decimals of `n` digits around it which read back. -/
def candidate? (x : Binary64) (n : Nat) : Option Decimal :=
  (x.exact.neighbours n).find? x.readsBack

/-- The fewest digits that read back. Seventeen always do; all digits are the last resort. -/
def shortest (x : Binary64) : Decimal :=
  ((List.range 17).findSome? fun n => x.candidate? (n + 1)).getD x.exact

def signed (x : Binary64) (s : Text) : Text := if x.negative then '-' :: s else s

def positional (x : Binary64) : Text := x.signed x.shortest.positional

def scientific (x : Binary64) : Text := x.signed x.shortest.scientific

/-- Whether the magnitude is at least `10 ^ n`. -/
def reaches (x : Binary64) (n : Nat) : Bool :=
  Nat.pow 10 n * Nat.pow 2 unitBits ≤ x.units

end Binary64

end ClassicAsp
