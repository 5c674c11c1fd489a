import ClassicAsp.Text

/-!
Date literals. Dates are loosely typed in scripts: the text between the marks is tried against a
few layouts, and a text that fits none of them is kept as it is. Every value is written in one
layout per shape, which is among those that are read. Days are those of the proleptic Gregorian
calendar.
-/
namespace ClassicAsp

def isLeapYear (year : Int) : Bool :=
  year % 4 == 0 && (year % 100 != 0 || year % 400 == 0)

def daysInMonth (year : Int) (month : Nat) : Nat :=
  if month == 2 then if isLeapYear year then 29 else 28
  else if month == 4 || month == 6 || month == 9 || month == 11 then 30
  else 31

/-- The calendar covers about a quarter of a million years to either side. -/
def isDay (year : Int) (month day : Nat) : Bool :=
  -262143 ≤ year && year ≤ 262142 && 1 ≤ month && month ≤ 12 &&
    1 ≤ day && day ≤ daysInMonth year month

structure CivilDate where
  year : Int
  month : Nat
  day : Nat
  valid : isDay year month day = true
  deriving DecidableEq

/-- A minute may close with a leap second. -/
def isTime (hour minute second : Nat) : Bool := hour < 24 && minute < 60 && second ≤ 60

structure ClockTime where
  hour : Nat
  minute : Nat
  second : Nat
  valid : isTime hour minute second = true
  deriving DecidableEq

inductive DateLiteral where
  | dateTime (date : CivilDate) (time : ClockTime)
  | date (date : CivilDate)
  | time (time : ClockTime)
  | text (text : Text)
  deriving DecidableEq

namespace DateLiteral

/-- A piece of a layout. -/
inductive Piece where
  | year | month | monthName | day | hour | hourOfHalf | minute | second
  /-- Either `AM` or `PM`. -/
  | half
  | mark (c : Char)
  /-- Any white space when read, none included; one space when written. -/
  | blank
  deriving DecidableEq, Repr

/-- The numbers a layout has read or is to write. They need not form a day or a time. -/
structure Numbers where
  year : Int := 0
  month : Nat := 0
  day : Nat := 0
  hour : Nat := 0
  minute : Nat := 0
  second : Nat := 0
  deriving DecidableEq, Repr

def monthNames : List Text :=
  (["jan", "feb", "mar", "apr", "may", "jun", "jul", "aug", "sep", "oct", "nov", "dec"]
    : List String).map String.toList

def leadingDigits (s : Text) : Option (Nat × Text) :=
  let digits := s.takeWhile Char.isDigit
  if digits = [] then none
  else some (Nat.ofDigitChars 10 digits 0, s.dropWhile Char.isDigit)

/-- A number takes no more digits than its width, also where more follow. -/
def number? (width : Nat) (s : Text) : Option (Nat × Text) :=
  (leadingDigits (s.take width)).map fun (n, left) => (n, left ++ s.drop width)

/-- Four digits at most, or as many as there are after a sign. -/
def year? : Text → Option (Int × Text)
  | '-' :: s => (leadingDigits s).map fun (n, s) => (-(n : Int), s)
  | '+' :: s => (leadingDigits s).map fun (n, s) => ((n : Int), s)
  | s => (number? 4 s).map fun (n, s) => ((n : Int), s)

def monthName? (s : Text) : Option (Nat × Text) :=
  let i := monthNames.idxOf (Text.lower (s.take 3))
  if i < 12 then some (i + 1, s.drop 3) else none

/-- White space may stand before any number. -/
def Piece.read (n : Numbers) (s : Text) : Piece → Option (Numbers × Text)
  | year => (year? (Text.trimStart s)).map fun (v, s) => ({ n with year := v }, s)
  | month => (number? 2 (Text.trimStart s)).map fun (v, s) => ({ n with month := v }, s)
  | monthName => (monthName? s).map fun (v, s) => ({ n with month := v }, s)
  | day => (number? 2 (Text.trimStart s)).map fun (v, s) => ({ n with day := v }, s)
  | hour => (number? 2 (Text.trimStart s)).map fun (v, s) => ({ n with hour := v }, s)
  | hourOfHalf => (number? 2 (Text.trimStart s)).bind fun (v, s) =>
      if 1 ≤ v ∧ v ≤ 12 then some ({ n with hour := v % 12 }, s) else none
  | minute => (number? 2 (Text.trimStart s)).map fun (v, s) => ({ n with minute := v }, s)
  | second => (number? 2 (Text.trimStart s)).map fun (v, s) => ({ n with second := v }, s)
  | half =>
    match Text.lower (s.take 2) with
    | ['a', 'm'] => some (n, s.drop 2)
    | ['p', 'm'] => some ({ n with hour := n.hour + 12 }, s.drop 2)
    | _ => none
  | mark c =>
    match s with
    | a :: s => if a = c then some (n, s) else none
    | [] => none
  | blank => some (n, Text.trimStart s)

/-- Reads the pieces in turn; nothing may be left over. -/
def readPieces (n : Numbers) (s : Text) : List Piece → Option Numbers
  | [] => if s = [] then some n else none
  | p :: ps => (p.read n s).bind fun (n, s) => readPieces n s ps

def padded (width n : Nat) : Text :=
  let digits := Text.ofNat n
  List.replicate (width - digits.length) '0' ++ digits

/-- A year of more or fewer than four digits needs its sign to be read back. -/
def yearText (year : Int) : Text :=
  if year < 0 then '-' :: padded 4 year.natAbs
  else if 9999 < year then '+' :: padded 4 year.natAbs
  else padded 4 year.natAbs

def Piece.write (n : Numbers) : Piece → Text
  | year => yearText n.year
  | month => padded 2 n.month
  | monthName => monthNames.getD (n.month - 1) []
  | day => padded 2 n.day
  | hour => padded 2 n.hour
  | hourOfHalf => padded 2 (if n.hour % 12 = 0 then 12 else n.hour % 12)
  | minute => padded 2 n.minute
  | second => padded 2 n.second
  | half => if n.hour < 12 then ['A', 'M'] else ['P', 'M']
  | mark c => [c]
  | blank => [' ']

/-- As in `31-Dec-1999`. -/
def namedDay : List Piece := [.day, .mark '-', .monthName, .mark '-', .year]

/-- As in `1999-12-31`. -/
def yearFirst : List Piece := [.year, .mark '-', .month, .mark '-', .day]

/-- As in `12/31/1999`. -/
def monthFirst : List Piece := [.month, .mark '/', .day, .mark '/', .year]

/-- As in `12-31-1999`. -/
def monthFirstDashed : List Piece := [.month, .mark '-', .day, .mark '-', .year]

/-- As in `21:26:00`. -/
def clock : List Piece := [.hour, .mark ':', .minute, .mark ':', .second]

/-- As in `9:26:00 PM`. -/
def halfDayClock : List Piece :=
  [.hourOfHalf, .mark ':', .minute, .mark ':', .second, .blank, .half]

def Numbers.date? (n : Numbers) : Option CivilDate :=
  if h : isDay n.year n.month n.day = true then some ⟨n.year, n.month, n.day, h⟩ else none

def Numbers.time? (n : Numbers) : Option ClockTime :=
  if h : isTime n.hour n.minute n.second = true then some ⟨n.hour, n.minute, n.second, h⟩ else none

def readDateTime? (layout : List Piece) (s : Text) : Option DateLiteral :=
  (readPieces {} s layout).bind fun n =>
    n.date?.bind fun d => n.time?.map fun t => .dateTime d t

def readDate? (layout : List Piece) (s : Text) : Option DateLiteral :=
  (readPieces {} s layout).bind fun n => n.date?.map .date

def readTime? (layout : List Piece) (s : Text) : Option DateLiteral :=
  (readPieces {} s layout).bind fun n => n.time?.map .time

/-- The readers in their order; the first that succeeds decides the value. -/
def readers : List (Text → Option DateLiteral) :=
  [readDateTime? (namedDay ++ .blank :: clock), readDateTime? (yearFirst ++ .blank :: clock),
    readDateTime? (monthFirst ++ .blank :: halfDayClock), readDate? namedDay,
    readDate? yearFirst, readDate? monthFirst, readDate? monthFirstDashed, readTime? clock]

/-- The white space around a value is not part of it, but it stays with a text that has none. -/
def read (s : Text) : DateLiteral :=
  (readers.findSome? fun r => r (Text.trim s)).getD (.text s)

def ofDate (d : CivilDate) : Numbers := { year := d.year, month := d.month, day := d.day }

def writePieces (n : Numbers) (layout : List Piece) : Text := layout.flatMap (Piece.write n)

def write : DateLiteral → Text
  | .dateTime d t =>
    writePieces { ofDate d with hour := t.hour, minute := t.minute, second := t.second }
      (monthFirst ++ .blank :: halfDayClock)
  | .date d => writePieces (ofDate d) monthFirst
  | .time t => writePieces { hour := t.hour, minute := t.minute, second := t.second } clock
  | .text s => s

end DateLiteral

end ClassicAsp
