import ClassicAsp.Text

/-!
The closed vocabularies of the script language. Every word has one canonical spelling and is
recognised in any ASCII case.
-/
namespace ClassicAsp

/-- Word lists are written down as strings. -/
def texts (list : List String) : List Text := list.map String.toList

/-- An entry of a word list, so that no other spelling can stand in its place. -/
structure Word (list : List Text) where
  spelling : Text
  listed : spelling ∈ list
  deriving DecidableEq

/-- The first entry that agrees with a text up to ASCII case. -/
def Word.find? (list : List Text) (s : Text) : Option (Word list) :=
  match h : list.find? (Text.sameWord · s) with
  | some w => some ⟨w, List.mem_of_find?_eq_some h⟩
  | none => none

/-- Reserved statement words. -/
inductive Statement where
  | byRef | byVal | call | case | class_ | const | default | dim | do_ | each | else_ | elseIf
  | end_ | erase | error | execute | executeGlobal | exit | explicit | for_ | function | get
  | goTo | if_ | in_ | let_ | loop | new | next | on | option | preserve | private_ | property
  | public_ | raise | randomize | reDim | rem | resume | select | set | step | stop | sub | then_
  | to_ | until_ | wend | while_ | with_
  deriving DecidableEq, Repr

namespace Statement

def all : List Statement :=
  [byRef, byVal, call, case, class_, const, default, dim, do_, each, else_, elseIf, end_, erase,
    error, execute, executeGlobal, exit, explicit, for_, function, get, goTo, if_, in_, let_,
    loop, new, next, on, option, preserve, private_, property, public_, raise, randomize, reDim,
    rem, resume, select, set, step, stop, sub, then_, to_, until_, wend, while_, with_]

def name : Statement → String
  | byRef => "ByRef" | byVal => "ByVal" | call => "Call" | case => "Case" | class_ => "Class"
  | const => "Const" | default => "Default" | dim => "Dim" | do_ => "Do" | each => "Each"
  | else_ => "Else" | elseIf => "ElseIf" | end_ => "End" | erase => "Erase" | error => "Error"
  | execute => "Execute" | executeGlobal => "ExecuteGlobal" | exit => "Exit"
  | explicit => "Explicit" | for_ => "For" | function => "Function" | get => "Get"
  | goTo => "GoTo" | if_ => "If" | in_ => "In" | let_ => "Let" | loop => "Loop" | new => "New"
  | next => "Next" | on => "On" | option => "Option" | preserve => "Preserve"
  | private_ => "Private" | property => "Property" | public_ => "Public" | raise => "Raise"
  | randomize => "Randomize" | reDim => "ReDim" | rem => "Rem" | resume => "Resume"
  | select => "Select" | set => "Set" | step => "Step" | stop => "Stop" | sub => "Sub"
  | then_ => "Then" | to_ => "To" | until_ => "Until" | wend => "Wend" | while_ => "While"
  | with_ => "With"

def spelling (w : Statement) : Text := w.name.toList

/-- The statement word that a text spells, in any case. -/
def find? (s : Text) : Option Statement :=
  all.find? fun w => Text.sameWord w.spelling s

theorem mem_all (w : Statement) : w ∈ all := by cases w <;> decide

end Statement

/-- Builtin functions. -/
def functionNames : List Text := texts [
  "Abs", "Array", "Asc", "Atn", "CBool", "CByte", "CCur", "CDate", "CDbl", "Chr", "CInt", "CLng",
  "Cos", "CreateObject", "CSng", "CStr", "Date", "DateAdd", "DateDiff", "DatePart", "DateSerial",
  "DateValue", "Day", "Escape", "Eval", "Exp", "Filter", "Fix", "FormatCurrency",
  "FormatDateTime", "FormatNumber", "FormatPercent", "GetLocale", "GetObject", "GetRef", "Hex",
  "Hour", "InputBox", "InStr", "InStrRev", "Int", "IsArray", "IsDate", "IsEmpty", "IsNull",
  "IsNumeric", "IsObject", "Join", "LBound", "LCase", "Left", "Len", "LoadPicture", "Log",
  "LTrim", "Mid", "Minute", "Month", "MonthName", "MsgBox", "Now", "Oct", "Replace", "RGB",
  "Right", "Rnd", "Round", "RTrim", "ScriptEngine", "ScriptEngineBuildVersion",
  "ScriptEngineMajorVersion", "ScriptEngineMinorVersion", "Second", "SetLocale", "Sgn", "Sin",
  "Space", "Split", "Sqr", "StrComp", "String", "StrReverse", "Tan", "Time", "Timer",
  "TimeSerial", "TimeValue", "Trim", "TypeName", "UBound", "UCase", "UnEscape", "VarType",
  "WeekDay", "WeekDayName", "Year"]

/-- The words for the absence of a value. -/
def keywordNames : List Text := texts ["Null", "Empty", "Nothing"]

/-- Operators, symbols first. The backslash also comes doubled. -/
inductive Operator where
  | power | times | divide | divideWhole | divideDoubled | plus | minus | concat | equal
  | unequal | atMost | atLeast | less | greater | mod | and | not | or | xor | eqv | imp | is
  deriving DecidableEq, Repr

namespace Operator

def all : List Operator :=
  [power, times, divide, divideWhole, divideDoubled, plus, minus, concat, equal, unequal, atMost,
    atLeast, less, greater, mod, and, not, or, xor, eqv, imp, is]

def name : Operator → String
  | power => "^" | times => "*" | divide => "/" | divideWhole => "\\" | divideDoubled => "\\\\"
  | plus => "+" | minus => "-" | concat => "&" | equal => "=" | unequal => "<>"
  | atMost => "<=" | atLeast => ">=" | less => "<" | greater => ">"
  | mod => "Mod" | and => "And" | not => "Not" | or => "Or" | xor => "Xor" | eqv => "Eqv"
  | imp => "Imp" | is => "Is"

def spelling (o : Operator) : Text := o.name.toList

def find? (s : Text) : Option Operator :=
  all.find? fun o => Text.sameWord o.spelling s

/-- The operators that are spelled like names. -/
def words : List Operator := [mod, and, not, or, xor, eqv, imp, is]

def findWord? (s : Text) : Option Operator :=
  words.find? fun o => Text.sameWord o.spelling s

/-- The characters that are operators by themselves. -/
def symbols : List Operator :=
  [power, times, divide, divideWhole, plus, minus, concat, equal, less, greater]

def ofChar? (c : Char) : Option Operator :=
  symbols.find? fun o => o.spelling == [c]

theorem mem_all (o : Operator) : o ∈ all := by cases o <;> decide

end Operator

/-- The families of named constants. -/
inductive ConstantFamily where
  | color | compare | date | dateFormat | misc | msgBox | string | tristate | varType
  deriving DecidableEq, Repr

namespace ConstantFamily

def all : List ConstantFamily :=
  [color, compare, date, dateFormat, misc, msgBox, string, tristate, varType]

def name : ConstantFamily → String
  | color => "Color" | compare => "Compare" | date => "Date" | dateFormat => "DateFormat"
  | misc => "Misc" | msgBox => "MsgBox" | string => "String" | tristate => "Tristate"
  | varType => "VarType"

def names : ConstantFamily → List Text
  | color => texts [
      "vbBlack", "vbRed", "vbGreen", "vbYellow", "vbBlue", "vbMagenta", "vbCyan", "vbWhite"]
  | compare => texts ["vbBinaryCompare", "vbTextCompare", "vbDatabaseCompare"]
  | date => texts [
      "vbSunday", "vbMonday", "vbTuesday", "vbWednesday", "vbThursday", "vbFriday", "vbSaturday",
      "vbUseSystemDayOfWeek", "vbFirstJan1", "vbFirstFourDays", "vbFirstFullWeek"]
  | dateFormat => texts [
      "vbGeneralDate", "vbLongDate", "vbShortDate", "vbLongTime", "vbShortTime"]
  | misc => texts ["vbObjectError"]
  | msgBox => texts [
      "vbOKOnly", "vbOKCancel", "vbAbortRetryIgnore", "vbYesNoCancel", "vbYesNo",
      "vbRetryCancel", "vbCritical", "vbQuestion", "vbExclamation", "vbInformation",
      "vbDefaultButton1", "vbDefaultButton2", "vbDefaultButton3", "vbDefaultButton4",
      "vbApplicationModal", "vbSystemModal", "vbOK", "vbCancel", "vbAbort", "vbRetry",
      "vbIgnore", "vbYes", "vbNo"]
  | string => texts [
      "vbCr", "vbCrLf", "vbFormFeed", "vbLf", "vbNewLine", "vbNullChar", "vbNullString", "vbTab",
      "vbVerticalTab"]
  | tristate => texts ["vbUseDefault", "vbTrue", "vbFalse"]
  | varType => texts [
      "vbEmpty", "vbNull", "vbInteger", "vbLong", "vbSingle", "vbDouble", "vbCurrency", "vbDate",
      "vbString", "vbObject", "vbError", "vbBoolean", "vbVariant", "vbDataObject", "vbDecimal",
      "vbByte", "vbArray"]

end ConstantFamily

/-- A named constant together with its family, since families share no list. -/
structure NamedConstant where
  family : ConstantFamily
  name : Word family.names
  deriving DecidableEq

/-- The families are searched in their order. -/
def NamedConstant.find? (s : Text) : Option NamedConstant :=
  ConstantFamily.all.findSome? fun f => (Word.find? f.names s).map (NamedConstant.mk f)

end ClassicAsp
