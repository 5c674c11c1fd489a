import ClassicAsp.DateLiteral
import ClassicAsp.Include
import ClassicAsp.Lexeme
import ClassicAsp.Number

/-!
Tokens: lexemes with reserved words recognised and literals converted, and include directives
split out of the markup. Equal tokens mean the same, however they were written.
-/
namespace ClassicAsp

inductive Token where
  | statement (word : Statement)
  | function (name : Word functionNames)
  | keyword (name : Word keywordNames)
  | boolean (value : Bool)
  | constant (constant : NamedConstant)
  | identifier (name : Text)
  | string (text : Text)
  | integer (value : Int)
  | float (value : Binary64)
  | date (value : DateLiteral)
  | comment (text : Text)
  | markup (text : Text)
  | directive (directive : Directive)
  | operator (operator : Operator)
  | punctuation (c : Char)
  | lineEnd (lineEnd : LineEnd)
  /-- An underscore that carries the logical line on to the next. -/
  | continuation
  | endOfInput
  deriving DecidableEq

namespace Token

/-- Reserved words take precedence over names in this order of lists. -/
def ofName (s : Text) : Token :=
  if let some w := Statement.find? s then statement w
  else if let some f := Word.find? functionNames s then function f
  else if let some k := Word.find? keywordNames s then keyword k
  else if Text.sameWord "true".toList s then boolean true
  else if Text.sameWord "false".toList s then boolean false
  else if let some c := NamedConstant.find? s then constant c
  else identifier s

/-- The text that a token stands for: canonical for what has a canonical spelling, the value of
a literal without its marks, and the path of an include directive. -/
def text : Token → Text
  | statement w => w.spelling
  | function f => f.spelling
  | keyword k => k.spelling
  | boolean true => "True".toList
  | boolean false => "False".toList
  | constant c => c.name.spelling
  | identifier s | string s | comment s | markup s => s
  | integer i => Text.ofInt i
  | float x => x.positional
  | date d => d.write
  | directive d => d.path
  | operator o => o.spelling
  | punctuation c => [c]
  | lineEnd e => e.text
  | continuation => ['_']
  | endOfInput => []

/-- Markup and include directives stand outside the code delimiters. -/
def isMarkupLike : Token → Bool
  | markup _ | directive _ => true
  | _ => false

/-- The kinds of token that an inspector distinguishes. -/
inductive Category where
  | endOfInput | statement | function | keyword | boolean
  | constant (family : ConstantFamily)
  | identifier | string | integer | float | date | comment | markup | punctuation | lineEnd
  | operator | continuation
  | directive (kind : IncludeKind)
  deriving DecidableEq, Repr

def category : Token → Category
  | statement _ => .statement
  | function _ => .function
  | keyword _ => .keyword
  | boolean _ => .boolean
  | constant c => .constant c.family
  | identifier _ => .identifier
  | string _ => .string
  | integer _ => .integer
  | float _ => .float
  | date _ => .date
  | comment _ => .comment
  | markup _ => .markup
  | directive d => .directive d.kind
  | operator _ => .operator
  | punctuation _ => .punctuation
  | lineEnd _ => .lineEnd
  | continuation => .continuation
  | endOfInput => .endOfInput

def Category.name : Category → Text
  | endOfInput => "Eof".toList
  | statement => "Statement".toList
  | function => "Function".toList
  | keyword => "Keyword".toList
  | boolean => "Boolean".toList
  | constant f => f.name.toList ++ "Constant".toList
  | identifier => "Identifier".toList
  | string => "String".toList
  | integer => "Integer".toList
  | float => "Float".toList
  | date => "Date".toList
  | comment => "Comment".toList
  | markup => "Markup".toList
  | punctuation => "Punctuation".toList
  | lineEnd => "EndOfLine".toList
  | operator => "Operator".toList
  | continuation => "LineContinuation".toList
  | directive .file => "FileInclude".toList
  | directive .virtual => "VirtualInclude".toList

end Token

/-- What makes a page unreadable. -/
inductive Fault where
  | scan (error : ScanError)
  | invalidInteger (written : Text)
  | invalidFloat (written : Text)
  deriving DecidableEq

def Fault.message : Fault → Text
  | scan e => e.message
  | invalidInteger s => "invalid integer literal '".toList ++ s ++ ['\'']
  | invalidFloat s => "invalid float literal '".toList ++ s ++ ['\'']

structure PageError where
  fault : Fault
  line : Nat
  deriving DecidableEq

def PageError.message (e : PageError) : Text :=
  "line ".toList ++ Text.ofNat e.line ++ ':' :: ' ' :: e.fault.message

/-- A token together with the text it was written as, less the marks around a literal. -/
structure Spelled where
  token : Token
  written : Text
  deriving DecidableEq

def Segment.token : Segment → Token
  | markup s => .markup s
  | directive d _ => .directive d

def Segment.spelled (p : Segment) : Spelled := ⟨p.token, p.written⟩

def integer? (s : Text) : Except Fault Int :=
  match Integer.read? s with
  | some i => .ok i
  | none => .error (.invalidInteger s)

def float? (s : Text) : Except Fault Binary64 :=
  match Binary64.read? s with
  | some x => .ok x
  | none => .error (.invalidFloat s)

/-- The token of a lexeme. An underscore depends on what follows it, whether anything but blanks
is left on its line. -/
def Lexeme.token (atLineEnd : Bool) : Lexeme → Except Fault Token
  | markup s => .ok (.markup s)
  | identifier s => .ok (.ofName s)
  | operator o _ => .ok (.operator o)
  | string s => .ok (.string s)
  | integer s => (integer? s).map .integer
  | float s => (float? s).map .float
  | date s => .ok (.date (.read s))
  | comment s => .ok (.comment (Text.trim s))
  | punctuation c => .ok (if c = '_' ∧ atLineEnd then .continuation else .punctuation c)
  | lineEnd e => .ok (.lineEnd e)
  | endOfInput => .ok .endOfInput

end ClassicAsp
