import ClassicAsp.Vocabulary

/-!
Lexemes, the pieces of a page before reserved words are told from names and before literals are
converted. A page alternates between markup and code: code stands between `<%` and `%>`.
-/
namespace ClassicAsp

/-- The side of the delimiters that is being read. -/
inductive Mode where
  | markup
  | code
  deriving DecidableEq, Repr

/-- A line of script ends with a newline, a statement on it also with a colon. -/
inductive LineEnd where
  | newline
  | separator
  deriving DecidableEq, Repr

/-- String, date and comment hold what stands between their marks, a doubled quote in a string
once. The other forms hold the text as it is written. -/
inductive Lexeme where
  | markup (text : Text)
  | identifier (name : Text)
  | operator (operator : Operator) (written : Text)
  | string (text : Text)
  | integer (digits : Text)
  | float (digits : Text)
  | date (text : Text)
  | comment (text : Text)
  | punctuation (c : Char)
  | lineEnd (lineEnd : LineEnd)
  | endOfInput
  deriving DecidableEq

def LineEnd.text : LineEnd → Text
  | newline => ['\n']
  | separator => [':']

def Lexeme.text : Lexeme → Text
  | markup s | identifier s | operator _ s | string s | integer s | float s | date s | comment s =>
    s
  | punctuation c => [c]
  | lineEnd e => e.text
  | endOfInput => []

inductive ScanError where
  | unterminatedString
  | delimiterInString
  | unterminatedDate
  | delimiterInDate
  | invalidDateChar (c : Char)
  deriving DecidableEq

def ScanError.message : ScanError → Text
  | unterminatedString => "unterminated string constant".toList
  | delimiterInString => "string contains %>".toList
  | unterminatedDate => "unterminated date constant".toList
  | delimiterInDate => "date contains %>".toList
  | invalidDateChar c => "invalid date character: '".toList ++ [c, '\'']

end ClassicAsp
