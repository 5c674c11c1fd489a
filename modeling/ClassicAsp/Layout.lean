import ClassicAsp.Token

/-!
The state of a page being laid out, which is the depth of the open blocks and what the tokens before
the next one leave for it to settle, and writing one token: the text it adds and the state it
leaves. Blocks are indented by tabs, words are set one space apart, and a block closer (`End` with
a word) is written as one.
-/
namespace ClassicAsp

/-- The token before, as far as spacing and depth depend on it. -/
inductive Lookback where
  | start
  | statement (word : Statement)
  /-- A block closer, `End` with the word of its block. -/
  | endStatement (word : Statement)
  | operator
  | markup
  | punctuation (c : Char)
  | other
  deriving DecidableEq, Repr

namespace Lookback

def ofToken : Token → Lookback
  | .statement w => statement w
  | .operator _ => operator
  | .punctuation c => punctuation c
  | .markup _ | .directive _ => markup
  | _ => other

/-- Punctuation stands apart from words and operators, and close to anything else. -/
def spacesPunctuation : Lookback → Bool
  | statement _ | endStatement _ | operator => true
  | _ => false

end Lookback

/-- Everything between two tokens that the second depends on. -/
structure Layout where
  /-- Open blocks, and the lines that a continuation has indented. -/
  depth : Nat := 0
  atLineStart : Bool := true
  previous : Lookback := .start
  /-- The token before opened a parenthesis, so no space follows. -/
  afterParen : Bool := false
  /-- Markup was written as it is, so code has to be opened again before the next script. -/
  owesCode : Bool := false
  /-- A separator began this line in the middle of another, so it gets no tabs. -/
  noTabs : Bool := false
  /-- A continuation has indented this line, and this line alone. -/
  continued : Bool := false
  deriving DecidableEq, Repr

namespace Layout

def indent (s : Layout) : Layout := { s with depth := s.depth + 1 }

/-- Never below the outermost level. -/
def dedent (s : Layout) : Layout := { s with depth := s.depth - 1 }

/-- Whether a parenthesis is open right before, which is forgotten. -/
def takeParen (s : Layout) : Bool × Layout := (s.afterParen, { s with afterParen := false })

def endLine (s : Layout) : Layout := { s with atLineStart := true }

/-- The tabs of a line have been written, so what concerned them alone is settled. -/
def beginLine (s : Layout) : Layout :=
  { s with
    atLineStart := false
    noTabs := false
    afterParen := false
    continued := false
    depth := if s.continued then s.depth - 1 else s.depth }

def previousIs (s : Layout) (w : Statement) : Bool := s.previous == .statement w

end Layout

/-- What becomes of the markup between stretches of code. -/
inductive OutputMode where
  /-- Markup is kept, outside the delimiters. -/
  | normal
  /-- Markup is printed by statements, so that a page is one stretch of code. -/
  | rewrite
  deriving DecidableEq, Repr

structure Options where
  output : OutputMode := .normal
  initialMode : Mode := .markup
  /-- The statement that prints rewritten markup. -/
  printStatement : Text := "Response.Write".toList
  /-- The expression between the lines of rewritten markup. -/
  lineJoin : Text := "vbCrLf".toList
  deriving DecidableEq

def Options.rewrites (o : Options) : Bool := o.output == .rewrite

/-- The text of one token: the delimiters that change sides before it, the blanks between them,
and its body. -/
structure Written where
  opens : Bool := false
  gap : Text := []
  closes : Bool := false
  body : Text
  deriving DecidableEq

def Written.text (w : Written) : Text :=
  (if w.opens then ['<', '%'] else []) ++ w.gap ++ (if w.closes then ['%', '>'] else []) ++ w.body

def tabs (n : Nat) : Text := List.replicate n '\t'

def Statement.dedents : Statement → Bool
  | else_ | elseIf | case | wend | next | loop => true
  | _ => false

namespace Token

/-- A token that closes the block above when it begins a line. -/
def dedents : Token → Bool
  | statement w => w.dedents
  | _ => false

/-- After `Then`, any token but these is the body of an `If` on a single line. -/
def isInlineBody : Token → Bool
  | lineEnd _ | comment _ | markup _ | directive _ => false
  | _ => true

end Token

namespace Layout

/-- Whether a statement word opens a block, which depends on the word before it and on where its
line begins. -/
def opensBlock (s : Layout) : Statement → Bool
  | .if_ | .function | .sub | .class_ | .property | .for_ | .with_ | .case | .do_ =>
    !s.previousIs .exit
  | .while_ => !(s.previousIs .exit || s.previousIs .do_ || s.previousIs .loop)
  | .elseIf => s.atLineStart
  | .else_ => s.atLineStart && !s.previousIs .case
  | _ => false

/-- Whether the line that a token begins is written without tabs. -/
def skipsTabs (o : Options) (s : Layout) (t : Token) : Bool :=
  s.noTabs || t == .lineEnd .newline ||
    if o.rewrites then t.isMarkupLike else s.previous == .markup

/-- The depth at which a token that begins a line is written. -/
def lineDepth (s : Layout) (t : Token) : Nat := if t.dedents then s.depth - 1 else s.depth

/-- What a token settles before it is written. -/
def settle (s : Layout) (t : Token) : Layout :=
  let s := { s with owesCode := s.owesCode && t.isMarkupLike }
  let s := if s.atLineStart then (if t.dedents then s.dedent else s).beginLine else s.takeParen.2
  if s.previousIs .then_ && t.isInlineBody then s.dedent else s

/-- The state that a token leaves. -/
def after (o : Options) (s : Layout) (t : Token) : Layout :=
  let next := s.settle t
  let next := match t with
    | .statement w => if s.opensBlock w then next.indent else next
    | .punctuation c => if c = '(' then { next with afterParen := true } else next
    | .lineEnd .separator => { next with noTabs := true, atLineStart := true }
    | .lineEnd .newline => next.endLine
    | .continuation => { next.indent with continued := true }
    | .markup _ | .directive _ =>
      { next with atLineStart := true, owesCode := !o.rewrites || next.owesCode }
    | _ => next
  { next with previous := .ofToken t }

/-- Whether a space comes before a token in the middle of a line. -/
def spaces (s : Layout) : Token → Bool
  | .identifier name => !(name.head? == some '.' && s.previous == .punctuation ')')
  | .punctuation _ => s.previous.spacesPunctuation
  | .lineEnd .newline => false
  | _ => true

/-- The lines of rewritten markup, one string each, joined over continued lines. -/
def printLines (o : Options) (depth : Nat) (lines : List Text) : Text :=
  match lines with
  | [] => []
  | first :: others =>
    tabs depth ++ o.printStatement ++ ' ' :: Text.quote first ++
      others.flatMap fun line =>
        " _\n".toList ++ tabs (depth + 1) ++ "& ".toList ++ o.lineJoin ++ " & ".toList ++
          Text.quote line

/-- Markup as script. Carriage returns are left out, since the joining expression supplies the
line breaks. -/
def printMarkup (o : Options) (depth : Nat) (s : Text) : Text :=
  let s := s.filter (· != '\r')
  if s = [] then [] else printLines o depth (Text.lines s) ++ ['\n']

/-- The body of a token. Rewritten markup starts on a line of its own, and ends its line. A float
without a fraction would be read back as an integer, so a large one is written with its exponent.
The sign for output after an opening delimiter has no such delimiter left when rewritten. -/
def body (o : Options) (s : Layout) : Token → Text
  | .operator .equal => if o.rewrites && s.previous == .markup then o.printStatement else ['=']
  | .float x => if x.reaches 15 then x.scientific else x.positional
  | .string t => Text.quote t
  | .date d => '#' :: (d.write ++ ['#'])
  | .comment t => if t = [] then ['\''] else '\'' :: ' ' :: t
  | .lineEnd .separator => [':', ' ']
  | .lineEnd .newline => if o.rewrites && s.previous == .markup then [] else ['\n']
  | .markup t =>
    if o.rewrites then
      (if s.atLineStart then [] else ['\n']) ++ printMarkup o (s.settle (.markup t)).depth t
    else t
  | .directive d =>
    if o.rewrites then
      (if s.atLineStart then [] else ['\n']) ++ ['%', '>'] ++ d.write ++ ['<', '%', '\n']
    else d.write
  | t => t.text

/-- Whether code is open where a token is about to be written in normal mode, so that markup has
to close it. -/
def inCode (s : Layout) : Bool := s.previous != .start && s.previous != .markup

/-- The text that a token adds. -/
def write (o : Options) (s : Layout) (t : Token) : Written where
  opens := s.owesCode && !t.isMarkupLike
  gap :=
    if s.atLineStart then if s.skipsTabs o t then [] else tabs (s.lineDepth t)
    else if t.isMarkupLike && o.rewrites then []
    else if !s.afterParen && s.spaces t && (!t.isMarkupLike || s.inCode) then [' '] else []
  closes := t.isMarkupLike && !o.rewrites && s.inCode
  body := s.body o t

/-- The text of a block closer at the beginning of a line. -/
def writeCloser (o : Options) (s : Layout) (w : Statement) : Written where
  opens := s.owesCode
  gap := if s.skipsTabs o (.statement .end_) then [] else tabs (s.depth - 1)
  body := "End ".toList ++ w.spelling

/-- The state that a block closer leaves. -/
def afterCloser (s : Layout) (w : Statement) : Layout :=
  { ({ s with owesCode := false } : Layout).dedent.beginLine with previous := .endStatement w }

end Layout

end ClassicAsp
