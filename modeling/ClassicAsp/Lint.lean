import ClassicAsp.TokenStream

/-!
Findings in a page: constructs that have no place in production, namely `Stop`, the execution of
text as code, and the creation of objects by the page itself.
-/
namespace ClassicAsp

/-- What a page does that it should not. Creations name the call, in its canonical spelling, and
what is created. -/
inductive Concern where
  | stop
  | execution (name : Text)
  | createsObject (call : Text) (object : Text)
  | createsNamed (call : Text) (name : Text)
  | instantiates (className : Text)
  deriving DecidableEq

def Concern.message : Concern → Text
  | stop => "Stop should not be used in production code".toList
  | execution name => name ++ " is not recommended".toList
  | createsObject call object => call ++ " creates object \"".toList ++ object ++ ['"']
  | createsNamed call name => call ++ " creates object named by ".toList ++ name
  | instantiates name => "New creates an instance of class ".toList ++ name

structure Finding where
  line : Nat
  concern : Concern
  deriving DecidableEq

def Finding.message (f : Finding) : Text :=
  Text.ofNat f.line ++ ':' :: ' ' :: f.concern.message

/-- A construct that creates what a later token names. -/
inductive Creation where
  | call (name : Text)
  | new
  deriving DecidableEq

namespace Creation

/-- Functions that create an object. -/
def calls : List Text := texts ["CreateObject", "GetObject"]

/-- The same by a method of an object that every page has. -/
def methods : List Text := texts ["Server.CreateObject"]

def ofToken? : Token → Option Creation
  | .statement .new => some new
  | .function f => if calls.contains f.spelling then some (call f.spelling) else none
  | .identifier name => (Word.find? methods name).map fun m => call m.spelling
  | _ => none

/-- What is created, if the token names it. -/
def concern? : Creation → Token → Option Concern
  | call name, .string object => some (.createsObject name object)
  | call name, .identifier source => some (.createsNamed name source)
  | new, .identifier className => some (.instantiates className)
  | _, _ => none

end Creation

/-- The concern that a token raises by itself. -/
def Concern.ofToken? : Token → Option Concern
  | .statement .stop => some stop
  | .statement .execute => some (execution Statement.execute.spelling)
  | .statement .executeGlobal => some (execution Statement.executeGlobal.spelling)
  | .function f => if f.spelling = "Eval".toList then some (execution f.spelling) else none
  | _ => none

/-- A creation that waits for its name, and the line it began on. -/
abbrev Watch := Option (Creation × Nat)

namespace Watch

/-- A token that names nothing awaited is looked at for itself. -/
def start (t : Token) (line : Nat) : Watch × Option Finding :=
  ((Creation.ofToken? t).map (·, line), (Concern.ofToken? t).map (Finding.mk line))

/-- Punctuation may stand between a creation and its name, any other token may not. -/
def check (w : Watch) (t : Token) (line : Nat) : Watch × Option Finding :=
  match w, t with
  | none, t => start t line
  | some (c, begun), .punctuation _ => (some (c, begun), none)
  | some (c, begun), t =>
    match c.concern? t with
    | some concern => (none, some ⟨begun, concern⟩)
    | none => start t line

end Watch

/-- The findings of a page up to its end or its first error. -/
structure Report where
  findings : List Finding
  error : Option PageError
  deriving DecidableEq

def Report.isClean (r : Report) : Bool := r.findings.isEmpty && r.error.isNone

/-- The findings so far are kept in reverse beside what is awaited. -/
def lint (mode : Mode) (s : Text) : Report :=
  let ((_, found), error) := (TokenStream.ofText mode s).fold
    (fun ((watch, found) : Watch × List Finding) t line =>
      let (watch, finding) := watch.check t.token line
      (watch, finding.toList ++ found))
    (none, [])
  ⟨found.reverse, error⟩

end ClassicAsp
