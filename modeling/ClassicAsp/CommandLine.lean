import ClassicAsp.FileTree
import ClassicAsp.Format
import ClassicAsp.Lint
import ClassicAsp.Text.Escaped
import ClassicAsp.Text.Utf8

/-!
The commands: `fmt` formats pages, `lint` reports findings and `lex` shows tokens. A command is a
function from the files it is pointed at to what it prints, and each file adds its part alone.
-/
namespace ClassicAsp

/-- What a command is asked to do. -/
inductive Request where
  | format (rewrite code : Bool) (ext : Text) (paths : List Text)
  | lint (root ext : Text)
  | show (code : Bool) (ext : Text) (paths : List Text)
  deriving DecidableEq

namespace Request

/-- The options that a command knows, and whether it takes paths. -/
structure Form where
  flags : List Text
  settings : List Text
  takesPaths : Bool

/-- Arguments sorted by what they are. -/
structure Arguments where
  flags : List Text := []
  settings : List (Text × Text) := []
  paths : List Text := []

/-- A single dash is a path. -/
def isOption (arg : Text) : Bool := arg.head? == some '-' && arg != ['-']

/-- The name of a long option and the value attached to it. -/
def longOption? : Text → Option (Text × Option Text)
  | '-' :: '-' :: s =>
    match s.dropWhile (· != '=') with
    | [] => some (s, none)
    | _ :: value => some (s.takeWhile (· != '='), some value)
  | _ => none

def Arguments.addPath? (a : Arguments) (form : Form) (path : Text) : Option Arguments :=
  if form.takesPaths ∧ path ≠ [] then some { a with paths := a.paths ++ [path] } else none

def Arguments.addFlag? (a : Arguments) (name : Text) : Option Arguments :=
  if a.flags.contains name then none else some { a with flags := name :: a.flags }

def Arguments.addSetting? (a : Arguments) (name value : Text) : Option Arguments :=
  if (a.settings.lookup name).isSome then none
  else some { a with settings := (name, value) :: a.settings }

/-- Sorts arguments in turn. Options are given once, and a value that looks like an option has to
be attached. After two dashes everything is a path. -/
def sort? (form : Form) (a : Arguments) : List Text → Option Arguments
  | [] => some a
  | arg :: args =>
    if arg = ['-', '-'] then args.foldlM (fun a path => a.addPath? form path) a
    else if !isOption arg then (a.addPath? form arg).bind fun a => sort? form a args
    else
      match longOption? arg with
      | none => none
      | some (name, value) =>
        if form.flags.contains name then
          if value.isSome then none else (a.addFlag? name).bind fun a => sort? form a args
        else if form.settings.contains name then
          match value, args with
          | some value, args => (a.addSetting? name value).bind fun a => sort? form a args
          | none, value :: args =>
            if isOption value then none
            else (a.addSetting? name value).bind fun a => sort? form a args
          | none, [] => none
        else none

def rewriteFlag : Text := "rw".toList

def codeFlag : Text := "code".toList

def extensionSetting : Text := "ext".toList

def rootSetting : Text := "root".toList

def Arguments.rewrites (a : Arguments) : Bool := a.flags.contains rewriteFlag

def Arguments.readsCode (a : Arguments) : Bool := a.flags.contains codeFlag

def Arguments.extension (a : Arguments) : Text :=
  (a.settings.lookup extensionSetting).getD "asp".toList

/-- The folder to search, which is the current one unless another is given. -/
def Arguments.root (a : Arguments) : Text := (a.settings.lookup rootSetting).getD ['.']

/-- The request that arguments make, if they follow the form of a command. -/
def ofArguments? : List Text → Option Request
  | [] => none
  | name :: args =>
    if name = "fmt".toList then
      (sort? ⟨[rewriteFlag, codeFlag], [extensionSetting], true⟩ {} args).bind fun a =>
        if a.paths = [] then none
        else some (format a.rewrites a.readsCode a.extension a.paths)
    else if name = "lint".toList then
      (sort? ⟨[], [rootSetting, extensionSetting], false⟩ {} args).bind fun a =>
        if a.root = [] then none else some (lint a.root a.extension)
    else if name = "lex".toList then
      (sort? ⟨[codeFlag], [extensionSetting], true⟩ {} args).bind fun a =>
        if a.paths = [] then none else some (.show a.readsCode a.extension a.paths)
    else none

def paths : Request → List Text
  | format _ _ _ paths | .show _ _ paths => paths
  | lint root _ => [root]

end Request

/-- What a command prints on its two streams, and whether anything failed. -/
structure Output where
  out : Text := []
  err : Text := []
  failed : Bool := false
  deriving DecidableEq

namespace Output

def append (a b : Output) : Output := ⟨a.out ++ b.out, a.err ++ b.err, a.failed || b.failed⟩

instance : Append Output := ⟨append⟩

/-- The outputs one after the other. -/
def concat (outputs : List Output) : Output :=
  ⟨outputs.flatMap Output.out, outputs.flatMap Output.err, outputs.any Output.failed⟩

def unreadable (path : Text) (e : FileError) : Output :=
  { err := "Error reading ".toList ++ path ++ ':' :: ' ' :: (e.message ++ ['\n']), failed := true }

def pageError (path : Text) (e : PageError) : Output :=
  { err := "PARSE ERROR ".toList ++ path ++ ':' :: (Text.ofNat e.line ++ ':' :: ' ' ::
      (e.fault.message ++ ['\n'])), failed := true }

end Output

/-- The line that announces a file. -/
def heading (path : Text) : Text := "*** ".toList ++ path ++ " ***\n".toList

def Request.mode (code : Bool) : Mode := if code then .code else .markup

/-- Formatted text alone goes to the first stream. -/
def formatFile (o : Options) (file : FoundFile) : Output :=
  let announced : Output := { err := '\n' :: heading file.path }
  announced ++ match file.bytes with
    | .error e => .unreadable file.path e
    | .ok bytes =>
      match format o (Utf8.decode bytes) with
      | .ok text => { out := text }
      | .error e => .pageError file.path e

/-- A file without findings is not announced. -/
def lintFile (file : FoundFile) : Output :=
  match file.bytes with
  | .error e => .unreadable file.path e
  | .ok bytes =>
    let report := lint .markup (Utf8.decode bytes)
    let findings : Output :=
      if report.findings = [] then {}
      else
        { out := heading file.path ++ report.findings.flatMap (fun f => f.message ++ ['\n']) ++
            ['\n'] }
    findings ++ match report.error with
      | none => {}
      | some e => .pageError file.path e

/-- A line with the category, the value and the written form of a token. -/
def showToken (t : Spelled) : Text :=
  let category := t.token.category.name
  category ++ List.replicate (18 - category.length) ' ' ++ ' ' :: (Text.escape t.token.text ++
    ' ' :: (Text.escape t.written ++ ['\n']))

/-- The tokens before an error are shown. -/
def showFile (mode : Mode) (file : FoundFile) : Output :=
  let announced : Output := { out := '\n' :: heading file.path }
  announced ++ match file.bytes with
    | .error e => .unreadable file.path e
    | .ok bytes =>
      let (shown, error) := (TokenStream.ofText mode (Utf8.decode bytes)).fold
        (fun shown t _ => showToken t :: shown) []
      let tokens : Output := { out := shown.reverse.flatten }
      tokens ++ match error with
        | none => {}
        | some e => .pageError file.path e

/-- What a request prints, given what each path leads to. -/
def Request.run (find : Text → Except FileError FileTree) : Request → Output
  | .format rewrite code ext paths =>
    let o : Options :=
      { output := if rewrite then .rewrite else .normal, initialMode := Request.mode code }
    .concat ((findFiles find ext paths).map (formatFile o))
  | .lint root ext => .concat ((findFiles find ext [root]).map lintFile)
  | .show code ext paths => .concat ((findFiles find ext paths).map (showFile (mode code)))

/-- The exit status of a command that was understood. -/
def Output.status (o : Output) : Nat := if o.failed then 1 else 0

/-- The exit status of a command that was not. -/
def usageStatus : Nat := 2

end ClassicAsp
