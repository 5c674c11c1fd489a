import ClassicAsp.CommandLine

/-!
The command line program. Everything a request leads to is loaded first, then the request is run.
-/
namespace ClassicAsp.Main

def located (path : String) := System.mkFilePath [path]

/-- The tree at a path. A missing file and a path through a file are told apart. -/
partial def load (path : String) : IO (Except FileError FileTree) := do
  if ← (located path).isDir then
    let entries ← (located path).readDir
    let mut loaded : List (Text × FileTree) := []
    for entry in entries do
      match ← load (String.ofList (FilePath.join path.toList entry.fileName.toList)) with
      | .ok tree => loaded := (entry.fileName.toList, tree) :: loaded
      | .error _ => pure ()
    return .ok (.folder loaded)
  else
    try
      let bytes ← IO.FS.readBinFile (located path)
      return .ok (.file bytes.toList)
    catch
      | .inappropriateType .. => return .error .notFolder
      | _ => return .error .notFound

def usage : String := "usage: fmt [--rw] [--code] [--ext EXT] PATHS...
       lint [--root DIR] [--ext EXT]
       lex [--code] [--ext EXT] PATHS...\n"

end ClassicAsp.Main

open ClassicAsp in
def main (args : List String) : IO UInt32 := do
  match Request.ofArguments? (args.map String.toList) with
  | none =>
    IO.eprint ClassicAsp.Main.usage
    return usageStatus.toUInt32
  | some request =>
    let mut loaded : List (Text × Except FileError FileTree) := []
    for path in request.paths do
      loaded := (path, ← ClassicAsp.Main.load (String.ofList path)) :: loaded
    let output := request.run fun path => (loaded.lookup path).getD (.error .notFound)
    IO.eprint (String.ofList output.err)
    IO.print (String.ofList output.out)
    return output.status.toUInt32
