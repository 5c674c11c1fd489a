import ClassicAsp.Text

/-!
Trees of files, and the files that a command finds in them. Paths are texts whose components are
separated by slashes.
-/
namespace ClassicAsp

namespace FilePath

/-- The path of an entry of a folder. -/
def join (folder name : Text) : Text :=
  if folder.getLast? = some '/' then folder ++ name else folder ++ '/' :: name

/-- The components that lead anywhere, which neither nothing nor a single dot does. -/
def components (path : Text) : List Text :=
  (Text.pieces '/' path).filter fun c => c ≠ [] ∧ c ≠ ['.']

/-- The last component. A path that ends by going up names no file. -/
def fileName? (path : Text) : Option Text :=
  (components path).getLast?.filter (· ≠ ['.', '.'])

/-- What follows the last dot of the file name, unless that dot is its first character. -/
def extension? (path : Text) : Option Text :=
  (fileName? path).bind fun name =>
    match (Text.pieces '.' name).reverse with
    | [] | [_] => none
    | last :: before => if before = [[]] then none else some last

/-- Dots in front of the extension asked for do not count. -/
def hasExtension (path ext : Text) : Bool :=
  (extension? path).any fun e => Text.sameWord e (ext.dropWhile (· == '.'))

end FilePath

inductive FileTree where
  | file (bytes : List UInt8)
  | folder (entries : List (Text × FileTree))

inductive FileError where
  | notFound
  | notFolder
  deriving DecidableEq, Repr

def FileError.message : FileError → Text
  | notFound => "No such file or directory (os error 2)".toList
  | notFolder => "Not a directory (os error 20)".toList

/-- A file found under a path, or why there is none. -/
structure FoundFile where
  path : Text
  bytes : Except FileError (List UInt8)

namespace FileTree

/-- Names are ordered by code points, which is the order of their UTF-8 bytes. -/
def nameLE {α : Type} (a b : Text × α) : Bool := !(decide (b.1 < a.1))

mutual

/-- The files with an extension at or below a path, folder by folder in the order of names. -/
def filesBelow (ext path : Text) : FileTree → List FoundFile
  | file bytes => if FilePath.hasExtension path ext then [⟨path, .ok bytes⟩] else []
  | folder entries => ((filesOfEntries ext path entries).mergeSort nameLE).flatMap (·.2)

def filesOfEntries (ext path : Text) : List (Text × FileTree) → List (Text × List FoundFile)
  | [] => []
  | (name, tree) :: entries =>
    (name, filesBelow ext (FilePath.join path name) tree) :: filesOfEntries ext path entries

end

/-- Follows the components of a path from a folder whose ancestors are given, nearest first. The
outermost folder is its own parent. -/
def follow (ancestors : List FileTree) (tree : FileTree) : List Text → Except FileError FileTree
  | [] => .ok tree
  | c :: cs =>
    match tree with
    | file _ => .error .notFolder
    | folder entries =>
      if c = [] ∨ c = ['.'] then follow ancestors tree cs
      else if c = ['.', '.'] then
        match ancestors with
        | [] => follow [] tree cs
        | parent :: ancestors => follow ancestors parent cs
      else match entries.lookup c with
        | none => .error .notFound
        | some child => follow (tree :: ancestors) child cs

def find (tree : FileTree) (path : Text) : Except FileError FileTree :=
  if path = [] then .error .notFound else tree.follow [] (Text.pieces '/' path)

/-- Changes the tree at the end of a list of components, making the folders on the way. -/
def alter (change : FileTree → FileTree) (tree : FileTree) : List Text → FileTree
  | [] => change tree
  | c :: cs =>
    let entries := match tree with
      | file _ => []
      | folder entries => entries
    let child := (entries.lookup c).getD (folder [])
    folder (entries.filter (·.1 ≠ c) ++ [(c, alter change child cs)])

end FileTree

/-- The files that paths stand for, given what each path leads to. A file is taken whatever its
name, a folder is searched. -/
def findFiles (find : Text → Except FileError FileTree) (ext : Text) (paths : List Text) :
    List FoundFile :=
  paths.flatMap fun path =>
    match find path with
    | .error e => [⟨path, .error e⟩]
    | .ok (.file bytes) => [⟨path, .ok bytes⟩]
    | .ok tree => tree.filesBelow ext path

end ClassicAsp
