import Zinc.Failure
import Zinc.Path

/-!
Access to files.  Programs that read files are written over `FileSystem`, so that
they run on real files and on a tree of files that is given as a value.
-/

namespace Zinc

/-- What a program may do with files. -/
structure FileSystem (m : Type → Type) where
  workingDirectory : String
  isPresent : String → m Bool
  read : String → m (Except FileError ByteArray)

/-- A tree of files.  A path is the list of its parts, the last first; no content
means a directory.  The directories above a path need not be listed. -/
structure FileTree where
  workingDirectory : String
  entries : List (List String × Option String)

namespace FileTree

/-- What a path leads to. -/
inductive Found where
  | file (content : String)
  | directory
deriving DecidableEq, Repr

/-- The tree with the given files, named relative to the working directory. -/
def ofFiles (workingDirectory : String) (files : List (String × Option String)) : FileTree where
  workingDirectory := workingDirectory
  entries := (Path.simpleParts workingDirectory, none) :: files.map fun (name, content) =>
    (Path.simpleParts (workingDirectory ++ "/" ++ name), content)

/-- The content of the file at a path. -/
def content? (t : FileTree) (path : List String) : Option String :=
  (t.entries.find? fun e => e.1 == path && e.2.isSome).bind (·.2)

/-- Whether a path is a directory. -/
def isDirectory (t : FileTree) (path : List String) : Bool :=
  path.isEmpty || t.entries.any fun e =>
    (path.isSuffixOf e.1 && path != e.1) || (path == e.1 && e.2.isNone)

/-- Follows the parts of a path from an existing directory. -/
def follow (t : FileTree) (dir : List String) : List String → Except FileProblem Found
  | [] => .ok .directory
  | part :: rest =>
    if part = "" ∨ part = "." then t.follow dir rest
    else if part = ".." then t.follow dir.tail rest
    else
      match t.content? (part :: dir) with
      | some content => if rest.isEmpty then .ok (.file content) else .error .notDirectory
      | none =>
        if t.isDirectory (part :: dir) then t.follow (part :: dir) rest else .error .notFound

/-- What a path leads to from the working directory. -/
def find (t : FileTree) (path : String) : Except FileProblem Found :=
  if path.isEmpty then .error .notFound
  else
    let dir := if Path.isAbsolute path then [] else Path.simpleParts t.workingDirectory
    t.follow dir (Path.parts path)

/-- Reads a file. -/
def read (t : FileTree) (path : String) : Except FileError String :=
  match t.find path with
  | .error problem => .error ⟨"open", path, problem⟩
  | .ok .directory => .error ⟨"read", path, .isDirectory⟩
  | .ok (.file content) => .ok content

/-- A tree of files as a file system. -/
def fileSystem (t : FileTree) : FileSystem Id where
  workingDirectory := t.workingDirectory
  isPresent path := (t.find path).isOk
  read path := (t.read path).map String.toUTF8

end FileTree

end Zinc
