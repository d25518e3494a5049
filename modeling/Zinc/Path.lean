/-!
File paths as text, with the separator `/`.  A path is taken apart at separators;
nothing here looks at any file.
-/

namespace Zinc.Path

/-- The parts of a path between its separators. -/
def parts (path : String) : List String :=
  path.splitOn "/"

/-- Whether a path starts at the root. -/
def isAbsolute (path : String) : Bool :=
  path.startsWith "/"

/-- Adds a part to a simplified path, the last part first: a single dot and an empty
part add nothing, and a double dot takes a part away where there is one. -/
def addPart (rooted : Bool) (path : List String) (part : String) : List String :=
  if part = "" ∨ part = "." then path
  else if part = ".." then
    match path with
    | [] => if rooted then [] else [".."]
    | ".." :: rest => ".." :: ".." :: rest
    | _ :: rest => rest
  else part :: path

/-- The path whose parts, the last first, are given. -/
def ofParts (rooted : Bool) (path : List String) : String :=
  let text := String.intercalate "/" path.reverse
  if rooted then "/" ++ text else if path.isEmpty then "." else text

/-- The parts of a simplified path, the last first. -/
def simpleParts (path : String) : List String :=
  (parts path).foldl (addPart (isAbsolute path)) []

/-- The shortest path that names the same place. -/
def clean (path : String) : String :=
  ofParts (isAbsolute path) (simpleParts path)

/-- The simplified path of the directory that holds a path. -/
def parent (path : String) : String :=
  match (parts path).reverse with
  | _ :: rest@(_ :: _) =>
    clean (if rest.all (·.isEmpty) then "/" else String.intercalate "/" rest.reverse)
  | _ => "."

/-- The last part of a path. -/
def base (path : String) : String :=
  match (parts path).reverse.find? (!·.isEmpty) with
  | some part => part
  | none => if path.isEmpty then "." else "/"

/-- A path as seen from the directory `dir`, simplified. -/
def absolute (dir path : String) : String :=
  if isAbsolute path then clean path else clean (dir ++ "/" ++ path)

end Zinc.Path
