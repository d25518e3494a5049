import Zinc.CommandLine.Execute

/-!
The program: it carries out its command line on real files, prints what the command
prints, and ends with status 1 and a message if the command fails.
-/

namespace Zinc.CommandLine

/-- Why a file could not be opened. -/
def openProblem : IO.Error → FileProblem
  | .inappropriateType _ _ _ => .notDirectory
  | _ => .notFound

/-- The real files, seen from the directory `dir`. -/
def realFiles (dir : String) : FileSystem IO where
  workingDirectory := dir
  isPresent path := do
    match ← (IO.FS.Handle.mk path .read).toBaseIO with
    | .ok _ => return true
    | .error _ => return false
  read path := do
    match ← (IO.FS.Handle.mk path .read).toBaseIO with
    | .error e => return .error ⟨"open", path, openProblem e⟩
    | .ok handle =>
      match ← handle.readBinToEnd.toBaseIO with
      | .error _ => return .error ⟨"read", path, .isDirectory⟩
      | .ok bytes => return .ok bytes

end Zinc.CommandLine

open Zinc.CommandLine in
/-- Runs the program. -/
def main (args : List String) : IO UInt32 := do
  let dir ← IO.currentDir
  let outcome ← execute (realFiles dir.toString) args
  IO.print outcome.stdout
  IO.eprint outcome.stderr
  match outcome.failure with
  | none => return 0
  | some f =>
    IO.eprintln f.text
    return 1
