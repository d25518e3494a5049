import Zinc.Fault
import Zinc.Position

/-!
Failures as a user meets them: a fault of the compiler or the machine, a
malformed document, a file that cannot be read, or a plain message, each
possibly inside a context that says what was being done.
-/

namespace Zinc

/-- Why a file cannot be used. -/
inductive FileProblem where
  | notFound
  | isDirectory
  | notDirectory
deriving DecidableEq, Repr

/-- The wording of a file problem. -/
def FileProblem.text : FileProblem → String
  | notFound => "no such file or directory"
  | isDirectory => "is a directory"
  | notDirectory => "not a directory"

/-- A file operation that failed. -/
structure FileError where
  action : String
  path : String
  problem : FileProblem
deriving DecidableEq, Repr

/-- The wording of a failed file operation. -/
def FileError.text (e : FileError) : String :=
  e.action ++ " " ++ e.path ++ ": " ++ e.problem.text

/-- A failure. -/
inductive Failure where
  | fault (f : Fault)
  /-- A document whose tree has the wrong shape at some place. -/
  | document (pos : Pos) (message : String)
  | file (e : FileError)
  /-- A text that is not YAML, or not of the wanted shape. -/
  | yaml
  | message (text : String)
  /-- A host value stored where its type does not fit. -/
  | typeMismatch
  | within (context : String) (cause : Failure)
deriving DecidableEq, Repr

namespace Failure

/-- The failure at the bottom of all contexts. -/
def root : Failure → Failure
  | within _ cause => cause.root
  | f => f

/-- The wording of a failure. -/
def text : Failure → String
  | fault f => f.text
  | document pos s => pos.text ++ ": " ++ s
  | file e => e.text
  | yaml => "yaml: invalid text"
  | message s => s
  | typeMismatch => "value of the wrong type"
  | within context cause => context ++ ": " ++ cause.text

end Failure

end Zinc
