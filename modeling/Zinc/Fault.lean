import Zinc.Text.Padding

/-!
Faults: the one kind of error that the compiler, the machine and its host
interface report.  A fault says what class of trouble it is, which stage or
instruction met it, where in the code that happened, and why.
-/

namespace Zinc

/-- The class of a fault. -/
inductive FaultKind where
  /-- A broken invariant: an unresolved variable, a malformed tree, bad code. -/
  | internal
  /-- An exhausted bounded resource. -/
  | capacity
  /-- An instruction that does not exist. -/
  | unsupported
  /-- A host that calls an operation out of order. -/
  | usage
  | other (code : Int)
deriving DecidableEq, Repr

/-- The class with the given number. -/
def FaultKind.ofCode (code : Int) : FaultKind :=
  if code = 0 then .internal
  else if code = 1 then .capacity
  else if code = 2 then .unsupported
  else if code = 3 then .usage
  else .other code

/-- The wording of a class. -/
def FaultKind.text : FaultKind → String
  | .internal => "internal fault"
  | .capacity => "capacity exceeded"
  | .unsupported => "unsupported operation"
  | .usage => "usage error"
  | .other code => "fault(" ++ toString code ++ ")"

/-- Why a fault arose. -/
inductive Cause where
  | unboundVariable
  | unknownGlobal
  | unknownNode
  | undefinedGlobal
  | notClosure
  | badEnvironment
  | badOpcode
  | truncated
  | stackUnderflow
  | argStackFull
  | returnStackFull
  | handleFrameFull
  | handleStackFull
  | noHandleFrame
  | staleHandle
  | foreignHandle
  | internalKind
  | operandRange
  | objectTooLarge
  | stepLimit
  | interrupted
  | closed
  | notTuple
  | notInteger
  | fieldOutOfBounds
  | other (text : String)
deriving DecidableEq, Repr

namespace Cause

/-- The wording of a cause. -/
def text : Cause → String
  | unboundVariable => "variable has no enclosing binder"
  | unknownGlobal => "global is not declared"
  | unknownNode => "no rule for node"
  | undefinedGlobal => "global read before assignment"
  | notClosure => "applied value is not a closure"
  | badEnvironment => "environment chain too short"
  | badOpcode => "unknown opcode"
  | truncated => "truncated bytecode"
  | stackUnderflow => "stack underflow"
  | argStackFull => "argument stack overflow"
  | returnStackFull => "return stack overflow"
  | handleFrameFull => "handle frame full"
  | handleStackFull => "handle stack full"
  | noHandleFrame => "no handle frame"
  | staleHandle => "handle used after its frame was popped"
  | foreignHandle => "handle belongs to another VM"
  | internalKind => "internal value escaped to embedder"
  | operandRange => "operand out of encodable range"
  | objectTooLarge => "object exceeds slot limit"
  | stepLimit => "step limit reached"
  | interrupted => "evaluation interrupted"
  | closed => "vm is closed"
  | notTuple => "value is not a tuple"
  | notInteger => "value is not an integer"
  | fieldOutOfBounds => "tuple field out of bounds"
  | other s => s

/-- The causes that have a name of their own. -/
def named : List Cause :=
  [unboundVariable, unknownGlobal, unknownNode, undefinedGlobal, notClosure, badEnvironment,
    badOpcode, truncated, stackUnderflow, argStackFull, returnStackFull, handleFrameFull,
    handleStackFull, noHandleFrame, staleHandle, foreignHandle, internalKind, operandRange,
    objectTooLarge, stepLimit, interrupted, closed, notTuple, notInteger, fieldOutOfBounds]

/-- The named cause with this wording, if there is one. -/
def ofText (s : String) : Cause :=
  (named.find? fun c => c.text == s).getD (.other s)

/-- Whether the cause has a name of its own. -/
def isNamed : Cause → Bool
  | .other _ => false
  | _ => true

end Cause

/-- A fault.  `op` names the stage or instruction that failed and `pc` is the
offset of that instruction, negative when there is none. -/
structure Fault where
  kind : FaultKind
  op : String
  cause : Cause
  detail : Option String := none
  pc : Int := -1
deriving DecidableEq, Repr

namespace Fault

/-- The cause with its detail. -/
def reason (f : Fault) : String :=
  match f.detail with
  | none => f.cause.text
  | some d => f.cause.text ++ ": " ++ d

/-- The wording of a fault; the place is left out when it is negative. -/
def text (f : Fault) : String :=
  if 0 ≤ f.pc then
    f.kind.text ++ ": " ++ f.op ++ " at " ++ Text.zeroPadded 4 f.pc ++ ": " ++ f.reason
  else
    f.kind.text ++ ": " ++ f.op ++ ": " ++ f.reason

/-- The same fault, located at `pc`. -/
def locate (f : Fault) (pc : Int) : Fault :=
  { f with pc := pc }

/-- The fault located at `pc` unless it already has a place. -/
def locateIfUnknown (f : Fault) (pc : Int) : Fault :=
  if f.pc < 0 then f.locate pc else f

end Fault

end Zinc
