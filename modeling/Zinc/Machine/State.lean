import Zinc.Code.Area
import Zinc.Globals
import Zinc.Handle
import Zinc.Heap.Collect
import Zinc.Heap.Inspect
import Zinc.Machine.Stack
import Zinc.Trace

/-!
The state of a machine: its code, heap, globals and handles, the registers of the
evaluation that is going on, and what it has used so far.
-/

namespace Zinc

/-- An entry of the return stack: a local of the current call, or the saved
frame of its caller. -/
inductive ReturnEntry where
  | value (v : Value)
  | frame (pc : Int) (env : Value) (extra : Nat)
deriving DecidableEq, Repr, Inhabited

namespace ReturnEntry

/-- The local in an entry, undefined in a frame. -/
def localValue : ReturnEntry → Value
  | value v => v
  | frame _ _ _ => .undefined

/-- The value that an entry keeps reachable. -/
def held : ReturnEntry → Value
  | value v => v
  | frame _ env _ => env

end ReturnEntry

/-- The registers.  `extra` counts the locals of the current call that are on
the return stack; the others are in the environment. -/
structure Registers where
  acc : Value := .undefined
  pc : Int := 0
  env : Value := .emptyEnv
  extra : Nat := 0
  args : Stack Value := .empty
  returns : Stack ReturnEntry := .empty
deriving Inhabited

/-- The instruction that was started last; it outlives the evaluation. -/
structure Started where
  offset : Int := 0
  byte : UInt8 := 0
deriving DecidableEq, Repr, Inhabited

/-- What the latest evaluation has used. -/
structure Usage where
  steps : Nat := 0
  peakArgs : Nat := 0
  peakReturns : Nat := 0
deriving DecidableEq, Repr, Inhabited

/-- Why a host calls an evaluation off. -/
inductive Interruption where
  | canceled
  | deadline
deriving DecidableEq, Repr

/-- The wording of an interruption. -/
def Interruption.text : Interruption → String
  | canceled => "context canceled"
  | deadline => "context deadline exceeded"

/-- A host that calls evaluations off once it has been asked `patience` times
whether to go on. -/
structure Watch where
  patience : Nat
  reason : Interruption
deriving DecidableEq, Repr

/-- One machine.  `owner` is its identity, `saved` keeps the globals of an open
checkpoint reachable, and `horizon` is the largest number of instructions of one
evaluation that can be counted. -/
structure Machine where
  owner : Nat
  limits : Limits
  horizon : Nat := 0x7fffffffffffffff
  code : Code := {}
  heap : Heap := {}
  handles : HandleStack
  globals : Globals := {}
  regs : Registers := {}
  started : Started := {}
  saved : Array Global := #[]
  usage : Usage := {}
  closed : Bool := false
  logLevel : Option LogLevel := none
  log : Array Record := #[]
  watch : Option Watch := none

namespace Machine

/-- An operation on a machine gives an answer and the machine after it. -/
abbrev Reply (α : Type) := Except Fault α × Machine

/-- A machine with no code and no handle frame.  Stack sizes that are not
positive get their default. -/
def create (owner : Nat) (limits : Limits) : Machine where
  owner := owner
  limits := limits.fillNonpositive
  handles := { owner := owner }

/-- The name of the instruction that was started last. -/
def startedName (m : Machine) : String :=
  Opcode.byteName m.started.byte

/-- Adds a record to the log, if the log keeps it. -/
def logged (m : Machine) (record : Record) : Machine :=
  match m.logLevel with
  | some .debug => { m with log := m.log.push record }
  | _ => m

/-- Every value that the machine can still use. -/
def roots (m : Machine) : List Value :=
  m.regs.acc :: m.regs.env :: (m.regs.args.items ++ (m.regs.returns.items.map ReturnEntry.held
    ++ (m.handles.values ++ (m.globals.values ++ m.saved.toList.map (·.value)))))

/-- Collects garbage; the answer starts with the number of objects released. -/
def collectGarbage (m : Machine) : Nat × Machine :=
  let (freed, heap) := m.heap.collect m.roots
  (freed, { m with heap := heap })

/-- How a value is shown. -/
def inspect (m : Machine) (v : Value) : String :=
  m.heap.inspect v

end Machine

end Zinc
