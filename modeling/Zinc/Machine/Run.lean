import Zinc.Machine.Step

/-!
Evaluations.  Before each instruction the machine checks the step limit, asks
the watch every 1024 instructions, collects garbage if the heap is full and
writes a trace record; then it takes one step.
-/

namespace Zinc.Machine

/-- The watch is asked when the step count is a multiple of this. -/
def watchPeriod : Nat := 1024

/-- An evaluation that used up its steps. -/
def stepLimitReached (steps : Nat) : Fault where
  kind := .capacity
  op := "step"
  cause := .stepLimit
  detail := some (toString steps ++ " instructions")

/-- An evaluation called off by the host. -/
def interrupted (reason : Interruption) : Fault where
  kind := .capacity
  op := "step"
  cause := .interrupted
  detail := some reason.text

/-- Asks the watch whether to go on. -/
def askWatch (m : Machine) : Option Fault × Machine :=
  match m.watch with
  | none => (none, m)
  | some w =>
    match w.patience with
    | 0 => (some (interrupted w.reason), m)
    | n + 1 => (none, { m with watch := some { w with patience := n } })

/-- Collects garbage if the number of live objects has reached the threshold. -/
def collectIfFull (m : Machine) : Machine :=
  if 0 < m.limits.threshold ∧ m.limits.threshold ≤ m.heap.stats.live then m.collectGarbage.2
  else m

/-- The record of the instruction that comes next. -/
def traceRecord (m : Machine) : Record where
  message := "exec"
  attrs :=
    [("pc", toString m.regs.pc),
      ("op", Opcode.byteName ((m.code.byte? m.regs.pc).getD 0xff)),
      ("acc", m.inspect m.regs.acc),
      ("sp", toString m.regs.args.depth),
      ("rsp", toString m.regs.returns.depth),
      ("extra", toString m.regs.extra)]

/-- Writes the trace record of the next instruction, if tracing is on. -/
def traced (m : Machine) : Machine :=
  if m.limits.trace && m.logLevel == some .debug then m.logged m.traceRecord else m

/-- What happens before an instruction: either a fault that stops the
evaluation, or the machine ready for the instruction. -/
def ready (m : Machine) : Option Fault × Machine :=
  if 0 < m.limits.maxSteps ∧ m.limits.maxSteps ≤ m.usage.steps then
    (some (stepLimitReached m.usage.steps), m)
  else
    let (stop, m) := if m.usage.steps % watchPeriod = 0 then m.askWatch else (none, m)
    match stop with
    | some f => (some f, m)
    | none => (none, m.collectIfFull.traced)

/-- Counts an instruction. -/
def counted (m : Machine) : Machine :=
  { m with usage := { m.usage with steps := m.usage.steps + 1 } }

/-- Executes at most `fuel` instructions. -/
def loop : Nat → Machine → Reply Value
  | 0, m => (.error ((stepLimitReached m.usage.steps).locateIfUnknown m.started.offset), m)
  | fuel + 1, m =>
    match m.ready with
    | (some f, m) => (.error (f.locateIfUnknown m.started.offset), m)
    | (none, m) =>
      match m.counted.step with
      | .running m => loop fuel m
      | .finished m => (.ok m.regs.acc, m)
      | .faulted f m => (.error f, m)

/-- The machine with its registers cleared. -/
def clearRegisters (m : Machine) : Machine :=
  { m with regs := {} }

/-- Pushes several arguments, the first of the list first. -/
def pushArgs (m : Machine) : List Value → Progress
  | [] => .running m
  | v :: rest => (m.pushArg v).andThen fun m => m.pushArgs rest

/-- Sets up the call of a closure: a mark, the arguments from the right, and
the jump. -/
def enter (m : Machine) (callee : Value) (args : List Value) : Progress :=
  let m := { m with usage := {} }.clearRegisters
  ((m.pushArgs (.mark :: args.reverse))).andThen fun m => m.jump callee

/-- Applies a closure to arguments and runs it until the call returns.
Afterwards the registers are clear. -/
def run (m : Machine) (callee : Value) (args : List Value) : Reply Value :=
  let (answer, m) := match m.enter callee args with
    | .running m => loop m.horizon m
    | .finished m => (.ok m.regs.acc, m)
    | .faulted f m => (.error f, m)
  (answer, m.clearRegisters)

end Zinc.Machine
