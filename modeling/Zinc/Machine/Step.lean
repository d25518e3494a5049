import Zinc.Machine.State

/-!
One instruction.  The locals of a call are the top `extra` entries of the return
stack followed by the environment chain; building a closure moves the former
onto the latter.  Arguments of different calls are kept apart by marks.
-/

namespace Zinc

/-- What a step leads to.  A fault leaves the machine as the step left it. -/
inductive Progress where
  | running (m : Machine)
  | finished (m : Machine)
  | faulted (f : Fault) (m : Machine)

/-- Goes on with a machine that is still running. -/
def Progress.andThen (p : Progress) (k : Machine → Progress) : Progress :=
  match p with
  | .running m => k m
  | p => p

namespace Machine

/-- A fault of the instruction that was started last. -/
def fail (m : Machine) (kind : FaultKind) (cause : Cause) (detail : Option String) : Progress :=
  .faulted
    { kind := kind, op := m.startedName, cause := cause, detail := detail, pc := m.started.offset }
    m

/-- Pushes an argument. -/
def pushArg (m : Machine) (v : Value) : Progress :=
  if m.limits.argStack ≤ m.regs.args.depth then m.fail .capacity .argStackFull none
  else
    let args := m.regs.args.push v
    .running { m with
      regs := { m.regs with args := args }
      usage := { m.usage with peakArgs := max m.usage.peakArgs args.depth } }

/-- Pushes an entry of the return stack. -/
def pushReturn (m : Machine) (e : ReturnEntry) : Progress :=
  if m.limits.returnStack ≤ m.regs.returns.depth then m.fail .capacity .returnStackFull none
  else
    let returns := m.regs.returns.push e
    .running { m with
      regs := { m.regs with returns := returns }
      usage := { m.usage with peakReturns := max m.usage.peakReturns returns.depth } }

/-- Forgets the locals of the current call that are on the return stack. -/
def dropExtras (m : Machine) : Machine :=
  { m with regs := { m.regs with returns := m.regs.returns.drop m.regs.extra, extra := 0 } }

/-- Enters the code of a closure with the environment it captured. -/
def jump (m : Machine) (callee : Value) : Progress :=
  let notClosure := m.fail .internal .notClosure (some ("got " ++ callee.kind.text))
  match callee with
  | .ref .closure a =>
    if (m.heap.fields a).size = 2 then
      .running { m with
        regs := { m.regs with env := m.heap.field a 0, pc := (m.heap.field a 1).asOffset } }
    else notClosure
  | _ => notClosure

/-- The value at index `k` of an environment chain. -/
def chainAt (heap : Heap) (env : Value) : Nat → Option Value
  | 0 => env.address?.map fun a => heap.field a 0
  | k + 1 => env.address?.bind fun a => chainAt heap (heap.field a 1) k

/-- The local at index `i`. -/
def local? (m : Machine) (i : Nat) : Option Value :=
  if i < m.regs.extra then m.regs.returns.items[i]?.map ReturnEntry.localValue
  else chainAt m.heap m.regs.env (i - m.regs.extra)

/-- Puts one local in front of an environment. -/
def consEnv (e : ReturnEntry) (env : Value × Heap) : Value × Heap :=
  let (a, heap) := env.2.alloc .env #[e.localValue, env.1]
  (.ref .env a, heap)

/-- The environment that a closure built now captures, with the heap that holds
it. -/
def captureEnv (m : Machine) : Value × Heap :=
  (m.regs.returns.items.take m.regs.extra).foldr consEnv (m.regs.env, m.heap)

/-- Loads a new closure over the current locals. -/
def loadClosure (m : Machine) (code : Int) : Machine :=
  let (env, heap) := m.captureEnv
  let (a, heap) := heap.alloc .closure #[env, .code code]
  { m with heap := heap, regs := { m.regs with acc := .ref .closure a } }

/-- Leaves the current call through its mark and resumes the caller; the
outermost call ends the evaluation. -/
def leave (m : Machine) : Progress :=
  let m := { m with regs := { m.regs with args := m.regs.args.drop 1 } }
  let m := m.dropExtras
  match m.regs.returns.top? with
  | none => .finished m
  | some (.value _) => m.fail .internal .stackUnderflow none
  | some (.frame pc env extra) =>
    .running { m with
      regs := { m.regs with
        returns := m.regs.returns.drop 1, pc := pc, env := env, extra := extra } }

/-- The fields of a tuple that `n` arguments are popped into, from the last field
on.  With too few arguments the lower fields stay undefined. -/
def popFields (args : Stack Value) (n : Nat) : Array Value :=
  (List.replicate (n - args.depth) Value.undefined ++ (args.items.take n).reverse).toArray

theorem popFields_of_deep {args : Stack Value} {n : Nat} (h : ¬ args.depth < n) :
    popFields args n = (args.items.take n).reverse.toArray := by
  rw [popFields, Nat.sub_eq_zero_of_le (Nat.le_of_not_lt h)]
  rfl

/-- A field is undefined or an argument. -/
theorem mem_popFields {args : Stack Value} {n : Nat} {v : Value} (hv : v ∈ popFields args n) :
    v = .undefined ∨ v ∈ args.items := by
  rw [popFields, List.mem_toArray, List.mem_append, List.mem_reverse] at hv
  exact hv.imp List.eq_of_mem_replicate List.mem_of_mem_take

/-- Builds a tuple of the top `n` arguments, the topmost one last. -/
def makeTuple (m : Machine) (n : Nat) : Progress :=
  let short := m.regs.args.depth < n
  let (a, heap) := m.heap.alloc .tuple (popFields m.regs.args n)
  let m := { m with heap := heap, regs := { m.regs with args := m.regs.args.drop n } }
  if short then m.fail .internal .stackUnderflow none
  else .running { m with regs := { m.regs with acc := .ref .tuple a } }

/-- Executes an instruction whose operand has been read. -/
def execute (m : Machine) : Instr → Progress
  | .int64 value => .running { m with regs := { m.regs with acc := .int value } }
  | .push => m.pushArg m.regs.acc
  | .pushMark => m.pushArg .mark
  | .access index =>
    match m.local? index.toNat with
    | some v => .running { m with regs := { m.regs with acc := v } }
    | none => m.fail .internal .badEnvironment none
  | .closure length =>
    let body := m.regs.pc
    if m.code.size < body + length.toNat then m.fail .internal .truncated none
    else
      let m := { m with regs := { m.regs with pc := body + length.toNat } }
      .running (m.loadClosure body)
  | .apply =>
    (m.pushReturn (.frame m.regs.pc m.regs.env m.regs.extra)).andThen fun m =>
      { m with regs := { m.regs with extra := 0 } }.jump m.regs.acc
  | .appTerm => m.dropExtras.jump m.regs.acc
  | .grab =>
    match m.regs.args.top? with
    | none => m.fail .internal .stackUnderflow none
    | some v =>
      if v.isMark then (m.loadClosure m.started.offset).leave
      else
        let m := { m with regs := { m.regs with args := m.regs.args.drop 1 } }
        (m.pushReturn (.value v)).andThen fun m =>
          .running { m with regs := { m.regs with extra := m.regs.extra + 1 } }
  | .ret =>
    match m.regs.args.top? with
    | none => m.fail .internal .stackUnderflow none
    | some v => if v.isMark then m.leave else m.dropExtras.jump m.regs.acc
  | .makeBlock n => m.makeTuple n.toNat
  | .bind =>
    (m.pushReturn (.value m.regs.acc)).andThen fun m =>
      .running { m with regs := { m.regs with extra := m.regs.extra + 1 } }
  | .unbind =>
    if m.regs.extra = 0 then m.fail .internal .stackUnderflow none
    else
      .running { m with
        regs := { m.regs with returns := m.regs.returns.drop 1, extra := m.regs.extra - 1 } }
  | .setGlobal slot =>
    match m.globals.set? slot.toNat m.regs.acc with
    | some globals => .running { m with globals := globals }
    | none => m.fail .internal .unknownGlobal none
  | .getGlobal slot =>
    match m.globals.entries[slot.toNat]? with
    | none => m.fail .internal .unknownGlobal none
    | some g =>
      if g.defined then .running { m with regs := { m.regs with acc := g.value } }
      else m.fail .internal .undefinedGlobal (some g.symbol.name)

/-- Reads the byte at the program counter and goes on behind it. -/
def readByte (m : Machine) (next : UInt8 → Machine → Progress) : Progress :=
  match m.code.byte? m.regs.pc with
  | none => m.fail .internal .truncated none
  | some b => next b { m with regs := { m.regs with pc := m.regs.pc + 1 } }

/-- Reads the 16-bit word at the program counter and goes on behind it. -/
def readUInt16 (m : Machine) (next : UInt16 → Machine → Progress) : Progress :=
  match m.code.read16? m.regs.pc with
  | none => m.fail .internal .truncated none
  | some n => next n { m with regs := { m.regs with pc := m.regs.pc + 2 } }

/-- Reads the 64-bit integer at the program counter and goes on behind it. -/
def readInt64 (m : Machine) (next : Int64 → Machine → Progress) : Progress :=
  match m.code.read64? m.regs.pc with
  | none => m.fail .internal .truncated none
  | some n => next n { m with regs := { m.regs with pc := m.regs.pc + 8 } }

/-- Executes the instruction at the program counter.  Its operand, if it has one,
is read where the opcode asks for it. -/
def step (m : Machine) : Progress :=
  { m with started := { m.started with offset := m.regs.pc } }.readByte fun b m =>
    let m := { m with started := { m.started with byte := b } }
    match Opcode.ofByte? b with
    | some .int64 => m.readInt64 fun value m => m.execute (.int64 value)
    | some .ret => m.execute .ret
    | some .closure => m.readUInt16 fun length m => m.execute (.closure length)
    | some .push => m.execute .push
    | some .pushMark => m.execute .pushMark
    | some .access => m.readByte fun index m => m.execute (.access index)
    | some .apply => m.execute .apply
    | some .appTerm => m.execute .appTerm
    | some .makeBlock => m.readUInt16 fun size m => m.execute (.makeBlock size)
    | some .grab => m.execute .grab
    | some .bind => m.execute .bind
    | some .unbind => m.execute .unbind
    | some .setGlobal => m.readUInt16 fun slot m => m.execute (.setGlobal slot)
    | some .getGlobal => m.readUInt16 fun slot m => m.execute (.getGlobal slot)
    | none => m.fail .unsupported .badOpcode none

end Machine

end Zinc
