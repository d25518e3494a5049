import Zinc.Proofs.Code.Layout
import Zinc.Proofs.Machine.Unbounded

/-!
What each instruction does to the current call, without bounds.  The state of a machine
is written with the locals of the current call apart from the rest of the return stack.
-/

namespace Zinc

/-- The stack of some items. -/
def Stack.of {α : Type} (items : List α) : Stack α :=
  ⟨items, items.length, rfl⟩

@[simp] theorem Stack.items_of {α : Type} (items : List α) :
    (Stack.of items).items = items := rfl

theorem Stack.drop_of {α : Type} (items : List α) (n : Nat) :
    (Stack.of items).drop n = .of (items.drop n) :=
  Stack.ext rfl

namespace Machine

/-- The machine in the middle of a call: `locals` are on top of the return stack. -/
def on (m : Machine) (h : Heap) (acc : Value) (pc : Int) (env : Value)
    (locals args : List Value) (returns : List ReturnEntry) : Machine :=
  { m with
    heap := h
    regs := {
      acc := acc, pc := pc, env := env, extra := locals.length, args := .of args
      returns := .of (locals.map .value ++ returns) } }

variable {m : Machine} {h : Heap} {acc : Value} {pc : Int} {env : Value}
  {locals args : List Value} {returns : List ReturnEntry} {is : List Instr}

/-- The machine just before it executes an instruction. -/
def poised (m : Machine) (h : Heap) (acc : Value) (pc : Int) (env : Value)
    (locals args : List Value) (returns : List ReturnEntry) (i : Instr) : Machine :=
  { (m.on h acc pc env locals args returns).unbounded with
    started := { offset := pc, byte := i.opcode.byte }
    regs := (m.on h acc (pc + i.size) env locals args returns).regs }

theorem roomy_poised (i : Instr) :
    (m.poised h acc pc env locals args returns i).Roomy :=
  ⟨Int.lt_succ _, Int.lt_succ _⟩

/-- A step executes the instruction that stands at the program counter. -/
theorem advance_on {i : Instr} (hat : m.code.At pc (i :: is)) :
    (m.on h acc pc env locals args returns).advance =
      ((m.poised h acc pc env locals args returns i).execute i).map m.adopt := by
  have hfetch : (m.on h acc pc env locals args returns).unbounded.code.fetch pc =
      .instr i := hat.fetch
  rw [advance, step_of_fetch hfetch]
  rfl

theorem advance_int64 {value : Int64} (hat : m.code.At pc (.int64 value :: is)) :
    (m.on h acc pc env locals args returns).advance =
      .running (m.on h (.int value) (pc + (Instr.int64 value).size) env locals args
        returns) := by
  rw [advance_on hat]
  rfl

theorem advance_push (hat : m.code.At pc (.push :: is)) :
    (m.on h acc pc env locals args returns).advance =
      .running (m.on h acc (pc + Instr.push.size) env locals (acc :: args) returns) := by
  rw [advance_on hat, execute, pushArg, if_neg (Int.not_le.2 (roomy_poised _).args)]
  rfl

theorem advance_pushMark (hat : m.code.At pc (.pushMark :: is)) :
    (m.on h acc pc env locals args returns).advance =
      .running (m.on h acc (pc + Instr.pushMark.size) env locals (.mark :: args)
        returns) := by
  rw [advance_on hat, execute, pushArg, if_neg (Int.not_le.2 (roomy_poised _).args)]
  rfl

theorem advance_bind (hat : m.code.At pc (.bind :: is)) :
    (m.on h acc pc env locals args returns).advance =
      .running (m.on h acc (pc + Instr.bind.size) env (acc :: locals) args
        returns) := by
  rw [advance_on hat, execute, pushReturn,
    if_neg (Int.not_le.2 (roomy_poised _).returns)]
  rfl

theorem advance_unbind {v : Value} (hat : m.code.At pc (.unbind :: is)) :
    (m.on h acc pc env (v :: locals) args returns).advance =
      .running (m.on h acc (pc + Instr.unbind.size) env locals args returns) := by
  have hextra : ¬ (m.poised h acc pc env (v :: locals) args returns
      .unbind).regs.extra = 0 := Nat.succ_ne_zero _
  rw [advance_on hat, execute, if_neg hextra]
  rfl

/-- The local at an index of the current call. -/
theorem advance_access {index : UInt8} {v : Value}
    (hat : m.code.At pc (.access index :: is))
    (hv : (m.on h acc pc env locals args returns).local? index.toNat = some v) :
    (m.on h acc pc env locals args returns).advance =
      .running (m.on h v (pc + (Instr.access index).size) env locals args returns) := by
  have hlocal : (m.poised h acc pc env locals args returns (.access index)).local?
      index.toNat = some v := hv
  rw [advance_on hat, execute, hlocal]
  rfl

theorem advance_getGlobal {slot : UInt16} {g : Global}
    (hat : m.code.At pc (.getGlobal slot :: is))
    (hg : m.globals.entries[slot.toNat]? = some g) (hdefined : g.defined = true) :
    (m.on h acc pc env locals args returns).advance =
      .running (m.on h g.value (pc + (Instr.getGlobal slot).size) env locals args
        returns) := by
  have hentry : (m.poised h acc pc env locals args returns
      (.getGlobal slot)).globals.entries[slot.toNat]? = some g := hg
  rw [advance_on hat, execute, hentry]
  dsimp only
  rw [if_pos hdefined]
  rfl

theorem advance_getGlobal_undefined {slot : UInt16} {g : Global}
    (hat : m.code.At pc (.getGlobal slot :: is))
    (hg : m.globals.entries[slot.toNat]? = some g) (hundefined : g.defined = false) :
    ∃ f last, (m.on h acc pc env locals args returns).advance = .faulted f last ∧
      f.cause = .undefinedGlobal := by
  have hentry : (m.poised h acc pc env locals args returns
      (.getGlobal slot)).globals.entries[slot.toNat]? = some g := hg
  rw [advance_on hat, execute, hentry]
  dsimp only
  rw [if_neg (by simp [hundefined])]
  exact ⟨_, _, rfl, rfl⟩

theorem advance_makeBlock {size : UInt16} {fields : List Value}
    (hat : m.code.At pc (.makeBlock size :: is)) (hsize : fields.length = size.toNat) :
    (m.on h acc pc env locals (fields ++ args) returns).advance =
      .running (m.on (h.alloc .tuple fields.reverse.toArray).2
        (.ref .tuple h.cells.size) (pc + (Instr.makeBlock size).size) env locals args
        returns) := by
  have hdepth : ¬ (m.poised h acc pc env locals (fields ++ args) returns
      (.makeBlock size)).regs.args.depth < size.toNat := by
    change ¬ (fields ++ args).length < size.toNat
    rw [List.length_append]
    omega
  have htake : (m.poised h acc pc env locals (fields ++ args) returns
      (.makeBlock size)).regs.args.items.take size.toNat = fields := by
    rw [← hsize]
    exact List.take_left
  have hdrop : (m.poised h acc pc env locals (fields ++ args) returns
      (.makeBlock size)).regs.args.drop size.toNat = .of args := by
    rw [← hsize]
    exact (Stack.drop_of _ _).trans (congrArg Stack.of List.drop_left)
  rw [advance_on hat, execute, makeTuple]
  dsimp only
  rw [if_neg hdepth, popFields_of_deep hdepth, htake, hdrop]
  rfl

/-- The locals of the current call are what a closure captures. -/
theorem captureEnv_on {x : Machine} (hheap : x.heap = h)
    (hregs : x.regs = (m.on h acc pc env locals args returns).regs) :
    x.captureEnv = (locals.map ReturnEntry.value).foldr consEnv (env, h) := by
  rw [captureEnv, hregs, hheap]
  change ((locals.map ReturnEntry.value ++ returns).take locals.length).foldr consEnv
    (env, h) = _
  rw [← List.length_map (f := ReturnEntry.value), List.take_left]

/-- The closure that is built over the locals of the current call. -/
def closureOf (h : Heap) (env : Value) (locals : List Value) (offset : Int) :
    Value × Heap :=
  let captured := (locals.map ReturnEntry.value).foldr consEnv (env, h)
  let result := captured.2.alloc .closure #[captured.1, .code offset]
  (.ref .closure result.1, result.2)

theorem loadClosure_on {x : Machine} (hheap : x.heap = h)
    (hregs : x.regs = (m.on h acc pc env locals args returns).regs) (offset : Int) :
    x.loadClosure offset =
      { x with
        heap := (closureOf h env locals offset).2
        regs := (m.on h (closureOf h env locals offset).1 pc env locals args
          returns).regs } := by
  rw [loadClosure, captureEnv_on hheap hregs, hregs]
  rfl

theorem advance_closure {length : UInt16}
    (hat : m.code.At pc (.closure length :: is)) {body rest : List Instr}
    (his : is = body ++ rest) (hlength : length.toNat = Instr.sizeAll body) :
    let offset := pc + (Instr.closure length).size
    (m.on h acc pc env locals args returns).advance =
      .running (m.on (closureOf h env locals offset).2 (closureOf h env locals offset).1
        (offset + Instr.sizeAll body) env locals args returns) := by
  intro offset
  subst his
  have hfits : ¬ ((m.poised h acc pc env locals args returns (.closure length)).code.size <
      (m.poised h acc pc env locals args returns (.closure length)).regs.pc +
        length.toNat) := by
    have hend := hat.next.skip.fits
    change ¬ (m.code.size < pc + (Instr.closure length).size + length.toNat)
    omega
  rw [advance_on hat, execute]
  dsimp only
  rw [if_neg hfits, hlength, loadClosure_on (m := m) rfl rfl]
  rfl

/-- A jump to a function: it goes on in the code of a closure, and faults on anything
else. -/
structure Jumps (m : Machine) (h : Heap) (fn : Value) (args : List Value)
    (returns : List ReturnEntry) (p : Progress) : Prop where
  closure : ∀ a env offset, fn = .ref .closure a → h.fields a = #[env, .code offset] →
    p = .running (m.on h fn offset env [] args returns)
  other : (∀ a, fn ≠ .ref .closure a) →
    ∃ f last, p = .faulted f last ∧ f.cause = .notClosure

theorem jumps_jump {x : Machine} (pc : Int) (env : Value) (hheap : x.heap = h)
    (hglobals : x.globals = m.globals)
    (hregs : x.regs = (m.on h acc pc env [] args returns).regs) :
    Jumps m h acc args returns ((x.jump acc).map m.adopt) := by
  constructor
  · rintro a env' offset rfl hfields
    have hsize : (x.heap.fields a).size = 2 := by rw [hheap, hfields]; rfl
    have hfirst : x.heap.field a 0 = env' := by simp [Heap.field, hheap, hfields]
    have hsecond : (x.heap.field a 1).asOffset = offset := by
      simp [Heap.field, hheap, hfields, Value.asOffset]
    rw [jump]
    dsimp only
    rw [if_pos hsize, hfirst, hsecond, hregs]
    dsimp only [Progress.map, adopt]
    rw [hheap, hglobals]
    rfl
  · intro hother
    rcases x.jump_cases acc with ⟨a, ha, _⟩ | ⟨_, heq⟩
    · exact absurd ha (hother a)
    · rw [heq]
      exact ⟨_, _, rfl, rfl⟩

/-- Leaving a call: the caller goes on, and without a caller the run is finished. -/
structure Leaves (m : Machine) (h : Heap) (acc : Value) (args : List Value)
    (returns : List ReturnEntry) (p : Progress) : Prop where
  caller : ∀ pc env locals rest,
    returns = .frame pc env locals.length :: (locals.map .value ++ rest) →
    p = .running (m.on h acc pc env locals args rest)
  finished : returns = [] →
    ∃ pc env, p = .finished (m.on h acc pc env [] args [])

theorem leaves_leave {x : Machine} (pc : Int) (env : Value) (locals : List Value)
    (hheap : x.heap = h) (hglobals : x.globals = m.globals)
    (hregs : x.regs = (m.on h acc pc env locals (.mark :: args) returns).regs) :
    Leaves m h acc args returns (x.leave.map m.adopt) := by
  have hdrop : (x.regs.returns.drop x.regs.extra) = .of returns := by
    rw [hregs]
    refine (Stack.drop_of _ _).trans (congrArg Stack.of ?_)
    change (locals.map ReturnEntry.value ++ returns).drop locals.length = returns
    rw [← List.length_map (f := ReturnEntry.value), List.drop_left]
  have hargs : x.regs.args.drop 1 = .of args := by
    rw [hregs]
    rfl
  constructor
  · rintro pc' env' locals' rest rfl
    unfold leave dropExtras
    dsimp only
    rw [hdrop, hargs, hregs]
    dsimp only [Stack.top?, Stack.items_of, List.head?_cons, Progress.map, adopt]
    rw [hheap, hglobals]
    rfl
  · rintro rfl
    refine ⟨pc, env, ?_⟩
    unfold leave dropExtras
    dsimp only
    rw [hdrop, hargs, hregs]
    dsimp only [Stack.top?, Stack.items_of, List.head?_nil, Progress.map, adopt]
    rw [hheap, hglobals]
    rfl

theorem advance_apply (hat : m.code.At pc (.apply :: is)) :
    Jumps m h acc args
      (.frame (pc + Instr.apply.size) env locals.length :: (locals.map .value ++ returns))
      (m.on h acc pc env locals args returns).advance := by
  rw [advance_on hat, execute, pushReturn,
    if_neg (Int.not_le.2 (roomy_poised _).returns)]
  exact jumps_jump (pc + Instr.apply.size) env rfl rfl rfl

/-- Calls in tail position, and results that are called with the arguments left. -/
theorem jumps_tail {x : Machine} (pc : Int) (env : Value) (locals : List Value)
    (hheap : x.heap = h) (hglobals : x.globals = m.globals)
    (hregs : x.regs = (m.on h acc pc env locals args returns).regs) :
    Jumps m h acc args returns ((x.dropExtras.jump acc).map m.adopt) := by
  refine jumps_jump pc env hheap hglobals ?_
  unfold dropExtras
  rw [hregs]
  have hdrop : (Stack.of (locals.map ReturnEntry.value ++ returns)).drop locals.length =
      .of returns := by
    refine (Stack.drop_of _ _).trans (congrArg Stack.of ?_)
    rw [← List.length_map (f := ReturnEntry.value), List.drop_left]
  dsimp only [on]
  rw [hdrop]
  rfl

theorem advance_appTerm (hat : m.code.At pc (.appTerm :: is)) :
    Jumps m h acc args returns (m.on h acc pc env locals args returns).advance := by
  rw [advance_on hat]
  exact jumps_tail (pc + Instr.appTerm.size) env locals rfl rfl rfl

theorem advance_ret_mark (hat : m.code.At pc (.ret :: is)) :
    Leaves m h acc args returns
      (m.on h acc pc env locals (.mark :: args) returns).advance := by
  rw [advance_on hat]
  exact leaves_leave (pc + Instr.ret.size) env locals rfl rfl rfl

theorem advance_ret_value {v : Value} (hat : m.code.At pc (.ret :: is))
    (hv : v.isMark = false) :
    Jumps m h acc (v :: args) returns
      (m.on h acc pc env locals (v :: args) returns).advance := by
  have htop : (m.poised h acc pc env locals (v :: args) returns .ret).regs.args.top? =
      some v := rfl
  rw [advance_on hat, execute, htop]
  dsimp only
  rw [if_neg (by simp [hv])]
  exact jumps_tail (pc + Instr.ret.size) env locals rfl rfl rfl

/-- A function that waits for an argument in vain is the result of the call. -/
theorem advance_grab_mark (hat : m.code.At pc (.grab :: is)) :
    Leaves m (closureOf h env locals pc).2 (closureOf h env locals pc).1 args returns
      (m.on h acc pc env locals (.mark :: args) returns).advance := by
  have htop : (m.poised h acc pc env locals (.mark :: args) returns
      .grab).regs.args.top? = some .mark := rfl
  rw [advance_on hat, execute, htop]
  dsimp only
  rw [if_pos (by rfl), loadClosure_on (m := m) rfl rfl]
  exact leaves_leave (pc + Instr.grab.size) env locals rfl rfl rfl

/-- A function takes an argument. -/
theorem advance_grab_value {v : Value} (hat : m.code.At pc (.grab :: is))
    (hv : v.isMark = false) :
    (m.on h acc pc env locals (v :: args) returns).advance =
      .running (m.on h acc (pc + Instr.grab.size) env (v :: locals) args returns) := by
  have htop : (m.poised h acc pc env locals (v :: args) returns
      .grab).regs.args.top? = some v := rfl
  rw [advance_on hat, execute, htop]
  dsimp only
  rw [if_neg (by simp [hv]), pushReturn, if_neg (Int.not_le.2 (roomy_poised _).returns)]
  rfl

end Machine

end Zinc
