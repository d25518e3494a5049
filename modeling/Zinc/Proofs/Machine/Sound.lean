import Zinc.Proofs.Machine.Frame
import Zinc.Proofs.Machine.Typed

/-!
Compiled code never breaks the machine.  While a disciplined program runs, the stacks
are those of calls that wait for each other: each call has its locals on the return
stack, and on the argument stack what it has pushed, the arguments that still wait, and
a mark.  An instruction keeps the stacks in that form; so does a collection, since all
of it is reachable.
-/

namespace Zinc

/-- The values on the argument stack are as the discipline says. -/
inductive Pushed (w : World) : List Slot → List Value → Prop where
  | nil : Pushed w [] []
  | value {slots : List Slot} {v : Value} {vs : List Value} :
      Typed w .data v → Pushed w slots vs → Pushed w (.value :: slots) (v :: vs)
  | mark {slots : List Slot} {vs : List Value} :
      Pushed w slots vs → Pushed w (.mark :: slots) (.mark :: vs)

/-- A call that goes on at `pc`, where the code keeps to the discipline.  The call has
`top` on the argument stack, the arguments that wait for a function at the bottom, and
`locals` on the return stack. -/
inductive Standing (w : World) (loaded : Bool) (pc : Int) (env : Value)
    (top locals : List Value) : Prop where
  | intro {captured lets : Nat} {pending : List Slot} {is : List Instr}
      {pushed waiting : List Value} :
      w.code.At pc is →
      Disciplined w.slots (locals.length + captured) lets loaded pending is →
      lets ≤ locals.length → Typed w (.env captured) env →
      (∀ v ∈ locals, Typed w .data v) → Pushed w pending pushed →
      (∀ v ∈ waiting, Typed w .data v) → top = pushed ++ waiting →
      Standing w loaded pc env top locals

/-- The calls below the current one: each has been left for the one above it. -/
inductive Waiting (w : World) : List Value → List ReturnEntry → Prop where
  | bottom : Waiting w [] []
  | call {pc : Int} {env : Value} {top locals args : List Value}
      {returns : List ReturnEntry} :
      Standing w true pc env top locals → Waiting w args returns →
      Waiting w (top ++ .mark :: args)
        (.frame pc env locals.length :: (locals.map .value ++ returns))

/-- Values that have a shape in one world have it in another one, with the same code and
globals. -/
structure World.Keeps (w w' : World) (roots : List Value) : Prop where
  code : w'.code = w.code
  slots : w'.slots = w.slots
  typed : ∀ shape v, v ∈ roots → Typed w shape v → Typed w' shape v

variable {w w' : World}

theorem Pushed.keep {slots : List Slot} {vs : List Value} (h : Pushed w slots vs)
    (hkeeps : w.Keeps w' vs) : Pushed w' slots vs := by
  induction h with
  | nil => exact .nil
  | value hv _ ih =>
      refine .value (hkeeps.typed _ _ List.mem_cons_self hv) (ih ?_)
      exact ⟨hkeeps.code, hkeeps.slots,
        fun shape u hu => hkeeps.typed shape u (List.mem_cons_of_mem _ hu)⟩
  | mark _ ih =>
      refine .mark (ih ?_)
      exact ⟨hkeeps.code, hkeeps.slots,
        fun shape u hu => hkeeps.typed shape u (List.mem_cons_of_mem _ hu)⟩

/-- What has been pushed, down to some depth, are values. -/
theorem Pushed.split {count : Nat} {pending : List Slot} {vs : List Value}
    (h : Pushed w (List.replicate count .value ++ pending) vs) :
    ∃ top below, vs = top ++ below ∧ top.length = count ∧
      (∀ v ∈ top, Typed w .data v) ∧ Pushed w pending below := by
  induction count generalizing vs with
  | zero => exact ⟨[], vs, rfl, rfl, by simp, h⟩
  | succ count ih =>
      rw [List.replicate_succ, List.cons_append] at h
      cases h with
      | @value _ v vs hv hrest =>
          obtain ⟨top, below, rfl, hlength, htop, hbelow⟩ := ih hrest
          refine ⟨v :: top, below, rfl, by rw [List.length_cons, hlength], ?_, hbelow⟩
          exact List.forall_mem_cons.2 ⟨hv, htop⟩

theorem World.Keeps.mono {few many : List Value} (hkeeps : w.Keeps w' many)
    (hsub : ∀ v ∈ few, v ∈ many) : w.Keeps w' few :=
  ⟨hkeeps.code, hkeeps.slots, fun shape v hv => hkeeps.typed shape v (hsub v hv)⟩

theorem Standing.keep {loaded : Bool} {pc : Int} {env : Value}
    {top locals : List Value} (h : Standing w loaded pc env top locals)
    (hkeeps : w.Keeps w' (env :: (top ++ locals))) :
    Standing w' loaded pc env top locals := by
  obtain ⟨hat, hdisciplined, hlets, henv, hlocals, hpushed, hwaiting, rfl⟩ := h
  rw [← hkeeps.code] at hat
  rw [← hkeeps.slots] at hdisciplined
  refine .intro hat hdisciplined hlets (hkeeps.typed _ _ List.mem_cons_self henv) ?_
    (hpushed.keep (hkeeps.mono ?_)) ?_ rfl
  · intro v hv
    exact hkeeps.typed _ _ (by simp [hv]) (hlocals v hv)
  · intro v hv
    simp [hv]
  · intro v hv
    exact hkeeps.typed _ _ (by simp [hv]) (hwaiting v hv)

theorem Waiting.keep {args : List Value} {returns : List ReturnEntry}
    (h : Waiting w args returns)
    (hkeeps : w.Keeps w' (args ++ returns.map ReturnEntry.held)) :
    Waiting w' args returns := by
  induction h with
  | bottom => exact .bottom
  | call hstanding _ ih =>
      refine .call (hstanding.keep (hkeeps.mono ?_)) (ih (hkeeps.mono ?_))
      · intro v hv
        simp only [List.mem_cons, List.mem_append, List.map_cons, List.map_append,
          List.map_map, List.mem_map, ReturnEntry.held] at hv ⊢
        rcases hv with rfl | hv | hv
        · exact Or.inr (Or.inl rfl)
        · exact Or.inl (Or.inl hv)
        · exact Or.inr (Or.inr (Or.inl ⟨v, hv, rfl⟩))
      · intro v hv
        simp only [List.mem_cons, List.mem_append, List.map_cons, List.map_append]
          at hv ⊢
        rcases hv with hv | hv
        · exact Or.inl (Or.inr (Or.inr hv))
        · exact Or.inr (Or.inr (Or.inr hv))

theorem World.Keeps.grow {heap : Heap} (hgrows : w.heap.Grows heap)
    (roots : List Value) : w.Keeps { w with heap := heap } roots :=
  ⟨rfl, rfl, fun _ _ _ h => h.grow hgrows⟩

namespace Machine

/-- What the values of a machine refer to. -/
def world (m : Machine) : World :=
  ⟨m.code, m.globals.size, m.heap⟩

/-- A global is unassigned, or it holds a value that a program can compute with. -/
structure Assigned (w : World) (g : Global) : Prop where
  typed : g.defined = true → Typed w .data g.value
  undefined : g.defined = false → g.value = .undefined

/-- Everything that handles and globals hold has a shape, and the index of the globals
names slots that exist. -/
structure Sound (m : Machine) : Prop where
  tidy : m.heap.Tidy
  laid : ∃ is, m.code.bytes.toList = Instr.encodeAll is
  index : Lir.Addresses m.globals.size m.globals.slot?
  handles : ∀ v ∈ m.handles.values, Typed m.world .data v
  globals : ∀ g ∈ m.globals.entries, Assigned m.world g

/-- The registers hold what the discipline says of the current call, and the calls
below it wait for its end. -/
structure Poised (m : Machine) (captured lets : Nat) (loaded : Bool)
    (pending : List Slot) (pushed waiting locals args : List Value)
    (returns : List ReturnEntry) : Prop where
  args_eq : m.regs.args.items = pushed ++ waiting ++ .mark :: args
  returns_eq : m.regs.returns.items = locals.map .value ++ returns
  extra_eq : m.regs.extra = locals.length
  lets_le : lets ≤ locals.length
  env_typed : Typed m.world (.env captured) m.regs.env
  locals_typed : ∀ v ∈ locals, Typed m.world .data v
  pushed_typed : Pushed m.world pending pushed
  waiting_typed : ∀ v ∈ waiting, Typed m.world .data v
  acc_typed : loaded = true → Typed m.world .data m.regs.acc
  calls : Waiting m.world args returns

/-- The code at the program counter keeps to the discipline. -/
inductive Running (m : Machine) : Prop where
  | intro {captured lets : Nat} {loaded : Bool} {pending : List Slot}
      {pushed waiting locals args : List Value} {returns : List ReturnEntry}
      {is : List Instr} :
      Poised m captured lets loaded pending pushed waiting locals args returns →
      m.code.At m.regs.pc is →
      Disciplined m.globals.size (locals.length + captured) lets loaded pending is →
      Running m

/-- The causes that a run can stop with. -/
def runtimeCauses : List Cause :=
  [.notClosure, .undefinedGlobal, .argStackFull, .returnStackFull, .stepLimit,
    .interrupted]

/-- A step went well: the machine is still in order, and if the step was the last one
there is a value or a cause that a run can stop with. -/
def Fine : Progress → Prop
  | .running m => m.Sound ∧ m.Running
  | .finished m => m.Sound ∧ Typed m.world .data m.regs.acc
  | .faulted f m => m.Sound ∧ f.cause ∈ runtimeCauses

variable {m : Machine}

theorem Sound.withRegisters (h : m.Sound) (regs : Registers) (usage : Usage)
    (started : Started) :
    Sound { m with regs := regs, usage := usage, started := started } :=
  ⟨h.tidy, h.laid, h.index, h.handles, h.globals⟩

theorem Assigned.keep {g : Global} (h : Assigned w g)
    (hkeeps : w.Keeps w' [g.value]) : Assigned w' g :=
  ⟨fun hdefined => hkeeps.typed _ _ List.mem_cons_self (h.typed hdefined), h.undefined⟩

/-- New objects leave the machine in order. -/
theorem Sound.grow (h : m.Sound) {heap : Heap} (hgrows : m.heap.Grows heap)
    (regs : Registers) : Sound { m with heap := heap, regs := regs } :=
  ⟨hgrows.tidy h.tidy, h.laid, h.index, fun v hv => (h.handles v hv).grow hgrows,
    fun g hg => (h.globals g hg).keep (.grow hgrows _)⟩

theorem fine_fail (h : m.Sound) (kind : FaultKind) {cause : Cause}
    (detail : Option String) (hcause : cause ∈ runtimeCauses) :
    Fine (m.fail kind cause detail) :=
  ⟨h, hcause⟩

theorem fine_pushArg (h : m.Sound) {v : Value}
    (hrun : ∀ usage, Running { m with
      regs := { m.regs with args := m.regs.args.push v }, usage := usage }) :
    Fine (m.pushArg v) := by
  rw [pushArg]
  split
  · exact fine_fail h _ _ (by simp [runtimeCauses])
  · exact ⟨h.withRegisters _ _ _, hrun _⟩

theorem fine_pushReturn (h : m.Sound) {e : ReturnEntry} {k : Machine → Progress}
    (hk : ∀ usage, Sound { m with
        regs := { m.regs with returns := m.regs.returns.push e }, usage := usage } →
      Fine (k { m with
        regs := { m.regs with returns := m.regs.returns.push e }, usage := usage })) :
    Fine ((m.pushReturn e).andThen k) := by
  rw [pushReturn]
  split
  · exact fine_fail h _ _ (by simp [runtimeCauses])
  · exact hk _ (h.withRegisters _ _ _)

/-- Entering a closure, with the arguments that wait for it on top of a mark. -/
theorem fine_jump (h : m.Sound) {callee : Value} {top args : List Value}
    {returns : List ReturnEntry} (hcallee : Typed m.world .data callee)
    (htop : ∀ v ∈ top, Typed m.world .data v) (hcalls : Waiting m.world args returns)
    (hargs : m.regs.args.items = top ++ .mark :: args)
    (hreturns : m.regs.returns.items = returns) (hextra : m.regs.extra = 0) :
    Fine (m.jump callee) := by
  have hfault := fine_fail h .internal (some ("got " ++ callee.kind.text))
    (show Cause.notClosure ∈ runtimeCauses by simp [runtimeCauses])
  cases hcallee with
  | int n => exact hfault
  | tuple _ _ _ => exact hfault
  | @closure a captured c env offset is hcell _ hfields henv hat hdisciplined =>
      have hheap : m.heap.fields a = #[env, .code offset] :=
        (Heap.fields_of_cell hcell).trans hfields
      rcases m.jump_cases (.ref .closure a) with ⟨b, hb, _, heq⟩ | ⟨hnot, _⟩
      · cases hb
        have henv' : m.heap.field a 0 = env := by simp [Heap.field, hheap]
        have hpc : (m.heap.field a 1).asOffset = offset := by
          simp [Heap.field, hheap, Value.asOffset]
        rw [heq, henv', hpc]
        refine ⟨h.withRegisters _ _ _, ?_⟩
        have hpoised : Poised { m with regs := { m.regs with env := env, pc := offset } }
            captured 0 false [] [] top [] args returns :=
          ⟨hargs, hreturns, hextra, Nat.zero_le _, henv, by simp, .nil, htop, by simp,
            hcalls⟩
        refine .intro hpoised hat ?_
        rw [List.length_nil, Nat.zero_add]
        exact hdisciplined
      · exact absurd (by rw [hheap]; rfl) (hnot a rfl)

/-- Leaving a call whose mark is on top. -/
theorem fine_leave (h : m.Sound) {locals args : List Value}
    {returns : List ReturnEntry} (hacc : Typed m.world .data m.regs.acc)
    (hcalls : Waiting m.world args returns)
    (hargs : m.regs.args.items = .mark :: args)
    (hreturns : m.regs.returns.items = locals.map .value ++ returns)
    (hextra : m.regs.extra = locals.length) : Fine m.leave := by
  have hdropped : m.regs.returns.items.drop m.regs.extra = returns := by
    rw [hreturns, hextra, ← List.length_map (f := ReturnEntry.value)]
    exact List.drop_left
  have hrest : m.regs.args.items.drop 1 = args := by rw [hargs, List.drop_one,
    List.tail_cons]
  unfold leave dropExtras
  dsimp only [Stack.top?, Stack.items_drop]
  rw [hdropped]
  cases hcalls with
  | bottom => exact ⟨h.withRegisters _ _ _, hacc⟩
  | @call pc env top below args returns hstanding hcalls =>
      obtain ⟨hat, hdisciplined, hlets, henv, hlocals, hpushed, hwaiting, rfl⟩ := hstanding
      dsimp only [List.head?_cons]
      refine ⟨h.withRegisters _ _ _, .intro ⟨hrest, ?_, rfl, hlets, henv, hlocals, hpushed,
        hwaiting, fun _ => hacc, hcalls⟩ hat hdisciplined⟩
      simp [hdropped]

variable {captured lets : Nat} {loaded : Bool} {pending : List Slot}
  {pushed waiting locals args : List Value} {returns : List ReturnEntry}

/-- The stacks stay as they are, and what is on them keeps its shape. -/
theorem Poised.keep {m' : Machine}
    (h : Poised m captured lets loaded pending pushed waiting locals args returns)
    (hkeeps : m.world.Keeps m'.world m.roots)
    (hregs : m'.regs = { m.regs with acc := m'.regs.acc, pc := m'.regs.pc })
    {loaded' : Bool} (hacc : loaded' = true → Typed m'.world .data m'.regs.acc) :
    Poised m' captured lets loaded' pending pushed waiting locals args returns := by
  have henv : m'.regs.env = m.regs.env := by rw [hregs]
  have hargs : m'.regs.args = m.regs.args := by rw [hregs]
  have hreturns : m'.regs.returns = m.regs.returns := by rw [hregs]
  have hextra : m'.regs.extra = m.regs.extra := by rw [hregs]
  have hsub {vs : List Value} (hvs : ∀ v ∈ vs, v ∈ m.roots) :
      m.world.Keeps m'.world vs := hkeeps.mono hvs
  have hstack {v : Value} (hv : v ∈ pushed ++ waiting ++ .mark :: args) :
      v ∈ m.roots := by
    rw [← h.args_eq] at hv
    simp [roots, hv]
  have hlocal {v : Value}
      (hv : v ∈ (locals.map ReturnEntry.value ++ returns).map ReturnEntry.held) :
      v ∈ m.roots := by
    rw [← h.returns_eq] at hv
    simp only [roots, List.mem_cons, List.mem_append]
    exact Or.inr (Or.inr (Or.inr (Or.inl hv)))
  refine ⟨by rw [hargs, h.args_eq], by rw [hreturns, h.returns_eq],
    by rw [hextra, h.extra_eq], h.lets_le, ?_, ?_, ?_, ?_, hacc, ?_⟩
  · rw [henv]
    exact hkeeps.typed _ _ (by simp [roots]) h.env_typed
  · intro v hv
    refine hkeeps.typed _ _ (hlocal ?_) (h.locals_typed v hv)
    simp only [List.map_append, List.map_map, List.mem_append, List.mem_map]
    exact Or.inl ⟨v, hv, rfl⟩
  · exact h.pushed_typed.keep (hsub fun v hv => hstack (by simp [hv]))
  · exact fun v hv => hkeeps.typed _ _ (hstack (by simp [hv])) (h.waiting_typed v hv)
  · refine h.calls.keep (hsub fun v hv => ?_)
    rcases List.mem_append.1 hv with hv | hv
    · exact hstack (by simp [hv])
    · exact hlocal (by rw [List.map_append]; exact List.mem_append_right _ hv)

/-- A value is loaded, which may refer to new objects. -/
theorem Poised.load
    (h : Poised m captured lets loaded pending pushed waiting locals args returns)
    {heap : Heap} (hgrows : m.heap.Grows heap) {v : Value}
    (hv : Typed { m.world with heap := heap } .data v) :
    Poised { m with heap := heap, regs := { m.regs with acc := v } } captured lets true
      pending pushed waiting locals args returns := by
  apply h.keep
  · exact .grow hgrows _
  · rfl
  · exact fun _ => hv

theorem Poised.push
    (h : Poised m captured lets loaded pending pushed waiting locals args returns)
    {slot : Slot} {v : Value} (hv : Pushed m.world (slot :: pending) (v :: pushed))
    (usage : Usage) :
    Poised { m with regs := { m.regs with args := m.regs.args.push v }, usage := usage }
      captured lets loaded (slot :: pending) (v :: pushed) waiting locals args
      returns :=
  ⟨congrArg (v :: ·) h.args_eq, h.returns_eq, h.extra_eq, h.lets_le, h.env_typed,
    h.locals_typed, hv, h.waiting_typed, h.acc_typed, h.calls⟩

theorem Poised.bind
    (h : Poised m captured lets loaded pending pushed waiting locals args returns)
    {v : Value} (hv : Typed m.world .data v) {lets' : Nat}
    (hlets : lets' ≤ locals.length + 1) (usage : Usage) :
    Poised { m with
        regs := { m.regs with
          returns := m.regs.returns.push (.value v), extra := m.regs.extra + 1 }
        usage := usage }
      captured lets' loaded pending pushed waiting (v :: locals) args returns :=
  ⟨h.args_eq, congrArg (ReturnEntry.value v :: ·) h.returns_eq,
    congrArg (· + 1) h.extra_eq, hlets, h.env_typed,
    List.forall_mem_cons.2 ⟨hv, h.locals_typed⟩, h.pushed_typed, h.waiting_typed,
    h.acc_typed, h.calls⟩

/-- The local at an index, wherever it is kept. -/
theorem Poised.local?
    (h : Poised m captured lets loaded pending pushed waiting locals args returns)
    {i : Nat} (hi : i < locals.length + captured) :
    ∃ v, m.local? i = some v ∧ Typed m.world .data v := by
  rw [Machine.local?, h.extra_eq, h.returns_eq]
  by_cases hlocal : i < locals.length
  · refine ⟨locals[i], ?_, h.locals_typed _ (List.getElem_mem hlocal)⟩
    rw [if_pos hlocal, List.getElem?_append_left (by simpa using hlocal)]
    simp [hlocal, ReturnEntry.localValue]
  · rw [if_neg hlocal]
    exact h.env_typed.chainAt (by omega)

/-- A new closure captures all locals. -/
theorem Poised.loadClosure
    (h : Poised m captured lets loaded pending pushed waiting locals args returns)
    {offset : Int} {is : List Instr} (hat : m.code.At offset is)
    (hdisciplined :
      Disciplined m.globals.size (locals.length + captured) 0 false [] is) :
    ∃ heap v, m.heap.Grows heap ∧ Typed { m.world with heap := heap } .data v ∧
      m.loadClosure offset =
        { m with heap := heap, regs := { m.regs with acc := v } } := by
  obtain ⟨hgrows, henv⟩ := h.env_typed.captureEnv locals h.locals_typed
  have htake : m.regs.returns.items.take m.regs.extra =
      locals.map ReturnEntry.value := by
    rw [h.returns_eq, h.extra_eq, ← List.length_map (f := ReturnEntry.value)]
    exact List.take_left
  have hcapture : m.captureEnv =
      (locals.map ReturnEntry.value).foldr consEnv (m.regs.env, m.heap) := by
    rw [Machine.captureEnv, htake]
  unfold Machine.loadClosure
  rw [hcapture]
  refine ⟨_, _, .alloc _ _ hgrows, ?_, rfl⟩
  exact .closure (Heap.cells_alloc_self _ _ _) rfl rfl
    (henv.grow (.alloc _ _ (.refl _))) hat hdisciplined

theorem Sound.set (h : m.Sound) {globals : Globals} {i : Nat} {v : Value}
    (hset : m.globals.set? i v = some globals) (hv : Typed m.world .data v) :
    Sound { m with globals := globals } ∧
      world { m with globals := globals } = m.world := by
  obtain ⟨hlt, rfl⟩ := Globals.set?_eq_some hset
  have hsize : (m.globals.entries.modify i fun e =>
      { e with value := v, defined := true }).size = m.globals.size := by
    rw [Array.size_modify]
    rfl
  have hworld : world { m with globals := { m.globals with
      entries := m.globals.entries.modify i fun e =>
        { e with value := v, defined := true } } } = m.world := by
    simp only [world, Globals.size] at hsize ⊢
    rw [hsize]
  refine ⟨⟨h.tidy, h.laid, ?_, ?_, ?_⟩, hworld⟩
  · intro s j hj
    rw [Globals.size, hsize]
    exact h.index s j hj
  · rw [hworld]
    exact h.handles
  · rw [hworld]
    intro g hg
    obtain ⟨j, hj⟩ := Array.getElem?_of_mem hg
    rw [Array.getElem?_modify] at hj
    split at hj
    · obtain ⟨e, _, rfl⟩ := Option.map_eq_some_iff.1 hj
      exact ⟨fun _ => hv, fun h => by cases h⟩
    · exact h.globals g (Array.mem_of_getElem? hj)

/-- A call of the function in the accumulator in tail position. -/
theorem fine_tailCall (h : m.Sound) {top : List Value}
    (hacc : Typed m.world .data m.regs.acc) (htop : ∀ v ∈ top, Typed m.world .data v)
    (hcalls : Waiting m.world args returns)
    (hargs : m.regs.args.items = top ++ .mark :: args)
    (hreturns : m.regs.returns.items = locals.map .value ++ returns)
    (hextra : m.regs.extra = locals.length) :
    Fine (m.dropExtras.jump m.regs.acc) := by
  refine fine_jump (h.withRegisters _ _ _) hacc htop hcalls hargs ?_ rfl
  change m.regs.returns.items.drop m.regs.extra = returns
  rw [hreturns, hextra, ← List.length_map (f := ReturnEntry.value)]
  exact List.drop_left

/-- A local is bound. -/
theorem fine_bind (h : m.Sound) {v : Value} {is : List Instr} {lets' : Nat}
    (hpoised : Poised m captured lets loaded pending pushed waiting locals args returns)
    (hv : Typed m.world .data v) (hlets : lets' ≤ locals.length + 1)
    (hat : m.code.At m.regs.pc is)
    (hdisciplined : Disciplined m.globals.size (locals.length + captured + 1) lets'
      loaded pending is) :
    Fine ((m.pushReturn (.value v)).andThen fun m =>
      .running { m with regs := { m.regs with extra := m.regs.extra + 1 } }) := by
  refine fine_pushReturn h fun usage hsound => ⟨hsound.withRegisters _ _ _, ?_⟩
  refine .intro (hpoised.bind hv hlets usage) hat ?_
  rwa [List.length_cons, Nat.add_right_comm]

/-- A call that the current one waits for. -/
theorem fine_apply (h : m.Sound) {count : Nat} {is : List Instr}
    (hpoised : Poised m captured lets true
      (List.replicate count .value ++ .mark :: pending) pushed waiting locals args
      returns)
    (hat : m.code.At m.regs.pc is)
    (hdisciplined : Disciplined m.globals.size (locals.length + captured) lets true
      pending is) : Fine (m.execute .apply) := by
  obtain ⟨top, rest, rfl, _, htop, hrest⟩ := hpoised.pushed_typed.split
  cases hrest with
  | @mark _ below hbelow =>
      have hstanding : Standing m.world true m.regs.pc m.regs.env (below ++ waiting)
          locals :=
        .intro hat hdisciplined hpoised.lets_le hpoised.env_typed hpoised.locals_typed
          hbelow hpoised.waiting_typed rfl
      refine fine_pushReturn h fun usage hsound => ?_
      refine fine_jump (hsound.withRegisters _ _ _) (hpoised.acc_typed rfl) htop
        (.call hstanding hpoised.calls) ?_ ?_ rfl
      · simpa using hpoised.args_eq
      · simp [hpoised.returns_eq, hpoised.extra_eq]

theorem fine_grab (h : m.Sound) {is : List Instr}
    (hpoised : Poised m captured lets loaded [] pushed waiting locals args returns)
    (hstart : m.code.At m.started.offset (.grab :: is))
    (hat : m.code.At m.regs.pc is)
    (hdisciplined : Disciplined m.globals.size (locals.length + captured + 1) 0 false
      [] is) : Fine (m.execute .grab) := by
  have hargs := hpoised.args_eq
  have hwaiting := hpoised.waiting_typed
  cases hpoised.pushed_typed
  rw [List.nil_append] at hargs
  unfold execute Stack.top?
  dsimp only
  rw [hargs]
  cases waiting with
  | nil =>
      -- no argument is left: the closure for the rest of them is the result
      dsimp only [List.nil_append, List.head?_cons]
      obtain ⟨heap, v, hgrows, hv, heq⟩ := hpoised.loadClosure hstart (.grab hdisciplined)
      rw [if_pos (by rfl), heq]
      exact fine_leave (h.grow hgrows _) hv (hpoised.calls.keep (.grow hgrows _)) hargs
        hpoised.returns_eq hpoised.extra_eq
  | cons v waiting =>
      obtain ⟨hv, hrest⟩ := List.forall_mem_cons.1 hwaiting
      dsimp only [List.cons_append, List.head?_cons]
      rw [if_neg (by simp [hv.isMark])]
      have htaken : Poised { m with regs := { m.regs with args := m.regs.args.drop 1 } }
          captured lets false [] [] waiting locals args returns :=
        ⟨by simp [hargs], hpoised.returns_eq, hpoised.extra_eq, hpoised.lets_le,
          hpoised.env_typed, hpoised.locals_typed, .nil, hrest, by simp, hpoised.calls⟩
      exact fine_bind (h.withRegisters _ _ _) htaken hv (Nat.zero_le _) hat hdisciplined

theorem fine_ret (h : m.Sound)
    (hpoised : Poised m captured lets true [] pushed waiting locals args returns) :
    Fine (m.execute .ret) := by
  have hargs := hpoised.args_eq
  have hwaiting := hpoised.waiting_typed
  cases hpoised.pushed_typed
  rw [List.nil_append] at hargs
  unfold execute Stack.top?
  dsimp only
  rw [hargs]
  cases waiting with
  | nil =>
      dsimp only [List.nil_append, List.head?_cons]
      rw [if_pos (by rfl)]
      exact fine_leave h (hpoised.acc_typed rfl) hpoised.calls hargs hpoised.returns_eq
        hpoised.extra_eq
  | cons v waiting =>
      -- more arguments than the function took: its result is called with the others
      dsimp only [List.cons_append, List.head?_cons]
      rw [if_neg (by simp [(hwaiting v List.mem_cons_self).isMark])]
      exact fine_tailCall h (hpoised.acc_typed rfl) hwaiting hpoised.calls hargs
        hpoised.returns_eq hpoised.extra_eq

theorem fine_makeBlock (h : m.Sound) {is : List Instr} {size : UInt16}
    (hpoised : Poised m captured lets loaded
      (List.replicate size.toNat .value ++ pending) pushed waiting locals args returns)
    (hat : m.code.At m.regs.pc is)
    (hdisciplined : Disciplined m.globals.size (locals.length + captured) lets true
      pending is) : Fine (m.execute (.makeBlock size)) := by
  obtain ⟨top, below, rfl, hlength, htop, hbelow⟩ := hpoised.pushed_typed.split
  have hitems : m.regs.args.items = top ++ (below ++ waiting ++ .mark :: args) := by
    simpa using hpoised.args_eq
  have hdepth : ¬ m.regs.args.depth < size.toNat := by
    rw [m.regs.args.depth_eq, hitems, List.length_append]
    omega
  have hfields : m.regs.args.items.take size.toNat = top := by
    rw [hitems, ← hlength]
    exact List.take_left
  have hrest : m.regs.args.items.drop size.toNat =
      below ++ waiting ++ .mark :: args := by
    rw [hitems, ← hlength]
    exact List.drop_left
  unfold execute makeTuple
  dsimp only
  rw [if_neg hdepth, popFields_of_deep hdepth, hfields]
  have hgrows : m.heap.Grows (m.heap.alloc .tuple top.reverse.toArray).2 :=
    .alloc _ _ (.refl _)
  have htuple : Typed { m.world with heap := (m.heap.alloc .tuple top.reverse.toArray).2 }
      .data (.ref .tuple m.heap.cells.size) := by
    refine .tuple (Heap.cells_alloc_self _ _ _) rfl fun v hv => ?_
    exact (htop v (by simpa using hv)).grow hgrows
  have hkept := (World.Keeps.grow hgrows : ∀ roots, m.world.Keeps _ roots)
  refine ⟨h.grow hgrows _, .intro ⟨hrest, hpoised.returns_eq, hpoised.extra_eq,
    hpoised.lets_le, ?_, ?_, ?_, ?_, fun _ => htuple, ?_⟩ hat hdisciplined⟩
  · exact hpoised.env_typed.grow hgrows
  · exact fun v hv => (hpoised.locals_typed v hv).grow hgrows
  · exact hbelow.keep (hkept _)
  · exact fun v hv => (hpoised.waiting_typed v hv).grow hgrows
  · exact hpoised.calls.keep (hkept _)

theorem fine_unbind (h : m.Sound) {is : List Instr}
    (hpoised : Poised m captured (lets + 1) loaded pending pushed waiting locals args
      returns)
    (hat : m.code.At m.regs.pc is)
    (hdisciplined : ∀ n, locals.length + captured = n + 1 →
      Disciplined m.globals.size n lets loaded pending is) :
    Fine (m.execute .unbind) := by
  have hlets := hpoised.lets_le
  have hextra := hpoised.extra_eq
  have hreturns := hpoised.returns_eq
  cases locals with
  | nil => simp at hlets
  | cons v locals =>
      rw [List.length_cons] at hlets hextra
      have hpositive : ¬ m.regs.extra = 0 := by omega
      have hrest : m.regs.returns.items.drop 1 = locals.map .value ++ returns := by
        rw [hreturns]
        rfl
      unfold execute
      dsimp only
      rw [if_neg hpositive]
      refine ⟨h.withRegisters _ _ _, .intro ⟨hpoised.args_eq, hrest, by simp [hextra],
        by omega, hpoised.env_typed, ?_, hpoised.pushed_typed, hpoised.waiting_typed,
        hpoised.acc_typed, hpoised.calls⟩ hat (hdisciplined _ ?_)⟩
      · exact fun u hu => hpoised.locals_typed u (List.mem_cons_of_mem _ hu)
      · rw [List.length_cons]
        omega

/-- An instruction that keeps to the discipline leaves the machine in order. -/
theorem fine_execute (h : m.Sound) {i : Instr} {is : List Instr}
    (hpoised : Poised m captured lets loaded pending pushed waiting locals args returns)
    (hstart : m.code.At m.started.offset (i :: is))
    (hat : m.code.At m.regs.pc is)
    (hdisciplined : Disciplined m.globals.size (locals.length + captured) lets loaded
      pending (i :: is)) : Fine (m.execute i) := by
  have hload {v : Value} (hv : Typed m.world .data v)
      (hrest : Disciplined m.globals.size (locals.length + captured) lets true pending
        is) : Fine (.running { m with regs := { m.regs with acc := v } }) :=
    ⟨h.withRegisters _ _ _, .intro (hpoised.load (.refl _) hv) hat hrest⟩
  generalize hcount : locals.length + captured = count at hdisciplined
  cases hdisciplined with
  | int64 hrest =>
      subst hcount
      exact hload (.int _) hrest
  | @access _ _ _ _ _ index hindex hrest =>
      subst hcount
      obtain ⟨v, heq, hv⟩ := hpoised.local? hindex
      unfold execute
      dsimp only
      rw [heq]
      exact hload hv hrest
  | @getGlobal _ _ _ _ _ slot hslot hrest =>
      subst hcount
      obtain ⟨g, hg⟩ : ∃ g, m.globals.entries[slot.toNat]? = some g :=
        ⟨_, Array.getElem?_eq_getElem hslot⟩
      unfold execute
      dsimp only
      rw [hg]
      dsimp only
      split
      · exact hload ((h.globals g (Array.mem_of_getElem? hg)).typed ‹_›) hrest
      · exact fine_fail h _ _ (by simp [runtimeCauses])
  | @setGlobal _ _ _ _ slot hslot hrest =>
      subst hcount
      unfold execute
      dsimp only
      cases hset : m.globals.set? slot.toNat m.regs.acc with
      | none =>
          rw [Globals.set?, if_pos hslot] at hset
          cases hset
      | some globals =>
          obtain ⟨hsound, hworld⟩ := h.set hset (hpoised.acc_typed rfl)
          have hkeeps : m.world.Keeps (world { m with globals := globals }) m.roots := by
            rw [hworld]
            exact .grow (.refl _) _
          have hacc : Typed (world { m with globals := globals }) .data m.regs.acc := by
            rw [hworld]
            exact hpoised.acc_typed rfl
          have hslots : globals.size = m.globals.size := congrArg World.slots hworld
          rw [← hslots] at hrest
          exact ⟨hsound, .intro (hpoised.keep hkeeps rfl fun _ => hacc) hat hrest⟩
  | push hrest =>
      subst hcount
      refine fine_pushArg h fun usage => .intro (hpoised.push ?_ usage) hat hrest
      exact .value (hpoised.acc_typed rfl) hpoised.pushed_typed
  | pushMark hrest =>
      subst hcount
      refine fine_pushArg h fun usage => .intro (hpoised.push ?_ usage) hat hrest
      exact .mark hpoised.pushed_typed
  | @closure _ _ _ _ body rest length hlength hbody hrest =>
      subst hcount
      have hafter := hat.skip
      have hfits := hafter.fits
      unfold execute
      dsimp only
      rw [hlength, if_neg (by omega)]
      have hmoved : Poised { m with
          regs := { m.regs with pc := m.regs.pc + Instr.sizeAll body } }
          captured lets loaded pending pushed waiting locals args returns :=
        ⟨hpoised.args_eq, hpoised.returns_eq, hpoised.extra_eq, hpoised.lets_le,
          hpoised.env_typed, hpoised.locals_typed, hpoised.pushed_typed,
          hpoised.waiting_typed, hpoised.acc_typed, hpoised.calls⟩
      obtain ⟨heap, v, hgrows, hv, heq⟩ := hmoved.loadClosure hat hbody
      rw [heq]
      exact ⟨h.grow hgrows _, .intro (hmoved.load hgrows hv) hafter hrest⟩
  | apply hrest =>
      subst hcount
      exact fine_apply h hpoised hat hrest
  | @appTerm _ _ count _ =>
      have hpushed := hpoised.pushed_typed
      rw [← List.append_nil (List.replicate count Slot.value)] at hpushed
      obtain ⟨top, _, rfl, _, htop, hnil⟩ := hpushed.split
      cases hnil
      refine fine_tailCall h (hpoised.acc_typed rfl) ?_ hpoised.calls hpoised.args_eq
        hpoised.returns_eq hpoised.extra_eq
      intro v hv
      rw [List.append_nil] at hv
      rcases List.mem_append.1 hv with hv | hv
      · exact htop v hv
      · exact hpoised.waiting_typed v hv
  | grab hrest =>
      subst hcount
      exact fine_grab h hpoised hstart hat hrest
  | ret => exact fine_ret h hpoised
  | makeBlock hrest =>
      subst hcount
      exact fine_makeBlock h hpoised hat hrest
  | bind hrest =>
      subst hcount
      exact fine_bind h hpoised (hpoised.acc_typed rfl)
        (Nat.succ_le_succ hpoised.lets_le) hat hrest
  | unbind hrest =>
      refine fine_unbind h hpoised hat fun n hn => ?_
      obtain rfl := Nat.succ.inj (hcount.symm.trans hn)
      exact hrest

/-- A step of a machine in order leaves it in order. -/
theorem fine_step (h : m.Sound) (hrunning : m.Running) : Fine m.step := by
  obtain ⟨hpoised, hat, hdisciplined⟩ := hrunning
  obtain ⟨i, is, rfl⟩ := hdisciplined.exists_cons
  rw [step_of_fetch hat.fetch]
  refine fine_execute (h.withRegisters _ _ _) ⟨hpoised.args_eq, hpoised.returns_eq,
    hpoised.extra_eq, hpoised.lets_le, hpoised.env_typed, hpoised.locals_typed,
    hpoised.pushed_typed, hpoised.waiting_typed, hpoised.acc_typed, hpoised.calls⟩ hat
    hat.next hdisciplined

end Machine

end Zinc
