import Zinc.Proofs.Machine.Contained

/-!
Instructions with all accesses checked.  Some instructions rely on what the machine keeps
up without looking: that there are as many locals on the return stack as are counted, that
a cell of an environment has both its fields, and that a frame is on top when a call is
left.  The checked step gives nothing where one of these fails.  On a contained machine
it is the step.
-/

namespace Zinc

/-- Removes the top `n` items, which have to exist. -/
def Stack.drop? {α : Type} (s : Stack α) (n : Nat) : Option (Stack α) :=
  if n ≤ s.depth then some (s.drop n) else none

theorem Stack.depth_pos {α : Type} {s : Stack α} {a : α} (h : s.top? = some a) :
    1 ≤ s.depth := by
  rw [s.depth_eq]
  exact List.length_pos_of_mem (List.mem_of_mem_head? h)

namespace Machine

/-- The locals of the current call on the return stack.  As many entries as are counted
have to exist, without a frame among them. -/
def locals? (m : Machine) : Option (List Value) :=
  (m.regs.returns.drop? m.regs.extra).bind fun _ =>
    (m.regs.returns.items.take m.regs.extra).mapM fun
      | .value v => some v
      | .frame _ _ _ => none

/-- Forgets the locals on the return stack. -/
def dropExtrasChecked (m : Machine) : Option Machine :=
  m.locals?.map fun _ => m.dropExtras

/-- Loads a new closure over the current locals. -/
def loadClosureChecked (m : Machine) (code : Int) : Option Machine :=
  m.locals?.map fun _ => m.loadClosure code

/-- The value at index `k` of an environment, if it is that long.  The cells on the way
have to have the fields that are read. -/
def chainAtChecked (heap : Heap) (env : Value) : Nat → Option (Option Value)
  | 0 =>
    match env.address? with
    | none => some none
    | some a => (heap.fields a)[0]?.map some
  | k + 1 =>
    match env.address? with
    | none => some none
    | some a => (heap.fields a)[1]?.bind fun next => chainAtChecked heap next k

/-- The local at index `i`, if there is one. -/
def localChecked (m : Machine) (i : Nat) : Option (Option Value) :=
  if i < m.regs.extra then
    match m.regs.returns.items[i]? with
    | some (.value v) => some (some v)
    | _ => none
  else chainAtChecked m.heap m.regs.env (i - m.regs.extra)

/-- Leaves the current call.  Its mark has to be on one stack, and nothing or a frame
below its locals on the other. -/
def leaveChecked (m : Machine) : Option Progress :=
  (m.regs.args.drop? 1).bind fun args =>
    { m with regs := { m.regs with args := args } }.dropExtrasChecked.bind fun m =>
      match m.regs.returns.top? with
      | none => some (.finished m)
      | some (.value _) => none
      | some (.frame pc env extra) =>
        some (.running { m with
          regs := { m.regs with
            returns := m.regs.returns.drop 1, pc := pc, env := env, extra := extra } })

/-- Executes an instruction with all accesses checked.  The instructions that are not
listed look before every access. -/
def executeChecked (m : Machine) : Instr → Option Progress
  | .access index =>
    (m.localChecked index.toNat).map fun
      | some v => .running { m with regs := { m.regs with acc := v } }
      | none => m.fail .internal .badEnvironment none
  | .closure length =>
    let body := m.regs.pc
    if m.code.size < body + length.toNat then some (m.fail .internal .truncated none)
    else
      let m := { m with regs := { m.regs with pc := body + length.toNat } }
      (m.loadClosureChecked body).map .running
  | .appTerm => m.dropExtrasChecked.map fun m => m.jump m.regs.acc
  | .grab =>
    match m.regs.args.top? with
    | none => some (m.fail .internal .stackUnderflow none)
    | some v =>
      if v.isMark then (m.loadClosureChecked m.started.offset).bind leaveChecked
      else some (m.execute .grab)
  | .ret =>
    match m.regs.args.top? with
    | none => some (m.fail .internal .stackUnderflow none)
    | some v =>
      if v.isMark then m.leaveChecked
      else m.dropExtrasChecked.map fun m => m.jump m.regs.acc
  | .unbind =>
    if m.regs.extra = 0 then some (m.fail .internal .stackUnderflow none)
    else
      (m.regs.returns.drop? 1).map fun returns =>
        .running { m with
          regs := { m.regs with returns := returns, extra := m.regs.extra - 1 } }
  | i => some (m.execute i)

/-- Executes the instruction at the program counter with all accesses checked. -/
def stepChecked (m : Machine) : Option Progress :=
  match m.code.fetch m.regs.pc with
  | .instr i => (m.fetched i).executeChecked i
  | _ => some m.step

variable {m : Machine}

theorem Contained.locals (h : m.Contained) : ∃ locals, m.locals? = some locals := by
  obtain ⟨locals, htake⟩ := h.regs.segmented.take
  have hdepth : m.regs.extra ≤ m.regs.returns.depth := by
    rw [m.regs.returns.depth_eq]
    exact h.regs.segmented.le_length
  refine ⟨locals, ?_⟩
  rw [locals?, Stack.drop?, if_pos hdepth, htake, Option.bind_some]
  clear htake
  induction locals with
  | nil => rfl
  | cons v rest ih => simp_all

theorem Contained.dropExtrasChecked (h : m.Contained) :
    m.dropExtrasChecked = some m.dropExtras := by
  obtain ⟨locals, hlocals⟩ := h.locals
  rw [Machine.dropExtrasChecked, hlocals]
  rfl

theorem Contained.loadClosureChecked (h : m.Contained) (code : Int) :
    m.loadClosureChecked code = some (m.loadClosure code) := by
  obtain ⟨locals, hlocals⟩ := h.locals
  rw [Machine.loadClosureChecked, hlocals]
  rfl

/-- A call is left through a frame or for good. -/
theorem Contained.leaveChecked (h : m.Contained) (hargs : 1 ≤ m.regs.args.depth) :
    m.leaveChecked = some m.leave := by
  have hdropped := (h.dropArgs 1).dropExtrasChecked
  unfold Machine.leaveChecked leave
  rw [Stack.drop?, if_pos hargs, Option.bind_some, hdropped, Option.bind_some]
  dsimp only
  generalize hx : dropExtras _ = x
  have htop : x.regs.returns.top? = (m.regs.returns.items.drop m.regs.extra).head? := by
    rw [← hx]
    rfl
  rw [htop]
  rcases h.regs.segmented.drop with hnil | ⟨pc, env, extra, below, hframe, _⟩
  · rw [hnil]
    rfl
  · rw [hframe]
    rfl

theorem chainAtChecked_eq {heap : Heap} {env : Value} (h : heap.Formed env)
    (hkind : env.kind = .env) (k : Nat) :
    chainAtChecked heap env k = some (chainAt heap env k) := by
  induction k generalizing env with
  | zero =>
      rw [chainAtChecked, chainAt]
      cases h with
      | plain hnone => rw [hnone]; rfl
      | tuple _ _ _ => cases hkind
      | closure _ _ _ _ _ => cases hkind
      | env hcell _ hfields _ _ _ =>
          simp [Value.address?, Heap.field, Heap.fields_of_cell hcell, hfields]
  | succ k ih =>
      rw [chainAtChecked, chainAt]
      cases h with
      | plain hnone => rw [hnone]; rfl
      | tuple _ _ _ => cases hkind
      | closure _ _ _ _ _ => cases hkind
      | env hcell _ hfields hnext _ hrest =>
          simp [Value.address?, Heap.field, Heap.fields_of_cell hcell, hfields, ih hrest hnext]

theorem Contained.localChecked (h : m.Contained) (i : Nat) :
    m.localChecked i = some (m.local? i) := by
  rw [Machine.localChecked, local?]
  split
  · rename_i hi
    obtain ⟨v, hv⟩ := h.regs.segmented.local_eq hi
    rw [hv]
    rfl
  · exact chainAtChecked_eq h.regs.env h.regs.envKind _

theorem Contained.executeChecked (h : m.Contained) (i : Instr) :
    m.executeChecked i = some (m.execute i) := by
  unfold Machine.executeChecked
  cases i with
  | access index =>
      dsimp only
      rw [h.localChecked, execute]
      cases m.local? index.toNat with
      | some v => rfl
      | none => rfl
  | closure length =>
      dsimp only
      rw [execute]
      split
      · rfl
      · have hmoved : Contained
            { m with regs := { m.regs with pc := m.regs.pc + length.toNat } } :=
          ⟨h.intact, h.regs.moved _⟩
        rw [hmoved.loadClosureChecked]
        rfl
  | appTerm =>
      dsimp only
      rw [h.dropExtrasChecked, execute]
      rfl
  | grab =>
      dsimp only
      cases htop : m.regs.args.top? with
      | none => rw [execute, htop]
      | some v =>
          cases hmark : v.isMark with
          | true =>
              have hleave := (contained_loadClosure h m.started.offset).leaveChecked
                (Stack.depth_pos (a := v) htop)
              simp only [execute, htop, hmark, if_true,
                h.loadClosureChecked, Option.bind_some, hleave]
          | false => simp [hmark]
  | ret =>
      dsimp only
      cases htop : m.regs.args.top? with
      | none => rw [execute, htop]
      | some v =>
          cases hmark : v.isMark with
          | true =>
              have hleave := h.leaveChecked (Stack.depth_pos htop)
              simp only [execute, htop, hmark, if_true, hleave]
          | false =>
              simp only [execute, htop, hmark, Bool.false_eq_true,
                if_false, h.dropExtrasChecked, Option.map_some]
              rfl
  | unbind =>
      dsimp only
      rw [execute]
      split
      · rfl
      · rename_i hextra
        have hdepth : 1 ≤ m.regs.returns.depth := by
          have hle := h.regs.segmented.le_length
          rw [m.regs.returns.depth_eq]
          omega
        rw [Stack.drop?, if_pos hdepth]
        rfl
  | int64 value => rfl
  | push => rfl
  | pushMark => rfl
  | apply => rfl
  | makeBlock n => rfl
  | bind => rfl
  | setGlobal slot => rfl
  | getGlobal slot => rfl

/-- On a contained machine every access that an instruction makes is in range. -/
theorem Contained.stepChecked (h : m.Contained) : m.stepChecked = some m.step := by
  rw [Machine.stepChecked]
  split
  · rename_i i hfetch
    have hstarted : (m.fetched i).Contained := ⟨h.intact, h.regs.moved _⟩
    rw [hstarted.executeChecked, step_of_fetch hfetch]
  · rfl

end Machine

end Zinc
