import Zinc.Proofs.Machine.Bounds

/-!
Bounds that suffice.  An instruction finds a stack full only where there is no room for one
more entry, and it adds at most one entry; so a machine with room for `n` entries, without a
step limit and with no host that calls evaluations off executes `n` instructions before a
bound can cut it off.
-/

namespace Zinc

/-- A step that no bound has cut off. -/
def Progress.Uncut : Progress → Prop
  | .running _ | .finished _ => True
  | .faulted f _ => f.kind ≠ .capacity

namespace Machine

/-- The machine with other bounds, and with no host that calls evaluations off. -/
def bounded (m : Machine) (limits : Limits) (horizon : Nat) : Machine :=
  { m with limits := limits, horizon := horizon, watch := none }

/-- Something holds of a machine whatever its threshold is, as long as its stacks are
large enough and its steps are not limited. -/
def Eventually (m : Machine) (P : Machine → Prop) : Prop :=
  ∃ n : Nat, ∀ limits horizon, (m.bounded limits horizon).Ample n → n ≤ horizon →
    P (m.bounded limits horizon)

variable {m : Machine} {fuel turns : Nat}

/-- Bounds can be large enough. -/
theorem Eventually.exists {P : Machine → Prop} (h : m.Eventually P) :
    ∃ limits horizon, P (m.bounded limits horizon) := by
  obtain ⟨n, hn⟩ := h
  refine ⟨{ argStack := n, returnStack := n }, n, hn _ _ ⟨?_, ?_, ?_⟩ (Nat.le_refl n)⟩
  · exact Int.le_refl _
  · exact Int.le_refl _
  · exact Int.le_refl _

section Step

theorem uncut_pushArg (hroom : m.regs.args.depth < m.limits.argStack) (v : Value) :
    (m.pushArg v).Uncut := by
  rw [pushArg, if_neg (Int.not_le.2 hroom)]
  trivial

theorem uncut_pushReturn (hroom : m.regs.returns.depth < m.limits.returnStack)
    (e : ReturnEntry) {k : Machine → Progress} (hk : ∀ x, (k x).Uncut) :
    ((m.pushReturn e).andThen k).Uncut := by
  rw [pushReturn, if_neg (Int.not_le.2 hroom)]
  exact hk _

theorem uncut_jump (m : Machine) (callee : Value) : (m.jump callee).Uncut := by
  rcases m.jump_cases callee with ⟨_, _, _, heq⟩ | ⟨_, heq⟩
  · rw [heq]
    trivial
  · rw [heq]
    exact FaultKind.noConfusion

theorem uncut_leave (m : Machine) : m.leave.Uncut := by
  rw [leave]
  dsimp only
  split
  · trivial
  · exact FaultKind.noConfusion
  · trivial

/-- An instruction is cut off only by a stack that is full. -/
theorem uncut_execute (h : m.Roomy) (i : Instr) : (m.execute i).Uncut := by
  have failed {x : Machine} (cause : Cause) (detail : Option String) :
      (x.fail .internal cause detail).Uncut :=
    FaultKind.noConfusion
  cases i with
  | int64 value => trivial
  | push | pushMark => exact uncut_pushArg h.args _
  | apply => exact uncut_pushReturn h.returns _ fun x => uncut_jump _ _
  | appTerm => exact uncut_jump _ _
  | bind => exact uncut_pushReturn h.returns _ fun _ => trivial
  | access index | setGlobal slot =>
      rw [execute]
      split
      · trivial
      · exact failed _ _
  | closure length =>
      rw [execute]
      dsimp only
      split
      · exact failed _ _
      · trivial
  | grab =>
      rw [execute]
      split
      · exact failed _ _
      · split
        · exact uncut_leave _
        · refine uncut_pushReturn ?_ _ fun x => ?_
          · exact h.returns
          · trivial
  | ret =>
      rw [execute]
      split
      · exact failed _ _
      · split
        · exact uncut_leave _
        · exact uncut_jump _ _
  | makeBlock n =>
      rw [execute, makeTuple]
      dsimp only
      split
      · exact failed _ _
      · trivial
  | unbind =>
      rw [execute]
      split
      · exact failed _ _
      · trivial
  | getGlobal slot =>
      rw [execute]
      split
      · exact failed _ _
      · split
        · trivial
        · exact failed _ _

theorem uncut_step (h : m.Roomy) : m.step.Uncut := by
  rw [step_eq]
  split
  · exact FaultKind.noConfusion
  · exact FaultKind.noConfusion
  · exact FaultKind.noConfusion
  · exact uncut_execute (m := m.fetched _) ⟨h.args, h.returns⟩ _

end Step

section Watch

theorem asked_eq (h : m.watch = none) : m.asked = (none, m) := by
  rw [asked, askWatch, h, ite_self]

/-- With no host that calls evaluations off there is none afterwards. -/
theorem watch_ready (h : m.watch = none) : m.ready.2.watch = none := by
  have hcollected : m.collectIfFull.watch = none := by
    rw [collectIfFull]
    split
    · exact h
    · exact h
  have htraced : m.collectIfFull.traced.watch = none := by
    rw [traced, logged]
    split
    · split
      · exact hcollected
      · exact hcollected
    · exact hcollected
  rcases m.ready_cases with ⟨_, hready⟩ | ⟨_, f, x, heq, _⟩ | ⟨_, x, heq, hready⟩
  · rw [hready]
    exact h
  · cases (asked_eq h).symm.trans heq
  · cases (asked_eq h).symm.trans heq
    rw [hready]
    exact htraced

theorem watch_loop (h : m.watch = none) (fuel : Nat) : (loop fuel m).2.watch = none := by
  induction fuel generalizing m with
  | zero => exact h
  | succ fuel ih =>
      have hready := watch_ready h
      rw [loop]
      generalize m.ready = r at hready
      obtain ⟨stop, x⟩ := r
      cases stop with
      | some f => exact hready
      | none =>
          have hstepped : x.counted.step.After fun next => next.watch = none :=
            x.counted.stepped_step.imp fun next hnext => hnext.watch.trans hready
          dsimp only
          generalize x.counted.step = p at hstepped
          cases p with
          | running next => exact ih hstepped
          | finished last => exact hstepped
          | faulted f last => exact hstepped

theorem watch_run (h : m.watch = none) (callee : Value) (args : List Value) :
    (m.run callee args).2.watch = none := by
  have hentered : (m.enter callee args).After fun x => x.watch = none :=
    (m.stepped_enter callee args).imp fun x hx => hx.watch.trans h
  rw [run]
  generalize m.enter callee args = p at hentered
  cases p with
  | running next => exact watch_loop hentered _
  | finished last => exact hentered
  | faulted f last => exact hentered

end Watch

/-- There is room for `n` more entries on both stacks, and nothing else can stop a run. -/
structure Spare (n : Nat) (m : Machine) : Prop where
  args : (m.regs.args.depth + n : Int) ≤ m.limits.argStack
  returns : (m.regs.returns.depth + n : Int) ≤ m.limits.returnStack
  steps : m.limits.maxSteps ≤ 0
  watch : m.watch = none

namespace Spare

theorem mono {n n' : Nat} (h : m.Spare n') (hle : n ≤ n') : m.Spare n := by
  have hargs := h.args
  have hreturns := h.returns
  exact ⟨by omega, by omega, h.steps, h.watch⟩

theorem roomy (h : m.Spare (turns + 1)) : m.Roomy := by
  have hargs := h.args
  have hreturns := h.returns
  exact ⟨by omega, by omega⟩

/-- Nothing stops the machine between instructions. -/
theorem ready (h : m.Spare turns) : m.ready.1 = none ∧ m.ready.2.counted.Spare turns := by
  have hlimits := m.evaluated_ready.limits
  have hregs := m.ready_registers.1
  refine ⟨?_, ?_, ?_, ?_, watch_ready h.watch⟩
  · rcases m.ready_cases with ⟨hspent, _⟩ | ⟨_, f, x, heq, _⟩ | ⟨_, x, _, hready⟩
    · exact absurd hspent.1 (Int.not_lt.2 h.steps)
    · cases (asked_eq h.watch).symm.trans heq
    · rw [hready]
  · change ((m.ready.2.regs.args.depth : Int) + turns) ≤ m.ready.2.limits.argStack
    rw [hregs, hlimits]
    exact h.args
  · change ((m.ready.2.regs.returns.depth : Int) + turns) ≤ m.ready.2.limits.returnStack
    rw [hregs, hlimits]
    exact h.returns
  · change m.ready.2.limits.maxSteps ≤ 0
    rw [hlimits]
    exact h.steps

/-- An instruction takes up room for one entry at most. -/
theorem step {next : Machine} (h : m.Spare (turns + 1)) (hstep : m.step = .running next) :
    next.Spare turns := by
  have hpaced := m.paced_step
  have hstepped := m.stepped_step
  rw [hstep] at hpaced hstepped
  have hlimits : next.limits = m.limits := hstepped.limits
  have hdepths : next.regs.args.depth ≤ m.regs.args.depth + 1 ∧
      next.regs.returns.depth ≤ m.regs.returns.depth + 1 := by
    cases hpaced with
    | level _ hargs hreturns => omega
    | argument _ _ hargs hreturns => omega
    | entry _ _ hreturns hargs => omega
  have hargs := h.args
  have hreturns := h.returns
  refine ⟨?_, ?_, ?_, (hstepped.watch).trans h.watch⟩
  · rw [hlimits]
    omega
  · rw [hlimits]
    omega
  · rw [hlimits]
    exact h.steps

end Spare

/-- The bounds of a run of at most `fuel` instructions suffice for `turns` of them. -/
def Lasts (fuel turns : Nat) (m : Machine) : Prop :=
  turns < fuel ∧ m.Spare turns

/-- A run of at most `fuel` instructions that no bound cuts off within `turns` instructions:
it is not cut off at all, or its bounds suffice. -/
def Survives (fuel turns : Nat) (m : Machine) : Prop :=
  Settled (loop fuel m).1 ∨ m.Lasts fuel turns

theorem not_settled {f : Fault} (hkind : f.kind = .capacity) : ¬ Settled (.error f) :=
  fun hsettled => hsettled f rfl hkind

theorem Lasts.mono {turns' : Nat} (h : m.Lasts fuel turns') (hle : turns ≤ turns') :
    m.Lasts fuel turns :=
  ⟨Nat.lt_of_le_of_lt hle h.1, h.2.mono hle⟩

theorem Survives.mono {turns' : Nat} (h : m.Survives fuel turns') (hle : turns ≤ turns') :
    m.Survives fuel turns :=
  h.imp_right (·.mono hle)

theorem not_survives_zero : ¬ m.Survives 0 turns := by
  rintro (hsettled | hlasts)
  · refine not_settled ?_ hsettled
    rw [Fault.kind_locateIfUnknown]
    rfl
  · exact Nat.not_lt_zero _ hlasts.1

/-- The machine `x` is where `m` executes its next instruction in a run. -/
structure Executes (fuel : Nat) (m x : Machine) : Prop where
  ready : x = m.ready.2.counted
  loop : loop (fuel + 1) m = match x.step with
    | .running m => loop fuel m
    | .finished m => (.ok m.regs.acc, m)
    | .faulted f m => (.error f, m)
  spare : ∀ n, m.Spare n → x.Spare n

/-- A run that survives executes an instruction. -/
theorem Survives.turn (h : m.Survives (fuel + 1) turns) : ∃ x, m.Executes fuel x := by
  refine ⟨m.ready.2.counted, rfl, ?_, fun n hn => hn.ready.2⟩
  rcases hready : m.ready with ⟨_ | f, x⟩
  · cases hstep : x.counted.step <;> simp only [loop, hready, hstep]
  · refine absurd h (not_or.2 ⟨fun hsettled => ?_, fun hlasts => ?_⟩)
    · rw [loop, hready] at hsettled
      refine not_settled ?_ hsettled
      rw [Fault.kind_locateIfUnknown]
      exact kind_of_ready hready
    · have hnone := hlasts.2.ready.1
      rw [hready] at hnone
      cases hnone

namespace Executes

variable {x next : Machine}

/-- No bound cuts off the instruction. -/
theorem uncut (hexecutes : m.Executes fuel x) (h : m.Survives (fuel + 1) (turns + 1)) :
    x.step.Uncut := by
  rcases h with hsettled | hlasts
  · rw [hexecutes.loop] at hsettled
    generalize x.step = p at hsettled ⊢
    cases p with
    | running next => trivial
    | finished last => trivial
    | faulted f last => exact hsettled f rfl
  · exact uncut_step (hexecutes.spare _ hlasts.2).roomy

theorem lasts (hexecutes : m.Executes fuel x) (hstep : x.step = .running next)
    (h : m.Lasts (fuel + 1) (turns + 1)) : next.Lasts fuel turns :=
  ⟨Nat.lt_of_succ_lt_succ h.1, (hexecutes.spare _ h.2).step hstep⟩

theorem survives (hexecutes : m.Executes fuel x) (hstep : x.step = .running next)
    (h : m.Survives (fuel + 1) (turns + 1)) : next.Survives fuel turns := by
  refine h.imp (fun hsettled => ?_) (hexecutes.lasts hstep)
  rwa [hexecutes.loop, hstep] at hsettled

end Executes

/-- The bounds suffice for `turns` instructions of a function that is entered with `count`
arguments. -/
structure Suffices (count turns : Nat) (m : Machine) : Prop where
  fuel : turns < m.horizon
  ample : m.Ample (count + 1 + turns)
  watch : m.watch = none

theorem Suffices.mono {count turns' : Nat} (h : m.Suffices count turns')
    (hle : turns ≤ turns') : m.Suffices count turns :=
  ⟨Nat.lt_of_le_of_lt hle h.fuel, h.ample.mono (Nat.add_le_add_left hle _) rfl, h.watch⟩

theorem Suffices.shorter {count count' : Nat} (h : m.Suffices count' turns)
    (hle : count ≤ count') : m.Suffices count turns :=
  ⟨h.fuel, h.ample.mono (by omega) rfl, h.watch⟩

/-- A run of a function that no bound cuts off within `turns` instructions. -/
def Endures (turns : Nat) (m : Machine) (callee : Value) (args : List Value) : Prop :=
  Settled (m.run callee args).1 ∨ m.Suffices args.length turns

theorem Endures.mono {callee : Value} {args : List Value} {turns' : Nat}
    (h : m.Endures turns' callee args) (hle : turns ≤ turns') :
    m.Endures turns callee args :=
  h.imp_right (·.mono hle)

end Machine

end Zinc
