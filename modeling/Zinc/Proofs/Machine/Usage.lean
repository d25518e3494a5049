import Zinc.Proofs.Machine.Frame
import Zinc.Proofs.Request

/-!
What a run reports about itself.  The machines that a run goes through are listed in
their order, one before and one after each instruction.  An instruction that puts
nothing on a stack leaves the peaks as they are, and one that does has room for it; so
the peaks are the greatest depths of the stacks in the list, and neither they nor the
number of instructions exceed the limits.
-/

namespace Zinc

/-- The stacks have never been deeper than the limits allow. -/
structure Usage.Fits (l : Limits) (u : Usage) : Prop where
  args : u.peakArgs ≤ l.argStack
  returns : u.peakReturns ≤ l.returnStack

/-- No limit has been exceeded. -/
structure Usage.Within (l : Limits) (u : Usage) : Prop extends Usage.Fits l u where
  steps : 0 < l.maxSteps → u.steps ≤ l.maxSteps

/-- The usage after a look at the stacks of a machine. -/
def Usage.seeing (u : Usage) (m : Machine) : Usage :=
  { u with
    peakArgs := max u.peakArgs m.regs.args.depth
    peakReturns := max u.peakReturns m.regs.returns.depth }

@[simp] theorem Usage.seeing_seeing (u : Usage) (m : Machine) :
    (u.seeing m).seeing m = u.seeing m := by
  simp [Usage.seeing]

theorem Progress.After.imp {P Q : Machine → Prop} {p : Progress} (hp : p.After P)
    (h : ∀ m, P m → Q m) : p.After Q := by
  cases p with
  | running m => exact h m hp
  | finished m => exact h m hp
  | faulted f m => exact h m hp

namespace Machine

/-- The machines that at most `fuel` steps go through, in their order. -/
def visits : Nat → Machine → List Machine
  | 0, m => [m]
  | fuel + 1, m =>
    m :: match m.ready with
      | (some _, m) => [m]
      | (none, m) =>
        m.counted :: match m.counted.step with
          | .running m => visits fuel m
          | .finished m | .faulted _ m => [m]

end Machine

/-- The machines that a run goes through, in their order. -/
def Run.visits (r : Run) : List Machine :=
  match r.machine.enter r.callee r.args with
  | .running m => m.visits m.horizon
  | .finished m | .faulted _ m => [m]

namespace Machine

/-- What an instruction does to the depths of the stacks and to the peaks: nothing gets
deeper, or one stack gets one more entry, for which there is room. -/
inductive Paced (m m' : Machine) : Prop where
  | level : m'.usage = m.usage → m'.regs.args.depth ≤ m.regs.args.depth →
      m'.regs.returns.depth ≤ m.regs.returns.depth → Paced m m'
  | argument : m.regs.args.depth < m.limits.argStack →
      m'.usage = { m.usage with
        peakArgs := max m.usage.peakArgs m'.regs.args.depth } →
      m'.regs.args.depth = m.regs.args.depth + 1 →
      m'.regs.returns.depth ≤ m.regs.returns.depth → Paced m m'
  | entry : m.regs.returns.depth < m.limits.returnStack →
      m'.usage = { m.usage with
        peakReturns := max m.usage.peakReturns m'.regs.returns.depth } →
      m'.regs.returns.depth = m.regs.returns.depth + 1 →
      m'.regs.args.depth ≤ m.regs.args.depth → Paced m m'

variable {m m' : Machine}

theorem Paced.refl (m : Machine) : Paced m m :=
  .level rfl (Nat.le_refl _) (Nat.le_refl _)

/-- Later changes that leave the depths and the peaks alone. -/
theorem Paced.after (h : Paced m m') {p : Progress}
    (hp : p.After fun last => last.usage = m'.usage ∧
      last.regs.args.depth = m'.regs.args.depth ∧
      last.regs.returns.depth = m'.regs.returns.depth) : p.After m.Paced := by
  have hlast {last : Machine} (husage : last.usage = m'.usage)
      (hargs : last.regs.args.depth = m'.regs.args.depth)
      (hreturns : last.regs.returns.depth = m'.regs.returns.depth) : m.Paced last := by
    cases h with
    | level husage' hargs' hreturns' =>
        exact .level (husage.trans husage') (hargs ▸ hargs') (hreturns ▸ hreturns')
    | argument hroom husage' hargs' hreturns' =>
        refine .argument hroom ?_ (hargs.trans hargs') (hreturns ▸ hreturns')
        rw [husage, hargs, husage']
    | entry hroom husage' hreturns' hargs' =>
        refine .entry hroom ?_ (hreturns.trans hreturns') (hargs ▸ hargs')
        rw [husage, hreturns, husage']
  exact hp.imp fun last hlast' => hlast hlast'.1 hlast'.2.1 hlast'.2.2

theorem paced_pushArg (m : Machine) (v : Value) : (m.pushArg v).After m.Paced := by
  rw [pushArg]
  split
  · exact .refl m
  · rename_i hroom
    exact .argument (Int.not_le.1 hroom) rfl rfl (Nat.le_refl _)

/-- An entry is pushed, after which the depths and the peaks stay as they are. -/
theorem paced_pushReturn {e : ReturnEntry} {k : Machine → Progress}
    (hk : ∀ x, (k x).After fun last => last.usage = x.usage ∧
      last.regs.args.depth = x.regs.args.depth ∧
      last.regs.returns.depth = x.regs.returns.depth) :
    ((m.pushReturn e).andThen k).After m.Paced := by
  rw [pushReturn]
  split
  · exact .refl m
  · rename_i hroom
    refine Paced.after ?_ (hk _)
    exact .entry (Int.not_le.1 hroom) rfl rfl (Nat.le_refl _)

/-- A jump leaves the stacks alone. -/
theorem level_jump (m : Machine) (callee : Value) :
    (m.jump callee).After fun last => last.usage = m.usage ∧
      last.regs.args.depth = m.regs.args.depth ∧
      last.regs.returns.depth = m.regs.returns.depth := by
  rcases m.jump_cases callee with ⟨_, _, _, heq⟩ | ⟨_, heq⟩
  · rw [heq]
    exact ⟨rfl, rfl, rfl⟩
  · rw [heq]
    exact ⟨rfl, rfl, rfl⟩

theorem paced_dropExtras (m : Machine) : m.Paced m.dropExtras :=
  .level rfl (Nat.le_refl _) (Nat.sub_le _ _)

theorem paced_leave (hm : m'.usage = m.usage)
    (hargs : m'.regs.args.depth ≤ m.regs.args.depth)
    (hreturns : m'.regs.returns.depth ≤ m.regs.returns.depth) :
    m'.leave.After m.Paced := by
  have hdropped (n : Nat) : m'.regs.args.depth - n ≤ m.regs.args.depth :=
    Nat.le_trans (Nat.sub_le _ _) hargs
  have hreturned (n : Nat) : m'.regs.returns.depth - n ≤ m.regs.returns.depth :=
    Nat.le_trans (Nat.sub_le _ _) hreturns
  unfold leave dropExtras
  dsimp only
  split
  · exact .level hm (hdropped 1) (hreturned _)
  · exact .level hm (hdropped 1) (hreturned _)
  · refine .level hm (hdropped 1) ?_
    exact Nat.le_trans (Nat.sub_le _ _) (hreturned _)

theorem paced_makeTuple (m : Machine) (n : Nat) : (m.makeTuple n).After m.Paced := by
  rw [makeTuple]
  dsimp only
  split
  · exact .level rfl (Nat.sub_le _ _) (Nat.le_refl _)
  · exact .level rfl (Nat.sub_le _ _) (Nat.le_refl _)

theorem paced_execute (m : Machine) (i : Instr) : (m.execute i).After m.Paced := by
  have level {x : Machine} (husage : x.usage = m.usage) (hargs : x.regs.args = m.regs.args)
      (hreturns : x.regs.returns = m.regs.returns) : m.Paced x :=
    .level husage (hargs ▸ Nat.le_refl _) (hreturns ▸ Nat.le_refl _)
  cases i with
  | int64 value => exact level rfl rfl rfl
  | push => exact m.paced_pushArg _
  | pushMark => exact m.paced_pushArg _
  | access index =>
      rw [execute]
      split
      · exact level rfl rfl rfl
      · exact .refl m
  | closure length =>
      rw [execute]
      dsimp only
      split
      · exact .refl m
      · exact level rfl rfl rfl
  | apply => exact paced_pushReturn fun x => level_jump _ _
  | appTerm => exact m.paced_dropExtras.after (level_jump _ _)
  | grab =>
      rw [execute]
      split
      · exact .refl m
      · split
        · exact paced_leave rfl (Nat.le_refl _) (Nat.le_refl _)
        · -- an argument becomes an entry of the other stack
          unfold pushReturn
          dsimp only
          split
          · exact .level rfl (Nat.sub_le _ _) (Nat.le_refl _)
          · rename_i hroom
            exact .entry (Int.not_le.1 hroom) rfl rfl (Nat.sub_le _ _)
  | ret =>
      rw [execute]
      split
      · exact .refl m
      · split
        · exact paced_leave rfl (Nat.le_refl _) (Nat.le_refl _)
        · exact m.paced_dropExtras.after (level_jump _ _)
  | makeBlock n => exact m.paced_makeTuple _
  | bind => exact paced_pushReturn fun x => ⟨rfl, rfl, rfl⟩
  | unbind =>
      rw [execute]
      split
      · exact .refl m
      · exact .level rfl (Nat.le_refl _) (Nat.sub_le _ _)
  | setGlobal slot =>
      rw [execute]
      split
      · exact level rfl rfl rfl
      · exact .refl m
  | getGlobal slot =>
      rw [execute]
      split
      · exact .refl m
      · split
        · exact level rfl rfl rfl
        · exact .refl m

/-- No instruction puts more than one entry on a stack. -/
theorem paced_step (m : Machine) : m.step.After m.Paced := by
  rw [step_eq]
  split
  · exact .level rfl (Nat.le_refl _) (Nat.le_refl _)
  · exact .level rfl (Nat.le_refl _) (Nat.le_refl _)
  · exact .level rfl (Nat.le_refl _) (Nat.le_refl _)
  · refine (paced_execute _ _).imp fun last hlast => ?_
    cases hlast with
    | level husage hargs hreturns => exact .level husage hargs hreturns
    | argument hroom husage hargs hreturns => exact .argument hroom husage hargs hreturns
    | entry hroom husage hreturns hargs => exact .entry hroom husage hreturns hargs

/-- The peaks are at least the depths of the stacks. -/
def Covered (m : Machine) : Prop :=
  m.usage.seeing m = m.usage

theorem Covered.le (h : m.Covered) :
    m.regs.args.depth ≤ m.usage.peakArgs ∧ m.regs.returns.depth ≤ m.usage.peakReturns := by
  have hargs : max m.usage.peakArgs m.regs.args.depth = m.usage.peakArgs :=
    congrArg Usage.peakArgs h
  have hreturns : max m.usage.peakReturns m.regs.returns.depth = m.usage.peakReturns :=
    congrArg Usage.peakReturns h
  omega

theorem covered_of_usage {u : Usage} (h : m.usage = u.seeing m) : m.Covered := by
  rw [Covered, h, Usage.seeing_seeing]

/-- The peaks after an instruction take in the stacks that it leaves. -/
theorem Paced.usage (h : Paced m m') (hcovered : m.Covered) :
    m'.usage = m.usage.seeing m' := by
  obtain ⟨hargs, hreturns⟩ := hcovered.le
  cases h with
  | level husage hargs' hreturns' =>
      rw [husage, Usage.seeing, Nat.max_eq_left (Nat.le_trans hargs' hargs),
        Nat.max_eq_left (Nat.le_trans hreturns' hreturns)]
  | argument _ husage _ hreturns' =>
      rw [husage, Usage.seeing, Nat.max_eq_left (Nat.le_trans hreturns' hreturns)]
  | entry _ husage _ hargs' =>
      rw [husage, Usage.seeing, Nat.max_eq_left (Nat.le_trans hargs' hargs)]

theorem Paced.steps (h : Paced m m') : m'.usage.steps = m.usage.steps := by
  cases h with
  | level husage _ _ => rw [husage]
  | argument _ husage _ _ => rw [husage]
  | entry _ husage _ _ => rw [husage]

theorem Paced.within (h : Paced m m') (hwithin : m.usage.Within m.limits) :
    m'.usage.Within m.limits := by
  obtain ⟨⟨hargs, hreturns⟩, hsteps⟩ := hwithin
  rw [← h.steps] at hsteps
  refine ⟨?_, hsteps⟩
  cases h with
  | level husage _ _ =>
      rw [husage]
      exact ⟨hargs, hreturns⟩
  | argument hroom husage hdepth _ =>
      rw [husage, hdepth]
      refine ⟨?_, hreturns⟩
      dsimp only
      omega
  | entry hroom husage hdepth _ =>
      rw [husage, hdepth]
      refine ⟨hargs, ?_⟩
      dsimp only
      omega

/-- Asks the watch if it is time to. -/
def asked (m : Machine) : Option Fault × Machine :=
  if m.usage.steps % watchPeriod = 0 then m.askWatch else (none, m)

/-- The steps are used up. -/
def Spent (m : Machine) : Prop :=
  0 < m.limits.maxSteps ∧ m.limits.maxSteps ≤ m.usage.steps

/-- What happens before an instruction. -/
theorem ready_cases (m : Machine) :
    (m.Spent ∧ m.ready = (some (stepLimitReached m.usage.steps), m)) ∨
    (¬ m.Spent ∧ ∃ f x, m.asked = (some f, x) ∧ m.ready = (some f, x)) ∨
    (¬ m.Spent ∧ ∃ x, m.asked = (none, x) ∧ m.ready = (none, x.collectIfFull.traced)) := by
  by_cases hspent : 0 < m.limits.maxSteps ∧ m.limits.maxSteps ≤ m.usage.steps
  · exact Or.inl ⟨hspent, if_pos hspent⟩
  · rcases hasked : m.asked with ⟨_ | f, x⟩
    · refine Or.inr (Or.inr ⟨hspent, x, rfl, ?_⟩)
      rw [ready, if_neg hspent]
      dsimp only
      rw [← asked, hasked]
    · refine Or.inr (Or.inl ⟨hspent, f, x, rfl, ?_⟩)
      rw [ready, if_neg hspent]
      dsimp only
      rw [← asked, hasked]

theorem asked_registers (m : Machine) :
    m.asked.2.regs = m.regs ∧ m.asked.2.usage = m.usage := by
  unfold asked askWatch
  split
  · split
    · exact ⟨rfl, rfl⟩
    · split
      · exact ⟨rfl, rfl⟩
      · exact ⟨rfl, rfl⟩
  · exact ⟨rfl, rfl⟩

theorem collectIfFull_registers (m : Machine) :
    m.collectIfFull.regs = m.regs ∧ m.collectIfFull.usage = m.usage := by
  unfold collectIfFull
  split
  · exact ⟨rfl, rfl⟩
  · exact ⟨rfl, rfl⟩

theorem traced_registers (m : Machine) :
    m.traced.regs = m.regs ∧ m.traced.usage = m.usage := by
  unfold traced logged
  split
  · split
    · exact ⟨rfl, rfl⟩
    · exact ⟨rfl, rfl⟩
  · exact ⟨rfl, rfl⟩

/-- Between instructions neither the registers nor the counters change. -/
theorem ready_registers (m : Machine) :
    m.ready.2.regs = m.regs ∧ m.ready.2.usage = m.usage := by
  have hasked := m.asked_registers
  rcases m.ready_cases with ⟨_, hready⟩ | ⟨_, f, x, heq, hready⟩ | ⟨_, x, heq, hready⟩
  · rw [hready]
    exact ⟨rfl, rfl⟩
  · rw [hready]
    rwa [heq] at hasked
  · rw [hready]
    rw [heq] at hasked
    obtain ⟨hregs, husage⟩ := x.collectIfFull.traced_registers
    obtain ⟨hregs', husage'⟩ := x.collectIfFull_registers
    exact ⟨(hregs.trans hregs').trans hasked.1, (husage.trans husage').trans hasked.2⟩

/-- Between instructions the heap stays as it is, or it is collected. -/
theorem ready_heap (m : Machine) :
    m.ready.2.heap = m.heap ∨ ∃ roots, m.ready.2.heap = (m.heap.collect roots).2 := by
  have hasked : m.asked.2.heap = m.heap := by
    unfold asked askWatch
    split
    · split
      · rfl
      · split <;> rfl
    · rfl
  have htraced (x : Machine) : x.traced.heap = x.heap := by
    unfold traced logged
    split
    · split <;> rfl
    · rfl
  rcases m.ready_cases with ⟨_, hready⟩ | ⟨_, f, x, heq, hready⟩ | ⟨_, x, heq, hready⟩
  · exact Or.inl (by rw [hready])
  · rw [heq] at hasked
    exact Or.inl (by rw [hready]; exact hasked)
  · rw [heq] at hasked
    rw [hready, htraced, collectIfFull, ← show x.heap = m.heap from hasked]
    split
    · exact Or.inr ⟨x.roots, rfl⟩
    · exact Or.inl rfl

/-- A machine that is ready for an instruction has a step left. -/
theorem steps_of_ready (h : m.ready = (none, m')) :
    0 < m.limits.maxSteps → m.usage.steps < m.limits.maxSteps := by
  intro hlimit
  rcases m.ready_cases with ⟨_, hready⟩ | ⟨_, f, x, _, hready⟩ | ⟨hleft, _⟩
  · rw [hready] at h
    cases h
  · rw [hready] at h
    cases h
  · exact Int.not_le.1 fun hle => hleft ⟨hlimit, hle⟩

theorem seeing_visits (u : Usage) (fuel : Nat) (m : Machine) :
    (m.visits fuel).foldl Usage.seeing (u.seeing m) =
      (m.visits fuel).foldl Usage.seeing u := by
  cases fuel with
  | zero => simp [visits]
  | succ fuel => simp [visits]

theorem seeing_steps (u : Usage) (n : Nat) (ms : List Machine) :
    ms.foldl Usage.seeing { u with steps := n } =
      { ms.foldl Usage.seeing u with steps := n } := by
  induction ms generalizing u with
  | nil => rfl
  | cons m rest ih => exact ih (u.seeing m)

/-- A run counts the instructions that it starts, and its peaks take in the stacks of
every machine that it goes through. -/
theorem usage_loop (fuel : Nat) (hcovered : m.Covered) :
    (loop fuel m).2.usage =
      { (m.visits fuel).foldl Usage.seeing m.usage with
        steps := m.usage.steps + (m.starts fuel).length } := by
  induction fuel generalizing m with
  | zero =>
      rw [visits, List.foldl_cons, hcovered]
      rfl
  | succ fuel ih =>
      have hready := m.ready_registers
      rw [loop, visits, starts, List.foldl_cons, hcovered]
      generalize m.ready = r at hready
      obtain ⟨stop, m₁⟩ := r
      obtain ⟨hregs, husage⟩ : m₁.regs = m.regs ∧ m₁.usage = m.usage := hready
      have hsame : m.usage.seeing m₁ = m.usage := by
        rw [← hcovered, Usage.seeing, Usage.seeing, hregs]
        simp
      cases stop with
      | some f =>
          rw [List.foldl_cons, hsame]
          exact husage
      | none =>
          have hcounted : m₁.counted.Covered := by
            have hsame' : m₁.usage.seeing m₁ = m₁.usage := by rw [husage, hsame]
            have hpeaks := congrArg (fun u => { u with steps := m₁.usage.steps + 1 }) hsame'
            exact hpeaks
          have hstep := m₁.counted.paced_step.imp fun last h => h.usage hcounted
          dsimp only
          rw [List.foldl_cons, show m.usage.seeing m₁.counted = m.usage from hsame]
          have hlast {last : Machine} (h : last.usage = m₁.counted.usage.seeing last) :
              last.usage = { m.usage with steps := m.usage.steps + 1 }.seeing last := by
            rw [h, counted, husage]
          cases hnext : m₁.counted.step with
          | running next =>
              rw [hnext] at hstep
              dsimp only
              rw [ih (covered_of_usage hstep), hlast hstep, seeing_visits, seeing_steps]
              simp only [Usage.seeing, List.length_cons, Nat.add_assoc, Nat.add_comm]
          | finished last =>
              rw [hnext] at hstep
              exact hlast hstep
          | faulted f last =>
              rw [hnext] at hstep
              exact hlast hstep

/-- A run that starts within its limits stays within them. -/
theorem within_loop (fuel : Nat) (hwithin : m.usage.Within m.limits) :
    (loop fuel m).2.usage.Within m.limits := by
  induction fuel generalizing m with
  | zero => exact hwithin
  | succ fuel ih =>
      have hready := m.ready_registers
      have hlimits := m.evaluated_ready.limits
      rw [loop]
      cases hr : m.ready with
      | mk stop m₁ =>
          rw [hr] at hready hlimits
          obtain ⟨_, husage⟩ : m₁.regs = m.regs ∧ m₁.usage = m.usage := hready
          dsimp only at hlimits
          cases stop with
          | some f =>
              dsimp only
              rw [husage]
              exact hwithin
          | none =>
              have hsteps := steps_of_ready hr
              have hcounted : m₁.counted.usage.Within m₁.counted.limits := by
                rw [counted, hlimits, husage]
                exact ⟨⟨hwithin.args, hwithin.returns⟩, hsteps⟩
              have hstep := m₁.counted.paced_step.imp fun last h => h.within hcounted
              have hfixed := m₁.counted.stepped_step
              rw [show m₁.counted.limits = m.limits from hlimits] at hstep
              dsimp only
              generalize m₁.counted.step = p at hstep hfixed
              cases p with
              | running next =>
                  have hsame : next.limits = m.limits := hfixed.limits.trans hlimits
                  have hrest := @ih next (hsame ▸ hstep)
                  rwa [hsame] at hrest
              | finished last => exact hstep
              | faulted f last => exact hstep

/-- A machine whose peaks are the depths of its stacks. -/
def Opened (m : Machine) : Prop :=
  m.usage = Usage.seeing {} m

theorem Opened.pushArg (h : m.Opened) (v : Value) : (m.pushArg v).After Opened := by
  rw [Machine.pushArg]
  split
  · exact h
  · show _ = _
    rw [show m.usage = _ from h]
    simp only [Usage.seeing, Stack.push]
    congr 1
    omega

theorem Opened.pushArgs (h : m.Opened) (vs : List Value) :
    (m.pushArgs vs).After Opened := by
  induction vs generalizing m with
  | nil => exact h
  | cons v rest ih => exact (h.pushArg v).andThen fun m' hm' => ih hm'

theorem opened_enter (m : Machine) (callee : Value) (args : List Value) :
    (m.enter callee args).After Opened := by
  have hopened : Opened { m with usage := {}, regs := {} } := rfl
  rw [enter]
  refine (hopened.pushArgs _).andThen fun m' hm' => ?_
  refine (m'.level_jump callee).imp fun last hlast => ?_
  rw [Opened, Usage.seeing, hlast.1, hlast.2.1, hlast.2.2]
  exact hm'

theorem within_pushArgs {l : Limits} (hlimits : m.limits = l) (hwithin : m.usage.Within l)
    (vs : List Value) :
    (m.pushArgs vs).After fun last => last.limits = l ∧ last.usage.Within l := by
  induction vs generalizing m with
  | nil => exact ⟨hlimits, hwithin⟩
  | cons v rest ih =>
      subst hlimits
      have hpaced := m.paced_pushArg v
      have hstepped := m.stepped_pushArg v
      rw [pushArgs]
      generalize m.pushArg v = p at hpaced hstepped
      cases p with
      | running next => exact ih hstepped.limits (hpaced.within hwithin)
      | finished last => exact ⟨hstepped.limits, hpaced.within hwithin⟩
      | faulted f last => exact ⟨hstepped.limits, hpaced.within hwithin⟩

theorem within_enter (hargs : 0 ≤ m.limits.argStack) (hreturns : 0 ≤ m.limits.returnStack)
    (callee : Value) (args : List Value) :
    (m.enter callee args).After fun last =>
      last.limits = m.limits ∧ last.usage.Within m.limits := by
  rw [enter]
  refine (within_pushArgs (by rfl) ⟨⟨hargs, hreturns⟩, Int.le_of_lt⟩ _).andThen ?_
  intro next hnext
  rcases next.jump_cases callee with ⟨_, _, _, heq⟩ | ⟨_, heq⟩
  · rw [heq]
    exact hnext
  · rw [heq]
    exact hnext

end Machine

/-- The usage that a run reports: the instructions that it starts, and the greatest depths
of the stacks among the machines that it goes through. -/
theorem Run.usage_eq (r : Run) :
    (r.machine.run r.callee r.args).2.usage =
      { r.visits.foldl Usage.seeing {} with steps := r.starts.length } := by
  have hopened := r.machine.opened_enter r.callee r.args
  rw [Machine.run, Run.visits, Run.starts]
  cases henter : r.machine.enter r.callee r.args with
  | running m =>
      rw [henter] at hopened
      have hloop := Machine.usage_loop m.horizon (Machine.covered_of_usage hopened)
      rw [show m.usage = _ from hopened, Machine.seeing_visits] at hloop
      dsimp only
      rw [Machine.clearRegisters, hloop]
      simp [Usage.seeing]
  | finished m =>
      rw [henter] at hopened
      exact hopened
  | faulted f m =>
      rw [henter] at hopened
      exact hopened

theorem Run.visits_ne_nil (r : Run) : r.visits ≠ [] := by
  rw [Run.visits]
  split
  · rename_i m _
    cases hfuel : m.horizon with
    | zero => exact List.cons_ne_nil _ _
    | succ fuel => exact List.cons_ne_nil _ _
  · exact List.cons_ne_nil _ _
  · exact List.cons_ne_nil _ _

theorem Usage.peaks_foldl (u : Usage) (ms : List Machine) :
    (ms.foldl Usage.seeing u).peakArgs =
        (ms.map (·.regs.args.depth)).foldl max u.peakArgs ∧
      (ms.foldl Usage.seeing u).peakReturns =
        (ms.map (·.regs.returns.depth)).foldl max u.peakReturns := by
  induction ms generalizing u with
  | nil => exact ⟨rfl, rfl⟩
  | cons m rest ih => exact ih (u.seeing m)

/-- The greatest of some numbers, started from nothing. -/
theorem max?_of_ne_nil {ns : List Nat} (h : ns ≠ []) : ns.max? = some (ns.foldl max 0) := by
  cases ns with
  | nil => exact absurd rfl h
  | cons n rest => simp [List.max?]

/-- A run reports the number of the instructions that it starts and the greatest depths
of the stacks among the machines that it goes through. -/
theorem Run.reported (r : Run) :
    (r.machine.run r.callee r.args).2.usage.steps = r.starts.length ∧
      (r.visits.map (·.regs.args.depth)).max? =
        some (r.machine.run r.callee r.args).2.usage.peakArgs ∧
      (r.visits.map (·.regs.returns.depth)).max? =
        some (r.machine.run r.callee r.args).2.usage.peakReturns := by
  obtain ⟨hargs, hreturns⟩ := Usage.peaks_foldl {} r.visits
  have hsome {f : Machine → Nat} : r.visits.map f ≠ [] :=
    fun h => r.visits_ne_nil (List.map_eq_nil_iff.1 h)
  rw [r.usage_eq, max?_of_ne_nil hsome, max?_of_ne_nil hsome, hargs, hreturns]
  exact ⟨rfl, rfl, rfl⟩

/-- A run exceeds none of its limits. -/
theorem Run.within (r : Run) (hargs : 0 ≤ r.machine.limits.argStack)
    (hreturns : 0 ≤ r.machine.limits.returnStack) :
    (r.machine.run r.callee r.args).2.usage.Within r.machine.limits := by
  have hwithin := Machine.within_enter hargs hreturns r.callee r.args
  rw [Machine.run]
  generalize r.machine.enter r.callee r.args = p at hwithin
  cases p with
  | running m =>
      have hloop := Machine.within_loop m.horizon (hwithin.1 ▸ hwithin.2)
      rw [hwithin.1] at hloop
      exact hloop
  | finished m => exact hwithin.2
  | faulted f m => exact hwithin.2

end Zinc
