import Zinc.Proofs.Machine.Sound

/-!
A whole run is safe.  Before an instruction the heap may be collected; everything that
the machine can still use is a root, so nothing loses its shape.  A run then ends with
a value or with one of a few causes.
-/

namespace Zinc.Machine

variable {m m' : Machine}

/-- The machine stays in order while what its handles and globals hold keeps its
shape. -/
theorem Sound.keep (h : m.Sound) (hkeeps : m.world.Keeps m'.world m.roots)
    (htidy : m'.heap.Tidy) (hhandles : m'.handles = m.handles)
    (hglobals : m'.globals = m.globals) : m'.Sound := by
  have hcode : m'.code = m.code := hkeeps.code
  refine ⟨htidy, by rw [hcode]; exact h.laid, by rw [hglobals]; exact h.index, ?_, ?_⟩
  · rw [hhandles]
    intro v hv
    refine hkeeps.typed _ _ ?_ (h.handles v hv)
    simp [roots, hv]
  · rw [hglobals]
    intro g hg
    refine (h.globals g hg).keep (hkeeps.mono fun v hv => ?_)
    obtain rfl := List.mem_singleton.1 hv
    have hmem : g.value ∈ m.globals.values :=
      List.mem_map_of_mem (Array.mem_toList_iff.2 hg)
    simp [roots, hmem]

theorem Running.keep (h : m.Running) (hkeeps : m.world.Keeps m'.world m.roots)
    (hregs : m'.regs = m.regs) : m'.Running := by
  obtain ⟨hpoised, hat, hdisciplined⟩ := h
  rw [← show m'.code = m.code from hkeeps.code, ← hregs] at hat
  rw [← show m'.globals.size = m.globals.size from hkeeps.slots] at hdisciplined
  refine .intro (hpoised.keep hkeeps (by rw [hregs]) fun hloaded => ?_) hat hdisciplined
  rw [hregs]
  exact hkeeps.typed _ _ (by simp [roots]) (hpoised.acc_typed hloaded)

/-- A collection keeps the shapes of all roots. -/
theorem keeps_collectGarbage (htidy : m.heap.Tidy) :
    m.world.Keeps m.collectGarbage.2.world m.roots :=
  ⟨rfl, rfl, fun _ _ hv htyped =>
    htyped.keep (htidy.collect_keeps m.roots) (Heap.within_reach hv)⟩

/-- The machine is in order and goes on. -/
structure Going (m : Machine) : Prop where
  sound : m.Sound
  running : m.Running

theorem Going.keep (h : m.Going) (hkeeps : m.world.Keeps m'.world m.roots)
    (htidy : m'.heap.Tidy) (hhandles : m'.handles = m.handles)
    (hglobals : m'.globals = m.globals) (hregs : m'.regs = m.regs) : m'.Going :=
  ⟨h.sound.keep hkeeps htidy hhandles hglobals, h.running.keep hkeeps hregs⟩

/-- Records, counters and the watch do not matter. -/
theorem Going.withRecords (h : m.Going) (log : Array Record) (watch : Option Watch)
    (usage : Usage) : Going { m with log := log, watch := watch, usage := usage } :=
  h.keep (.grow (.refl _) _) h.sound.tidy rfl rfl rfl

theorem Going.collectIfFull (h : m.Going) : m.collectIfFull.Going := by
  rw [Machine.collectIfFull]
  split
  · exact h.keep (keeps_collectGarbage h.sound.tidy) (h.sound.tidy.collect _) rfl rfl rfl
  · exact h

theorem Going.traced (h : m.Going) : m.traced.Going := by
  rw [Machine.traced, logged]
  split
  · split
    · exact h.withRecords _ _ _
    · exact h
  · exact h

theorem Going.askWatch (h : m.Going) :
    m.askWatch.2.Going ∧ ∀ f, m.askWatch.1 = some f → f.cause ∈ runtimeCauses := by
  rw [Machine.askWatch]
  split
  · exact ⟨h, by simp⟩
  · split
    · exact ⟨h, by simp [interrupted, runtimeCauses]⟩
    · exact ⟨h.withRecords _ _ _, by simp⟩

/-- What happens before an instruction keeps the machine in order, and stops it only
because of a limit or the host. -/
theorem Going.ready (h : m.Going) :
    m.ready.2.Going ∧ ∀ f, m.ready.1 = some f → f.cause ∈ runtimeCauses := by
  have hwatch (period : Prop) [Decidable period] :
      (if period then m.askWatch else (none, m)).2.Going ∧
        ∀ f, (if period then m.askWatch else (none, m)).1 = some f →
          f.cause ∈ runtimeCauses := by
    split
    · exact h.askWatch
    · exact ⟨h, by simp⟩
  rw [Machine.ready]
  split
  · exact ⟨h, by simp [stepLimitReached, runtimeCauses]⟩
  · obtain ⟨hgoing, hcause⟩ := hwatch (m.usage.steps % watchPeriod = 0)
    dsimp only
    split
    · rename_i f heq
      exact ⟨hgoing, by simpa [heq] using hcause f heq⟩
    · exact ⟨hgoing.collectIfFull.traced, by simp⟩

/-- A reply that leaves the machine in order and is a value that a program can compute
with, or a cause that a run can stop with. -/
def Safe (r : Reply Value) : Prop :=
  r.2.Sound ∧ match r.1 with
    | .ok v => Typed r.2.world .data v
    | .error f => f.cause ∈ runtimeCauses

theorem safe_loop (fuel : Nat) (h : m.Going) : Safe (loop fuel m) := by
  induction fuel generalizing m with
  | zero =>
      refine ⟨h.sound, ?_⟩
      change (Fault.locateIfUnknown _ _).cause ∈ runtimeCauses
      rw [Fault.cause_locateIfUnknown]
      simp [stepLimitReached, runtimeCauses]
  | succ fuel ih =>
      obtain ⟨hgoing, hcause⟩ := h.ready
      unfold loop
      split
      · rename_i f after heq
        rw [heq] at hgoing hcause
        refine ⟨hgoing.sound, ?_⟩
        dsimp only
        rw [Fault.cause_locateIfUnknown]
        exact hcause f rfl
      · rename_i after heq
        rw [heq] at hgoing
        have hcounted : after.counted.Going := hgoing.withRecords _ _ _
        have hfine := fine_step hcounted.sound hcounted.running
        split
        · rename_i next hnext
          rw [hnext] at hfine
          exact ih ⟨hfine.1, hfine.2⟩
        · rename_i last hlast
          rw [hlast] at hfine
          exact hfine
        · rename_i f last hlast
          rw [hlast] at hfine
          exact hfine

theorem fine_pushArgs (h : m.Sound) (vs : List Value) {k : Machine → Progress}
    (hk : ∀ usage args, args.items = vs.reverse ++ m.regs.args.items →
      Fine (k { m with regs := { m.regs with args := args }, usage := usage })) :
    Fine ((m.pushArgs vs).andThen k) := by
  induction vs generalizing m with
  | nil => exact hk m.usage m.regs.args rfl
  | cons v rest ih =>
      unfold pushArgs pushArg
      split
      · exact fine_fail h _ _ (by simp [runtimeCauses])
      · refine ih (h.withRegisters _ _ _) fun usage args hargs => hk usage args ?_
        simpa using hargs

/-- A closure is entered with its arguments. -/
theorem fine_enter (h : m.Sound) {callee : Value} {args : List Value}
    (hcallee : Typed m.world .data callee) (hargs : ∀ v ∈ args, Typed m.world .data v) :
    Fine (m.enter callee args) := by
  unfold enter clearRegisters
  refine fine_pushArgs (h.withRegisters _ _ _) _ fun usage stack hstack => ?_
  refine fine_jump (h.withRegisters _ _ _) hcallee hargs .bottom ?_ rfl rfl
  simpa [Stack.empty] using hstack

/-- A run of a closure on values gives a value or stops with one of the causes that a
run can stop with, and leaves the machine in order. -/
theorem safe_run (h : m.Sound) {callee : Value} {args : List Value}
    (hcallee : Typed m.world .data callee) (hargs : ∀ v ∈ args, Typed m.world .data v) :
    Safe (m.run callee args) := by
  have hclear {r : Reply Value} (hr : Safe r) : Safe (r.1, r.2.clearRegisters) :=
    ⟨hr.1.withRegisters _ _ _, hr.2⟩
  have hfine := fine_enter h hcallee hargs
  unfold run
  cases henter : m.enter callee args with
  | running next =>
      rw [henter] at hfine
      exact hclear (safe_loop _ ⟨hfine.1, hfine.2⟩)
  | finished last =>
      rw [henter] at hfine
      exact hclear (r := (.ok _, last)) hfine
  | faulted f last =>
      rw [henter] at hfine
      exact hclear (r := (.error f, last)) hfine

end Zinc.Machine
