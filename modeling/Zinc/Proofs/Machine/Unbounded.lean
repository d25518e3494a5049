import Zinc.Proofs.Machine.Frame

/-!
Runs without bounds.  A machine whose stacks always have room for one more entry takes
the steps of the real machine, except that nothing cuts it off.  So a bounded run either
ends as the unbounded one does or stops at one of its bounds, and with bounds that are
large enough it does the former.
-/

namespace Zinc

/-- The same progress with another machine in it. -/
def Progress.map (f : Machine → Machine) : Progress → Progress
  | .running m => .running (f m)
  | .finished m => .finished (f m)
  | .faulted e m => .faulted e (f m)

namespace Machine

/-- The machine with room for one more entry on either stack. -/
def unbounded (m : Machine) : Machine :=
  { m with limits := { m.limits with
      argStack := m.regs.args.depth + 1, returnStack := m.regs.returns.depth + 1 } }

/-- The machine with the heap, the globals and the registers of another one. -/
def adopt (m other : Machine) : Machine :=
  { m with heap := other.heap, globals := other.globals, regs := other.regs }

/-- One step without bounds. -/
def advance (m : Machine) : Progress :=
  m.unbounded.step.map m.adopt

/-- Several steps without bounds. -/
def advanceBy : Nat → Machine → Progress
  | 0, m => .running m
  | k + 1, m => m.advance.andThen (advanceBy k)

theorem advanceBy_one (m : Machine) : advanceBy 1 m = m.advance := by
  rw [advanceBy]
  cases m.advance <;> rfl

theorem advanceBy_add (j k : Nat) (m : Machine) :
    advanceBy (j + k) m = (advanceBy j m).andThen (advanceBy k) := by
  induction j generalizing m with
  | zero => rw [Nat.zero_add]; rfl
  | succ j ih =>
      rw [Nat.succ_add, advanceBy, advanceBy]
      cases m.advance with
      | running next => exact ih next
      | finished last => rfl
      | faulted f last => rfl

/-- Two machines that run the same code on the same data. -/
structure Same (m m' : Machine) : Prop where
  code : m'.code = m.code
  heap : m'.heap = m.heap
  globals : m'.globals = m.globals
  regs : m'.regs = m.regs

/-- There is room for one more entry on either stack. -/
structure Roomy (m : Machine) : Prop where
  args : m.regs.args.depth < m.limits.argStack
  returns : m.regs.returns.depth < m.limits.returnStack

/-- The causes of a stack that is full. -/
def stackCauses : List Cause :=
  [.argStackFull, .returnStackFull]

end Machine

/-- Two steps that end alike, on the same data. -/
inductive Progress.Alike : Progress → Progress → Prop where
  | running {m m' : Machine} : m.Same m' → Alike (.running m) (.running m')
  | finished {m m' : Machine} : m.Same m' → Alike (.finished m) (.finished m')
  | faulted {f f' : Fault} {m m' : Machine} :
      f'.cause = f.cause → Alike (.faulted f m) (.faulted f' m')

namespace Machine

/-- A step of `m` ends like another one, or it finds a stack full. -/
def Follows (m : Machine) (p q : Progress) : Prop :=
  p.Alike q ∨ ¬ m.Roomy ∧ ∃ f last, q = .faulted f last ∧ f.cause ∈ stackCauses

variable {m m' : Machine}

theorem alike_fail (kind : FaultKind) (cause : Cause) (detail : Option String) :
    (m.fail kind cause detail).Alike (m'.fail kind cause detail) :=
  .faulted rfl

theorem follows_pushArg (h : m.Same m') (hroom : m.Roomy) (v : Value) :
    m'.Follows (m.pushArg v) (m'.pushArg v) := by
  rw [pushArg, pushArg, if_neg (Int.not_le.2 hroom.args)]
  split
  · rename_i hfull
    refine Or.inr ⟨fun hroom' => Int.not_le.2 hroom'.args hfull, _, _, rfl, ?_⟩
    exact List.mem_cons_self
  · refine Or.inl (.running ⟨h.code, h.heap, h.globals, ?_⟩)
    dsimp only
    rw [h.regs]

theorem follows_pushReturn (h : m.Same m') (hroom : m.Roomy) (e : ReturnEntry)
    {k : Machine → Progress} (hk : ∀ {m m' : Machine}, m.Same m' → (k m).Alike (k m')) :
    m'.Follows ((m.pushReturn e).andThen k) ((m'.pushReturn e).andThen k) := by
  rw [pushReturn, pushReturn, if_neg (Int.not_le.2 hroom.returns)]
  split
  · rename_i hfull
    refine Or.inr ⟨fun hroom' => Int.not_le.2 hroom'.returns hfull, _, _, rfl, ?_⟩
    exact List.mem_cons_of_mem _ List.mem_cons_self
  · refine Or.inl (hk ⟨h.code, h.heap, h.globals, ?_⟩)
    dsimp only
    rw [h.regs]

theorem Same.withRegisters (h : m.Same m') {regs regs' : Registers}
    (hregs : regs' = regs) : Same { m with regs := regs } { m' with regs := regs' } :=
  ⟨h.code, h.heap, h.globals, hregs⟩

theorem Same.dropExtras (h : m.Same m') : m.dropExtras.Same m'.dropExtras :=
  h.withRegisters (by rw [h.regs])

theorem alike_jump (h : m.Same m') (callee : Value) :
    (m.jump callee).Alike (m'.jump callee) := by
  unfold jump
  dsimp only
  rw [h.heap, h.regs]
  split
  · split
    · exact .running ⟨h.code, rfl, h.globals, rfl⟩
    · exact alike_fail _ _ _
  · exact alike_fail _ _ _

theorem Same.loadClosure (h : m.Same m') (offset : Int) :
    (m.loadClosure offset).Same (m'.loadClosure offset) := by
  have hcapture : m'.captureEnv = m.captureEnv := by
    rw [captureEnv, captureEnv, h.regs, h.heap]
  rw [Machine.loadClosure, Machine.loadClosure, hcapture, h.regs]
  exact ⟨h.code, rfl, h.globals, rfl⟩

theorem alike_leave (h : m.Same m') : m.leave.Alike m'.leave := by
  unfold leave
  dsimp only [Machine.dropExtras]
  rw [h.regs]
  split
  · exact .finished (h.withRegisters rfl)
  · exact alike_fail _ _ _
  · exact .running (h.withRegisters rfl)

theorem alike_makeTuple (h : m.Same m') (n : Nat) :
    (m.makeTuple n).Alike (m'.makeTuple n) := by
  unfold makeTuple
  dsimp only
  rw [h.regs, h.heap]
  split
  · exact alike_fail _ _ _
  · exact .running ⟨h.code, rfl, h.globals, rfl⟩

/-- An instruction does the same to the same data. -/
theorem follows_execute (h : m.Same m') (hroom : m.Roomy)
    (hstarted : m'.started.offset = m.started.offset) (i : Instr) :
    m'.Follows (m.execute i) (m'.execute i) := by
  have hbind {m m' : Machine} (h : m.Same m') : Progress.Alike
      (.running { m with regs := { m.regs with extra := m.regs.extra + 1 } })
      (.running { m' with regs := { m'.regs with extra := m'.regs.extra + 1 } }) :=
    .running (h.withRegisters (by rw [h.regs]))
  cases i with
  | int64 value => exact Or.inl (.running (h.withRegisters (by rw [h.regs])))
  | push =>
      unfold execute
      rw [h.regs]
      exact follows_pushArg h hroom _
  | pushMark => exact follows_pushArg h hroom _
  | access index =>
      have hlocal : m'.local? index.toNat = m.local? index.toNat := by
        rw [local?, local?, h.regs, h.heap]
      unfold execute
      dsimp only
      rw [hlocal]
      refine Or.inl ?_
      split
      · exact .running (h.withRegisters (by rw [h.regs]))
      · exact alike_fail _ _ _
  | closure length =>
      unfold execute
      dsimp only
      rw [h.code, h.regs]
      refine Or.inl ?_
      split
      · exact alike_fail _ _ _
      · refine .running (Same.loadClosure ?_ _)
        exact ⟨rfl, h.heap, h.globals, rfl⟩
  | apply =>
      unfold execute
      rw [h.regs]
      refine follows_pushReturn h hroom _ fun hpushed => ?_
      rw [hpushed.regs]
      exact alike_jump (hpushed.withRegisters rfl) _
  | appTerm =>
      unfold execute
      rw [h.regs]
      exact Or.inl (alike_jump h.dropExtras _)
  | grab =>
      unfold execute
      dsimp only
      rw [h.regs, hstarted]
      split
      · exact Or.inl (alike_fail _ _ _)
      · split
        · exact Or.inl (alike_leave (h.loadClosure _))
        · rename_i v _ _
          have htaken : Same { m with regs := { m.regs with args := m.regs.args.drop 1 } }
              { m' with regs := { m.regs with args := m.regs.args.drop 1 } } :=
            h.withRegisters rfl
          have hless : ((m.regs.args.drop 1).depth : Int) ≤ m.regs.args.depth :=
            Int.ofNat_le.2 (Nat.sub_le _ _)
          have hfollows := follows_pushReturn htaken
            ⟨Int.lt_of_le_of_lt hless hroom.args, hroom.returns⟩ (.value v) hbind
          refine hfollows.imp id fun hcut => ⟨fun hroom' => hcut.1 ?_, hcut.2⟩
          obtain ⟨hargs, hreturns⟩ := hroom'
          rw [h.regs] at hargs hreturns
          exact ⟨Int.lt_of_le_of_lt hless hargs, hreturns⟩
  | ret =>
      unfold execute
      dsimp only
      rw [h.regs]
      refine Or.inl ?_
      split
      · exact alike_fail _ _ _
      · split
        · exact alike_leave h
        · exact alike_jump h.dropExtras _
  | makeBlock n => exact Or.inl (alike_makeTuple h _)
  | bind =>
      unfold execute
      rw [h.regs]
      exact follows_pushReturn h hroom _ hbind
  | unbind =>
      unfold execute
      dsimp only
      rw [h.regs]
      refine Or.inl ?_
      split
      · exact alike_fail _ _ _
      · exact .running (h.withRegisters rfl)
  | setGlobal slot =>
      unfold execute
      dsimp only
      rw [h.globals, h.regs]
      refine Or.inl ?_
      split
      · exact .running ⟨h.code, h.heap, rfl, rfl⟩
      · exact alike_fail _ _ _
  | getGlobal slot =>
      unfold execute
      dsimp only
      rw [h.globals, h.regs]
      refine Or.inl ?_
      split
      · exact alike_fail _ _ _
      · split
        · exact .running ⟨h.code, h.heap, rfl, rfl⟩
        · exact alike_fail _ _ _

theorem follows_step (h : m.Same m') (hroom : m.Roomy) :
    m'.Follows m.step m'.step := by
  have hfetch : m'.code.fetch m'.regs.pc = m.code.fetch m.regs.pc := by
    rw [h.code, h.regs]
  rw [step_eq, step_eq, hfetch]
  split
  · exact Or.inl (alike_fail _ _ _)
  · exact Or.inl (alike_fail _ _ _)
  · exact Or.inl (alike_fail _ _ _)
  · rename_i i _
    have hsame : (m.fetched i).Same (m'.fetched i) :=
      ⟨h.code, h.heap, h.globals, by rw [fetched, fetched, h.regs]⟩
    have hfollows := follows_execute hsame ⟨hroom.args, hroom.returns⟩
      (congrArg Registers.pc h.regs) i
    exact hfollows.imp id fun hcut => ⟨fun hroom => hcut.1 ⟨hroom.args, hroom.returns⟩,
      hcut.2⟩

theorem roomy_unbounded (m : Machine) : m.unbounded.Roomy :=
  ⟨Int.lt_succ _, Int.lt_succ _⟩

/-- A step does what the unbounded one does, or it finds a stack full. -/
theorem follows_advance (h : m.Same m') : m'.Follows m.advance m'.step := by
  have hsame : m.unbounded.Same m' := ⟨h.code, h.heap, h.globals, h.regs⟩
  have hstepped := m.unbounded.stepped_step
  refine (follows_step hsame m.roomy_unbounded).imp (fun halike => ?_) id
  unfold advance
  generalize m.unbounded.step = p at *
  generalize m'.step = q at *
  cases halike with
  | running hnext =>
      exact .running ⟨hnext.code.trans hstepped.code, hnext.heap, hnext.globals,
        hnext.regs⟩
  | finished hlast =>
      exact .finished ⟨hlast.code.trans hstepped.code, hlast.heap, hlast.globals,
        hlast.regs⟩
  | faulted hcause => exact .faulted hcause

/-- A machine that nothing but its bounds can stop, and that never collects. -/
structure Quiet (m : Machine) : Prop where
  threshold : m.limits.threshold ≤ 0
  watch : m.watch = none

theorem Quiet.congr (h : m.Quiet) (hlimits : m'.limits = m.limits)
    (hwatch : m'.watch = m.watch) : m'.Quiet :=
  ⟨by rw [hlimits]; exact h.threshold, hwatch.trans h.watch⟩

/-- One turn of a quiet machine: it is out of steps, or it takes a step. -/
theorem loop_quiet (hquiet : m.Quiet) (fuel : Nat) :
    (0 < m.limits.maxSteps ∧
      ∃ f, loop (fuel + 1) m = (.error f, m) ∧ f.cause = .stepLimit) ∨
    ∃ next, m.Same next ∧ next.limits = m.limits ∧ next.Quiet ∧
      loop (fuel + 1) m = match next.step with
        | .running m => loop fuel m
        | .finished m => (.ok m.regs.acc, m)
        | .faulted f m => (.error f, m) := by
  have hwatch : m.askWatch = (none, m) := by rw [askWatch, hquiet.watch]
  have hcollect : m.collectIfFull = m := by
    rw [collectIfFull, if_neg]
    exact fun h => absurd hquiet.threshold (Int.not_le.2 h.1)
  by_cases hlimit : 0 < m.limits.maxSteps ∧ m.limits.maxSteps ≤ m.usage.steps
  · have hready : m.ready = (some (stepLimitReached m.usage.steps), m) := by
      rw [ready, if_pos hlimit]
    refine Or.inl ⟨hlimit.1, (stepLimitReached m.usage.steps).locateIfUnknown
      m.started.offset, ?_, Fault.cause_locateIfUnknown _ _⟩
    rw [loop, hready]
  · have hready : m.ready = (none, m.traced) := by
      rw [ready, if_neg hlimit, hwatch, ite_self]
      dsimp only
      rw [hcollect]
    have htraced : m.Same m.traced ∧ m.traced.limits = m.limits ∧ m.traced.Quiet := by
      rw [traced, logged]
      split
      · split
        · exact ⟨⟨rfl, rfl, rfl, rfl⟩, rfl, hquiet.threshold, hquiet.watch⟩
        · exact ⟨⟨rfl, rfl, rfl, rfl⟩, rfl, hquiet⟩
      · exact ⟨⟨rfl, rfl, rfl, rfl⟩, rfl, hquiet⟩
    obtain ⟨hsame, hlimits, hstill⟩ := htraced
    refine Or.inr ⟨m.traced.counted, ⟨hsame.code, hsame.heap, hsame.globals, hsame.regs⟩,
      hlimits, ⟨hstill.threshold, hstill.watch⟩, ?_⟩
    rewrite [loop, hready]
    rfl

/-- An unbounded run and a bounded one end alike. -/
inductive Ends : Progress → Reply Value → Prop where
  | value {m m' : Machine} : m.Same m' → Ends (.finished m) (.ok m'.regs.acc, m')
  | fault {f f' : Fault} {m m' : Machine} :
      f'.cause = f.cause → Ends (.faulted f m) (.error f', m')

/-- One turn of the quiet machine `m'`, next to a step of `m` without bounds: it is out of
steps, it finds a stack full, it goes on like the other one, or it ends like it. -/
inductive Turn (m m' : Machine) (fuel : Nat) : Prop where
  | spent {f : Fault} {last : Machine} : 0 < m'.limits.maxSteps →
      loop (fuel + 1) m' = (.error f, last) → f.cause = .stepLimit → Turn m m' fuel
  | full {f : Fault} {last : Machine} : ¬ m'.Roomy →
      loop (fuel + 1) m' = (.error f, last) → f.cause ∈ stackCauses → Turn m m' fuel
  | goes {next next' : Machine} : m.advance = .running next → next.Same next' →
      next'.Quiet → next'.limits = m'.limits →
      loop (fuel + 1) m' = loop fuel next' → Turn m m' fuel
  | ends : Ends m.advance (loop (fuel + 1) m') → Turn m m' fuel

theorem Same.trans {m'' : Machine} (h : m.Same m') (h' : m'.Same m'') : m.Same m'' :=
  ⟨h'.code.trans h.code, h'.heap.trans h.heap, h'.globals.trans h.globals,
    h'.regs.trans h.regs⟩

theorem turn_quiet (h : m.Same m') (hquiet : m'.Quiet) (fuel : Nat) :
    Turn m m' fuel := by
  rcases loop_quiet hquiet fuel with ⟨hlimit, f, heq, hcause⟩ |
    ⟨ready, hsame, hlimits, hstill, heq⟩
  · exact .spent hlimit heq hcause
  · have hstepped := ready.stepped_step
    rcases follows_advance (h.trans hsame) with halike | ⟨hfull, f, last, hstep, hcause⟩
    · generalize ready.step = q at *
      generalize hp : m.advance = p at *
      cases halike with
      | @running next next' hnext =>
          exact .goes hp hnext (hstill.congr hstepped.limits hstepped.watch)
            (hstepped.limits.trans hlimits) heq
      | finished hlast =>
          refine .ends ?_
          rw [hp, heq]
          exact .value hlast
      | faulted hcause =>
          refine .ends ?_
          rw [hp, heq]
          exact .fault hcause
    · rw [hstep] at heq
      refine .full (fun hroomy => hfull ?_) heq hcause
      constructor
      · rw [hsame.regs, hlimits]
        exact hroomy.args
      · rw [hsame.regs, hlimits]
        exact hroomy.returns

/-- The causes for which a quiet machine is cut off. -/
def cutCauses : List Cause :=
  [.argStackFull, .returnStackFull, .stepLimit]

theorem mem_cutCauses_of_stack {cause : Cause} (h : cause ∈ stackCauses) :
    cause ∈ cutCauses := by
  simp only [stackCauses, cutCauses, List.mem_cons, List.not_mem_nil, or_false] at h ⊢
  rcases h with h | h
  · exact Or.inl h
  · exact Or.inr (Or.inl h)

/-- A bounded run ends like the unbounded one, or it is cut off. -/
theorem ends_or_cut (fuel : Nat) (h : m.Same m') (hquiet : m'.Quiet) :
    (∃ k ≤ fuel, Ends (advanceBy k m) (loop fuel m')) ∨
      ∃ f after, loop fuel m' = (.error f, after) ∧ f.cause ∈ cutCauses := by
  induction fuel generalizing m m' with
  | zero =>
      refine Or.inr ⟨_, _, rfl, ?_⟩
      rw [Fault.cause_locateIfUnknown]
      simp [stepLimitReached, cutCauses]
  | succ fuel ih =>
      cases turn_quiet h hquiet fuel with
      | spent _ heq hcause => exact Or.inr ⟨_, _, heq, by simp [hcause, cutCauses]⟩
      | full _ heq hcause => exact Or.inr ⟨_, _, heq, mem_cutCauses_of_stack hcause⟩
      | goes hp hnext hquiet' _ heq =>
          rw [heq]
          refine (ih hnext hquiet').imp_left ?_
          rintro ⟨k, hk, hends⟩
          refine ⟨k + 1, Nat.succ_le_succ hk, ?_⟩
          rw [advanceBy, hp]
          exact hends
      | ends hends =>
          refine Or.inl ⟨1, Nat.succ_le_succ (Nat.zero_le _), ?_⟩
          rwa [advanceBy_one]

/-- The bounds of a machine are at least `n`, and its steps are not limited. -/
structure Ample (n : Nat) (m : Machine) : Prop where
  args : (n : Int) ≤ m.limits.argStack
  returns : (n : Int) ≤ m.limits.returnStack
  steps : m.limits.maxSteps ≤ 0

theorem Ample.mono {n n' : Nat} (h : m.Ample n') (hle : n ≤ n')
    (hlimits : m'.limits = m.limits) : m'.Ample n := by
  have hargs := h.args
  have hreturns := h.returns
  constructor
  · rw [hlimits]
    omega
  · rw [hlimits]
    omega
  · rw [hlimits]
    exact h.steps

theorem Ample.roomy {n : Nat} (h : m.Ample n) (hargs : m.regs.args.depth < n)
    (hreturns : m.regs.returns.depth < n) : m.Roomy := by
  have hleft := h.args
  have hright := h.returns
  constructor
  · omega
  · omega

/-- With bounds that are large enough, a bounded run ends like the unbounded one. -/
theorem ends_of_ample (k : Nat) (m : Machine)
    (hends : ∀ next, advanceBy k m ≠ .running next) :
    ∃ n, ∀ fuel (m' : Machine), n ≤ fuel → m.Same m' → m'.Quiet → m'.Ample n →
      Ends (advanceBy k m) (loop fuel m') := by
  induction k generalizing m with
  | zero => exact absurd rfl (hends m)
  | succ k ih =>
      rw [advanceBy] at hends ⊢
      -- the bounds have to suffice for this step and for the others
      obtain ⟨n, hn⟩ : ∃ n, ∀ next, m.advance = .running next →
          ∀ fuel (m' : Machine), n ≤ fuel → next.Same m' → m'.Quiet → m'.Ample n →
            Ends (advanceBy k next) (loop fuel m') := by
        cases hp : m.advance with
        | running next =>
            rw [hp] at hends
            obtain ⟨n, hn⟩ := ih next hends
            refine ⟨n, fun next' hnext => ?_⟩
            cases hnext
            exact hn
        | finished last => exact ⟨0, fun next hnext => by cases hnext⟩
        | faulted f last => exact ⟨0, fun next hnext => by cases hnext⟩
      refine ⟨n + 1 + m.regs.args.depth + m.regs.returns.depth, ?_⟩
      intro fuel m' hfuel hsame hquiet hample
      obtain ⟨fuel, rfl⟩ : ∃ rest, fuel = rest + 1 := ⟨fuel - 1, by omega⟩
      cases turn_quiet hsame hquiet fuel with
      | spent hlimit _ _ => exact absurd hample.steps (Int.not_le.2 hlimit)
      | full hfull _ _ =>
          refine absurd (hample.roomy ?_ ?_) hfull
          · rw [hsame.regs]
            omega
          · rw [hsame.regs]
            omega
      | goes hp hnext hquiet' hlimits heq =>
          rw [hp, heq]
          exact hn _ hp fuel _ (by omega) hnext hquiet' (hample.mono (by omega) hlimits)
      | ends hends =>
          cases hp : m.advance with
          | running next => rw [hp] at hends; cases hends
          | finished last => rwa [hp] at hends
          | faulted f last => rwa [hp] at hends

end Machine

end Zinc
