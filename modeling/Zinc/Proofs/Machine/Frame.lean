import Zinc.Machine.Evaluate
import Zinc.Proofs.Globals
import Zinc.Proofs.Heap.Collect
import Zinc.Proofs.Machine.Fetch

/-!
What an evaluation leaves alone.  An instruction changes registers, allocates and may
assign a global; the rest of the machine stays as it is.  Between instructions the
heap may be collected, so a whole evaluation keeps the objects that handles and an open
checkpoint hold, and the slots of the globals.
-/

namespace Zinc

/-- Something holds of the machine that a step leads to, however the step ended. -/
def Progress.After (P : Machine → Prop) : Progress → Prop
  | .running m | .finished m | .faulted _ m => P m

theorem Progress.After.andThen {P : Machine → Prop} {p : Progress}
    {k : Machine → Progress} (hp : p.After P)
    (hk : ∀ m, P m → (k m).After P) : (p.andThen k).After P := by
  cases p with
  | running m => exact hk m hp
  | finished m => exact hp
  | faulted f m => exact hp

theorem Fault.cause_locateIfUnknown (f : Fault) (pc : Int) :
    (f.locateIfUnknown pc).cause = f.cause := by
  rw [Fault.locateIfUnknown]
  split
  · rfl
  · rfl

namespace Machine

/-- The parts of a machine that no evaluation touches. -/
structure Fixed (m m' : Machine) : Prop where
  owner : m'.owner = m.owner
  limits : m'.limits = m.limits
  horizon : m'.horizon = m.horizon
  code : m'.code = m.code
  handles : m'.handles = m.handles
  saved : m'.saved = m.saved
  closed : m'.closed = m.closed
  logLevel : m'.logLevel = m.logLevel

theorem Fixed.refl (m : Machine) : Fixed m m :=
  ⟨rfl, rfl, rfl, rfl, rfl, rfl, rfl, rfl⟩

theorem Fixed.trans {m m' m'' : Machine} (hfirst : Fixed m m')
    (hsecond : Fixed m' m'') : Fixed m m'' where
  owner := hsecond.owner.trans hfirst.owner
  limits := hsecond.limits.trans hfirst.limits
  horizon := hsecond.horizon.trans hfirst.horizon
  code := hsecond.code.trans hfirst.code
  handles := hsecond.handles.trans hfirst.handles
  saved := hsecond.saved.trans hfirst.saved
  closed := hsecond.closed.trans hfirst.closed
  logLevel := hsecond.logLevel.trans hfirst.logLevel

/-- What one instruction may do to the rest of the machine. -/
structure Stepped (m m' : Machine) : Prop extends Fixed m m' where
  watch : m'.watch = m.watch
  heap : m.heap.Grows m'.heap
  globals : ∀ g, Globals.Extends g m.globals → Globals.Extends g m'.globals

theorem Stepped.refl (m : Machine) : Stepped m m :=
  ⟨Fixed.refl m, rfl, .refl _, fun _ h => h⟩

theorem Stepped.trans {m m' m'' : Machine} (hfirst : Stepped m m')
    (hsecond : Stepped m' m'') : Stepped m m'' :=
  ⟨hfirst.toFixed.trans hsecond.toFixed, hsecond.watch.trans hfirst.watch,
    hfirst.heap.trans hsecond.heap, fun g h => hsecond.globals g (hfirst.globals g h)⟩

/-- Registers, counters and the last instruction may be anything. -/
theorem Stepped.ofRegisters (m : Machine) (regs : Registers) (usage : Usage)
    (started : Started) :
    Stepped m { m with regs := regs, usage := usage, started := started } :=
  ⟨⟨rfl, rfl, rfl, rfl, rfl, rfl, rfl, rfl⟩, rfl, .refl _, fun _ h => h⟩

theorem Stepped.ofHeap {m : Machine} {heap : Heap} (hgrows : m.heap.Grows heap)
    (regs : Registers) : Stepped m { m with heap := heap, regs := regs } :=
  ⟨⟨rfl, rfl, rfl, rfl, rfl, rfl, rfl, rfl⟩, rfl, hgrows, fun _ h => h⟩

theorem stepped_fail (m : Machine) (kind : FaultKind) (cause : Cause)
    (detail : Option String) : (m.fail kind cause detail).After m.Stepped :=
  Stepped.refl m

theorem stepped_pushArg (m : Machine) (v : Value) :
    (m.pushArg v).After m.Stepped := by
  rw [pushArg]
  split
  · exact m.stepped_fail _ _ _
  · exact .ofRegisters m _ _ _

theorem stepped_pushReturn (m : Machine) (e : ReturnEntry) :
    (m.pushReturn e).After m.Stepped := by
  rw [pushReturn]
  split
  · exact m.stepped_fail _ _ _
  · exact .ofRegisters m _ _ _

/-- A jump enters a closure of two fields or faults. -/
theorem jump_cases (m : Machine) (callee : Value) :
    (∃ a, callee = .ref .closure a ∧ (m.heap.fields a).size = 2 ∧
      m.jump callee = .running { m with
        regs := { m.regs with
          env := m.heap.field a 0, pc := (m.heap.field a 1).asOffset } }) ∨
    (∀ a, callee = .ref .closure a → (m.heap.fields a).size ≠ 2) ∧
      m.jump callee =
        m.fail .internal .notClosure (some ("got " ++ callee.kind.text)) := by
  unfold jump
  dsimp only
  split
  · rename_i a
    by_cases hsize : (m.heap.fields a).size = 2
    · exact Or.inl ⟨a, rfl, hsize, if_pos hsize⟩
    · refine Or.inr ⟨?_, if_neg hsize⟩
      rintro b hb
      cases hb
      exact hsize
  · rename_i hnot
    exact Or.inr ⟨fun a ha => absurd ha (hnot a), rfl⟩

theorem stepped_jump (m : Machine) (callee : Value) :
    (m.jump callee).After m.Stepped := by
  rcases m.jump_cases callee with ⟨_, _, _, heq⟩ | ⟨_, heq⟩
  · rw [heq]
    exact .ofRegisters m _ _ _
  · rw [heq]
    exact m.stepped_fail _ _ _

theorem grows_captureEnv (m : Machine) : m.heap.Grows m.captureEnv.2 := by
  rw [captureEnv]
  induction m.regs.returns.items.take m.regs.extra with
  | nil => exact .refl _
  | cons e rest ih => exact .alloc _ _ ih

theorem stepped_loadClosure (m : Machine) (code : Int) :
    m.Stepped (m.loadClosure code) :=
  .ofHeap (.alloc _ _ m.grows_captureEnv) _

theorem stepped_leave (m : Machine) : m.leave.After m.Stepped := by
  rw [leave]
  dsimp only
  split
  · exact .ofRegisters m _ _ _
  · exact .ofRegisters m _ _ _
  · exact .ofRegisters m _ _ _

theorem stepped_makeTuple (m : Machine) (n : Nat) :
    (m.makeTuple n).After m.Stepped := by
  rw [makeTuple]
  dsimp only
  split
  · exact .ofHeap (.alloc _ _ (.refl _)) _
  · exact .ofHeap (.alloc _ _ (.refl _)) _

theorem Stepped.after {m m' : Machine} {p : Progress}
    (hfirst : m.Stepped m') (hp : p.After m'.Stepped) : p.After m.Stepped := by
  cases p with
  | running m'' => exact hfirst.trans hp
  | finished m'' => exact hfirst.trans hp
  | faulted f m'' => exact hfirst.trans hp

theorem stepped_execute (m : Machine) (i : Instr) :
    (m.execute i).After m.Stepped := by
  have regs (r : Registers) : m.Stepped { m with regs := r } :=
    .ofRegisters m r _ _
  cases i with
  | int64 value => exact regs _
  | push => exact m.stepped_pushArg _
  | pushMark => exact m.stepped_pushArg _
  | access index =>
      rw [execute]
      split
      · exact regs _
      · exact m.stepped_fail _ _ _
  | closure length =>
      rw [execute]
      dsimp only
      split
      · exact m.stepped_fail _ _ _
      · exact (regs _).trans (stepped_loadClosure _ _)
  | apply =>
      refine (m.stepped_pushReturn _).andThen fun m' hm' => ?_
      exact (hm'.trans (.ofRegisters m' _ _ _)).after (stepped_jump _ _)
  | appTerm => exact (regs _).after (stepped_jump _ _)
  | grab =>
      rw [execute]
      split
      · exact m.stepped_fail _ _ _
      · split
        · exact (m.stepped_loadClosure _).after (stepped_leave _)
        · refine (regs { m.regs with args := m.regs.args.drop 1 }).after ?_
          refine (stepped_pushReturn _ _).andThen fun m' hm' => ?_
          exact hm'.trans (.ofRegisters m' _ _ _)
  | ret =>
      rw [execute]
      split
      · exact m.stepped_fail _ _ _
      · split
        · exact m.stepped_leave
        · exact (regs _).after (stepped_jump _ _)
  | makeBlock n => exact m.stepped_makeTuple _
  | bind =>
      refine (m.stepped_pushReturn _).andThen fun m' hm' => ?_
      exact hm'.trans (.ofRegisters m' _ _ _)
  | unbind =>
      rw [execute]
      split
      · exact m.stepped_fail _ _ _
      · exact regs _
  | setGlobal slot =>
      rw [execute]
      split
      · rename_i globals hset
        exact ⟨⟨rfl, rfl, rfl, rfl, rfl, rfl, rfl, rfl⟩, rfl, .refl _,
          fun g hg => hg.set hset⟩
      · exact m.stepped_fail _ _ _
  | getGlobal slot =>
      rw [execute]
      split
      · exact m.stepped_fail _ _ _
      · split
        · exact regs _
        · exact m.stepped_fail _ _ _

/-- An instruction changes registers, allocates, assigns a global and does nothing
else. -/
theorem stepped_step (m : Machine) : m.step.After m.Stepped := by
  rw [step_eq]
  split
  · exact .ofRegisters m _ _ _
  · exact .ofRegisters m _ _ _
  · exact .ofRegisters m _ _ _
  · exact (Stepped.ofRegisters m _ _ _).after (stepped_execute _ _)

/-- The values that outlive an evaluation: those that a host holds and those that an
open checkpoint has recorded. -/
def held (m : Machine) : List Value :=
  m.handles.values ++ m.saved.toList.map (·.value)

theorem mem_roots_of_mem_held {m : Machine} {v : Value} (hv : v ∈ m.held) :
    v ∈ m.roots := by
  rw [held, List.mem_append] at hv
  rw [roots]
  simp only [List.mem_cons, List.mem_append]
  rcases hv with hv | hv
  · exact Or.inr (Or.inr (Or.inr (Or.inr (Or.inl hv))))
  · exact Or.inr (Or.inr (Or.inr (Or.inr (Or.inr (Or.inr hv)))))

theorem Fixed.held {m m' : Machine} (hfixed : Fixed m m') :
    m'.held = m.held := by
  rw [Machine.held, Machine.held, hfixed.handles, hfixed.saved]

/-- What an evaluation may do to the rest of the machine. -/
structure Evaluated (m m' : Machine) : Prop extends Fixed m m' where
  tidy : m.heap.Tidy → m'.heap.Tidy
  heap : m.heap.Tidy → Heap.Keeps m.held m.heap m'.heap
  globals : ∀ g, Globals.Extends g m.globals → Globals.Extends g m'.globals

theorem Evaluated.refl (m : Machine) : Evaluated m m :=
  ⟨Fixed.refl m, fun h => h, fun _ => .refl _ _, fun _ h => h⟩

theorem Evaluated.trans {m m' m'' : Machine} (hfirst : Evaluated m m')
    (hsecond : Evaluated m' m'') : Evaluated m m'' where
  toFixed := hfirst.toFixed.trans hsecond.toFixed
  tidy htidy := hsecond.tidy (hfirst.tidy htidy)
  heap htidy := by
    have hkeeps := hsecond.heap (hfirst.tidy htidy)
    rw [hfirst.toFixed.held] at hkeeps
    exact (hfirst.heap htidy).trans hkeeps
  globals g hg := hsecond.globals g (hfirst.globals g hg)

theorem Stepped.evaluated {m m' : Machine} (h : Stepped m m') :
    Evaluated m m' :=
  ⟨h.toFixed, h.heap.tidy, fun _ => h.heap.keeps _, h.globals⟩

theorem Evaluated.ofRecords (m : Machine) (log : Array Record)
    (watch : Option Watch) : Evaluated m { m with log := log, watch := watch } :=
  ⟨⟨rfl, rfl, rfl, rfl, rfl, rfl, rfl, rfl⟩, fun h => h,
    fun _ => .refl _ _, fun _ h => h⟩

theorem evaluated_logged (m : Machine) (record : Record) :
    m.Evaluated (m.logged record) := by
  rw [logged]
  split
  · exact .ofRecords m _ _
  · exact .refl m

theorem evaluated_traced (m : Machine) : m.Evaluated m.traced := by
  rw [traced]
  split
  · exact m.evaluated_logged _
  · exact .refl m

theorem evaluated_collectGarbage (m : Machine) :
    m.Evaluated m.collectGarbage.2 where
  toFixed := ⟨rfl, rfl, rfl, rfl, rfl, rfl, rfl, rfl⟩
  tidy htidy := htidy.collect m.roots
  heap htidy := (htidy.collect_keeps m.roots).mono fun _ => mem_roots_of_mem_held
  globals _ h := h

theorem evaluated_collectIfFull (m : Machine) : m.Evaluated m.collectIfFull := by
  rw [collectIfFull]
  split
  · exact m.evaluated_collectGarbage
  · exact .refl m

theorem evaluated_askWatch (m : Machine) : m.Evaluated m.askWatch.2 := by
  rw [askWatch]
  split
  · exact .refl m
  · split
    · exact .refl m
    · exact .ofRecords m _ _

theorem evaluated_ready (m : Machine) : m.Evaluated m.ready.2 := by
  have hwatch : m.Evaluated
      (if m.usage.steps % watchPeriod = 0 then m.askWatch else (none, m)).2 := by
    split
    · exact m.evaluated_askWatch
    · exact .refl m
  rw [ready]
  split
  · exact .refl m
  · dsimp only
    split
    · exact hwatch
    · exact (hwatch.trans (evaluated_collectIfFull _)).trans (evaluated_traced _)

theorem evaluated_loop (fuel : Nat) (m : Machine) :
    m.Evaluated (loop fuel m).2 := by
  induction fuel generalizing m with
  | zero => exact .refl m
  | succ fuel ih =>
      rw [loop]
      have hready := m.evaluated_ready
      split
      · rename_i f m' heq
        rw [heq] at hready
        exact hready
      · rename_i m' heq
        rw [heq] at hready
        have hstep := m'.counted.stepped_step
        have hcounted : m'.Evaluated m'.counted :=
          (Stepped.ofRegisters m' _ _ _).evaluated
        split
        · rename_i m'' hrunning
          rw [hrunning] at hstep
          exact ((hready.trans hcounted).trans (Stepped.evaluated hstep)).trans (ih m'')
        · rename_i m'' hfinished
          rw [hfinished] at hstep
          exact (hready.trans hcounted).trans (Stepped.evaluated hstep)
        · rename_i f m'' hfaulted
          rw [hfaulted] at hstep
          exact (hready.trans hcounted).trans (Stepped.evaluated hstep)

theorem stepped_pushArgs (m : Machine) (vs : List Value) :
    (m.pushArgs vs).After m.Stepped := by
  induction vs generalizing m with
  | nil => exact .refl m
  | cons v rest ih =>
      refine (m.stepped_pushArg v).andThen fun m' hm' => ?_
      exact hm'.after (ih m')

theorem stepped_enter (m : Machine) (callee : Value) (args : List Value) :
    (m.enter callee args).After m.Stepped := by
  rw [enter]
  refine (Stepped.ofRegisters m {} {} m.started).after ?_
  refine (stepped_pushArgs _ _).andThen fun m' hm' => ?_
  exact hm'.after (stepped_jump _ _)

/-- A whole evaluation keeps what outlives it. -/
theorem evaluated_run (m : Machine) (callee : Value) (args : List Value) :
    m.Evaluated (m.run callee args).2 := by
  have hclear (m' : Machine) : m'.Evaluated m'.clearRegisters :=
    (Stepped.ofRegisters m' _ _ _).evaluated
  have henter := m.stepped_enter callee args
  rw [run]
  cases hprogress : m.enter callee args with
  | running m' =>
      rw [hprogress] at henter
      exact ((Stepped.evaluated henter).trans (evaluated_loop _ m')).trans (hclear _)
  | finished m' =>
      rw [hprogress] at henter
      exact (Stepped.evaluated henter).trans (hclear _)
  | faulted f m' =>
      rw [hprogress] at henter
      exact (Stepped.evaluated henter).trans (hclear _)

end Machine

end Zinc
