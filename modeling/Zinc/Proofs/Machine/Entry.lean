import Zinc.Machine.Evaluate
import Zinc.Proofs.Machine.Simulate

/-!
Running the code of a whole expression, on a machine that never collects.  The code is
entered with nothing but a mark on the argument stack and ends with a return, so the run
ends with what the expression evaluates to.
-/

namespace Zinc.Machine

/-- The code at an entry computes a value that stands for a datum. -/
def Answers (m : Machine) (entry : Int) (d : Datum) : Prop :=
  ∃ v after, m.runEntry entry = (.ok v, after) ∧
    Represents after.code after.globals.slot? after.heap v (.datum d)

/-- The code at an entry faults for a cause. -/
def Faults (m : Machine) (entry : Int) (cause : Cause) : Prop :=
  ∃ f after, m.runEntry entry = (.error f, after) ∧ f.cause = cause

/-- The machine at the start of the code at an entry. -/
def atEntry (m : Machine) (entry : Int) : Machine :=
  m.on (m.heap.alloc .closure #[.emptyEnv, .code entry]).2 .undefined entry .emptyEnv []
    [.mark] []

/-- A run has ended. -/
def Ended (p : Progress) : Prop :=
  ∀ next, p ≠ .running next

variable {m z : Machine} {entry : Int}

/-- A run ends only once. -/
theorem advanceBy_of_ended {j k : Nat} (hj : Ended (advanceBy j m)) (hle : j ≤ k) :
    advanceBy k m = advanceBy j m := by
  obtain ⟨rest, rfl⟩ := Nat.exists_eq_add_of_le hle
  rw [advanceBy_add]
  cases hp : advanceBy j m with
  | running next => exact absurd hp (hj next)
  | finished last => rfl
  | faulted f last => rfl

theorem advanceBy_eq_of_ended {j k : Nat} (hj : Ended (advanceBy j m))
    (hk : Ended (advanceBy k m)) : advanceBy j m = advanceBy k m := by
  rcases Nat.le_total j k with hle | hle
  · exact (advanceBy_of_ended hj hle).symm
  · exact advanceBy_of_ended hk hle

/-- A closure is entered with a mark on the argument stack. -/
theorem enter_nil (x : Machine) (callee : Value) :
    x.enter callee [] = ({ x with usage := {}, regs := {} }.pushArg .mark).andThen
      fun m => m.jump callee := by
  unfold enter
  change (Progress.andThen (pushArg _ _) Progress.running).andThen _ = _
  unfold clearRegisters
  cases pushArg _ _ <;> rfl

/-- Where there is room for a mark, code is entered. -/
theorem enter_topClosure (hroom : 0 < z.limits.argStack) (entry : Int) :
    ∃ y, (z.topClosure entry).2.enter (z.topClosure entry).1 [] = .running y ∧
      (z.atEntry entry).Same y ∧ y.limits = z.limits ∧ y.watch = z.watch ∧
      y.horizon = z.horizon := by
  have hfields : (z.topClosure entry).2.heap.fields z.heap.cells.size =
      #[.emptyEnv, .code entry] := Heap.fields_alloc_self _ _ _
  have hpush : { (z.topClosure entry).2 with usage := {}, regs := {} }.pushArg .mark =
      .running { (z.topClosure entry).2 with
        usage := { peakArgs := 1 }, regs := { args := .of [.mark] } } :=
    if_neg (Int.not_le.2 hroom)
  refine ⟨{ (z.topClosure entry).2 with
    usage := { peakArgs := 1 }, regs := { args := .of [.mark], pc := entry } }, ?_,
    ⟨rfl, rfl, rfl, rfl⟩, rfl, rfl, rfl⟩
  rw [enter_nil, hpush]
  change jump _ (.ref .closure z.heap.cells.size) = _
  rw [jump]
  dsimp only
  rw [Heap.field, Heap.field, hfields]
  rfl

/-- Code is entered, or there is not even room for a mark. -/
theorem runEntry_cases (hopen : z.closed = false) (entry : Int) :
    (z.limits.argStack ≤ 0 ∧ z.Faults entry .argStackFull) ∨
    ∃ y, (z.atEntry entry).Same y ∧ y.limits = z.limits ∧ y.watch = z.watch ∧
      z.runEntry entry =
        ((loop z.horizon y).1, (loop z.horizon y).2.clearRegisters) := by
  have hrun : z.runEntry entry =
      (z.topClosure entry).2.run (z.topClosure entry).1 [] := by
    rw [runEntry, whenOpen, if_neg (by simp [hopen])]
  by_cases hroom : 0 < z.limits.argStack
  · obtain ⟨y, henter, hsame, hlimits, hwatch, hhorizon⟩ := enter_topClosure hroom entry
    refine Or.inr ⟨y, hsame, hlimits, hwatch, ?_⟩
    rw [hrun, run, henter]
    dsimp only
    rw [hhorizon]
  · have hfull := Int.not_lt.1 hroom
    have hpush : { (z.topClosure entry).2 with usage := {}, regs := {} }.pushArg .mark =
        { (z.topClosure entry).2 with usage := {}, regs := {} }.fail .capacity
          .argStackFull none := if_pos hfull
    refine Or.inl ⟨hfull, ?_⟩
    rw [Faults, hrun, run, enter_nil, hpush]
    exact ⟨_, _, rfl, rfl⟩

/-- A machine with the code of a whole expression at an entry. -/
structure Holds (m : Machine) (entry : Int) (e : Expr) (globals : Symbol → Option Datum) :
    Prop where
  isOpen : m.closed = false
  code : ∃ code, CodeOf m.globals.slot? [] .value e code ∧
    m.code.At entry (code ++ [.ret])
  index : Lir.Addresses m.globals.size m.globals.slot?
  knows : m.Knows globals

variable {e : Expr} {globals : Symbol → Option Datum}

/-- The unbounded run of the code of an expression does what the expression means. -/
theorem Holds.meets (h : m.Holds entry e globals) (depth : Nat) :
    Meets depth (m.atEntry entry) (e.evaluate (Datum.apply globals depth) globals [])
      fun d p => ∃ last, p = .finished last ∧ last.code = m.code ∧
        last.globals = m.globals ∧
        Represents m.code m.globals.slot? last.heap last.regs.acc (.datum d) := by
  obtain ⟨code, hcompiled, hat⟩ := h.code
  have hwithin : Within m (m.heap.alloc .closure #[.emptyEnv, .code entry]).2 entry
      .emptyEnv [] [] .value e code [.ret] :=
    ⟨.alloc _ _ (.refl _), .captured .nil, hcompiled, hat⟩
  have hcalls := calls_all h.knows h.index depth
  refine ((simulate h.knows h.index hcalls e).value hwithin).finish ?_
  rintro d _ ⟨h', v, _, hv, rfl⟩
  refine ⟨_, rfl, ?_⟩
  obtain ⟨pc, env, heq⟩ := (advance_ret_mark hat.skip).finished rfl
  exact ⟨_, heq, rfl, rfl, hv⟩

/-- A run of the code at an entry ends as an evaluation does. -/
def Fits (z : Machine) (entry : Int) : Outcome Datum → Prop
  | .value d => z.Answers entry d
  | .stuck why => z.Faults entry why.cause
  | .unfinished => False

/-- A run that has ended ends as the evaluation does. -/
theorem Holds.fits (h : m.Holds entry e globals) {k depth : Nat} {r : Reply Value}
    (hends : Ends (advanceBy k (m.atEntry entry)) r)
    (hrun : z.runEntry entry = (r.1, r.2.clearRegisters)) {o : Outcome Datum}
    (heval : e.evaluate (Datum.apply globals depth) globals [] = o)
    (hdepth : o = .unfinished → k ≤ depth) : z.Fits entry o := by
  have hended : Ended (advanceBy k (m.atEntry entry)) := by
    intro next hnext
    rw [hnext] at hends
    cases hends
  have hmeets := h.meets depth
  rw [heval] at hmeets
  cases o with
  | value d =>
      obtain ⟨j, last, hlast, hcode, hglobals, hv⟩ := hmeets
      have heq := advanceBy_eq_of_ended (j := j) (by simp [Ended, hlast]) hended
      rw [← heq, hlast] at hends
      cases hends with
      | value hsame =>
          refine ⟨_, _, hrun, ?_⟩
          dsimp only [clearRegisters]
          rw [hsame.code, hsame.globals, hsame.heap, hsame.regs, hcode, hglobals]
          exact hv
  | stuck why =>
      obtain ⟨j, f, last, hlast, hcause⟩ := hmeets
      have heq := advanceBy_eq_of_ended (j := j) (by simp [Ended, hlast]) hended
      rw [← heq, hlast] at hends
      cases hends with
      | fault hsame => exact ⟨_, _, hrun, hsame.trans hcause⟩
  | unfinished =>
      obtain ⟨next, hnext⟩ := hmeets
      obtain ⟨rest, rfl⟩ := Nat.exists_eq_add_of_le (hdepth rfl)
      obtain ⟨next, hnext⟩ := running_of_add hnext
      exact absurd hnext (hended next)

/-- With large bounds, the run of the code ends as the evaluation does. -/
theorem Holds.fits_of_ample (h : m.Holds entry e globals) {o : Outcome Datum}
    (heval : e.Evaluates globals o) (hfinished : o ≠ .unfinished) :
    ∃ n, ∀ z : Machine, (m.atEntry entry).Same (z.atEntry entry) → z.closed = false →
      z.Quiet → z.Ample n → n ≤ z.horizon → z.Fits entry o := by
  obtain ⟨depth, heval⟩ := heval
  have hended : ∃ k, Ended (advanceBy k (m.atEntry entry)) := by
    have hmeets := h.meets depth
    rw [heval] at hmeets
    cases o with
    | value d =>
        obtain ⟨k, last, hlast, _⟩ := hmeets
        exact ⟨k, by simp [Ended, hlast]⟩
    | stuck why =>
        obtain ⟨k, f, last, hlast, _⟩ := hmeets
        exact ⟨k, by simp [Ended, hlast]⟩
    | unfinished => exact absurd rfl hfinished
  obtain ⟨k, hk⟩ := hended
  obtain ⟨n, hn⟩ := ends_of_ample k (m.atEntry entry) hk
  refine ⟨n + 1, ?_⟩
  intro z hsame hopen hquiet hample hhorizon
  have hargs := hample.args
  rcases runEntry_cases hopen entry with ⟨hfull, _⟩ | ⟨y, hy, hlimits, hwatch, hrun⟩
  · omega
  · have hends := hn z.horizon y (by omega) (hsame.trans hy)
      (hquiet.congr hlimits hwatch) (hample.mono (Nat.le_succ n) hlimits)
    exact h.fits hends hrun heval fun hunfinished => absurd hunfinished hfinished

/-- A run of the code ends as the evaluation does, or it is cut off. -/
theorem Holds.fits_or_cut (h : m.Holds entry e globals)
    (hsame : (m.atEntry entry).Same (z.atEntry entry)) (hopen : z.closed = false)
    (hquiet : z.Quiet) :
    (∃ o, e.Evaluates globals o ∧ z.Fits entry o) ∨
      ∃ cause ∈ cutCauses, z.Faults entry cause := by
  rcases runEntry_cases hopen entry with ⟨_, hfull⟩ | ⟨y, hy, hlimits, hwatch, hrun⟩
  · exact Or.inr ⟨_, List.mem_cons_self, hfull⟩
  · rcases ends_or_cut z.horizon (hsame.trans hy) (hquiet.congr hlimits hwatch) with
      ⟨k, _, hends⟩ | ⟨f, after, hloop, hcause⟩
    · exact Or.inl ⟨_, ⟨k, rfl⟩, h.fits hends hrun rfl fun _ => Nat.le_refl k⟩
    · rw [hloop] at hrun
      exact Or.inr ⟨f.cause, hcause, f, _, hrun, rfl⟩

end Zinc.Machine
