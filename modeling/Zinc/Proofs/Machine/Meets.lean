import Zinc.Proofs.Expr.Evaluate
import Zinc.Proofs.Machine.Unbounded

/-!
Unbounded runs that follow an evaluation.  When the evaluation has a value, the run gets
to a place that fits it; when it is stuck, the run faults for the same reason; and when
it is unfinished because calls may not be nested more than `depth` deep, the run goes on
for at least `depth` steps.
-/

namespace Zinc

/-- The cause of the fault that stands for a stuck evaluation. -/
def Stuck.cause : Stuck → Cause
  | notClosure => .notClosure
  | undefinedGlobal => .undefinedGlobal
  | malformed => .unknownNode

theorem Stuck.cause_injective {why why' : Stuck} (h : why.cause = why'.cause) :
    why = why' := by
  cases why <;> cases why' <;> simp [Stuck.cause] at h ⊢

namespace Machine

/-- The run of a machine meets the outcome of an evaluation. -/
def Meets {α : Type} (depth : Nat) (m : Machine) (o : Outcome α)
    (Q : α → Progress → Prop) : Prop :=
  match o with
  | .value a => ∃ k, Q a (advanceBy k m)
  | .stuck why => ∃ k f last, advanceBy k m = .faulted f last ∧ f.cause = why.cause
  | .unfinished => ∃ next, advanceBy depth m = .running next

/-- A run that goes on for many steps goes on for fewer. -/
theorem running_of_add {j k : Nat} {m next : Machine}
    (h : advanceBy (j + k) m = .running next) :
    ∃ next, advanceBy j m = .running next := by
  rw [advanceBy_add] at h
  cases hj : advanceBy j m with
  | running next => exact ⟨next, rfl⟩
  | finished last => rw [hj] at h; cases h
  | faulted f last => rw [hj] at h; cases h

namespace Meets

variable {α β : Type} {depth : Nat} {m next : Machine} {o : Outcome α}
  {Q : α → Progress → Prop}

theorem mono {R : α → Progress → Prop} (h : Meets depth m o Q)
    (hmono : ∀ a p, Q a p → R a p) : Meets depth m o R := by
  cases o with
  | value a =>
      obtain ⟨k, hk⟩ := h
      exact ⟨k, hmono a _ hk⟩
  | stuck why => exact h
  | unfinished => exact h

/-- The run may take some steps first. -/
theorem after {k : Nat} (hrun : advanceBy k m = .running next)
    (h : Meets depth next o Q) : Meets depth m o Q := by
  have hlater (j : Nat) : advanceBy (k + j) m = advanceBy j next := by
    rw [advanceBy_add, hrun]
    rfl
  cases o with
  | value a =>
      obtain ⟨j, hj⟩ := h
      refine ⟨k + j, ?_⟩
      rwa [hlater]
  | stuck why =>
      obtain ⟨j, f, last, hj, hcause⟩ := h
      exact ⟨k + j, f, last, (hlater j).trans hj, hcause⟩
  | unfinished =>
      obtain ⟨last, hlast⟩ := h
      rw [← hlater, Nat.add_comm] at hlast
      exact running_of_add hlast

theorem step (hstep : m.advance = .running next) (h : Meets depth next o Q) :
    Meets depth m o Q :=
  h.after ((advanceBy_one m).trans hstep)

/-- A step makes up for a call. -/
theorem call (hstep : m.advance = .running next) (h : Meets depth next o Q) :
    Meets (depth + 1) m o Q := by
  cases o with
  | value a => exact h.step hstep
  | stuck why => exact h.step hstep
  | unfinished =>
      obtain ⟨last, hlast⟩ := h
      exact ⟨last, by rw [advanceBy, hstep]; exact hlast⟩

/-- Nothing is left to do. -/
theorem now {a : α} (h : Q a (.running m)) : Meets depth m (.value a) Q :=
  ⟨0, h⟩

/-- One step is left to do. -/
theorem last {a : α} (h : Q a m.advance) : Meets depth m (.value a) Q :=
  ⟨1, by rwa [advanceBy_one]⟩

theorem fault {why : Stuck} (h : ∃ f last, m.advance = .faulted f last ∧
    f.cause = why.cause) : Meets depth m (.stuck why) Q := by
  obtain ⟨f, last, hstep, hcause⟩ := h
  exact ⟨1, f, last, (advanceBy_one m).trans hstep, hcause⟩

/-- One evaluation after the other. -/
theorem andThen {k : α → Outcome β} {R : β → Progress → Prop} (h : Meets depth m o Q)
    (hk : ∀ a p, Q a p → ∃ next, p = .running next ∧ Meets depth next (k a) R) :
    Meets depth m (o.andThen k) R := by
  cases o with
  | value a =>
      obtain ⟨j, hj⟩ := h
      obtain ⟨next, hrun, hnext⟩ := hk a _ hj
      exact hnext.after hrun
  | stuck why => exact h
  | unfinished => exact h

/-- One more step after an evaluation. -/
theorem finish {R : α → Progress → Prop} (h : Meets depth m o Q)
    (hlast : ∀ a p, Q a p → ∃ next, p = .running next ∧ R a next.advance) :
    Meets depth m o R := by
  have hvalue : o.andThen .value = o := by cases o <;> rfl
  rw [← hvalue]
  refine h.andThen fun a p hp => ?_
  obtain ⟨next, hrun, hnext⟩ := hlast a p hp
  exact ⟨next, hrun, .last hnext⟩

end Meets

end Machine

end Zinc
