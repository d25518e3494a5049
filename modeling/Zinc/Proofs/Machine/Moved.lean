import Zinc.Proofs.Machine.Carried

/-!
What operations do to the stack of handle frames: they root values, open frames and
close them, and do nothing else.  Each frame that is opened gets a generation that no
frame had before, so a handle whose frame has been closed never has a value again, and
neither has a handle of another machine.
-/

namespace Zinc

namespace HandleStack

/-- The second stack comes from the first by rooting values, opening frames and closing
them. -/
inductive Moved (s : HandleStack) : HandleStack → Prop where
  | refl : Moved s s
  | add {t u : HandleStack} {v : Value} {h : Handle} :
      Moved s t → t.add v = .ok (h, u) → Moved s u
  | push {t u : HandleStack} : Moved s t → t.pushFrame = .ok u → Moved s u
  | pop {t u : HandleStack} : Moved s t → t.popFrame = .ok u → Moved s u

variable {s t u : HandleStack} {h : Handle} {v : Value}

theorem Moved.trans (hfirst : s.Moved t) (hsecond : t.Moved u) : s.Moved u := by
  induction hsecond with
  | refl => exact hfirst
  | add _ hadd ih => exact ih.add hadd
  | push _ hpush ih => exact ih.push hpush
  | pop _ hpop ih => exact ih.pop hpop

theorem Moved.of_eq (h : t = s) : s.Moved t :=
  h ▸ .refl

theorem pushFrame_eq_ok (hpush : s.pushFrame = .ok t) :
    t = { s with
      frames := s.frames.push { generation := s.nextGeneration }
      nextGeneration := s.nextGeneration + 1 } := by
  rw [pushFrame] at hpush
  split at hpush
  · cases hpush
  · exact (Except.ok.inj hpush).symm

theorem popFrame_eq_ok (hpop : s.popFrame = .ok t) :
    t = { s with frames := s.frames.pop } := by
  rw [popFrame] at hpop
  split at hpop
  · cases hpop
  · exact (Except.ok.inj hpop).symm

theorem Moved.owner (hmoved : s.Moved t) : t.owner = s.owner := by
  induction hmoved with
  | refl => rfl
  | add _ hadd ih =>
      obtain ⟨_, _, _, rfl⟩ := add_eq_ok hadd
      exact ih
  | push _ hpush ih => rwa [pushFrame_eq_ok hpush]
  | pop _ hpop ih => rwa [popFrame_eq_ok hpop]

/-- Every frame was there before, with its generation, or is newer than all that were. -/
structure Newer (s t : HandleStack) : Prop where
  next : s.nextGeneration ≤ t.nextGeneration
  frame : ∀ (i : Nat) (f : HandleFrame), t.frames[i]? = some f →
    (∃ old, s.frames[i]? = some old ∧ old.generation = f.generation) ∨
      s.nextGeneration ≤ f.generation ∧ f.generation < t.nextGeneration

theorem Newer.add (hnewer : s.Newer t) (hadd : t.add v = .ok (h, u)) : s.Newer u := by
  obtain ⟨last, hback, _, rfl⟩ := add_eq_ok hadd
  refine ⟨hnewer.next, fun i f hf => ?_⟩
  dsimp only at hf
  rw [getElem?_pop_push hback] at hf
  split at hf
  · rename_i hi
    cases hf
    refine hnewer.frame i last ?_
    rw [hi, ← Array.back?_eq_getElem?, hback]
  · exact hnewer.frame i f hf

theorem Newer.push (hnewer : s.Newer t) (hpush : t.pushFrame = .ok u) : s.Newer u := by
  rw [pushFrame_eq_ok hpush]
  refine ⟨Nat.le_succ_of_le hnewer.next, fun i f hf => ?_⟩
  rw [Array.getElem?_push] at hf
  split at hf
  · cases hf
    exact Or.inr ⟨hnewer.next, Nat.lt_succ_self _⟩
  · rcases hnewer.frame i f hf with hold | ⟨hle, hlt⟩
    · exact Or.inl hold
    · exact Or.inr ⟨hle, Nat.lt_succ_of_lt hlt⟩

theorem Newer.pop (hnewer : s.Newer t) (hpop : t.popFrame = .ok u) : s.Newer u := by
  rw [popFrame_eq_ok hpop]
  refine ⟨hnewer.next, fun i f hf => ?_⟩
  rw [Array.getElem?_pop] at hf
  split at hf
  · exact hnewer.frame i f hf
  · cases hf

theorem Moved.newer (hmoved : s.Moved t) : s.Newer t := by
  induction hmoved with
  | refl => exact ⟨Nat.le_refl _, fun i f hf => Or.inl ⟨f, hf, rfl⟩⟩
  | add _ hadd ih => exact ih.add hadd
  | push _ hpush ih => exact ih.push hpush
  | pop _ hpop ih => exact ih.pop hpop

/-- Every frame is older than the one that comes next. -/
def Dated (s : HandleStack) : Prop :=
  ∀ (i : Nat) (f : HandleFrame), s.frames[i]? = some f → f.generation < s.nextGeneration

theorem Dated.moved (hdated : s.Dated) (hmoved : s.Moved t) : t.Dated := by
  intro i f hf
  rcases hmoved.newer.frame i f hf with ⟨old, hold, heq⟩ | ⟨_, hlt⟩
  · rw [← heq]
    exact Nat.lt_of_lt_of_le (hdated i old hold) hmoved.newer.next
  · exact hlt

/-- A handle whose frame was open once and has been closed has no value any more. -/
theorem get_of_closed (hdated : s.Dated) (hget : s.get h = .ok v) (hmoved : s.Moved t)
    (hclosed : t.depth ≤ h.frame) (hlater : t.Moved u) (w : Value) :
    u.get h ≠ .ok w := by
  intro hw
  obtain ⟨_, f, hframe, hgeneration, _⟩ := get_eq_ok_iff.1 hget
  obtain ⟨_, g, hframe', hgeneration', _⟩ := get_eq_ok_iff.1 hw
  have holder : h.generation < t.nextGeneration := by
    rw [← hgeneration]
    exact Nat.lt_of_lt_of_le (hdated _ f hframe) hmoved.newer.next
  -- a frame in that place is newer than the handle
  rcases hlater.newer.frame _ g hframe' with ⟨old, hold, _⟩ | ⟨hle, _⟩
  · rw [Array.getElem?_eq_none hclosed] at hold
    cases hold
  · omega

end HandleStack

namespace Machine

variable {m m' : Machine}

theorem Grown.moved (h : m.Grown m') : m.handles.Moved m'.handles :=
  .of_eq h.handles

theorem Allocated.handles (h : m.Allocated m') : m'.handles = m.handles := by
  obtain ⟨_, _⟩ := h
  rfl

theorem moved_addHandle (m : Machine) (v : Value) :
    m.handles.Moved (m.addHandle v).2.handles := by
  rw [addHandle]
  split
  · exact .refl
  · rename_i hadd
    exact .add .refl hadd

theorem moved_whenOpen {α : Type} (op : String) {k : Machine → Reply α}
    (hk : m.handles.Moved (k m).2.handles) :
    m.handles.Moved (m.whenOpen op k).2.handles := by
  rw [whenOpen]
  split
  · exact .refl
  · exact hk

theorem moved_whenFramed {α : Type} (op : String) {k : Machine → Reply α}
    (hk : m.handles.Moved (k m).2.handles) :
    m.handles.Moved (m.whenFramed op k).2.handles := by
  refine moved_whenOpen op ?_
  split
  · exact .refl
  · exact hk

theorem moved_newHandle (m : Machine) (v : Value) :
    m.handles.Moved (m.newHandle v).2.handles :=
  moved_whenOpen _ (m.moved_addHandle v)

theorem moved_pushFrame (m : Machine) : m.handles.Moved m.pushFrame.2.handles := by
  refine moved_whenOpen _ ?_
  split
  · exact .refl
  · rename_i hpush
    exact .push .refl hpush

theorem moved_popFrame (m : Machine) : m.handles.Moved m.popFrame.2.handles := by
  refine moved_whenOpen _ ?_
  split
  · exact .refl
  · rename_i hpop
    exact .pop .refl hpop

theorem moved_collect (m : Machine) : m.handles.Moved m.collect.2.handles := by
  rw [collect]
  exact moved_whenOpen _ .refl

theorem moved_close (m : Machine) : m.handles.Moved m.close.2.handles := by
  rw [close]
  exact moved_whenOpen _ .refl

theorem moved_newTuple (m : Machine) (fields : List Value) :
    m.handles.Moved (m.newTuple fields).2.handles := by
  refine moved_whenFramed _ ?_
  have halloc := (m.allocated_allocTuple fields).handles
  split
  · rename_i heq
    rw [heq] at halloc
    exact .of_eq halloc
  · rename_i heq
    rw [heq] at halloc
    exact (HandleStack.Moved.of_eq halloc).trans (moved_addHandle _ _)

theorem moved_entryHandle (m : Machine) (entry : Nat) :
    m.handles.Moved (m.entryHandle entry).2.handles :=
  moved_addHandle (m.topClosure entry).2 _

theorem moved_compile (m : Machine) (e : Expr) :
    m.handles.Moved (m.compile e).2.handles := by
  rw [compile]
  split
  · exact .refl
  · rename_i l _
    refine moved_whenFramed _ ?_
    have hgrown := (m.grown_compileEntry l).moved
    split
    · rename_i heq
      rwa [heq] at hgrown
    · rename_i heq
      rw [heq] at hgrown
      exact hgrown.trans (moved_entryHandle _ _)

theorem moved_define (m : Machine) (s : Symbol) (e : Expr) :
    m.handles.Moved (m.define s e).2.handles := by
  refine moved_whenFramed _ ?_
  have hgrown :=
    (m.grown_defineEntryWith s id fun m => Lir.lower m.globals.isDeclared e).moved
  rw [defineExpr]
  split
  · rename_i heq
    rwa [heq] at hgrown
  · rename_i heq
    rw [heq] at hgrown
    exact hgrown.trans (moved_entryHandle _ _)

theorem moved_call (m : Machine) (fn : Handle) (args : List Handle) :
    m.handles.Moved (m.call fn args).2.handles := by
  refine moved_whenOpen _ ?_
  split
  · exact .refl
  · rename_i callee _
    split
    · exact .refl
    · split
      · exact .refl
      · rename_i vs _
        have hrun := (m.evaluated_run callee vs).grown.moved
        split
        · rename_i heq
          rwa [heq] at hrun
        · rename_i heq
          rw [heq] at hrun
          exact hrun.trans (moved_addHandle _ _)

end Machine

namespace ProgramUnit

theorem evaluate_moved (u : ProgramUnit) (s : Option Handle × Machine) :
    s.2.handles.Moved (u.evaluate s).2.2.2.handles := by
  obtain ⟨result, m⟩ := s
  have hrun := (m.grown_runEntry u.entry).moved
  rw [evaluate]
  split
  · rename_i heq
    rwa [heq] at hrun
  · rename_i v after heq
    rw [heq] at hrun
    have hnew := after.moved_newHandle v
    split
    · exact hrun
    · split
      · rename_i heq'
        rw [heq'] at hnew
        exact hrun.trans hnew
      · rename_i heq'
        rw [heq'] at hnew
        exact hrun.trans hnew

end ProgramUnit

namespace Loading

theorem handles_fail (l : Loading) (f : Failure) :
    (l.fail f).machine.handles = l.machine.handles := by
  rw [fail]
  split <;> rfl

theorem handles_settle (l : Loading) (failure : Option Failure) :
    (l.settle failure).machine.handles = l.machine.handles := by
  cases failure with
  | none => rfl
  | some f => exact l.handles_fail f

theorem moved_stage [Yaml.Parser] (l : Loading) (s : Stage) :
    l.machine.handles.Moved (l.stage s).machine.handles := by
  have grown {step : ProgramUnit → Machine → Option Fault × ProgramUnit × Machine}
      (hstep : ∀ u m, Machine.Grown m (step u m).2.2) :
      l.machine.Grown (ProgramUnit.each step l.units l.machine).2.2 :=
    ProgramUnit.each_preserves Machine.Grown.refl Machine.Grown.trans hstep _ _
  cases hfailure : l.failure with
  | some f =>
      rw [stage_of_failed (by rw [hfailure]; rfl)]
      exact .refl
  | none =>
      rw [stage_of_going hfailure]
      cases s with
      | decode =>
          dsimp only [decode]
          split
          · exact .of_eq (l.handles_fail _)
          · exact .refl
      | lower =>
          exact (grown ProgramUnit.lower_grown).moved.trans (.of_eq (handles_settle _ _))
      | compile =>
          exact (grown ProgramUnit.compile_grown).moved.trans (.of_eq (handles_settle _ _))
      | evaluate =>
          have hunits := ProgramUnit.each_preserves
            (R := fun s t : Option Handle × Machine => s.2.handles.Moved t.2.handles)
            (fun _ => .refl) .trans ProgramUnit.evaluate_moved l.units
            (l.result, l.machine)
          dsimp only [evaluate]
          split
          · exact hunits.trans (.of_eq (handles_fail _ _))
          · split <;> exact hunits

theorem moved_run [Yaml.Parser] (l : Loading) (stages : List Stage) :
    l.machine.handles.Moved (l.run stages).machine.handles := by
  induction stages generalizing l with
  | nil => exact .refl
  | cons s rest ih => exact (l.moved_stage s).trans (ih (l.stage s))

end Loading

end Zinc
