import Zinc.Proofs.Session.Twin

/-!
A program is loaded as a whole or not at all.
-/

namespace Zinc.Session

/-- The code, the globals with their index, and the handles are what they were, and so
is every object that a global or a handle refers to, however far away. -/
structure Unchanged (s s' : Session) : Prop where
  code : s'.machine.code = s.machine.code
  globals : s'.machine.globals = s.machine.globals
  handles : s'.machine.handles = s.machine.handles
  objects : ∀ a, s.machine.heap.Reach
      (s.machine.handles.values ++ s.machine.globals.values) a →
    ∃ c, s.machine.heap.cells[a]? = some c ∧ s'.machine.heap.cells[a]? = some c

/-- Whatever a host has done before, loading a program succeeds or leaves the session
unchanged. -/
theorem load_ok_or_unchanged [Yaml.Parser] (owner : Nat) (limits : Limits)
    (logLevel : Option LogLevel) (watch : Option Watch) (horizon : Nat)
    (requests : List Request) (path : String) (source : ByteArray) :
    let s := (fresh owner limits logLevel watch horizon).after requests
    (∃ result, (s.load path source).1 = .ok result) ∨
      s.Unchanged (s.load path source).2 := by
  intro s
  have halike : Linked Machine.Twins s s :=
    ((twins_fresh owner limits logLevel watch horizon limits.threshold?
      limits.threshold?).after Machine.twins_congruence requests).2
  have hrestored := Loading.run_restored path source s.symbols s.machine
  unfold load
  generalize Loading.run
    { path, source, symbols := s.symbols, machine := s.machine } Stage.all = l at *
  dsimp only
  cases hfailure : l.failure with
  | none => exact Or.inl ⟨l.result, rfl⟩
  | some f =>
      have hback := hrestored (by rw [hfailure]; rfl)
      obtain ⟨S, heap, _, _, htwin, _, _⟩ := halike.machine
      refine Or.inr ⟨hback.code, hback.globals, hback.handles, fun a ha => ?_⟩
      obtain ⟨c, hcell, _⟩ := halike.cell ha
      exact ⟨c, hcell, hback.heap htwin.heap.left a c ha hcell⟩

end Zinc.Session
