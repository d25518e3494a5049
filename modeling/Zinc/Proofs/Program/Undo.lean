import Zinc.Program
import Zinc.Proofs.Machine.Compile
import Zinc.Proofs.Machine.Frame

/-!
Undoing a program that fails to load.  From the checkpoint on, loading appends code,
extends the table of globals and evaluates; none of it touches the handles or the
objects that the recorded globals hold.  So the rollback finds everything that it needs
to make the machine what it was.
-/

namespace Zinc

namespace Machine

/-- What loading may do to a machine before it hands out a result: append code, extend
the globals and evaluate. -/
structure Grown (m m' : Machine) : Prop where
  code : m.code.bytes.toList <+: m'.code.bytes.toList
  handles : m'.handles = m.handles
  saved : m'.saved = m.saved
  closed : m'.closed = m.closed
  tidy : m.heap.Tidy → m'.heap.Tidy
  heap : m.heap.Tidy → Heap.Keeps m.held m.heap m'.heap
  globals : ∀ g, Globals.Extends g m.globals → Globals.Extends g m'.globals

theorem Evaluated.grown {m m' : Machine} (h : Evaluated m m') : Grown m m' :=
  ⟨by rewrite [h.code]; exact List.prefix_refl _, h.handles, h.saved, h.closed, h.tidy,
    h.heap, h.globals⟩

theorem Grown.refl (m : Machine) : Grown m m :=
  (Evaluated.refl m).grown

theorem Grown.trans {m m' m'' : Machine} (hfirst : Grown m m')
    (hsecond : Grown m' m'') : Grown m m'' where
  code := hfirst.code.trans hsecond.code
  handles := hsecond.handles.trans hfirst.handles
  saved := hsecond.saved.trans hfirst.saved
  closed := hsecond.closed.trans hfirst.closed
  tidy htidy := hsecond.tidy (hfirst.tidy htidy)
  heap htidy := by
    have hheld : m'.held = m.held := by
      rw [held, held, hfirst.handles, hfirst.saved]
    have hkeeps := hsecond.heap (hfirst.tidy htidy)
    rw [hheld] at hkeeps
    exact (hfirst.heap htidy).trans hkeeps
  globals g hg := hsecond.globals g (hfirst.globals g hg)

theorem Grown.ofGlobals {m : Machine} {globals : Globals}
    (h : ∀ g, Globals.Extends g m.globals → Globals.Extends g globals) :
    Grown m { m with globals := globals } :=
  ⟨List.prefix_refl _, rfl, rfl, rfl, fun h => h, fun _ => .refl _ _, h⟩

theorem grown_declare (m : Machine) (s : Symbol) : m.Grown (m.declare s).2 := by
  rw [declare, whenOpen]
  split
  · exact .refl m
  · exact .ofGlobals fun g hg => hg.declare s

theorem grown_extended (m : Machine) (op : String) (is : List Instr) :
    m.Grown (m.extended op is) := by
  obtain ⟨log, heq⟩ := m.extended_eq op is
  rw [heq]
  exact ⟨by simp [Code.append], rfl, rfl, rfl, fun h => h, fun _ => .refl _ _,
    fun _ h => h⟩

theorem grown_compileEntry (m : Machine) (l : Lir) :
    m.Grown (m.compileEntry l).2 := by
  rcases m.compileEntry_cases l with ⟨_, _, heq⟩ | ⟨_, _, _, _, heq⟩
  · rw [heq]
    exact .refl m
  · rw [heq]
    exact m.grown_extended _ _

theorem grown_defineEntryWith {ε : Type} (m : Machine) (s : Symbol)
    (refuse : Fault → ε) (lower : Machine → Except ε Lir) :
    m.Grown (m.defineEntryWith s refuse fun m => (lower m, m)).2.2 := by
  rcases m.defineEntryWith_cases s refuse lower with
    ⟨_, _, heq⟩ | ⟨_, globals, _, _, _, _, hdeclare, _, _, heq⟩
  · rw [heq]
    exact .refl m
  · rw [heq]
    have hdeclared : m.Grown { m with globals := globals } := by
      refine .ofGlobals fun g hg => ?_
      have hext := hg.declare s
      rwa [hdeclare] at hext
    exact hdeclared.trans (grown_extended _ _ _)

theorem grown_defineEntry (m : Machine) (s : Symbol) (l : Lir) :
    m.Grown (m.defineEntry s l).2 :=
  m.grown_defineEntryWith s id fun _ => .ok l

theorem grown_runEntry (m : Machine) (entry : Int) :
    m.Grown (m.runEntry entry).2 := by
  rw [runEntry, whenOpen]
  split
  · exact .refl m
  · have halloc : m.Stepped (m.topClosure entry).2 :=
      .ofHeap (.alloc _ _ (.refl _)) _
    exact (halloc.evaluated.trans (evaluated_run _ _ _)).grown

/-- The parts of a machine that a failed program leaves exactly as they were, with
the objects that the globals and the handles hold. -/
structure Restored (m m' : Machine) : Prop where
  code : m'.code = m.code
  globals : m'.globals = m.globals
  handles : m'.handles = m.handles
  tidy : m.heap.Tidy → m'.heap.Tidy
  heap : m.heap.Tidy →
    Heap.Keeps (m.handles.values ++ m.globals.values) m.heap m'.heap

theorem Restored.refl (m : Machine) : Restored m m :=
  ⟨rfl, rfl, rfl, fun h => h, fun _ => .refl _ _⟩

/-- Rolling back to a checkpoint undoes all that loading has done since. -/
theorem Grown.rollback {m m' : Machine} (hgrown : Grown m.checkpoint.2 m') :
    Restored m (m'.rollback m.checkpoint.1) where
  code := Code.take_size_eq hgrown.code
  globals := (hgrown.globals m.globals (.refl _)).restore
  handles := hgrown.handles
  tidy htidy := hgrown.tidy htidy
  heap htidy := hgrown.heap htidy

end Machine

namespace ProgramUnit

/-- What a stage does to a machine is what it does for one unit after the other. -/
theorem each_preserves {σ : Type} {R : σ → σ → Prop}
    {step : ProgramUnit → σ → Option Fault × ProgramUnit × σ}
    (hrefl : ∀ s, R s s) (htrans : ∀ {s t u}, R s t → R t u → R s u)
    (hstep : ∀ u s, R s (step u s).2.2) (units : List ProgramUnit) (s : σ) :
    R s (each step units s).2.2 := by
  induction units generalizing s with
  | nil => exact hrefl s
  | cons u rest ih =>
      have hu := hstep u s
      rw [each]
      split
      · rename_i heq
        rwa [heq] at hu
      · rename_i heq
        rw [heq] at hu
        exact htrans hu (ih _)

/-- A stage that keeps the name of every unit keeps the names of all. -/
theorem each_names {σ : Type}
    {step : ProgramUnit → σ → Option Fault × ProgramUnit × σ}
    (hstep : ∀ u s, (step u s).2.1.name = u.name) (units : List ProgramUnit)
    (s : σ) :
    (each step units s).2.1.map ProgramUnit.name =
      units.map ProgramUnit.name := by
  induction units generalizing s with
  | nil => rfl
  | cons u rest ih =>
      have hu := hstep u s
      rw [each]
      split
      · rename_i heq
        rw [heq] at hu
        exact congrArg (· :: rest.map ProgramUnit.name) hu
      · rename_i heq
        rw [heq] at hu
        simp only [List.map_cons, ih]
        exact congrArg (· :: rest.map ProgramUnit.name) hu

theorem lower_grown (u : ProgramUnit) (m : Machine) :
    m.Grown (u.lower m).2.2 := by
  obtain ⟨name, pos, body, lir, entry⟩ := u
  cases name with
  | none =>
      rw [lower]
      dsimp only
      split <;> exact .refl m
  | some s =>
      have hdeclare := m.grown_declare s
      rw [lower]
      dsimp only
      split
      · exact hdeclare
      · split <;> exact hdeclare

theorem lower_name (u : ProgramUnit) (m : Machine) :
    (u.lower m).2.1.name = u.name := by
  rw [lower]
  dsimp only
  split
  · rfl
  · split <;> rfl

theorem compile_grown (u : ProgramUnit) (m : Machine) :
    m.Grown (u.compile m).2.2 := by
  obtain ⟨name, pos, body, lir, entry⟩ := u
  cases name with
  | none =>
      have hcompile := m.grown_compileEntry (lir.getD .missing)
      rw [compile]
      dsimp only
      split <;> exact hcompile
  | some s =>
      have hdefine := m.grown_defineEntry s (lir.getD .missing)
      rw [compile]
      dsimp only
      split <;> exact hdefine

theorem compile_name (u : ProgramUnit) (m : Machine) :
    (u.compile m).2.1.name = u.name := by
  rw [compile]
  dsimp only
  split <;> rfl

/-- A unit that fails hands out no handle. -/
theorem evaluate_grown_of_fault {u : ProgramUnit} {result : Option Handle}
    {m : Machine} (h : (u.evaluate (result, m)).1.isSome ∨ u.name.isSome) :
    m.Grown (u.evaluate (result, m)).2.2.2 := by
  have hrun := m.grown_runEntry u.entry
  rw [evaluate] at h ⊢
  split at h
  · rename_i f m' heq
    rwa [heq] at hrun
  · rename_i v m' heq
    rw [heq] at hrun
    split at h
    · rename_i hname
      simpa only [if_pos hname] using hrun
    · rename_i hname
      rw [if_neg hname]
      split at h
      · rename_i f m'' hnew
        rw [Machine.newHandle, Machine.whenOpen] at hnew
        split at hnew
        · cases hnew
          exact hrun
        · rw [Machine.addHandle] at hnew
          split at hnew
          · cases hnew
            exact hrun
          · cases hnew
      · simp [hname] at h

/-- Only the last of the units may be an expression without a name. -/
def Ordered (units : List ProgramUnit) : Prop :=
  ∀ name ∈ (units.map ProgramUnit.name).dropLast, name.isSome

theorem ordered_ofDocument (d : Document) : Ordered (ofDocument d) := by
  intro name hname
  cases hmain : d.main with
  | none =>
      have hmem := List.dropLast_subset _ hname
      simp only [ofDocument, hmain, Option.map_none, Option.toList_none,
        List.append_nil, List.map_map, List.mem_map] at hmem
      obtain ⟨_, _, rfl⟩ := hmem
      rfl
  | some e =>
      simp only [ofDocument, hmain, Option.map_some, Option.toList_some,
        List.map_append, List.map_map, List.map_cons, List.map_nil,
        List.dropLast_concat, List.mem_map] at hname
      obtain ⟨_, _, rfl⟩ := hname
      rfl

/-- Units that fail to evaluate hand out no handle: the only one that could is the
last. -/
theorem each_evaluate_grown {units : List ProgramUnit} (hordered : Ordered units)
    {state : Option Handle × Machine}
    (hfail : (each evaluate units state).1.isSome) :
    state.2.Grown (each evaluate units state).2.2.2 := by
  induction units generalizing state with
  | nil => simp [each] at hfail
  | cons u rest ih =>
      obtain ⟨result, m⟩ := state
      have hgrown := @evaluate_grown_of_fault u result m
      rw [each] at hfail ⊢
      split at hfail
      · rename_i heq
        rw [heq] at hgrown
        exact hgrown (Or.inl rfl)
      · rename_i u' s heq
        rw [heq] at hgrown
        cases rest with
        | nil => simp [each] at hfail
        | cons next rest =>
            have hname : u.name.isSome := hordered u.name (by simp)
            have hrest : Ordered (next :: rest) := fun name hmem =>
              hordered name (by simpa using Or.inr hmem)
            exact (hgrown (Or.inr hname)).trans (ih hrest hfail)

end ProgramUnit

namespace Loading

/-- Loading since its checkpoint, which was taken on the machine `m`. -/
structure Undoable (m : Machine) (l : Loading) : Prop where
  failure : l.failure = none
  checkpoint : l.checkpoint = some m.checkpoint.1
  machine : m.checkpoint.2.Grown l.machine
  units : ProgramUnit.Ordered l.units

/-- Loading goes on, or it has failed and the machine `m` is restored. -/
def Covered (m : Machine) (l : Loading) : Prop :=
  Undoable m l ∨ l.failure.isSome ∧ m.Restored l.machine

theorem Undoable.fail {m : Machine} {l : Loading} (h : Undoable m l)
    (f : Failure) : (l.fail f).failure.isSome ∧ m.Restored (l.fail f).machine := by
  rw [Loading.fail, h.checkpoint]
  exact ⟨rfl, h.machine.rollback⟩

theorem Undoable.settle {m : Machine} {l : Loading} (h : Undoable m l)
    (failure : Option Failure) : Covered m (l.settle failure) := by
  cases failure with
  | none => exact Or.inl h
  | some f => exact Or.inr (h.fail f)

/-- One of the stages between the checkpoint and the evaluation. -/
theorem Undoable.stage {m : Machine} {l : Loading} (h : Undoable m l)
    {step : ProgramUnit → Machine → Option Fault × ProgramUnit × Machine}
    (hgrown : ∀ u m, Machine.Grown m (step u m).2.2)
    (hname : ∀ u m, (step u m).2.1.name = u.name) :
    Covered m ({ l with
      units := (ProgramUnit.each step l.units l.machine).2.1
      machine := (ProgramUnit.each step l.units l.machine).2.2 }.settle
        (ProgramUnit.each step l.units l.machine).1) := by
  have hall : l.machine.Grown (ProgramUnit.each step l.units l.machine).2.2 :=
    ProgramUnit.each_preserves Machine.Grown.refl Machine.Grown.trans hgrown _ _
  have hordered :
      ProgramUnit.Ordered (ProgramUnit.each step l.units l.machine).2.1 := by
    intro name hmem
    rw [ProgramUnit.each_names hname] at hmem
    exact h.units name hmem
  exact Undoable.settle (l := { l with
    units := (ProgramUnit.each step l.units l.machine).2.1
    machine := (ProgramUnit.each step l.units l.machine).2.2 })
    ⟨h.failure, h.checkpoint, h.machine.trans hall, hordered⟩ _

theorem stage_of_failed [Yaml.Parser] {l : Loading} (h : l.failure.isSome) (s : Stage) :
    l.stage s = l := by
  cases s <;> exact if_pos h

theorem stage_of_going [Yaml.Parser] {l : Loading} (h : l.failure = none) (s : Stage) :
    l.stage s = match s with
      | .decode => l.decode
      | .lower => l.lower
      | .compile => l.compile
      | .evaluate => l.evaluate := by
  have hgoing : ¬ l.failure.isSome := by rw [h]; exact Bool.false_ne_true
  cases s <;> exact if_neg hgoing

theorem Covered.stage [Yaml.Parser] {m : Machine} {l : Loading} {s : Stage}
    (h : Covered m l) (hgo : Undoable m l → Covered m (l.stage s)) :
    Covered m (l.stage s) := by
  rcases h with hgoing | ⟨hfailed, hrestored⟩
  · exact hgo hgoing
  · rw [stage_of_failed hfailed]
    exact Or.inr ⟨hfailed, hrestored⟩

theorem covered_decode [Yaml.Parser] {l : Loading} (hfailure : l.failure = none)
    (hcheckpoint : l.checkpoint = none) (hunits : l.units = []) :
    Covered l.machine (l.stage .decode) := by
  rw [stage_of_going hfailure]
  dsimp only [Loading.decode]
  split
  · refine Or.inr ?_
    rw [Loading.fail, hcheckpoint]
    exact ⟨rfl, .refl _⟩
  · refine Or.inl ⟨hfailure, rfl, .refl _, ?_⟩
    rw [hunits]
    exact ProgramUnit.ordered_ofDocument _

theorem Undoable.lower [Yaml.Parser] {m : Machine} {l : Loading} (h : Undoable m l) :
    Covered m (l.stage .lower) := by
  rw [stage_of_going h.failure]
  exact h.stage ProgramUnit.lower_grown ProgramUnit.lower_name

theorem Undoable.compile [Yaml.Parser] {m : Machine} {l : Loading} (h : Undoable m l) :
    Covered m (l.stage .compile) := by
  rw [stage_of_going h.failure]
  exact h.stage ProgramUnit.compile_grown ProgramUnit.compile_name

/-- The last stage succeeds or restores the machine. -/
theorem Undoable.evaluate [Yaml.Parser] {m : Machine} {l : Loading} (h : Undoable m l)
    (hfail : (l.stage .evaluate).failure.isSome) :
    m.Restored (l.stage .evaluate).machine := by
  rw [stage_of_going h.failure] at hfail ⊢
  dsimp only [Loading.evaluate] at hfail ⊢
  have hgrown := @ProgramUnit.each_evaluate_grown l.units h.units
    (l.result, l.machine)
  cases heach : ProgramUnit.each ProgramUnit.evaluate l.units
      (l.result, l.machine) with
  | mk failure rest =>
      rw [heach] at hfail hgrown
      cases failure with
      | none =>
          dsimp only at hfail
          rw [if_pos (by rw [h.checkpoint]; rfl)] at hfail
          simp [h.failure] at hfail
      | some f =>
          dsimp only [Loading.fail]
          rw [h.checkpoint]
          exact (h.machine.trans (hgrown rfl)).rollback

theorem run_all [Yaml.Parser] (l : Loading) : l.run Stage.all =
    (((l.stage .decode).stage .lower).stage .compile).stage .evaluate := rfl

/-- A program that fails to load, in whatever stage, restores the machine. -/
theorem run_restored [Yaml.Parser] (path : String) (source : ByteArray) (symbols : SymbolTable)
    (machine : Machine)
    (hfail : (run { path, source, symbols, machine } Stage.all).failure.isSome) :
    machine.Restored
      (run { path, source, symbols, machine } Stage.all).machine := by
  have hdecode := covered_decode
    (l := { path, source, symbols, machine }) rfl rfl rfl
  have hcompile := (hdecode.stage Undoable.lower).stage Undoable.compile
  rw [run_all] at hfail ⊢
  rcases hcompile with hgoing | ⟨hfailed, hrestored⟩
  · exact hgoing.evaluate hfail
  · rw [stage_of_failed hfailed]
    exact hrestored

end Loading

end Zinc
