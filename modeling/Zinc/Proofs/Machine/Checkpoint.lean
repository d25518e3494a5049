import Zinc.Proofs.Program.Undo

/-!
What a checkpoint undoes.  A host may declare, define, compile, evaluate and collect
between a checkpoint and its rollback, and may take further checkpoints inside, each of
which it closes.  The code and the table of globals come back exactly.  The objects that
the recorded globals hold come back as long as no checkpoint was taken inside, for the
machine keeps one record of globals and closing a checkpoint drops it.
-/

namespace Zinc

namespace Heap

theorem markFrom_idle (cells : Array Cell) {roots : List Value}
    (hroots : ∀ v ∈ roots, v.address? = none) : markFrom cells roots = cells := by
  induction roots with
  | nil => rw [markFrom]
  | cons v rest ih =>
      rw [markFrom, hroots v List.mem_cons_self]
      exact ih fun w hw => hroots w (List.mem_cons_of_mem _ hw)

/-- When no root is an object, a collection releases them all. -/
theorem Tidy.collect_idle {h : Heap} (htidy : h.Tidy) {roots : List Value}
    (hroots : ∀ v ∈ roots, v.address? = none) {a : Nat} {c : Cell}
    (hcell : h.cells[a]? = some c) :
    (h.collect roots).2.cells[a]? = some Cell.poisoned := by
  rw [htidy.cells_collect, markFrom_idle _ hroots, hcell]
  by_cases ha : a ∈ h.live
  · obtain ⟨c', hc', hwhite⟩ := (htidy.live_iff a).1 ha
    rw [hcell] at hc'
    cases hc'
    simp [ha, Cell.swept, hwhite]
  · have hdead : c.mark ≠ .white := fun hwhite =>
      ha ((htidy.live_iff a).2 ⟨c, hcell, hwhite⟩)
    rw [if_neg ha, htidy.dead a c hcell hdead]

end Heap

namespace Machine

/-- What a host may do with a machine between a checkpoint and its rollback. -/
inductive Action where
  | declare (s : Symbol)
  /-- Defines a global.  The host is asked for the expression once the global is declared;
  it first takes some actions and then answers, or it fails. -/
  | define (s : Symbol) (first : List Action) (answer : Except Fault Lir)
  | compile (l : Lir)
  | run (entry : Int)
  | collect
  /-- A checkpoint with some actions, committed or rolled back. -/
  | nested (body : List Action) (keep : Bool)

mutual

/-- The machine after an action. -/
def Action.perform : Action → Machine → Machine
  | .declare s, m => (m.declare s).2
  | .define s first answer, m =>
      (m.defineEntryWith s id fun m => (answer, performAll first m)).2.2
  | .compile l, m => (m.compileEntry l).2
  | .run entry, m => (m.runEntry entry).2
  | .collect, m => m.collect.2
  | .nested body keep, m =>
      let (cp, m) := m.checkpoint
      let m := performAll body m
      if keep then m.commit else m.rollback cp

/-- The machine after some actions. -/
def Action.performAll : List Action → Machine → Machine
  | [], m => m
  | a :: rest, m => performAll rest (a.perform m)

end

mutual

/-- Whether an action takes no checkpoint. -/
def Action.flat : Action → Bool
  | .define _ first _ => allFlat first
  | .nested _ _ => false
  | _ => true

/-- Whether some actions take no checkpoint. -/
def Action.allFlat : List Action → Bool
  | [] => true
  | a :: rest => a.flat && allFlat rest

end

/-- What actions may do to a machine.  The values that the open checkpoint records are
kept by actions that take no checkpoint. -/
structure Since (flat : Bool) (m m' : Machine) : Prop where
  code : m.code.bytes.toList <+: m'.code.bytes.toList
  globals : ∀ g, Globals.Extends g m.globals → Globals.Extends g m'.globals
  handles : m'.handles = m.handles
  tidy : m.heap.Tidy → m'.heap.Tidy
  saved : flat = true → m'.saved = m.saved
  heap : flat = true → m.heap.Tidy → Heap.Keeps m.held m.heap m'.heap

variable {m m' m'' : Machine} {flat flat' : Bool}

theorem Grown.since (h : Grown m m') (flat : Bool) : Since flat m m' :=
  ⟨h.code, h.globals, h.handles, h.tidy, fun _ => h.saved, fun _ => h.heap⟩

theorem Since.trans (hfirst : Since flat m m') (hsecond : Since flat' m' m'') :
    Since (flat && flat') m m'' where
  code := hfirst.code.trans hsecond.code
  globals g hg := hsecond.globals g (hfirst.globals g hg)
  handles := hsecond.handles.trans hfirst.handles
  tidy htidy := hsecond.tidy (hfirst.tidy htidy)
  saved hflat := by
    obtain ⟨hflat, hflat'⟩ := Bool.and_eq_true_iff.1 hflat
    exact (hsecond.saved hflat').trans (hfirst.saved hflat)
  heap hflat htidy := by
    obtain ⟨hflat, hflat'⟩ := Bool.and_eq_true_iff.1 hflat
    have hheld : m'.held = m.held := by
      rw [held, held, hfirst.handles, hfirst.saved hflat]
    have hkeeps := hsecond.heap hflat' (hfirst.tidy htidy)
    rw [hheld] at hkeeps
    exact (hfirst.heap hflat htidy).trans hkeeps

/-- Going on without a checkpoint. -/
theorem Since.grown (hfirst : Since flat m m') (hsecond : Grown m' m'') :
    Since flat m m'' := by
  have h := hfirst.trans (hsecond.since true)
  rwa [Bool.and_true] at h

/-- Rolling back gives the code and the globals of the checkpoint, and the objects that
they hold if no checkpoint was taken since. -/
theorem Since.rollback (h : Since flat m.checkpoint.2 m') :
    (m'.rollback m.checkpoint.1).code = m.code ∧
      (m'.rollback m.checkpoint.1).globals = m.globals ∧
      (flat = true → m.heap.Tidy →
        Heap.Keeps (m.handles.values ++ m.globals.values) m.heap
          (m'.rollback m.checkpoint.1).heap) :=
  ⟨Code.take_size_eq h.code, (h.globals m.globals (.refl _)).restore, h.heap⟩

/-- Giving up a slot that was new gives up nothing older. -/
theorem Since.giveUp {fresh : Bool} (h : Since flat m m')
    (hsize : fresh = true → m.globals.size < m'.globals.size) (s : Symbol) :
    Since flat m
      (if fresh then { m' with globals := m'.globals.undeclare s } else m') := by
  split
  · rename_i hfresh
    refine ⟨h.code, fun g hg => ?_, h.handles, h.tidy, h.saved, h.heap⟩
    exact (h.globals g hg).undeclare (Nat.lt_of_le_of_lt hg.size_le (hsize hfresh)) s
  · exact h

/-- A definition that the host takes actions for. -/
theorem since_defineEntryWith (m : Machine) (s : Symbol) (answer : Except Fault Lir)
    {actions : Machine → Machine} (hactions : ∀ m, Since flat m (actions m)) :
    Since flat m (m.defineEntryWith s id fun m => (answer, actions m)).2.2 := by
  unfold defineEntryWith
  split
  · exact (Grown.refl m).since flat
  · cases hdeclare : m.globals.declare s with
    | mk declaration globals =>
        have hdeclared : m.Grown { m with globals := globals } := by
          refine .ofGlobals fun g hg => ?_
          have hext := hg.declare s
          rwa [hdeclare] at hext
        cases declaration with
        | error f => exact hdeclared.since flat
        | ok declared =>
            have hasked := hactions { m with globals := globals }
            have hsize : declared.fresh = true →
                m.globals.size < (actions { m with globals := globals }).globals.size := by
              intro hfresh
              have hgrown := (hasked.globals globals (.refl _)).size_le
              have hslot := Globals.size_declare hdeclare hfresh
              omega
            have hafter := (hdeclared.since true).trans hasked
            rw [Bool.true_and] at hafter
            dsimp only
            cases answer with
            | error f => exact hafter.giveUp hsize s
            | ok l =>
                dsimp only
                rw [compileDefinition_eq]
                cases hcode : (l.generateDefinition
                    (actions { m with globals := globals }).globals.slot? s).code with
                | error f => exact hafter.giveUp hsize s
                | ok is => exact hafter.grown (grown_extended _ "define" is)

theorem grown_collect (m : Machine) : m.Grown m.collect.2 := by
  rw [collect, whenOpen]
  split
  · exact .refl m
  · exact m.evaluated_collectGarbage.grown

mutual

theorem since_perform : (a : Action) → (m : Machine) → Since a.flat m (a.perform m)
  | .declare s, m => (m.grown_declare s).since _
  | .define s first answer, m =>
      m.since_defineEntryWith s answer fun m => since_performAll first m
  | .compile l, m => (m.grown_compileEntry l).since _
  | .run entry, m => (m.grown_runEntry entry).since _
  | .collect, m => m.grown_collect.since _
  | .nested body keep, m => by
      have hbody := since_performAll body m.checkpoint.2
      obtain ⟨hcode, hglobals, _⟩ := hbody.rollback
      rw [Action.perform]
      dsimp only
      split
      · exact ⟨hbody.code, hbody.globals, hbody.handles, hbody.tidy, nofun, nofun⟩
      · refine ⟨?_, ?_, hbody.handles, hbody.tidy, nofun, nofun⟩
        · rewrite [hcode]
          exact List.prefix_refl _
        · rw [hglobals]
          exact fun _ h => h

/-- What actions do, one after the other. -/
theorem since_performAll :
    (as : List Action) → (m : Machine) →
      Since (Action.allFlat as) m (Action.performAll as m)
  | [], m => (Grown.refl m).since _
  | a :: rest, m => (since_perform a m).trans (since_performAll rest (a.perform m))

end

/-- Whatever a host does after a checkpoint, rolling back gives the code and the table of
globals of the checkpoint, and each object that these globals held is what it was if no
other checkpoint was taken. -/
theorem rollback_undoes (m : Machine) (actions : List Action) :
    let after := (Action.performAll actions m.checkpoint.2).rollback m.checkpoint.1
    after.code = m.code ∧ after.globals = m.globals ∧
      (Action.allFlat actions = true → m.heap.Tidy →
        ∀ (a : Nat) (c : Cell), m.heap.Reach m.globals.values a →
          m.heap.cells[a]? = some c → after.heap.cells[a]? = some c) := by
  obtain ⟨hcode, hglobals, hkeeps⟩ := (since_performAll actions m.checkpoint.2).rollback
  refine ⟨hcode, hglobals, fun hflat htidy a c hreach hcell => ?_⟩
  exact hkeeps hflat htidy a c (hreach.mono fun v hv => List.mem_append_right _ hv) hcell

/-- A definition that compiles. -/
theorem perform_define {m : Machine} {s : Symbol} {l : Lir} {is : List Instr}
    {declared : Globals.Declared} {globals : Globals} (hopen : m.closed = false)
    (hdeclare : m.globals.declare s = (.ok declared, globals))
    (hcode : (l.generateDefinition globals.slot? s).code = .ok is) :
    Action.perform (.define s [] (.ok l)) m =
      { m with globals := globals }.extended "define" is := by
  rw [Action.perform, defineEntryWith, hopen, if_neg Bool.false_ne_true, hdeclare]
  simp only [Action.performAll, compileDefinition_eq, hcode]
  rfl

/-- A machine with one global, a tuple of the number 1, and with code at offset 17 that
makes it the number 2. -/
def tupled : Machine :=
  Action.performAll
    [.define ⟨0, "g"⟩ [] (.ok (.block Lir.tupleKind [.int 1])),
      .define ⟨0, "g"⟩ [] (.ok (.int 2)), .run 0] (create 1 {})

theorem tupled_eq :
    tupled = Action.perform (.run 0)
      (({ create 1 {} with
          globals := ⟨#[{ symbol := ⟨0, "g"⟩ }], Std.ExtHashMap.insert ∅ ⟨0, "g"⟩ 0⟩ }.extended
        "define" [.int64 1, .push, .makeBlock 1, .setGlobal 0, .ret]).extended
        "define" [.int64 2, .setGlobal 0, .ret]) := by
  have hnew : ({} : Globals).slot? ⟨0, "g"⟩ = none := by simp [Globals.slot?]
  have hold : Globals.slot? ⟨#[{ symbol := ⟨0, "g"⟩ }], Std.ExtHashMap.insert ∅ ⟨0, "g"⟩ 0⟩
      ⟨0, "g"⟩ = some 0 := by
    simp [Globals.slot?]
  have hfirst : (create 1 {}).globals.declare ⟨0, "g"⟩ =
      (.ok ⟨0, true⟩,
        ⟨#[{ symbol := ⟨0, "g"⟩ }], Std.ExtHashMap.insert ∅ ⟨0, "g"⟩ 0⟩) := by
    change Globals.declare {} _ = _
    rw [Globals.declare, hnew]
    rfl
  have hsecond : Globals.declare
      ⟨#[{ symbol := ⟨0, "g"⟩ }], Std.ExtHashMap.insert ∅ ⟨0, "g"⟩ 0⟩ ⟨0, "g"⟩ =
      (.ok ⟨0, false⟩,
        ⟨#[{ symbol := ⟨0, "g"⟩ }], Std.ExtHashMap.insert ∅ ⟨0, "g"⟩ 0⟩) := by
    rw [Globals.declare, hold]
  rw [tupled, Action.performAll, perform_define rfl hfirst
    (by rw [Lir.generateDefinition, hold]; rfl), Action.performAll,
    perform_define rfl hsecond (by rw [Lir.generateDefinition, hold]; rfl)]
  rfl

/-- The tuple comes back if the global was made a number and the heap was collected. -/
theorem rollback_undoes_assignment :
    ((Action.performAll [.run 17, .collect] tupled.checkpoint.2).rollback
      tupled.checkpoint.1).heap.cells[1]? =
        some { tag := .tuple, fields := #[.int 1] } := by
  refine (rollback_undoes tupled [.run 17, .collect]).2.2 rfl ?_ 1 _ ?_ ?_
  · exact (since_performAll _ (create 1 {})).tidy Heap.tidy_empty
  · refine .root (v := .ref .tuple 1) ?_ rfl
    rw [tupled_eq]
    decide +kernel
  · rw [tupled_eq]
    decide +kernel

/-- With a checkpoint taken and closed before, the collection releases the tuple that the
global refers to again after the rollback. -/
theorem rollback_after_nested_frees :
    let after := (Action.performAll [.nested [] true, .run 17, .collect]
      tupled.checkpoint.2).rollback tupled.checkpoint.1
    tupled.globals.values = [.ref .tuple 1] ∧
      tupled.heap.cells[1]? = some { tag := .tuple, fields := #[.int 1] } ∧
      after.globals.values = [.ref .tuple 1] ∧
      after.heap.cells[1]? = some Cell.poisoned := by
  have hvalues : tupled.globals.values = [.ref .tuple 1] := by
    rw [tupled_eq]
    decide +kernel
  have hcell : tupled.heap.cells[1]? = some { tag := .tuple, fields := #[.int 1] } := by
    rw [tupled_eq]
    decide +kernel
  have hsince := since_performAll [.nested [] true, .run 17, .collect] tupled.checkpoint.2
  refine ⟨hvalues, hcell, ?_, ?_⟩
  · rw [hsince.rollback.2.1]
    exact hvalues
  · -- nothing but numbers is in use when the heap is collected
    let last := Action.performAll [.nested [] true, .run 17] tupled.checkpoint.2
    have htidy : last.heap.Tidy := (since_performAll _ _).tidy
      ((since_performAll _ (create 1 {})).tidy Heap.tidy_empty)
    have hlast : last.closed = false ∧ (last.roots.all fun v => v.address?.isNone) = true ∧
        last.heap.cells[1]? = some { tag := .tuple, fields := #[.int 1] } := by
      simp only [last]
      rw [tupled_eq]
      decide +kernel
    obtain ⟨hopen, hroots, hkept⟩ := hlast
    have hidle : ∀ v ∈ last.roots, v.address? = none := by simpa using hroots
    have hfreed := htidy.collect_idle hidle hkept
    change last.collect.2.heap.cells[1]? = _
    rw [collect, whenOpen, hopen, if_neg Bool.false_ne_true]
    exact hfreed

end Machine

end Zinc
