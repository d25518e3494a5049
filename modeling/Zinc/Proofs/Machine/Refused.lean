import Zinc.Proofs.Handle
import Zinc.Proofs.Machine.Compile

/-!
What a refused compilation leaves behind.  A global is declared, an expression lowered,
its code appended and a handle issued, and any of these steps can fail.  Whatever fails
before the code is complete leaves the machine as it was.  The one exception is the last
step: if the innermost frame has no room for the handle, the older code, globals and
handles are all still there, but so are the new code and the new global.
-/

namespace Zinc

/-- The innermost frame is there and has no room for another handle. -/
def HandleStack.Full (s : HandleStack) : Prop :=
  ∃ f, s.frames.back? = some f ∧ handlesPerFrame ≤ f.slots.size

/-- Where a frame is open, only a full frame keeps a value from being rooted that a host
may see. -/
theorem HandleStack.add_eq_error {s : HandleStack} {v : Value} {f : Fault}
    (hopen : s.depth ≠ 0) (hpublic : v.kind.isPublic = true) (h : s.add v = .error f) :
    f = frameFull ∧ s.Full := by
  rw [add, hpublic] at h
  cases hback : s.frames.back? with
  | none =>
      rw [Array.back?_eq_none_iff] at hback
      simp [depth, hback] at hopen
  | some frame =>
      rw [hback, if_neg (by simp)] at h
      dsimp only at h
      split at h
      · rename_i hfull
        cases h
        exact ⟨rfl, frame, hback, hfull⟩
      · cases h

namespace Machine

/-- A machine to which code and globals may have been added, with the same handles. -/
structure Added (m m' : Machine) : Prop where
  handles : m'.handles = m.handles
  code : m.code.bytes.toList <+: m'.code.bytes.toList
  globals : m.globals.Extends m'.globals

/-- A request that is refused leaves the machine as it was, unless there was no room for
its handle. -/
def AllOrNothing (m : Machine) (r : Reply Handle) : Prop :=
  ∀ f, r.1 = .error f →
    r.2 = m ∨ (f = HandleStack.frameFull ∧ m.handles.Full ∧ Added m r.2)

variable {m : Machine}

theorem AllOrNothing.refuse (m : Machine) (f : Fault) : AllOrNothing m (.error f, m) :=
  fun _ _ => Or.inl rfl

theorem allOrNothing_whenFramed (op : String) {k : Machine → Reply Handle}
    (hk : m.handles.depth ≠ 0 → AllOrNothing m (k m)) :
    AllOrNothing m (m.whenFramed op k) := by
  rw [whenFramed, whenOpen]
  split
  · exact .refuse m _
  · split
    · exact .refuse m _
    · rename_i hdepth
      exact hk hdepth

theorem addHandle_eq_error {v : Value} {f : Fault} (h : (m.addHandle v).1 = .error f) :
    m.handles.add v = .error f ∧ (m.addHandle v).2 = m := by
  unfold addHandle at h ⊢
  split at h
  · rename_i hadd
    cases h
    rw [hadd]
    exact ⟨rfl, rfl⟩
  · cases h

theorem added_extended {globals : Globals} (hglobals : m.globals.Extends globals)
    (op : String) (is : List Instr) :
    Added m ({ m with globals := globals }.extended op is) := by
  refine ⟨handles_extended _ _ _, ?_, ?_⟩
  · rw [code_extended, Code.toList_append]
    exact List.prefix_append _ _
  · rw [globals_extended]
    exact hglobals

/-- The last step: a handle for a unit that has been compiled. -/
theorem allOrNothing_entryHandle {m' : Machine} (hopen : m.handles.depth ≠ 0)
    (hadded : Added m m') (entry : Nat) : AllOrNothing m (m'.entryHandle entry) := by
  intro f herror
  obtain ⟨hadd, hsame⟩ := addHandle_eq_error herror
  change m'.handles.add _ = _ at hadd
  rw [hadded.handles] at hadd
  obtain ⟨rfl, hfull⟩ := HandleStack.add_eq_error hopen rfl hadd
  have hafter : (m'.entryHandle entry).2 = (m'.topClosure entry).2 := hsame
  rw [hafter]
  exact Or.inr ⟨rfl, hfull, hadded.handles, hadded.code, hadded.globals⟩

theorem allOrNothing_compileLir (m : Machine) (l : Lir) :
    AllOrNothing m (m.compileLir l) := by
  refine allOrNothing_whenFramed _ fun hopen => ?_
  rcases m.compileEntry_cases l with ⟨tree, f, hentry⟩ | ⟨tree, is, _, _, hentry⟩
  · rw [hentry]
    exact .refuse m f
  · rw [hentry]
    exact allOrNothing_entryHandle hopen (added_extended (.refl _) _ _) _

theorem allOrNothing_compile (m : Machine) (e : Expr) : AllOrNothing m (m.compile e) := by
  rw [compile]
  split
  · exact .refuse m _
  · exact m.allOrNothing_compileLir _

theorem allOrNothing_define (m : Machine) (s : Symbol) (e : Expr) :
    AllOrNothing m (m.define s e) := by
  refine allOrNothing_whenFramed _ fun hopen => ?_
  rw [defineExpr]
  rcases m.defineEntryWith_cases s id (fun m => Lir.lower m.globals.isDeclared e) with
    ⟨tree, f, hentry⟩ | ⟨declared, globals, l, tree, is, _, hdeclare, _, _, hentry⟩
  · rw [hentry]
    exact .refuse m f
  · have hglobals := (Globals.Extends.refl m.globals).declare s
    rw [hdeclare] at hglobals
    rw [hentry]
    exact allOrNothing_entryHandle hopen (added_extended hglobals _ _) _

/-- Compiling an expression, lowered or not, and defining a global are all or nothing: when
one of them is refused, the whole machine is what it was, its code, its globals with their
index and its handles included.  Only a frame that is full when all else has been done is
found out too late. -/
theorem compiling_all_or_nothing (m : Machine) (s : Symbol) (e : Expr) (l : Lir) :
    AllOrNothing m (m.compile e) ∧ AllOrNothing m (m.compileLir l) ∧
      AllOrNothing m (m.define s e) :=
  ⟨m.allOrNothing_compile e, m.allOrNothing_compileLir l, m.allOrNothing_define s e⟩

/-- A machine with one frame and as many handles in it as it can hold. -/
def crowded : Machine :=
  Nat.repeat (fun m => (m.newHandle (.int 0)).2) handlesPerFrame (create 1 {}).pushFrame.2

/-- A definition that finds the frame full is refused, but its global stays declared and
its code stays in the machine. -/
theorem define_when_crowded :
    let r := crowded.define ⟨0, "g"⟩ (.int {} 1)
    r.1 = .error HandleStack.frameFull ∧
      crowded.globals.isDeclared ⟨0, "g"⟩ = false ∧ r.2.globals.isDeclared ⟨0, "g"⟩ = true ∧
      crowded.code.size = 0 ∧ r.2.code.size = 13 := by
  intro r
  let declared : Globals :=
    { entries := #[{ symbol := ⟨0, "g"⟩ }]
      index := (∅ : Std.ExtHashMap Symbol Nat).insert ⟨0, "g"⟩ 0 }
  have hdeclare : crowded.globals.declare ⟨0, "g"⟩ = (.ok ⟨0, true⟩, declared) := by
    have hslot : ({} : Globals).slot? ⟨0, "g"⟩ = none := by simp [Globals.slot?]
    change ({} : Globals).declare ⟨0, "g"⟩ = _
    rw [Globals.declare, hslot]
    rfl
  have hgenerated : (Lir.int 1).generateDefinition declared.slot? ⟨0, "g"⟩ =
      ⟨.int 1, .ok [.int64 1, .setGlobal 0, .ret]⟩ := by
    have hslot : declared.slot? ⟨0, "g"⟩ = some 0 := by simp [declared, Globals.slot?]
    rw [Lir.generateDefinition, hslot]
    rfl
  have hentry : crowded.defineExpr ⟨0, "g"⟩ (.int {} 1) =
      (some (.int 1), .ok 0, { crowded with globals := declared }.extended "define"
        [.int64 1, .setGlobal 0, .ret]) := by
    rw [defineExpr, defineEntryWith, if_neg (by decide), hdeclare]
    simp only [Lir.lower, Lir.lowerFrom, Except.map]
    rw [compileDefinition_eq, hgenerated]
    rfl
  have hr : r = ({ crowded with globals := declared }.extended "define"
      [.int64 1, .setGlobal 0, .ret]).entryHandle 0 := by
    simp only [r, define, whenFramed, whenOpen]
    rw [if_neg (by decide), if_neg (by decide), hentry]
  rw [hr]
  refine ⟨rfl, ?_, ?_, rfl, rfl⟩
  · change ({} : Globals).isDeclared ⟨0, "g"⟩ = false
    simp [Globals.isDeclared]
  · change declared.isDeclared ⟨0, "g"⟩ = true
    simp [declared, Globals.isDeclared]

end Machine

end Zinc
