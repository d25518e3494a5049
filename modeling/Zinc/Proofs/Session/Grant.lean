import Zinc.Proofs.Handle
import Zinc.Proofs.Machine.Carried
import Zinc.Proofs.Session.Fenced

/-!
Which closures have been granted a global.  The only grant that a host comes by is the one
of the closure that a definition answers with.  Compiling an expression makes a closure
without a grant; loading a program runs its definitions itself and hands out the value of
its main expression alone.
-/

namespace Zinc

namespace Machine

variable {grant : Nat → UInt16 → Prop} {vs : List Value} {m : Machine} {v : Value}

theorem Fenced.addHandle (h : Fenced grant vs m) (hv : v ∈ m.handles.values ++ vs) :
    Fenced grant [] (m.addHandle v).2 := by
  rw [Machine.addHandle]
  split
  · exact h.drop fun _ hw => absurd hw List.not_mem_nil
  · rename_i handles hadd
    refine h.keep (List.prefix_refl _) (.refl _) (fun _ hg => .inl hg) fun w hw => ?_
    rw [List.append_nil] at hw
    rcases Congruence.mem_values_add hadd hw with hold | rfl
    · exact List.mem_append_left _ hold
    · exact hv

theorem Fenced.newHandle (h : Fenced grant vs m) (hv : v ∈ m.handles.values ++ vs) :
    Fenced grant [] (m.newHandle v).2 := by
  rw [Machine.newHandle, whenOpen]
  split
  · exact h.drop fun _ hw => absurd hw List.not_mem_nil
  · exact h.addHandle hv

/-- An address that the heap has not given out has no grant. -/
theorem Fenced.not_granted (h : Fenced grant vs m) (k : UInt16) :
    ¬ grant m.heap.cells.size k := by
  obtain ⟨z, hz, _⟩ := h
  exact fun hk => Nat.lt_irrefl _ (hz.fit.granted _ _ hk)

theorem Fenced.compile (h : Fenced grant [] m) (hsound : m.Sound) (e : Expr) :
    Fenced grant [] (m.compile e).2 := by
  rw [Machine.compile]
  split
  · exact h
  · rename_i l _
    rw [compileLir, whenFramed, whenOpen]
    split
    · exact h
    · split
      · exact h
      · rcases m.compileEntry_cases l with ⟨tree, f, heq⟩ | ⟨tree, is, _, hcode, heq⟩
        · rw [heq]
          exact h
        · rw [heq]
          have hextended := h.extended "compile" is
          have hacts := acts_extended hsound.laid "compile" (Lir.generateEntry_effect hcode)
          refine Fenced.addHandle (hextended.alloc (fun _ _ hk => hk) (fun _ _ => .inl) ?_)
            (List.mem_append_right _ List.mem_cons_self)
          exact .inl ⟨hextended.not_granted, hacts⟩

/-- A grant, next to older ones. -/
def granting (grant : Nat → UInt16 → Prop) (a i : Nat) (b : Nat) (k : UInt16) : Prop :=
  grant b k ∨ b = a ∧ k = UInt16.ofNat i

/-- The closure that a definition answers with is granted its global; a definition that is
refused makes no grant. -/
theorem Fenced.define (h : Fenced grant [] m) (hsound : m.Sound) (s : Symbol) (e : Expr) :
    (∀ f, (m.define s e).1 = .error f → Fenced grant [] (m.define s e).2) ∧
      ∀ fn, (m.define s e).1 = .ok fn →
        ∃ i, (m.define s e).2.globals.slot? s = some i ∧
          (m.define s e).2.handles.get fn = .ok (.ref .closure m.heap.cells.size) ∧
          (m.define s e).2.heap.cells.size = m.heap.cells.size + 1 ∧
          Fenced (granting grant m.heap.cells.size i) [] (m.define s e).2 := by
  have hrefused {f : Fault} : (∀ g, (Except.error f : Except Fault Handle) = .error g →
      Fenced grant [] m) ∧ ∀ fn, (Except.error f : Except Fault Handle) = .ok fn →
        ∃ i, m.globals.slot? s = some i ∧
          m.handles.get fn = .ok (.ref .closure m.heap.cells.size) ∧
          m.heap.cells.size = m.heap.cells.size + 1 ∧
          Fenced (granting grant m.heap.cells.size i) [] m :=
    ⟨fun _ _ => h, fun _ hfn => by cases hfn⟩
  rw [Machine.define, whenFramed, whenOpen]
  split
  · exact hrefused
  · split
    · exact hrefused
    · rw [defineExpr]
      rcases m.defineEntryWith_cases s id fun m => Lir.lower m.globals.isDeclared e with
        ⟨tree, f, heq⟩ | ⟨declared, globals, l, tree, is, _, hdeclare, _, hcode, heq⟩
      · rw [heq]
        exact hrefused
      · rw [heq]
        obtain ⟨i, hslot, heffect⟩ := Lir.generateDefinition_effect hcode
        have hdeclared := h.declare s
        rw [hdeclare] at hdeclared
        have hextended := hdeclared.extended "define" is
        have hacts := acts_extended (m := { m with globals := globals }) hsound.laid "define"
          heffect
        have hheap := heap_extended { m with globals := globals } "define" is
        have hglobals := globals_extended { m with globals := globals } "define" is
        generalize { m with globals := globals }.extended "define" is = next at *
        have hgranted : Fenced (granting grant m.heap.cells.size i)
            [(next.topClosure m.code.size).1] (next.topClosure m.code.size).2 := by
          refine hextended.alloc (fun _ _ => .inl) (fun a k hk => ?_) (.inr ⟨rfl, ?_, ?_⟩)
          · rw [hheap]
            exact hk.imp_right And.left
          · rw [hheap]
            exact ⟨_, .inr ⟨rfl, rfl⟩⟩
          · rw [hheap]
            rintro k (hk | ⟨_, rfl⟩)
            · exact absurd hk (h.not_granted k)
            · exact hacts
        have hsize : (next.topClosure m.code.size).2.heap.cells.size = m.heap.cells.size + 1 := by
          rw [← hheap]
          exact Heap.size_alloc _ _ _
        have hrooted := hgranted.addHandle (List.mem_append_right _ List.mem_cons_self)
        dsimp only [Machine.entryHandle]
        unfold Machine.addHandle at hrooted ⊢
        split
        · -- the closure is lost when there is no room for a handle
          refine ⟨fun _ _ => ?_, fun _ hfn => by cases hfn⟩
          exact hextended.keep (List.prefix_refl _) (Heap.Grows.alloc _ _ (.refl _)).fades
            (fun _ hg => .inl hg) fun _ hv => hv
        · rename_i fn handles hadd
          rw [hadd] at hrooted
          refine ⟨fun _ hf => (by cases hf), fun _ hfn => ?_⟩
          cases hfn
          refine ⟨i, ?_, ?_, hsize, hrooted⟩
          · change next.globals.slot? s = some i
            rw [hglobals]
            exact hslot
          · rw [HandleStack.get_add hadd, ← hheap]
            rfl

/-- An open machine is fenced. -/
def Sheltered (grant : Nat → UInt16 → Prop) (m : Machine) : Prop :=
  m.closed = false → Fenced grant [] m

variable {m' : Machine}

theorem Sheltered.keep (h : Sheltered grant m) (hclosed : m'.closed = m.closed)
    (hkeep : Fenced grant [] m → Fenced grant [] m') : Sheltered grant m' :=
  fun hopen => hkeep (h (hclosed ▸ hopen))

end Machine

open Machine (Sheltered Fenced Stable Fresh)

variable {grant : Nat → UInt16 → Prop} {start : Machine}

namespace ProgramUnit

theorem lower_sheltered (u : ProgramUnit) {m : Machine} (h : Sheltered grant m) :
    Sheltered grant (u.lower m).2.2 := by
  refine h.keep (lower_grown u m).closed fun hfenced => ?_
  obtain ⟨name, pos, body, lir, entry⟩ := u
  cases name with
  | none =>
      rw [lower]
      dsimp only
      split <;> exact hfenced
  | some s =>
      have hdeclared : Fenced grant [] (m.declare s).2 := by
        rw [Machine.declare, Machine.whenOpen]
        split
        · exact hfenced
        · exact hfenced.declare s
      rw [lower]
      dsimp only
      split
      · exact hdeclared
      · split <;> exact hdeclared

theorem compile_sheltered (u : ProgramUnit) {m : Machine} (h : Sheltered grant m) :
    Sheltered grant (u.compile m).2.2 := by
  refine h.keep (compile_grown u m).closed fun hfenced => ?_
  obtain ⟨name, pos, body, lir, entry⟩ := u
  cases name with
  | none =>
      have hcompiled : Fenced grant [] (m.compileEntry (lir.getD .missing)).2 := by
        rcases m.compileEntry_cases (lir.getD .missing) with ⟨_, _, heq⟩ | ⟨_, is, _, _, heq⟩
        · rw [heq]
          exact hfenced
        · rw [heq]
          exact hfenced.extended _ is
      rw [compile]
      dsimp only
      split <;> exact hcompiled
  | some s =>
      have hdefined : Fenced grant [] (m.defineEntry s (lir.getD .missing)).2 := by
        rw [Machine.defineEntry]
        rcases m.defineEntryWith_cases s id fun _ => .ok (lir.getD .missing) with
          ⟨_, _, heq⟩ | ⟨_, globals, _, _, is, _, hdeclare, _, _, heq⟩
        · rw [heq]
          exact hfenced
        · rw [heq]
          have hdeclared := hfenced.declare s
          rw [hdeclare] at hdeclared
          exact hdeclared.extended _ is
      rw [compile]
      dsimp only
      split <;> exact hdefined

/-- The closure of a definition is gone once it has been run, and what the main expression
returns leads to nothing that assigns without a grant. -/
theorem evaluate_sheltered (u : ProgramUnit) (result : Option Handle) {m : Machine}
    (hstable : Stable [] m) (h : Sheltered grant m) (hready : Ready (Fresh start) m u) :
    Sheltered grant (u.evaluate (result, m)).2.2.2 := by
  obtain ⟨hentry, ⟨w, hacts⟩, _⟩ := hready
  have hclosed := (m.grown_runEntry u.entry).closed
  have hrun (hopen : m.closed = false) :=
    (h hopen).runEntry (hstable.sound hopen) hentry hacts
  rw [evaluate]
  split
  · rename_i f after heq
    rw [heq] at hclosed hrun
    exact fun hopen => hrun (hclosed ▸ hopen)
  · rename_i v after heq
    rw [heq] at hclosed hrun
    have hrun (hopen : after.closed = false) : Fenced grant [v] after :=
      hrun (hclosed ▸ hopen)
    split
    · exact fun hopen => (hrun hopen).drop fun _ hv => absurd hv List.not_mem_nil
    · have hrooted : Sheltered grant (after.newHandle v).2 := fun hopen => by
        rw [Machine.newHandle_closed] at hopen
        exact (hrun hopen).newHandle (List.mem_append_right _ List.mem_cons_self)
      split
      · rename_i hnew
        rwa [hnew] at hrooted
      · rename_i hnew
        rwa [hnew] at hrooted

end ProgramUnit

namespace Loading

/-- Loading has failed, or its machine is sheltered. -/
def Sheltered (grant : Nat → UInt16 → Prop) (l : Loading) : Prop :=
  l.failure = none → l.machine.Sheltered grant

variable {l : Loading}

theorem failure_fail (l : Loading) (f : Failure) : (l.fail f).failure = some f := by
  rw [Loading.fail]
  split <;> rfl

theorem Sheltered.settle (h : l.machine.Sheltered grant) (failure : Option Failure) :
    (l.settle failure).Sheltered grant := by
  cases failure with
  | none => exact fun _ => h
  | some f =>
      intro hnone
      rw [Loading.settle, failure_fail] at hnone
      cases hnone

theorem each_sheltered {step : ProgramUnit → Machine → Option Fault × ProgramUnit × Machine}
    (hstep : ∀ u m, m.Sheltered grant → (step u m).2.2.Sheltered grant)
    (units : List ProgramUnit) {m : Machine} (h : m.Sheltered grant) :
    (ProgramUnit.each step units m).2.2.Sheltered grant :=
  ProgramUnit.each_preserves (R := fun m m' => m.Sheltered grant → m'.Sheltered grant)
    (fun _ h => h) (fun hfirst hsecond h => hsecond (hfirst h)) hstep units m h

/-- Nothing is run before the last stage. -/
theorem Sheltered.stage [Yaml.Parser] (h : l.Sheltered grant) {s : Stage} (hs : s ≠ .evaluate) :
    (l.stage s).Sheltered grant := by
  cases hfailure : l.failure with
  | some f =>
      rw [stage_of_failed (by rw [hfailure]; rfl)]
      exact h
  | none =>
      have hmachine := h hfailure
      rw [stage_of_going hfailure]
      cases s with
      | decode =>
          dsimp only [Loading.decode]
          split
          · intro hnone
            rw [failure_fail] at hnone
            cases hnone
          · refine fun _ => hmachine.keep rfl fun hfenced => ?_
            exact hfenced.keep (List.prefix_refl _) (.refl _) (fun _ hg => .inl hg)
              fun _ hv => hv
      | lower =>
          exact .settle (each_sheltered (fun u _ => u.lower_sheltered) _ hmachine) _
      | compile =>
          exact .settle (each_sheltered (fun u _ => u.compile_sheltered) _ hmachine) _
      | evaluate => exact absurd rfl hs

/-- A program that loads leaves the machine fenced as it was. -/
theorem sheltered_all [Yaml.Parser] (hgrant : ∀ a k, grant a k → a < start.heap.cells.size)
    (hstable : Stable [] start) (hregs : start.regs = {}) (h : start.Sheltered grant)
    (path : String) (source : ByteArray) (symbols : SymbolTable) :
    (run { path, source, symbols, machine := start } Stage.all).Sheltered grant := by
  have hR := Machine.keeping_congruence hgrant
  obtain ⟨hcovered, ⟨_, _, _, hkeeping⟩, hready⟩ := paired_compiled
    hR ⟨rfl, .refl hstable hregs h⟩ path source symbols
  have hdecoded : (stage { path, source, symbols, machine := start } .decode).Sheltered grant :=
    Sheltered.stage (fun _ => h) (fun heq => by cases heq)
  have hcompiled : (run { path, source, symbols, machine := start }
      [.decode, .lower, .compile]).Sheltered grant :=
    (hdecoded.stage (s := .lower) fun heq => by cases heq).stage (s := .compile)
      fun heq => by cases heq
  change ((run { path, source, symbols, machine := start }
    [.decode, .lower, .compile]).stage .evaluate).Sheltered grant
  generalize run { path, source, symbols, machine := start } [.decode, .lower, .compile] = l
    at *
  rcases hcovered with hgoing | ⟨hfailed, _⟩
  · rw [stage_of_going hgoing.failure]
    have hmachine := hcompiled hgoing.failure
    -- the machine stays stable, and fenced
    obtain ⟨⟨_, _, _, _, hsheltered⟩, _⟩ := ProgramUnit.each_alongside
      (Q := fun s s' : Option Handle × Machine =>
        s' = s ∧ Stable [] s.2 ∧ s.2.Sheltered grant)
      (fun s => ProgramUnit.Ready (Fresh start) s.2) (fun _ _ => True)
      (fun u s _ hv => hv.evaluate hR u s) (fun _ _ _ _ => trivial)
      (fun u s s' hs hu => by
        obtain ⟨result, m⟩ := s
        obtain ⟨rfl, hstable, hmachine⟩ := hs
        have hnext := ProgramUnit.evaluate_alongside Machine.inOrder_congruence u result m m
          ⟨rfl, hstable⟩ hu.1
        exact ⟨⟨rfl, rfl, rfl, hnext.state.2.2,
          ProgramUnit.evaluate_sheltered u result hstable hmachine hu⟩, fun _ => trivial⟩)
      l.units (l.result, l.machine) (l.result, l.machine)
      ⟨rfl, hkeeping.stable, hmachine⟩ (hready hgoing.failure)
    dsimp only [Loading.evaluate]
    generalize ProgramUnit.each ProgramUnit.evaluate l.units (l.result, l.machine) = r at *
    obtain ⟨failure, units, result, after⟩ := r
    cases failure with
    | some f =>
        intro hnone
        rw [failure_fail] at hnone
        cases hnone
    | none =>
        dsimp only
        rw [hgoing.checkpoint]
        refine fun _ => hsheltered.keep rfl fun hfenced => ?_
        exact hfenced.keep (List.prefix_refl _) (.refl _) (fun _ hg => .inl hg) fun _ hv => hv
  · rw [stage_of_failed hfailed]
    exact hcompiled

end Loading

end Zinc
