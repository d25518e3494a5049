import Zinc.Proofs.Session.Idle
import Zinc.Proofs.Session.Twin
import Zinc.Yaml.Parser

/-!
Loading a program stage by stage agrees with taking its units all the way one by one.  Both
do the same on machines that are alike, and every machine is alike to one that does not
collect; there the two ways of loading agree.
-/

namespace Zinc

namespace ProgramUnit

variable {E : Code → Globals → Int → Prop} {R : List Value → Machine → Machine → Prop}
  {m m' : Machine}

theorem install_alongside (hR : Machine.Congruence E R) (h : R [] m m') (u : ProgramUnit) :
    Machine.Congruence.Compiles E R [] (u.install m) (u.install m') := by
  obtain ⟨name, pos, body, lir, entry⟩ := u
  cases name with
  | some s =>
      exact (hR.defineEntryWith h s id (fun m => Lir.lower m.globals.isDeclared body)
        fun _ _ h => by rw [hR.globals h]).2
  | none =>
      unfold install
      dsimp only
      rw [hR.lower h]
      cases m.lower body with
      | error f => exact .fail h f
      | ok l => exact (hR.compileEntry h l).2

theorem finish_alongside (hR : Machine.Congruence E R) (h : R [] m m') {e : Int}
    (hentry : E m.code m.globals e) (u : ProgramUnit) (result : Option Handle) :
    Machine.Linked R Machine.nothing (u.finish result e m) (u.finish result e m') := by
  unfold finish
  rcases (hR.runEntry h hentry).cases with ⟨f, _, _, hr, hr', hafter⟩ |
    ⟨v, _, _, hr, hr', hafter⟩
  · rw [hr, hr']
    exact hR.refuse hafter f
  · rw [hr, hr']
    dsimp only
    split
    · exact Machine.Congruence.give (hR.clear hafter)
    · rcases (hR.newHandle hafter List.mem_cons_self).cases with
        ⟨f, _, _, hs, hs', hdone⟩ | ⟨handle, _, _, hs, hs', hdone⟩
      · rw [hs, hs']
        exact hR.refuse hdone f
      · rw [hs, hs']
        exact Machine.Congruence.give hdone

/-- Units that are taken all the way one by one do the same on related machines. -/
theorem processAll_alongside (hR : Machine.Congruence E R) (h : R [] m m')
    (units : List ProgramUnit) (result : Option Handle) :
    Machine.Linked R Machine.nothing (processAll units result m)
      (processAll units result m') := by
  induction units generalizing m m' result with
  | nil => exact Machine.Congruence.give h
  | cons u rest ih =>
      rw [processAll, processAll, process, process]
      obtain ⟨hanswer, hmachine, hentry⟩ := install_alongside hR h u
      generalize u.install m = r at *
      generalize u.install m' = r' at *
      obtain ⟨answer, after⟩ := r
      obtain ⟨answer', after'⟩ := r'
      dsimp only at hanswer hmachine hentry
      subst hanswer
      cases answer' with
      | error f => exact hR.refuse hmachine f
      | ok e =>
          have hfinish := finish_alongside hR hmachine (hentry e rfl).2 u result
          rcases hfinish.cases with ⟨f, _, _, hs, hs', hdone⟩ | ⟨result', _, _, hs, hs', hdone⟩
          · dsimp only
            rw [hs, hs']
            exact hR.refuse hdone f
          · dsimp only
            rw [hs, hs']
            exact ih hdone result'

end ProgramUnit

namespace Loading

/-- Loading stage by stage does the same on related machines. -/
theorem paired_begun [Yaml.Parser] {E : Code → Globals → Int → Prop}
    {R : List Value → Machine → Machine → Prop} (hR : Machine.Congruence E R)
    {start start' : Machine} (h : R [] start start') {units : List ProgramUnit}
    (hordered : ProgramUnit.Ordered units) (path : String) (source : ByteArray)
    (symbols : SymbolTable) :
    Paired R (run (begun path source symbols start units) [.lower, .compile, .evaluate])
      (run (begun path source symbols start' units) [.lower, .compile, .evaluate]) := by
  have hbegun : Paired R (begun path source symbols start units)
      (begun path source symbols start' units) := by
    have hsame : start'.checkpoint.1 = start.checkpoint.1 := by
      rw [Machine.checkpoint, Machine.checkpoint, hR.code h, hR.globals h]
    unfold begun
    rw [hsame]
    exact .ofParts (hR.checkpoint h) _ _ _ _
  have hundo : Undoable start (begun path source symbols start units) :=
    ⟨rfl, rfl, .refl _, hordered⟩
  have hlower := hundo.paired_lower hR h hbegun
  rw [run_begun, run_begun]
  rcases hundo.lower with hgoing | ⟨hfailed, _⟩
  · obtain ⟨hcompile, hready⟩ := hgoing.paired_compile hR h hlower
    rcases hgoing.compile with hgoing | ⟨hfailed, _⟩
    · exact hgoing.paired_evaluate hR h hcompile (hready hgoing.failure)
    · exact hcompile.stage_of_failed hfailed .evaluate
  · have hcompile := hlower.stage_of_failed hfailed .compile
    refine hcompile.stage_of_failed ?_ .evaluate
    rw [stage_of_failed hfailed]
    exact hfailed

end Loading

theorem Heap.Agree.symm {S : Nat → Prop} {h h' : Heap} (hagree : h.Agree S h') :
    h'.Agree S h where
  size := hagree.size.symm
  cell a ha := (hagree.cell a ha).symm
  bound a ha := by
    rw [hagree.size]
    exact hagree.bound a ha
  closed a ha v hv := by
    rw [hagree.fields ha] at hv
    exact hagree.closed a ha v hv
  left := hagree.right
  right := hagree.left

/-- What handles and globals refer to lies where two machines that are alike agree. -/
theorem Machine.Twins.agree {vs : List Value} {m m' : Machine} (h : Twins vs m m') :
    ∃ S, m.heap.Agree S m'.heap ∧
      ∀ v ∈ m.handles.values ++ m.globals.values, v.Within S := by
  obtain ⟨S, heap, t, log, htwin, _, rfl⟩ := h
  refine ⟨S, htwin.heap, fun v hv => htwin.roots v ?_⟩
  rw [Machine.roots]
  simp only [List.mem_cons, List.mem_append] at hv ⊢
  rcases hv with hv | hv
  · exact Or.inr (Or.inr (Or.inr (Or.inr (Or.inl hv))))
  · exact Or.inr (Or.inr (Or.inr (Or.inr (Or.inr (Or.inl hv)))))

/-- Machines that are alike to machines with the same heap have the same objects behind
their handles and globals. -/
theorem Machine.Twins.cells_eq {vs ws : List Value} {m m' n n' : Machine}
    (h : Twins vs m m') (h' : Twins ws n n') (hheap : n'.heap = m'.heap)
    (hhandles : n.handles = m.handles) (hglobals : n.globals = m.globals) {a : Nat}
    (ha : m.heap.Reach (m.handles.values ++ m.globals.values) a) :
    n.heap.cells[a]? = m.heap.cells[a]? := by
  obtain ⟨S, hagree, hroots⟩ := h.agree
  obtain ⟨S', hagree', hroots'⟩ := h'.agree
  rw [hheap] at hagree'
  rw [hhandles, hglobals] at hroots'
  have hS' : S' a := hagree'.symm.reach_subset hroots' (hagree.reach hroots ha)
  rw [← hagree'.cell a hS', hagree.cell a (hagree.reach_subset hroots ha)]

namespace Machine

variable {m : Machine}

/-- The machine with collections turned off. -/
def idling (m : Machine) : Machine :=
  m.atop m.heap (some 0) m.log

theorem idle_idling (m : Machine) : m.idling.Idle :=
  Int.le_refl _

theorem Stable.idling (h : Stable [] m) : Stable [] m.idling := by
  refine ⟨fun hopen => ?_, h.inHand, h.empty⟩
  obtain ⟨htidy, hlaid, hindex, hhandles, hglobals⟩ := h.sound hopen
  exact ⟨htidy, hlaid, hindex, hhandles, hglobals⟩

theorem Twins.idling (h : Twins [] m m) : Twins [] m m.idling := by
  obtain ⟨S, heap, t, log, htwin, hvs, heq⟩ := h
  obtain rfl : heap = m.heap := (congrArg Machine.heap heq).symm
  exact ⟨S, m.heap, some 0, m.log, htwin, hvs, rfl⟩

end Machine

namespace Session

/-- Loading a program stage by stage agrees with taking its units one by one, whatever a
host has asked for before and whatever document the program was decoded from.  One
succeeds if and only if the other does, and then both leave the same code, the same
globals and handles with the same objects behind them, and the same result. -/
theorem staged_agrees [Yaml.Parser] (owner : Nat) (limits : Limits) (logLevel : Option LogLevel)
    (watch : Option Watch) (horizon : Nat) (requests : List Request) (d : Document)
    (path : String) (source : ByteArray) (symbols : SymbolTable) :
    let m := ((fresh owner limits logLevel watch horizon).after requests).machine
    let staged := Loading.run (.begun path source symbols m (ProgramUnit.ofDocument d))
      [.lower, .compile, .evaluate]
    let direct := ProgramUnit.processAll (ProgramUnit.ofDocument d) none m
    (staged.failure = none ↔ ∃ r, direct.1 = .ok r) ∧
      ∀ r, direct.1 = .ok r →
        staged.result = r ∧
        staged.machine.code = direct.2.code ∧
        staged.machine.globals = direct.2.globals ∧
        staged.machine.handles = direct.2.handles ∧
        ∀ a, direct.2.heap.Reach (direct.2.handles.values ++ direct.2.globals.values) a →
          staged.machine.heap.cells[a]? = direct.2.heap.cells[a]? := by
  intro m staged direct
  have hR := Machine.twins_congruence
  have htwins : Machine.Twins [] m m :=
    ((twins_fresh owner limits logLevel watch horizon limits.threshold?
      limits.threshold?).after hR requests).2.machine
  have hstable : Machine.Stable [] m :=
    ((inOrder_fresh owner limits logLevel watch horizon).after
      Machine.inOrder_congruence requests).2.machine.2
  -- both ways of loading are compared on the machine that does not collect
  obtain ⟨stagedIdle, heq, hstaged⟩ := Loading.paired_begun hR htwins.idling
    (ProgramUnit.ordered_ofDocument d) path source symbols
  obtain ⟨hanswer, hdirect⟩ := ProgramUnit.processAll_alongside hR htwins.idling
    (ProgramUnit.ofDocument d) none
  have hagrees := Loading.begun_agrees m.idle_idling hstable.idling
    (ProgramUnit.ofDocument d) path source symbols
  rw [heq] at hagrees
  obtain ⟨hiff, hdone⟩ := hagrees.spelled
  rw [hanswer] at hiff hdone
  refine ⟨hiff, fun r hr => ?_⟩
  obtain ⟨hresult, saved, log, hmachine⟩ := hdone r hr
  have hmachine : stagedIdle = { (ProgramUnit.processAll (ProgramUnit.ofDocument d) none
      m.idling).2 with saved := saved, log := log } := hmachine
  have hcode : staged.machine.code = direct.2.code := by
    rw [← hR.code hdirect, ← hR.code hstaged, hmachine]
  have hglobals : staged.machine.globals = direct.2.globals := by
    rw [← hR.globals hdirect, ← hR.globals hstaged, hmachine]
  have hhandles : staged.machine.handles = direct.2.handles := by
    rw [← hR.handles hdirect, ← hR.handles hstaged, hmachine]
  refine ⟨hresult, hcode, hglobals, hhandles, fun a ha => ?_⟩
  exact hdirect.cells_eq hstaged (by rw [hmachine]) hhandles hglobals ha

/-- A machine that never collects and has the global `x` declared. -/
def declaring : Machine :=
  ((fresh 0 { threshold? := some 0 } none none 40).after [.declare "x"]).machine

/-- The global `x` is defined twice, as 1 and as 2, and then read. -/
def redefining : Document where
  defs := [⟨{}, ⟨0, "x"⟩, .int {} 1⟩, ⟨{}, ⟨0, "x"⟩, .int {} 2⟩]
  main := some (.global {} (some ⟨0, "x"⟩))

theorem globals_declaring : declaring.globals =
    { entries := #[{ symbol := ⟨0, "x"⟩ }]
      index := (∅ : Std.ExtHashMap Symbol Nat).insert ⟨0, "x"⟩ 0 } := by
  have hslot : ({} : Globals).slot? ⟨0, "x"⟩ = none := by simp [Globals.slot?]
  change (({} : Globals).declare ⟨0, "x"⟩).2 = _
  rw [Globals.declare, hslot]
  rfl

/-- Each unit of the program compiles when its turn has come, and the code gives a handle. -/
theorem redefining_compiles :
    ∃ lowered placed bytes,
      ProgramUnit.Lowered declaring.globals (ProgramUnit.ofDocument redefining) lowered
        declaring.globals ∧
      ProgramUnit.Placed declaring.globals.slot? 0 lowered placed bytes ∧
      let evaluated := ProgramUnit.each ProgramUnit.evaluate placed
        (none, declaring.beyond ⟨bytes, #[], declaring.globals.index, #[], #[]⟩)
      evaluated.1.isNone = true ∧ evaluated.2.2.1 = some ⟨0, 0, 0, 1⟩ := by
  have hdeclared : declaring.globals.isDeclared ⟨0, "x"⟩ = true := by
    simp [globals_declaring, Globals.isDeclared]
  have hslot : declaring.globals.slot? ⟨0, "x"⟩ = some 0 := by
    simp [globals_declaring, Globals.slot?]
  have hdeclare := Globals.declare_of_isDeclared hdeclared
  have hglobal : Lir.lower declaring.globals.isDeclared (.global {} (some ⟨0, "x"⟩)) =
      .ok (.global ⟨0, "x"⟩) := by
    simp only [Lir.lower, Lir.lowerFrom, Option.filter, hdeclared, if_true]
    rfl
  have hdefinition (n : Int64) :
      (Lir.generateDefinition declaring.globals.slot? ⟨0, "x"⟩ (.int n)).code =
        .ok [.int64 n, .setGlobal 0, .ret] := by
    rw [Lir.generateDefinition, hslot]
    rfl
  have hmain : (Lir.generateEntry declaring.globals.slot? (.global ⟨0, "x"⟩)).code =
      .ok [.getGlobal 0, .ret] := by
    rw [Lir.generateEntry, Lir.generate, hslot]
    rfl
  refine ⟨_, _, _,
    .cons ⟨hdeclare, rfl⟩ (.cons ⟨hdeclare, rfl⟩ (.cons ⟨rfl, hglobal⟩ (.nil _))),
    .cons rfl (hdefinition 1) (.cons rfl (hdefinition 2) (.cons rfl hmain (.nil _))), ?_⟩
  rw [Machine.beyond, globals_declaring]
  decide +kernel

/-- A global that is declared, defined and defined again is read alike. -/
theorem staged_agrees_redefining :
    let staged := Loading.run (.begun "" "" {} declaring (ProgramUnit.ofDocument redefining))
      [.lower, .compile, .evaluate]
    let direct := ProgramUnit.processAll (ProgramUnit.ofDocument redefining) none declaring
    direct.1 = .ok (some ⟨0, 0, 0, 1⟩) ∧ staged.failure = none ∧
      staged.result = some ⟨0, 0, 0, 1⟩ ∧ staged.machine.globals = direct.2.globals := by
  intro staged direct
  have hresting : declaring.Resting :=
    ⟨rfl, Int.le_refl _, ((inOrder_fresh 0 { threshold? := some 0 } none none 40).after
      Machine.inOrder_congruence [.declare "x"]).2.machine.2⟩
  obtain ⟨lowered, placed, bytes, hlowered, hplaced, hnone, hhandle⟩ := redefining_compiles
  have hdirect : direct.1 = .ok (some ⟨0, 0, 0, 1⟩) := by
    have hall : ProgramUnit.Lowered declaring.globals (ProgramUnit.ofDocument redefining)
        lowered (declaring.globals.plus #[] declaring.globals.index) := by
      rw [Globals.plus_nil (.refl _)]
      exact hlowered
    obtain ⟨hiff, hdone⟩ := (ProgramUnit.evaluate_agrees hresting none
      (x := ⟨bytes, #[], declaring.globals.index, #[], #[]⟩) hall hplaced).spelled
    obtain ⟨r, hr⟩ := hiff.1 (Option.isNone_iff_eq_none.1 hnone)
    obtain rfl := hhandle.symm.trans (hdone r hr).1
    exact hr
  obtain ⟨hiff, hdone⟩ := staged_agrees 0 { threshold? := some 0 } none none 40
    [.declare "x"] redefining "" "" {}
  obtain ⟨hresult, _, hglobals, _⟩ := hdone _ hdirect
  exact ⟨hdirect, hiff.2 ⟨_, hdirect⟩, hresult, hglobals⟩

end Session

end Zinc
