import Zinc.Proofs.Program.Stages
import Zinc.Proofs.Session.Sound

/-!
Loading a program into a machine that never collects.  When a unit is evaluated after all
stages before, the machine has code and globals beyond those that it would have if the
units were taken all the way one by one.  The code of the unit never strays there, so it
does the same in both cases; and if it compiles in one of them, it compiles in the other.
-/

namespace Zinc

namespace Machine

variable {m : Machine} {e : Int}

theorem evaluated_runEntry (m : Machine) (e : Int) : m.Evaluated (m.runEntry e).2 := by
  rw [runEntry, whenOpen]
  split
  · exact .refl m
  · have halloc : m.Stepped (m.topClosure e).2 := .ofHeap (.alloc _ _ (.refl _)) _
    exact halloc.evaluated.trans (evaluated_run _ _ _)

theorem newHandle_eq (m : Machine) (v : Value) :
    ∃ handles, (m.newHandle v).2 = { m with handles := handles } := by
  rw [newHandle, whenOpen, addHandle]
  split
  · exact ⟨m.handles, rfl⟩
  · split
    · exact ⟨m.handles, rfl⟩
    · exact ⟨_, rfl⟩

/-- An open machine that is in order and never collects on its own. -/
structure Resting (m : Machine) : Prop where
  isOpen : m.closed = false
  idle : m.Idle
  stable : Stable [] m

/-- A run of code that can be entered does not stray. -/
theorem Resting.runEntry_cause (h : m.Resting) (hentry : Enterable m.code m.globals e)
    {f : Fault} (hf : (m.runEntry e).1 = .error f) : f.cause ∉ strayCauses := by
  obtain ⟨_, _, hclosure⟩ := inOrder_congruence.closure ⟨rfl, h.stable⟩ h.isOpen hentry
  have hsafe := (safe_run (hclosure.sound h.isOpen)
    (hclosure.inHand h.isOpen _ List.mem_cons_self)
    fun w hw => absurd hw List.not_mem_nil).2
  rw [runEntry, whenOpen, if_neg (by simp [h.isOpen])] at hf
  dsimp only at hf
  rw [hf] at hsafe
  intro hstray
  simp only [strayCauses, runtimeCauses, List.mem_cons, List.not_mem_nil, or_false] at *
  rcases hstray with hcause | hcause | hcause <;> simp [hcause] at hsafe

/-- What a run of code leaves behind, whatever stands beyond the machine. -/
theorem Resting.runEntry (h : m.Resting) (hentry : Enterable m.code m.globals e) :
    m.globals.Level (m.runEntry e).2.globals ∧
      ∀ x, ∃ log, (m.beyond x).runEntry e =
        ((m.runEntry e).1, (m.runEntry e).2.beyond { x with log := log }) := by
  have hechoes (x : Surplus) := echoes_runEntry h.idle x e
  refine ⟨(hechoes ⟨[], #[], ∅, #[], #[]⟩).level, fun x => ?_⟩
  rcases (hechoes x).same with ⟨f, hf, hstray⟩ | hsame
  · exact absurd hstray (h.runEntry_cause hentry hf)
  · exact hsame

end Machine

namespace ProgramUnit

/-- Finishing a unit does the same whatever stands beyond the machine. -/
theorem finish_beyond {m : Machine} (h : m.Resting) {e : Int}
    (hentry : Machine.Enterable m.code m.globals e) (u : ProgramUnit)
    (result : Option Handle) :
    (u.finish result e m).2.Resting ∧ m.globals.Level (u.finish result e m).2.globals ∧
      (u.finish result e m).2.code = m.code ∧
      ∀ x, ∃ log, u.finish result e (m.beyond x) =
        ((u.finish result e m).1, (u.finish result e m).2.beyond { x with log := log }) := by
  have hR := Machine.inOrder_congruence
  obtain ⟨hlevel, hbeyond⟩ := h.runEntry hentry
  have hkept := m.evaluated_runEntry e
  have hlinked := hR.runEntry ⟨rfl, h.stable⟩ hentry
  unfold finish
  generalize m.runEntry e = r at *
  obtain ⟨answer, after⟩ := r
  have hidle : after.Idle := by
    rw [Machine.Idle, show after.limits = m.limits from hkept.limits]
    exact h.idle
  have hopen : after.closed = false := hkept.closed.trans h.isOpen
  cases answer with
  | error f =>
      refine ⟨⟨hopen, hidle, hlinked.machine.2⟩, hlevel, hkept.code, fun x => ?_⟩
      obtain ⟨log, heq⟩ := hbeyond x
      rw [heq]
      exact ⟨log, rfl⟩
  | ok v =>
      have hvalue : Machine.InOrder [v] after after := hlinked.machine
      dsimp only
      by_cases hname : u.name.isSome = true
      · rw [if_pos hname]
        refine ⟨⟨hopen, hidle, (hR.clear hvalue).2⟩, hlevel, hkept.code, fun x => ?_⟩
        obtain ⟨log, heq⟩ := hbeyond x
        rw [heq]
        exact ⟨log, if_pos hname⟩
      · rw [if_neg hname]
        obtain ⟨handles, hhandles⟩ := after.newHandle_eq v
        have hrooted := hR.newHandle hvalue List.mem_cons_self
        have hnew (x : Surplus) := after.beyond_newHandle x v
        generalize after.newHandle v = r at *
        obtain ⟨answer, rooted⟩ := r
        obtain rfl : rooted = { after with handles := handles } := hhandles
        have hresting : Machine.Resting { after with handles := handles } :=
          ⟨hopen, hidle, (hR.clear hrooted.machine).2⟩
        cases answer with
        | error f =>
            refine ⟨hresting, hlevel, hkept.code, fun x => ?_⟩
            obtain ⟨log, heq⟩ := hbeyond x
            rw [heq]
            dsimp only
            rw [if_neg hname, hnew]
            exact ⟨log, rfl⟩
        | ok handle =>
            refine ⟨hresting, hlevel, hkept.code, fun x => ?_⟩
            obtain ⟨log, heq⟩ := hbeyond x
            rw [heq]
            dsimp only
            rw [if_neg hname, hnew]
            exact ⟨log, rfl⟩

/-- Evaluating a unit finishes it. -/
theorem evaluate_eq (u : ProgramUnit) (result : Option Handle) (m : Machine) :
    u.evaluate (result, m) =
      match u.finish result u.entry m with
      | (.error f, m) => (some f, u, result, m)
      | (.ok result, m) => (none, u, result, m) := by
  unfold evaluate finish
  dsimp only
  generalize m.runEntry u.entry = r
  obtain ⟨answer, after⟩ := r
  cases answer with
  | error f => rfl
  | ok v =>
      dsimp only
      split
      · rfl
      · generalize after.newHandle v = r
        obtain ⟨answer, rooted⟩ := r
        cases answer <;> rfl

/-- A unit that is lowered and has code is installed: its code is appended and can be
entered, and the machine is at rest as before. -/
theorem Lowers.installed {u : ProgramUnit} {m : Machine} {l : Lir} {g : Globals}
    (hu : u.Lowers m.globals l g) (h : m.Resting) {is : List Instr}
    (hcode : (u.generated g.slot? l).code = .ok is) :
    ∃ log, let after : Machine := { m with
        code := m.code.append (Instr.encodeAll is), globals := g, log := log }
      u.install m = (.ok m.code.size, after) ∧ after.Resting ∧
        Machine.Enterable after.code g m.code.size := by
  have hstable : Machine.Stable [] { m with globals := g } := by
    have hdeclares := hu.declares
    unfold Declares at hdeclares
    split at hdeclares
    · rename_i s _
      obtain ⟨_, hdeclare⟩ := hdeclares
      have hdeclared := h.stable.declare h.isOpen s
      rw [hdeclare] at hdeclared
      exact hdeclared
    · rw [hdeclares]
      exact h.stable
  have hgenerated : Machine.Generated { m with globals := g } is := by
    unfold generated at hcode
    split at hcode
    · exact .definition hcode
    · exact .entry hcode
  obtain ⟨op, hinstall⟩ := hu.install_eq h.isOpen hcode
  obtain ⟨hextended, hentry⟩ := hstable.install h.isOpen op hgenerated
  obtain ⟨log, heq⟩ := Machine.extended_eq { m with globals := g } op is
  rw [heq] at hinstall hextended hentry
  exact ⟨log, hinstall, ⟨h.isOpen, h.idle, hextended⟩, hentry⟩

/-- One unit, taken all the way: its code is appended, the run assigns globals and declares
none, and what stands beyond the machine makes no difference to it. -/
theorem Lowers.processed {u : ProgramUnit} {m : Machine} {l : Lir} {g : Globals}
    (hu : u.Lowers m.globals l g) (h : m.Resting) {is : List Instr}
    (hcode : (u.generated g.slot? l).code = .ok is) (result : Option Handle) :
    (u.process result m).2.Resting ∧ g.Level (u.process result m).2.globals ∧
      (u.process result m).2.code = m.code.append (Instr.encodeAll is) ∧
      ∀ x, ∃ log, u.finish result m.code.size (Machine.beyond
          { m with code := m.code.append (Instr.encodeAll is), globals := g } x) =
        ((u.process result m).1, (u.process result m).2.beyond { x with log := log }) := by
  obtain ⟨log, hinstall, hresting, hentry⟩ := hu.installed h hcode
  rw [process, hinstall]
  exact finish_beyond hresting hentry u result

theorem lowers_of_process {u : ProgramUnit} {m : Machine} (hopen : m.closed = false)
    {result r : Option Handle} (h : (u.process result m).1 = .ok r) :
    ∃ l g is, u.Lowers m.globals l g ∧ (u.generated g.slot? l).code = .ok is := by
  cases hanswer : (u.install m).1 with
  | ok entry => exact lowers_of_install hopen hanswer
  | error f =>
      rw [process] at h
      generalize u.install m = installed at *
      obtain ⟨answer, after⟩ := installed
      cases hanswer
      cases h

/-- Two ways of taking units through a machine: both fail, or both come to an end with the
same result and machines that differ at most in what they have recorded. -/
inductive Agrees :
    Option Failure × List ProgramUnit × Option Handle × Machine →
    Machine.Reply (Option Handle) → Prop where
  | failed {f : Failure} {units : List ProgramUnit} {state : Option Handle × Machine}
      {f' : Fault} {m : Machine} : Agrees (some f, units, state) (.error f', m)
  | done {units : List ProgramUnit} {result : Option Handle} {m : Machine}
      (saved : Array Global) (log : Array Record) :
      Agrees (none, units, result, { m with saved := saved, log := log }) (.ok result, m)

theorem Agrees.units {failure : Option Failure} {units : List ProgramUnit}
    {state : Option Handle × Machine} {r : Machine.Reply (Option Handle)}
    (h : Agrees (failure, units, state) r) (units' : List ProgramUnit) :
    Agrees (failure, units', state) r := by
  cases h with
  | failed => exact .failed
  | done saved log => exact .done saved log

theorem Agrees.spelled {l : Option Failure × List ProgramUnit × Option Handle × Machine}
    {r : Machine.Reply (Option Handle)} (h : Agrees l r) :
    (l.1 = none ↔ ∃ result, r.1 = .ok result) ∧
      ∀ result, r.1 = .ok result → l.2.2.1 = result ∧
        ∃ saved log, l.2.2.2 = { r.2 with saved := saved, log := log } := by
  cases h with
  | failed => simp
  | done saved log =>
      refine ⟨⟨fun _ => ⟨_, rfl⟩, fun _ => rfl⟩, fun result hresult => ?_⟩
      exact ⟨Except.ok.inj hresult, saved, log, rfl⟩

/-- Units that are all lowered and compiled do when they are evaluated what they do one by
one on the machine without the code and the globals of those that are still to come. -/
theorem evaluate_agrees {units lowered placed : List ProgramUnit} {m : Machine}
    (h : m.Resting) {x : Surplus} (result : Option Handle)
    (hlowered : Lowered m.globals units lowered (m.globals.plus x.slots x.index))
    (hplaced : Placed (fun s => x.index[s]?) m.code.size lowered placed x.code) :
    Agrees (each evaluate placed (result, m.beyond x)) (processAll units result m) := by
  induction units generalizing m x lowered placed result with
  | nil =>
      generalize hg : m.globals.plus x.slots x.index = g at hlowered
      cases hlowered
      generalize hc : x.code = c at hplaced
      cases hplaced
      have hsame : m.beyond x = { m with saved := x.saved, log := x.log } := by
        rw [Machine.beyond, hg, hc, Code.append_nil]
      rw [hsame]
      exact .done x.saved x.log
  | cons u rest ih =>
      generalize hg : m.globals.plus x.slots x.index = g at hlowered
      generalize hc : x.code = c at hplaced
      cases hlowered with
      | @cons _ l _ lowered _ g₁ _ hu hrest =>
      cases hplaced with
      | @cons _ _ is _ placed _ bytes hlir hcode hothers =>
      obtain rfl := Option.some.inj hlir
      have hslots : ∀ s, g₁.isDeclared s = true → x.index[s]? = g₁.slot? s := by
        intro s hs
        rw [← hrest.slot? hs, ← hg]
        rfl
      have hgenerated : (u.generated g₁.slot? l).code = .ok is := by
        rw [← hu.generated_eq hslots]
        exact hcode
      obtain ⟨hafter, hlevel, hkept, hbeyond⟩ := hu.processed h hgenerated result
      -- the globals of the units to come stand beyond the machine before and after the run
      obtain ⟨slots, hplus, hrest'⟩ := hrest.level hlevel
      have hsame : m.beyond x = Machine.beyond
          { m with code := m.code.append (Instr.encodeAll is), globals := g₁ }
          ⟨bytes, slots, g.index, x.saved, x.log⟩ := by
        rw [Machine.beyond, Machine.beyond, hg, hc, ← hplus, Code.append_append]
      obtain ⟨log, hfinish⟩ := hbeyond ⟨bytes, slots, g.index, x.saved, x.log⟩
      have hunit (lir : Option Lir) := evaluate_eq { u with lir, entry := m.code.size }
        result (m.beyond x)
      have hname (lir : Option Lir) :
          ProgramUnit.finish { u with lir, entry := m.code.size } = u.finish := rfl
      rw [processAll, each, hunit, hname, hsame, hfinish]
      generalize u.process result m = r at *
      obtain ⟨answer, after⟩ := r
      cases answer with
      | error f => exact .failed
      | ok result' =>
          have hothers' : Placed (fun s => g.index[s]?) after.code.size lowered placed
              bytes := by
            rw [show after.code = _ from hkept, Code.size_append, ← hg]
            exact hothers
          exact (ih (x := ⟨bytes, slots, g.index, x.saved, log⟩) hafter result' hrest'
            hothers').units _

/-- Units that can be taken all the way one by one can be lowered and compiled together. -/
theorem lowered_of_processAll {units : List ProgramUnit} {m : Machine} (h : m.Resting)
    {result r : Option Handle} (hdone : (processAll units result m).1 = .ok r) :
    ∃ lowered placed bytes g, Lowered m.globals units lowered g ∧
      Placed g.slot? m.code.size lowered placed bytes := by
  induction units generalizing m result with
  | nil => exact ⟨[], [], [], m.globals, .nil _, .nil _⟩
  | cons u rest ih =>
      rw [processAll] at hdone
      cases hprocess : u.process result m with
      | mk answer after =>
      rw [hprocess] at hdone
      cases answer with
      | error f => cases hdone
      | ok result' =>
          obtain ⟨l, g₁, is, hu, hgenerated⟩ :=
            lowers_of_process h.isOpen (congrArg Prod.fst hprocess)
          obtain ⟨hafter, hlevel, hkept, _⟩ := hu.processed h hgenerated result
          rw [hprocess] at hafter hlevel hkept
          obtain ⟨lowered, placed, bytes, g₂, hrest, hothers⟩ := ih hafter hdone
          obtain ⟨slots, _, hrest'⟩ := hrest.level hlevel.symm
          have hslots : ∀ s, g₁.isDeclared s = true → g₂.slot? s = g₁.slot? s :=
            fun s hs => hrest'.slot? hs
          have hcode : (u.generated g₂.slot? l).code = .ok is := by
            rw [hu.generated_eq hslots]
            exact hgenerated
          rw [show after.code = _ from hkept, Code.size_append] at hothers
          exact ⟨_, _, _, _, .cons hu hrest', .cons rfl hcode hothers⟩

end ProgramUnit

namespace Loading

variable {l : Loading} {m : Machine} {units : List ProgramUnit}

/-- A program that has been decoded into units, with the checkpoint taken on `m`. -/
def begun (path : String) (source : ByteArray) (symbols : SymbolTable) (m : Machine)
    (units : List ProgramUnit) : Loading where
  path := path
  source := source
  symbols := symbols
  machine := m.checkpoint.2
  units := units
  checkpoint := some m.checkpoint.1

section

variable {path : String} {source : ByteArray} {symbols symbols' : SymbolTable}

theorem stage_decode_of_parse [Yaml.Parser] {d : Document}
    (h : Document.parse source symbols = .ok (d, symbols')) (m : Machine) :
    stage { path, source, symbols, machine := m } .decode =
      begun path source symbols' m (ProgramUnit.ofDocument d) := by
  rw [stage_of_going rfl]
  dsimp only [Loading.decode]
  rw [h]
  rfl

theorem failure_decode_of_parse [Yaml.Parser] {e : Failure}
    (h : Document.parse source symbols = .error e) (m : Machine) :
    (stage { path, source, symbols, machine := m } .decode).failure = some (.within path e) := by
  rw [stage_of_going rfl]
  dsimp only [Loading.decode]
  rw [h]
  rfl

end

/-- How far loading has come. -/
def outcome (l : Loading) : Option Failure × List ProgramUnit × Option Handle × Machine :=
  (l.failure, l.units, l.result, l.machine)

theorem failure_settle (h : l.failure = none) (failure : Option Failure) :
    (l.settle failure).failure = failure := by
  cases failure with
  | none => exact h
  | some f =>
      rw [settle, fail]
      split <;> rfl

theorem stage_lower_eq [Yaml.Parser] (h : l.failure = none) :
    l.stage .lower =
      { l with
        units := (ProgramUnit.each ProgramUnit.lower l.units l.machine).2.1
        machine := (ProgramUnit.each ProgramUnit.lower l.units l.machine).2.2 }.settle
          (ProgramUnit.each ProgramUnit.lower l.units l.machine).1 := by
  rw [stage_of_going h]
  rfl

theorem stage_compile_eq [Yaml.Parser] (h : l.failure = none) :
    l.stage .compile =
      { l with
        units := (ProgramUnit.each ProgramUnit.compile l.units l.machine).2.1
        machine := (ProgramUnit.each ProgramUnit.compile l.units l.machine).2.2 }.settle
          (ProgramUnit.each ProgramUnit.compile l.units l.machine).1 := by
  rw [stage_of_going h]
  rfl

/-- The last stage evaluates the units and gives up the checkpoint. -/
theorem stage_evaluate_agrees [Yaml.Parser] (h : l.failure = none) {cp : Checkpoint}
    (hcheckpoint : l.checkpoint = some cp) {r : Machine.Reply (Option Handle)}
    (hagrees : ProgramUnit.Agrees
      (ProgramUnit.each ProgramUnit.evaluate l.units (l.result, l.machine)) r) :
    ProgramUnit.Agrees (l.stage .evaluate).outcome r := by
  rw [stage_of_going h]
  dsimp only [Loading.evaluate]
  generalize ProgramUnit.each ProgramUnit.evaluate l.units (l.result, l.machine) = e at *
  cases hagrees with
  | failed =>
      dsimp only [Loading.fail]
      rw [hcheckpoint]
      exact .failed
  | @done units result m saved log =>
      have hsome : l.checkpoint.isSome = true := Option.isSome_of_eq_some hcheckpoint
      dsimp only
      rw [if_pos hsome]
      dsimp only [outcome]
      rw [h]
      exact .done (m := m) #[] log

theorem failure_stage [Yaml.Parser] {f : Failure} (h : l.failure = some f) (s : Stage) :
    (l.stage s).failure = some f := by
  rw [stage_of_failed (Option.isSome_of_eq_some h), h]

/-- The units can be lowered, and their code generated, one after the other. -/
def Compilable (m : Machine) (units : List ProgramUnit) : Prop :=
  ∃ lowered placed bytes g, ProgramUnit.Lowered m.globals units lowered g ∧
    ProgramUnit.Placed g.slot? m.code.size lowered placed bytes

variable {path : String} {source : ByteArray} {symbols : SymbolTable} {lowered : List ProgramUnit}
  {g : Globals}

theorem run_begun [Yaml.Parser] :
    run (begun path source symbols m units) [.lower, .compile, .evaluate] =
      (((begun path source symbols m units).stage .lower).stage .compile).stage .evaluate :=
  rfl

theorem stage_lower_begun [Yaml.Parser] (hopen : m.closed = false)
    (h : ProgramUnit.Lowered m.globals units lowered g) :
    (begun path source symbols m units).stage .lower =
      { begun path source symbols m lowered with
        machine := { m.checkpoint.2 with globals := g } } := by
  have heach : ProgramUnit.each ProgramUnit.lower (begun path source symbols m units).units
      (begun path source symbols m units).machine =
        (none, lowered, { m.checkpoint.2 with globals := g }) :=
    h.each_eq (m := m.checkpoint.2) hopen
  rw [stage_lower_eq rfl, heach]
  rfl

theorem stage_compile_begun [Yaml.Parser] (hopen : m.closed = false) {placed : List ProgramUnit}
    {bytes : List UInt8} (hlowered : ProgramUnit.Lowered m.globals units lowered g)
    (hplaced : ProgramUnit.Placed g.slot? m.code.size lowered placed bytes) :
    ∃ log, ((begun path source symbols m units).stage .lower).stage .compile =
      { begun path source symbols m placed with
        machine := { m.checkpoint.2 with
          globals := g, code := m.code.append bytes, log := log } } := by
  obtain ⟨log, heach⟩ := hplaced.each_eq (m := { m.checkpoint.2 with globals := g }) hopen
    rfl rfl hlowered.pending
  refine ⟨log, ?_⟩
  rw [stage_lower_begun hopen hlowered, stage_compile_eq rfl]
  dsimp only [begun]
  rw [heach]
  rfl

/-- Units that cannot be lowered and compiled are not compiled. -/
theorem failure_of_not_compilable [Yaml.Parser] (hopen : m.closed = false)
    (h : ¬ Compilable m units) :
    ∃ f, (((begun path source symbols m units).stage .lower).stage .compile).failure =
      some f := by
  cases hlower : (ProgramUnit.each ProgramUnit.lower units m.checkpoint.2).1 with
  | some f =>
      have hfailed : ((begun path source symbols m units).stage .lower).failure = some f := by
        rw [stage_lower_eq rfl, failure_settle rfl]
        exact hlower
      exact ⟨f, failure_stage hfailed _⟩
  | none =>
      obtain ⟨lowered, g, hlowered⟩ :=
        ProgramUnit.lowered_of_each (m := m.checkpoint.2) hopen hlower
      rw [stage_lower_begun hopen hlowered]
      cases hcompile : (ProgramUnit.each ProgramUnit.compile lowered
          { m.checkpoint.2 with globals := g }).1 with
      | some f =>
          refine ⟨f, ?_⟩
          rw [stage_compile_eq rfl, failure_settle rfl]
          exact hcompile
      | none =>
          obtain ⟨placed, bytes, hplaced⟩ := ProgramUnit.placed_of_each
            (m := { m.checkpoint.2 with globals := g }) hopen hlowered.pending hcompile
          exact absurd ⟨lowered, placed, bytes, g, hlowered, hplaced⟩ h

/-- Units that can be lowered and compiled agree with the units one by one. -/
theorem agrees_of_compilable [Yaml.Parser] (h : m.Resting) (hcompilable : Compilable m units) :
    ProgramUnit.Agrees
      (run (begun path source symbols m units) [.lower, .compile, .evaluate]).outcome
      (ProgramUnit.processAll units none m) := by
  obtain ⟨lowered, placed, bytes, g, hlowered, hplaced⟩ := hcompilable
  obtain ⟨slots, hplus, _⟩ := hlowered.level (.refl _)
  obtain ⟨log, hcompiled⟩ := @stage_compile_begun m units path source symbols lowered g _
    h.isOpen placed bytes hlowered hplaced
  have hmachine : ({ m.checkpoint.2 with
      globals := g, code := m.code.append bytes, log := log } : Machine) =
        m.beyond ⟨bytes, slots, g.index, m.globals.entries, log⟩ := by
    rw [Machine.beyond, ← hplus]
    rfl
  rw [run_begun, hcompiled, hmachine]
  apply stage_evaluate_agrees rfl rfl
  exact ProgramUnit.evaluate_agrees h none (hplus ▸ hlowered) hplaced

/-- A closed machine takes no unit. -/
theorem agrees_of_closed [Yaml.Parser] (hclosed : m.closed = true) :
    ProgramUnit.Agrees
      (run (begun path source symbols m units) [.lower, .compile, .evaluate]).outcome
      (ProgramUnit.processAll units none m) := by
  cases units with
  | nil => exact .done (m := m) #[] m.log
  | cons u rest =>
      obtain ⟨⟨f, hlower⟩, _⟩ :=
        ProgramUnit.refused_of_closed (m := m.checkpoint.2) hclosed u
      obtain ⟨_, f', hinstall⟩ := ProgramUnit.refused_of_closed hclosed u
      cases heach : (ProgramUnit.each ProgramUnit.lower (u :: rest) m.checkpoint.2).1 with
      | none =>
          have hnone := (ProgramUnit.eq_none_of_each_cons heach).1
          rw [hlower] at hnone
          cases hnone
      | some failure =>
          have hfailed : ((begun path source symbols m (u :: rest)).stage .lower).failure =
              some failure := by
            rw [stage_lower_eq rfl, failure_settle rfl]
            exact heach
          rw [outcome, run_begun, failure_stage (failure_stage hfailed _) _,
            ProgramUnit.processAll, ProgramUnit.process]
          generalize u.install m = r at *
          obtain ⟨answer, after⟩ := r
          cases hinstall
          exact .failed

/-- On a machine in order that never collects, loading stage by stage agrees with loading
unit by unit. -/
theorem begun_agrees [Yaml.Parser] (hidle : m.Idle) (hstable : m.Stable [])
    (units : List ProgramUnit) (path : String) (source : ByteArray) (symbols : SymbolTable) :
    ProgramUnit.Agrees
      (run (begun path source symbols m units) [.lower, .compile, .evaluate]).outcome
      (ProgramUnit.processAll units none m) := by
  cases hopen : m.closed with
  | true => exact agrees_of_closed hopen
  | false =>
      have hresting : m.Resting := ⟨hopen, hidle, hstable⟩
      by_cases hcompilable : Compilable m units
      · exact agrees_of_compilable hresting hcompilable
      · obtain ⟨f, hf⟩ :=
          @failure_of_not_compilable m units path source symbols _ hopen hcompilable
        have hdone := @ProgramUnit.lowered_of_processAll units m hresting none
        rw [outcome, run_begun, failure_stage hf]
        generalize ProgramUnit.processAll units none m = r at *
        obtain ⟨answer, after⟩ := r
        cases answer with
        | error f' => exact .failed
        | ok r => exact absurd (hdone rfl) hcompilable

end Loading

end Zinc
