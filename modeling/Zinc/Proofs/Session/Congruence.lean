import Zinc.Proofs.Host.Convert
import Zinc.Proofs.Request

/-!
Sessions on related machines.  Loading a program declares, compiles and runs its units
one after the other, and a failure takes both machines back to their checkpoints; all
other requests are single operations of the machine.  So related sessions answer every
request alike and stay related.
-/

namespace Zinc

namespace ProgramUnit

/-- Two executions of a stage that fail alike, make the same of the units and end in
related states. -/
structure Alongside {φ α σ : Type} (Q : σ → σ → Prop) (r r' : Option φ × α × σ) :
    Prop where
  failure : r'.1 = r.1
  units : r'.2.1 = r.2.1
  state : Q r.2.2 r'.2.2

/-- What holds for one unit in a stage holds for all.  `Pre` is what the stage needs of
a unit and `Done` what it makes of it. -/
theorem each_alongside {σ : Type} {Q : σ → σ → Prop}
    (Pre Done : σ → ProgramUnit → Prop)
    {step : ProgramUnit → σ → Option Fault × ProgramUnit × σ}
    (hpre : ∀ u s v, Pre s v → Pre (step u s).2.2 v)
    (hdone : ∀ u s v, Done s v → Done (step u s).2.2 v)
    (hstep : ∀ u s s', Q s s' → Pre s u → Alongside Q (step u s) (step u s') ∧
      ((step u s).1 = none → Done (step u s).2.2 (step u s).2.1))
    (units : List ProgramUnit) (s s' : σ) (hs : Q s s')
    (hunits : ∀ u ∈ units, Pre s u) :
    Alongside Q (each step units s) (each step units s') ∧
      ((each step units s).1 = none →
        ∀ u ∈ (each step units s).2.1, Done (each step units s).2.2 u) := by
  induction units generalizing s s' with
  | nil => exact ⟨⟨rfl, rfl, hs⟩, fun _ u hu => absurd hu List.not_mem_nil⟩
  | cons u rest ih =>
      obtain ⟨hu, hrest⟩ := List.forall_mem_cons.1 hunits
      obtain ⟨⟨hfailure, hunit, hstate⟩, hafter⟩ := hstep u s s' hs hu
      have hrest' : ∀ v ∈ rest, Pre (step u s).2.2 v :=
        fun v hv => hpre u s v (hrest v hv)
      unfold each
      generalize step u s = r at *
      generalize step u s' = r' at *
      obtain ⟨fault, v, t⟩ := r
      obtain ⟨fault', v', t'⟩ := r'
      dsimp only at hfailure hunit hstate hafter hrest'
      subst hfailure hunit
      cases fault' with
      | some f => exact ⟨⟨rfl, rfl, hstate⟩, fun h => by cases h⟩
      | none =>
          obtain ⟨⟨hfailure, hunits, hend⟩, hall⟩ := ih t t' hstate hrest'
          refine ⟨⟨hfailure, congrArg (v' :: ·) hunits, hend⟩, fun hnone => ?_⟩
          have hkept := each_preserves (R := fun s t => ∀ w, Done s w → Done t w)
            (fun _ _ h => h) (fun hst htu w hw => htu w (hst w hw))
            (fun u s w => hdone u s w) rest t
          exact List.forall_mem_cons.2 ⟨hkept v' (hafter rfl), hall hnone⟩

variable {E : Code → Globals → Int → Prop}
  {R : List Value → Machine → Machine → Prop}

/-- Code to run starts at the entry of a unit. -/
def Ready (E : Code → Globals → Int → Prop) (m : Machine) (u : ProgramUnit) :
    Prop :=
  E m.code m.globals u.entry

theorem Ready.grown (hR : Machine.Congruence E R) {m m' : Machine}
    (hgrown : m.Grown m') {u : ProgramUnit} (h : Ready E m u) : Ready E m' u :=
  hR.entry h hgrown.code (hgrown.globals m.globals (.refl _)).size_le

theorem lower_alongside (hR : Machine.Congruence E R) (u : ProgramUnit)
    (m m' : Machine) (h : R [] m m') :
    Alongside (R []) (u.lower m) (u.lower m') := by
  obtain ⟨name, pos, body, lir, entry⟩ := u
  have hlower {m m' : Machine} (h : R [] m m') := hR.lower h body
  cases name with
  | none =>
      unfold lower
      dsimp only
      rw [hlower h]
      cases m.lower body <;> exact ⟨rfl, rfl, h⟩
  | some s =>
      unfold lower
      dsimp only
      rcases (hR.declareGlobal h s).cases with ⟨f, _, _, hr, hr', hmachine⟩ |
        ⟨_, after, after', hr, hr', hmachine⟩
      · rw [hr, hr']
        exact ⟨rfl, rfl, hmachine⟩
      · have hsame : after'.lower body = after.lower body := hlower hmachine
        rw [hr, hr']
        dsimp only
        rw [hsame]
        cases after.lower body <;> exact ⟨rfl, rfl, hmachine⟩

/-- Compiling a unit does the same on both machines, and a unit that compiles can be
run. -/
theorem compile_alongside (hR : Machine.Congruence E R) (u : ProgramUnit)
    (m m' : Machine) (h : R [] m m') :
    Alongside (R []) (u.compile m) (u.compile m') ∧
      ((u.compile m).1 = none → Ready E (u.compile m).2.2 (u.compile m).2.1) := by
  obtain ⟨name, pos, body, lir, entry⟩ := u
  cases name with
  | none =>
      obtain ⟨htree, hanswer, hmachine, hentry⟩ :=
        hR.compileEntry h (lir.getD .missing)
      unfold compile
      dsimp only
      generalize m.compileEntry (lir.getD .missing) = r at *
      generalize m'.compileEntry (lir.getD .missing) = r' at *
      obtain ⟨⟨tree, answer⟩, after⟩ := r
      obtain ⟨⟨tree', answer'⟩, after'⟩ := r'
      dsimp only at htree hanswer hmachine hentry
      subst htree hanswer
      cases answer' with
      | error f => exact ⟨⟨rfl, rfl, hmachine⟩, fun h => by cases h⟩
      | ok e => exact ⟨⟨rfl, rfl, hmachine⟩, fun _ => (hentry e rfl).2⟩
  | some s =>
      obtain ⟨htree, hanswer, hmachine, hentry⟩ := hR.defineEntryWith h s id
        (fun _ => .ok (lir.getD .missing)) fun _ _ _ => rfl
      unfold compile Machine.defineEntry
      dsimp only
      generalize m.defineEntryWith s id _ = r at *
      generalize m'.defineEntryWith s id _ = r' at *
      obtain ⟨tree, answer, after⟩ := r
      obtain ⟨tree', answer', after'⟩ := r'
      dsimp only at htree hanswer hmachine hentry
      subst htree hanswer
      cases answer' with
      | error f => exact ⟨⟨rfl, rfl, hmachine⟩, fun h => by cases h⟩
      | ok e => exact ⟨⟨rfl, rfl, hmachine⟩, fun _ => (hentry e rfl).2⟩

theorem evaluate_alongside (hR : Machine.Congruence E R) (u : ProgramUnit)
    (result : Option Handle) (m m' : Machine) (h : R [] m m')
    (hready : Ready E m u) :
    Alongside (fun s s' => s'.1 = s.1 ∧ R [] s.2 s'.2) (u.evaluate (result, m))
      (u.evaluate (result, m')) := by
  rw [evaluate, evaluate]
  rcases (hR.runEntry h hready).cases with ⟨f, _, _, hr, hr', hmachine⟩ |
    ⟨v, _, _, hr, hr', hmachine⟩
  · rw [hr, hr']
    exact ⟨rfl, rfl, rfl, hmachine⟩
  · rw [hr, hr']
    dsimp only
    split
    · exact ⟨rfl, rfl, rfl, hR.clear hmachine⟩
    · rcases (hR.newHandle hmachine List.mem_cons_self).cases with
        ⟨f, _, _, hs, hs', hdone⟩ | ⟨_, _, _, hs, hs', hdone⟩
      · rw [hs, hs']
        exact ⟨rfl, rfl, rfl, hdone⟩
      · rw [hs, hs']
        exact ⟨rfl, rfl, rfl, hdone⟩

/-- Evaluating a unit leaves the others ready. -/
theorem Ready.evaluate (hR : Machine.Congruence E R) (u : ProgramUnit)
    (s : Option Handle × Machine) {v : ProgramUnit} (h : Ready E s.2 v) :
    Ready E (u.evaluate s).2.2.2 v := by
  obtain ⟨result, m⟩ := s
  have hrun := Ready.grown hR (m.grown_runEntry u.entry) h
  rw [ProgramUnit.evaluate]
  split
  · rename_i heq
    rwa [heq] at hrun
  · rename_i w after heq
    rw [heq] at hrun
    split
    · exact hrun
    · -- rooting the value touches neither the code nor the globals
      have hsame : (after.newHandle w).2.code = after.code ∧
          (after.newHandle w).2.globals = after.globals := by
        rw [Machine.newHandle, Machine.whenOpen, Machine.addHandle]
        split
        · exact ⟨rfl, rfl⟩
        · split <;> exact ⟨rfl, rfl⟩
      have hrooted : Ready E (after.newHandle w).2 v := by
        rw [Ready, hsame.1, hsame.2]
        exact hrun
      split
      · rename_i hnew
        rwa [hnew] at hrooted
      · rename_i hnew
        rwa [hnew] at hrooted

/-- Whatever evaluating ready units runs, it runs with related machines. -/
theorem runs_related (hR : Machine.Congruence E R) (units : List ProgramUnit)
    (result : Option Handle) (m m' : Machine) (h : R [] m m')
    (hready : ∀ u ∈ units, Ready E m u) :
    ∀ r ∈ runs units (result, m), r.machine.closed = false ∧
      ∃ after', R (r.callee :: r.args) r.machine after' := by
  induction units generalizing result m m' with
  | nil => exact fun r hr => absurd hr List.not_mem_nil
  | cons u rest ih =>
      obtain ⟨hu, hrest⟩ := List.forall_mem_cons.1 hready
      intro r hr
      rw [runs, List.mem_append] at hr
      rcases hr with hr | hr
      · rw [Machine.entryRuns] at hr
        cases hclosed : m.closed with
        | true => simp [hclosed] at hr
        | false =>
            rw [hclosed, if_neg Bool.false_ne_true, List.mem_singleton] at hr
            subst hr
            obtain ⟨_, hclosure⟩ := hR.closure h hclosed hu
            exact ⟨hclosed, _, hR.drop hclosure fun v hv => by simpa using hv⟩
      · have halong := evaluate_alongside hR u result m m' h hu
        have hrest' := fun v hv => Ready.evaluate hR u (result, m) (hrest v hv)
        generalize u.evaluate (result, m) = next at *
        obtain ⟨fault, v, result', after⟩ := next
        cases fault with
        | some f => exact absurd hr List.not_mem_nil
        | none => exact ih result' after _ halong.state.2 hrest' r hr

end ProgramUnit

namespace Loading

variable {E : Code → Globals → Int → Prop}
  {R : List Value → Machine → Machine → Prop} {start start' : Machine}
  {l l' : Loading}

/-- Two loadings of the same program into related machines. -/
def Paired (R : List Value → Machine → Machine → Prop) (l l' : Loading) : Prop :=
  ∃ m', l' = { l with machine := m' } ∧ R [] l.machine m'

theorem Paired.ofParts {path : String} {source : ByteArray} {symbols : SymbolTable}
    {m m' : Machine} (h : R [] m m') (units : List ProgramUnit)
    (result : Option Handle) (failure : Option Failure)
    (checkpoint : Option Checkpoint) :
    Paired R ⟨path, source, symbols, m, units, result, failure, checkpoint⟩
      ⟨path, source, symbols, m', units, result, failure, checkpoint⟩ :=
  ⟨m', rfl, h⟩

/-- Both machines go back to the checkpoint. -/
theorem Paired.fail (hR : Machine.Congruence E R) (hstart : R [] start start')
    (hpaired : Paired R l l') (hcheckpoint : l.checkpoint = some start.checkpoint.1)
    (hgrown : start.checkpoint.2.Grown l.machine) (f : Failure) :
    Paired R (l.fail f) (l'.fail f) := by
  obtain ⟨m', rfl, h⟩ := hpaired
  unfold Loading.fail
  dsimp only
  rw [hcheckpoint]
  exact .ofParts (hR.rollback hstart h hgrown) _ _ _ _

theorem Paired.settle (hR : Machine.Congruence E R) (hstart : R [] start start')
    (hpaired : Paired R l l') (hcheckpoint : l.checkpoint = some start.checkpoint.1)
    (hgrown : start.checkpoint.2.Grown l.machine) (failure : Option Failure) :
    Paired R (l.settle failure) (l'.settle failure) := by
  cases failure with
  | none => exact hpaired
  | some f => exact hpaired.fail hR hstart hcheckpoint hgrown f

theorem Paired.stage_of_failed [Yaml.Parser] (hpaired : Paired R l l')
    (hfailed : l.failure.isSome) (s : Stage) :
    Paired R (l.stage s) (l'.stage s) := by
  have hfailed' : l'.failure.isSome := by
    obtain ⟨m', rfl, _⟩ := hpaired
    exact hfailed
  rw [Loading.stage_of_failed hfailed, Loading.stage_of_failed hfailed']
  exact hpaired

theorem paired_decode [Yaml.Parser] (hR : Machine.Congruence E R) (h : R [] start start')
    (path : String) (source : ByteArray) (symbols : SymbolTable) :
    Paired R
      (stage { path, source, symbols, machine := start } .decode)
      (stage { path, source, symbols, machine := start' } .decode) := by
  rw [stage_of_going rfl, stage_of_going rfl]
  dsimp only [Loading.decode]
  cases Document.parse source symbols with
  | error e => exact .ofParts h _ _ _ _
  | ok parsed =>
      have hsame : start'.checkpoint.1 = start.checkpoint.1 := by
        rw [Machine.checkpoint, Machine.checkpoint, hR.code h, hR.globals h]
      dsimp only
      rw [hsame]
      exact .ofParts (hR.checkpoint h) _ _ _ _

/-- A stage between the checkpoint and the evaluation. -/
theorem Undoable.paired (hR : Machine.Congruence E R) (hstart : R [] start start')
    {step : ProgramUnit → Machine → Option Fault × ProgramUnit × Machine}
    (hgrown : ∀ u m, Machine.Grown m (step u m).2.2)
    (hundo : Undoable start l) {m' : Machine}
    (halong : ProgramUnit.Alongside (R [])
      (ProgramUnit.each step l.units l.machine)
      (ProgramUnit.each step l.units m')) :
    Paired R
      ({ l with
        units := (ProgramUnit.each step l.units l.machine).2.1
        machine := (ProgramUnit.each step l.units l.machine).2.2 }.settle
          (ProgramUnit.each step l.units l.machine).1)
      ({ l with
        units := (ProgramUnit.each step l.units m').2.1
        machine := (ProgramUnit.each step l.units m').2.2 }.settle
          (ProgramUnit.each step l.units m').1) := by
  obtain ⟨hfailure, hunits, hstate⟩ := halong
  have hall : l.machine.Grown (ProgramUnit.each step l.units l.machine).2.2 :=
    ProgramUnit.each_preserves Machine.Grown.refl Machine.Grown.trans hgrown _ _
  rw [hfailure, hunits]
  exact Paired.settle hR hstart (.ofParts hstate _ _ _ _) hundo.checkpoint
    (hundo.machine.trans hall) _

theorem Undoable.paired_lower [Yaml.Parser] (hR : Machine.Congruence E R)
    (hstart : R [] start start') (hundo : Undoable start l)
    (hpaired : Paired R l l') : Paired R (l.stage .lower) (l'.stage .lower) := by
  obtain ⟨m', rfl, h⟩ := hpaired
  rw [stage_of_going hundo.failure, stage_of_going (by exact hundo.failure)]
  obtain ⟨halong, _⟩ := ProgramUnit.each_alongside (fun _ _ => True)
    (fun _ _ => True) (fun _ _ _ _ => trivial) (fun _ _ _ _ => trivial)
    (fun u m m' h _ => ⟨ProgramUnit.lower_alongside hR u m m' h, fun _ => trivial⟩)
    l.units l.machine m' h fun _ _ => trivial
  exact hundo.paired hR hstart ProgramUnit.lower_grown halong

/-- Compiling keeps the loadings paired, and unless it fails all units can be run. -/
theorem Undoable.paired_compile [Yaml.Parser] (hR : Machine.Congruence E R)
    (hstart : R [] start start') (hundo : Undoable start l)
    (hpaired : Paired R l l') :
    Paired R (l.stage .compile) (l'.stage .compile) ∧
      ((l.stage .compile).failure = none → ∀ u ∈ (l.stage .compile).units,
        ProgramUnit.Ready E (l.stage .compile).machine u) := by
  obtain ⟨m', rfl, h⟩ := hpaired
  rw [stage_of_going hundo.failure, stage_of_going (by exact hundo.failure)]
  obtain ⟨halong, hready⟩ := ProgramUnit.each_alongside (fun _ _ => True)
    (ProgramUnit.Ready E) (fun _ _ _ _ => trivial)
    (fun u m _ hv => hv.grown hR (ProgramUnit.compile_grown u m))
    (fun u m m' h _ => ProgramUnit.compile_alongside hR u m m' h)
    l.units l.machine m' h fun _ _ => trivial
  refine ⟨hundo.paired hR hstart ProgramUnit.compile_grown halong, ?_⟩
  dsimp only [Loading.compile]
  cases hfailure : (ProgramUnit.each ProgramUnit.compile l.units l.machine).1 with
  | none => exact fun _ => hready hfailure
  | some f =>
      intro hnone
      dsimp only [Loading.settle, Loading.fail] at hnone
      rw [hundo.checkpoint] at hnone
      cases hnone

theorem Undoable.paired_evaluate [Yaml.Parser] (hR : Machine.Congruence E R)
    (hstart : R [] start start') (hundo : Undoable start l)
    (hpaired : Paired R l l')
    (hready : ∀ u ∈ l.units, ProgramUnit.Ready E l.machine u) :
    Paired R (l.stage .evaluate) (l'.stage .evaluate) := by
  obtain ⟨m', rfl, h⟩ := hpaired
  rw [stage_of_going hundo.failure, stage_of_going (by exact hundo.failure)]
  obtain ⟨⟨hfailure, hunits, hresult, hstate⟩, _⟩ :=
    ProgramUnit.each_alongside
      (Q := fun s s' : Option Handle × Machine => s'.1 = s.1 ∧ R [] s.2 s'.2)
      (fun s => ProgramUnit.Ready E s.2) (fun _ _ => True)
      (fun u s _ hv => hv.evaluate hR u s) (fun _ _ _ _ => trivial)
      (fun u s s' hs hu => by
        obtain ⟨result, m⟩ := s
        obtain ⟨result', m'⟩ := s'
        obtain ⟨hresult, hm⟩ := hs
        dsimp only at hresult
        subst hresult
        exact ⟨ProgramUnit.evaluate_alongside hR u _ m m' hm hu, fun _ => trivial⟩)
      l.units (l.result, l.machine) (l.result, m') ⟨rfl, h⟩ hready
  have hgrown := @ProgramUnit.each_evaluate_grown l.units hundo.units
    (l.result, l.machine)
  dsimp only [Loading.evaluate]
  generalize ProgramUnit.each ProgramUnit.evaluate l.units (l.result, l.machine) = r
    at *
  generalize ProgramUnit.each ProgramUnit.evaluate l.units (l.result, m') = r' at *
  obtain ⟨failure, units, result, after⟩ := r
  obtain ⟨failure', units', result', after'⟩ := r'
  dsimp only at hfailure hunits hresult hstate hgrown
  subst hfailure hunits hresult
  cases failure' with
  | some f =>
      exact Paired.fail hR hstart (.ofParts hstate _ _ _ _) hundo.checkpoint
        (hundo.machine.trans (hgrown rfl)) f
  | none =>
      dsimp only
      rw [hundo.checkpoint]
      exact .ofParts (hR.commit hstate) _ _ _ _

/-- The three stages before the evaluation. -/
theorem paired_compiled [Yaml.Parser] (hR : Machine.Congruence E R) (h : R [] start start')
    (path : String) (source : ByteArray) (symbols : SymbolTable) :
    let l := run { path, source, symbols, machine := start }
      [.decode, .lower, .compile]
    let l' := run { path, source, symbols, machine := start' }
      [.decode, .lower, .compile]
    Covered start l ∧ Paired R l l' ∧ (l.failure = none →
      ∀ u ∈ l.units, ProgramUnit.Ready E l.machine u) := by
  have hdecode := paired_decode hR h path source symbols
  have hdecoded := covered_decode
    (l := { path, source, symbols, machine := start }) rfl rfl rfl
  have hlowered := hdecoded.stage Undoable.lower
  have hlower : Paired R
      ((stage { path, source, symbols, machine := start } .decode).stage .lower)
      ((stage { path, source, symbols, machine := start' } .decode).stage .lower) := by
    rcases hdecoded with hgoing | ⟨hfailed, _⟩
    · exact hgoing.paired_lower hR h hdecode
    · exact hdecode.stage_of_failed hfailed .lower
  dsimp only
  refine ⟨hlowered.stage Undoable.compile, ?_⟩
  rcases hlowered with hgoing | ⟨hfailed, _⟩
  · exact hgoing.paired_compile hR h hlower
  · refine ⟨hlower.stage_of_failed hfailed .compile, fun hnone => ?_⟩
    have hsame := stage_of_failed hfailed .compile
    change (stage _ .compile).failure = none at hnone
    rw [hsame] at hnone
    rw [hnone] at hfailed
    cases hfailed

theorem paired_all [Yaml.Parser] (hR : Machine.Congruence E R) (h : R [] start start')
    (path : String) (source : ByteArray) (symbols : SymbolTable) :
    Paired R (run { path, source, symbols, machine := start } Stage.all)
      (run { path, source, symbols, machine := start' } Stage.all) := by
  obtain ⟨hcovered, hpaired, hready⟩ :=
    paired_compiled hR h path source symbols
  rw [run_all, run_all]
  rcases hcovered with hgoing | ⟨hfailed, _⟩
  · exact hgoing.paired_evaluate hR h hpaired (hready hgoing.failure)
  · exact hpaired.stage_of_failed hfailed .evaluate

end Loading

namespace Session

variable {E : Code → Globals → Int → Prop}
  {R : List Value → Machine → Machine → Prop} {s s' : Session}

/-- Two sessions with related machines and the same names. -/
structure Linked (R : List Value → Machine → Machine → Prop) (s s' : Session) :
    Prop where
  symbols : s'.symbols = s.symbols
  machine : R [] s.machine s'.machine

/-- Two replies with the same answer and related sessions. -/
structure Answered {α : Type} (R : List Value → Machine → Machine → Prop)
    (r r' : Reply α) : Prop where
  answer : r'.1 = r.1
  session : Linked R r.2 r'.2

theorem Answered.onMachine {α : Type} (hsymbols : s'.symbols = s.symbols)
    {f : Machine → Machine.Reply α}
    (hf : Machine.Linked R Machine.nothing (f s.machine) (f s'.machine)) :
    Answered R (s.onMachine f) (s'.onMachine f) := by
  rcases hf.cases with ⟨e, _, _, hr, hr', hmachine⟩ | ⟨a, _, _, hr, hr', hmachine⟩
  · rw [Session.onMachine, Session.onMachine, hr, hr']
    exact ⟨rfl, hsymbols, hmachine⟩
  · rw [Session.onMachine, Session.onMachine, hr, hr']
    exact ⟨rfl, hsymbols, hmachine⟩

theorem Linked.load [Yaml.Parser] (hR : Machine.Congruence E R) (h : Linked R s s')
    (path : String) (source : ByteArray) :
    Answered R (s.load path source) (s'.load path source) := by
  obtain ⟨m', heq, hmachine⟩ :=
    Loading.paired_all hR h.machine path source s.symbols
  unfold Session.load
  rw [h.symbols, heq]
  generalize Loading.run
    { path, source, symbols := s.symbols, machine := s.machine } Stage.all = l at *
  dsimp only
  cases l.failure with
  | some f => exact ⟨rfl, rfl, hmachine⟩
  | none => exact ⟨rfl, rfl, hmachine⟩

theorem globalValue_eq_ok {m : Machine} {symbol : Symbol} {v : Value}
    (h : m.globalValue symbol = .ok v) :
    ∃ g, m.closed = false ∧ g ∈ m.globals.entries ∧ g.defined = true ∧
      v = g.value := by
  rw [Machine.globalValue] at h
  split at h
  · cases h
  · rename_i hopen
    split at h
    · cases h
    · split at h
      · rename_i g hg
        split at h
        · rename_i hdefined
          cases h
          exact ⟨g, Bool.eq_false_iff.2 hopen, Array.mem_of_getElem? hg, hdefined,
            rfl⟩
        · cases h
      · cases h

theorem Linked.global (hR : Machine.Congruence E R) (h : Linked R s s')
    (name : String) : Answered R (s.global name) (s'.global name) := by
  unfold Session.global Session.symbol
  dsimp only
  rw [h.symbols]
  generalize s.symbols.intern name = interned
  obtain ⟨symbol, symbols⟩ := interned
  have hsame : s'.machine.globalValue symbol = s.machine.globalValue symbol := by
    rw [Machine.globalValue, Machine.globalValue, hR.closed h.machine,
      hR.globals h.machine]
  dsimp only
  rw [hsame]
  cases hvalue : s.machine.globalValue symbol with
  | error f => exact ⟨rfl, rfl, h.machine⟩
  | ok v =>
      obtain ⟨g, hopen, hg, hdefined, rfl⟩ := globalValue_eq_ok hvalue
      have hhand := hR.global h.machine hopen hg hdefined
      refine Answered.onMachine ?_ ?_
      · rfl
      · exact hR.newHandle hhand List.mem_cons_self

/-- The values of several handles can be taken in hand. -/
theorem Linked.values (hR : Machine.Congruence E R) (h : Linked R s s')
    (fns : List Handle) :
    s'.values fns = s.values fns ∧
      ∀ ws, s.values fns = .ok ws → R ws s.machine s'.machine := by
  induction fns with
  | nil => exact ⟨rfl, fun ws hws => by cases hws; exact h.machine⟩
  | cons fn rest ih =>
      rw [Session.values, Session.values, hR.value h.machine, ih.1]
      cases hv : s.machine.value fn with
      | error f => exact ⟨rfl, fun _ hws => by cases hws⟩
      | ok v =>
          cases hrest : s.values rest with
          | error f => exact ⟨rfl, fun _ hws => by cases hws⟩
          | ok ws =>
              refine ⟨rfl, fun _ hws => ?_⟩
              cases hws
              exact (hR.value_in_hand (ih.2 ws hrest) hv).2

theorem Linked.newTuple (hR : Machine.Congruence E R) (h : Linked R s s')
    (fields : List Handle) :
    Answered R (s.newTuple fields) (s'.newTuple fields) := by
  obtain ⟨hsame, hhand⟩ := h.values hR fields
  rw [Session.newTuple, Session.newTuple, hsame]
  cases hvalues : s.values fields with
  | error f => exact ⟨rfl, h⟩
  | ok ws =>
      exact .onMachine h.symbols (hR.newTuple (hhand ws hvalues) fun _ hw => hw)

/-- The fields of a tuple are the same and can be taken in hand. -/
theorem Linked.tupleFields (hR : Machine.Congruence E R) (h : Linked R s s')
    (fn : Handle) (op : String) :
    s'.tupleFields fn op = s.tupleFields fn op ∧
      ∀ ws, s.tupleFields fn op = .ok ws → R ws s.machine s'.machine := by
  unfold Session.tupleFields
  rw [hR.value h.machine]
  cases hv : s.machine.value fn with
  | error f => exact ⟨rfl, fun _ hws => by cases hws⟩
  | ok v =>
      obtain ⟨hopen, hhand⟩ := hR.value_in_hand h.machine hv
      simp only [bind, Except.bind]
      by_cases hkind : v.kind = .tuple
      · obtain ⟨hsame, hfields⟩ := hR.fields hhand hopen List.mem_cons_self hkind
        rw [if_pos hkind, if_pos hkind, hsame]
        refine ⟨rfl, fun ws hws => ?_⟩
        cases hws
        exact hR.drop hfields fun w hw => List.mem_append_left _ hw
      · rw [if_neg hkind, if_neg hkind]
        exact ⟨rfl, fun _ hws => by cases hws⟩

theorem Linked.field (hR : Machine.Congruence E R) (h : Linked R s s')
    (fn : Handle) (i : Int) : Answered R (s.field fn i) (s'.field fn i) := by
  obtain ⟨hsame, hhand⟩ := h.tupleFields hR fn "field"
  rw [Session.field, Session.field, hsame]
  cases hfields : s.tupleFields fn "field" with
  | error f => exact ⟨rfl, h⟩
  | ok ws =>
      dsimp only
      cases hi : if i < 0 then none else ws[i.toNat]? with
      | none => exact ⟨rfl, h⟩
      | some v =>
          refine .onMachine h.symbols (hR.newHandle (hhand ws hfields) ?_)
          split at hi
          · cases hi
          · exact List.mem_of_getElem? hi

theorem Linked.marshal (hR : Machine.Congruence E R) (h : Linked R s s')
    (x : HostValue) : Answered R (s.marshal x) (s'.marshal x) := by
  rw [Session.marshal, Session.marshal]
  cases x.dynamic? with
  | none => exact ⟨rfl, h⟩
  | some y =>
      have hconvert := hR.ofHost y [] s.machine s'.machine h.machine
      split
      · exact ⟨rfl, h⟩
      · exact ⟨rfl, h⟩
      · rename_i y' _ hy
        cases hy
        rcases hconvert.cases with ⟨e, _, _, hr, hr', hmachine⟩ |
          ⟨v, _, _, hr, hr', hmachine⟩
        · rw [hr, hr']
          exact ⟨rfl, h.symbols, hmachine⟩
        · rw [hr, hr']
          refine Answered.onMachine ?_ ?_
          · exact h.symbols
          · exact hR.newHandle hmachine List.mem_cons_self

theorem Linked.inspect (hR : Machine.Congruence E R) (h : Linked R s s')
    (fn : Handle) : s'.inspect fn = s.inspect fn := by
  rw [Session.inspect, Session.inspect, hR.value h.machine]
  cases hv : s.machine.value fn with
  | error f => rfl
  | ok v =>
      have hhand := (hR.value_in_hand h.machine hv).2
      exact congrArg Except.ok (hR.inspect hhand List.mem_cons_self)

theorem Linked.kind (hR : Machine.Congruence E R) (h : Linked R s s')
    (fn : Handle) : s'.kind fn = s.kind fn := by
  rw [Session.kind, Session.kind, hR.value h.machine]

theorem Linked.int (hR : Machine.Congruence E R) (h : Linked R s s')
    (fn : Handle) : s'.int fn = s.int fn := by
  rw [Session.int, Session.int, hR.value h.machine]

theorem Linked.size (hR : Machine.Congruence E R) (h : Linked R s s')
    (fn : Handle) : s'.size fn = s.size fn := by
  rw [Session.size, Session.size, (h.tupleFields hR fn "len").1]

theorem Linked.unmarshalAs (hR : Machine.Congruence E R) (h : Linked R s s')
    (fn : Handle) (target : Option HostType) :
    s'.unmarshalAs fn target = s.unmarshalAs fn target := by
  unfold Session.unmarshalAs
  rw [hR.value h.machine]
  cases hv : s.machine.value fn with
  | error f => rfl
  | ok v =>
      have hhand := (hR.value_in_hand h.machine hv).2
      have hvalue : (Except.ok v : Except Fault Value).mapError Failure.fault =
          .ok v := rfl
      simp only [hvalue, bind, Except.bind, hR.toHost hhand List.mem_cons_self]

theorem Linked.unmarshalInto (hR : Machine.Congruence E R) (h : Linked R s s')
    (fn : Handle) (out : HostValue) :
    s'.unmarshalInto fn out = s.unmarshalInto fn out := by
  unfold Session.unmarshalInto
  split
  · rw [h.unmarshalAs hR]
  · rfl

theorem Linked.collect [Yaml.Parser] (hR : Machine.Congruence E R) (h : Linked R s s') :
    (s'.perform .collect).1.masked = (s.perform .collect).1.masked ∧
      Linked R (s.perform .collect).2 (s'.perform .collect).2 := by
  dsimp only [Session.perform, Session.collect, Session.onMachine, Prod.map, id]
  rw [Machine.collect, Machine.collect, Machine.whenOpen, Machine.whenOpen,
    hR.closed h.machine]
  cases hclosed : s.machine.closed with
  | true => exact ⟨rfl, h⟩
  | false => exact ⟨rfl, h.symbols, hR.collect h.machine hclosed⟩

/-- Related sessions answer a request alike, up to what the answer says about the
heap, and stay related. -/
theorem Linked.perform [Yaml.Parser] (hR : Machine.Congruence E R) (h : Linked R s s')
    (request : Request) :
    (s'.perform request).1.masked = (s.perform request).1.masked ∧
      Linked R (s.perform request).2 (s'.perform request).2 := by
  have answered {α : Type} (f : Except Failure α → Answer) {r r' : Reply α}
      (hr : Answered R r r') :
      (r'.map f id).1.masked = (r.map f id).1.masked ∧
        Linked R (r.map f id).2 (r'.map f id).2 :=
    ⟨congrArg (fun a => (f a).masked) hr.answer, hr.session⟩
  have hinterned (name : String) : s'.symbols.intern name = s.symbols.intern name := by
    rw [h.symbols]
  cases request with
  | close => exact answered .done (.onMachine h.symbols (hR.closes h.machine))
  | declare name =>
      refine answered .done ?_
      unfold Session.declare Session.symbol
      rw [hinterned]
      refine Answered.onMachine ?_ ?_
      · rfl
      · exact hR.declareGlobal h.machine _
  | compile e => exact answered .handle (.onMachine h.symbols (hR.compile h.machine e))
  | define name e =>
      refine answered .handle ?_
      unfold Session.define Session.symbol
      rw [hinterned]
      refine Answered.onMachine ?_ ?_
      · rfl
      · exact hR.define h.machine _ e
  | evaluate fn =>
      exact answered .handle (.onMachine h.symbols (hR.call h.machine fn []))
  | call fn args =>
      exact answered .handle (.onMachine h.symbols (hR.call h.machine fn args))
  | global name => exact answered .handle (h.global hR name)
  | pushFrame => exact answered .done (.onMachine h.symbols (hR.pushFrame h.machine))
  | popFrame => exact answered .done (.onMachine h.symbols (hR.popFrame h.machine))
  | newInt n =>
      exact answered .handle (.onMachine h.symbols
        (hR.newHandle (hR.int n h.machine) List.mem_cons_self))
  | newTuple fields => exact answered .handle (h.newTuple hR fields)
  | kind fn => exact ⟨congrArg (fun a => Answer.masked (.kind a)) (h.kind hR fn), h⟩
  | int fn => exact ⟨congrArg (fun a => Answer.masked (.int a)) (h.int hR fn), h⟩
  | size fn => exact ⟨congrArg (fun a => Answer.masked (.size a)) (h.size hR fn), h⟩
  | field fn i => exact answered .handle (h.field hR fn i)
  | inspect fn =>
      exact ⟨congrArg (fun a => Answer.masked (.text a)) (h.inspect hR fn), h⟩
  | collect => exact h.collect hR
  | load path source => exact answered .loaded (h.load hR path source)
  | marshal x => exact answered .handle (h.marshal hR x)
  | unmarshal fn =>
      exact ⟨congrArg (fun a => Answer.masked (.value a)) (h.unmarshalAs hR fn none), h⟩
  | unmarshalInto fn out =>
      exact ⟨congrArg (fun r => Answer.masked (.value (Stored.value r)))
        (h.unmarshalInto hR fn out),
        h⟩
  | stats =>
      exact ⟨congrArg (fun u => Answer.masked (.stats u _)) (hR.usage h.machine), h⟩

/-- Related sessions answer all requests alike and stay related. -/
theorem Linked.after [Yaml.Parser] (hR : Machine.Congruence E R) (h : Linked R s s')
    (requests : List Request) :
    (s'.answers requests).map Answer.masked =
        (s.answers requests).map Answer.masked ∧
      Linked R (s.after requests) (s'.after requests) := by
  induction requests generalizing s s' with
  | nil => exact ⟨rfl, h⟩
  | cons request rest ih =>
      obtain ⟨hanswer, hsession⟩ := h.perform hR request
      obtain ⟨hanswers, hafter⟩ := ih hsession
      refine ⟨?_, hafter⟩
      rw [answers, answers, List.map_cons, List.map_cons, hanswer, hanswers]

theorem callRuns_related (hR : Machine.Congruence E R) {m m' : Machine}
    (h : R [] m m') (fn : Handle) (args : List Handle) :
    ∀ r ∈ m.callRuns fn args, r.machine.closed = false ∧
      ∃ after', R (r.callee :: r.args) r.machine after' := by
  intro r hr
  rw [Machine.callRuns] at hr
  split at hr
  · rename_i callee vs hcallee hargs
    split at hr
    · obtain rfl := List.mem_singleton.1 hr
      obtain ⟨hopen, hhand⟩ := hR.value_in_hand h hcallee
      have hboth := (hR.handleValues hhand hopen args).2 vs hargs
      refine ⟨hopen, m', hR.drop hboth fun v hv => ?_⟩
      simp only [List.mem_cons, List.mem_append, List.not_mem_nil, or_false] at hv ⊢
      exact hv.symm
    · exact absurd hr List.not_mem_nil
  · exact absurd hr List.not_mem_nil

/-- Whatever a request runs, it runs on related machines. -/
theorem Linked.runs [Yaml.Parser] (hR : Machine.Congruence E R) (h : Linked R s s')
    (request : Request) :
    ∀ r ∈ s.runs request, r.machine.closed = false ∧
      ∃ after', R (r.callee :: r.args) r.machine after' := by
  cases request with
  | evaluate fn => exact callRuns_related hR h.machine fn []
  | call fn args => exact callRuns_related hR h.machine fn args
  | load path source =>
      obtain ⟨_, ⟨m', _, hmachine⟩, hready⟩ :=
        Loading.paired_compiled hR h.machine path source s.symbols
      intro r hr
      rw [Session.runs] at hr
      split at hr
      · exact absurd hr List.not_mem_nil
      · rename_i hgoing
        exact ProgramUnit.runs_related hR _ _ _ m' hmachine
          (hready (by simpa using hgoing)) r hr
  | _ => exact fun r hr => absurd hr List.not_mem_nil

end Session

end Zinc
