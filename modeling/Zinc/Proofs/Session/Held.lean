import Zinc.Proofs.Machine.Carried
import Zinc.Proofs.Session.Sound
import Zinc.Yaml.Parser

/-!
Handles are stable.  Every request other than one that closes a frame or the session
carries the machine on, loading a program included: one that fails is undone, and one
that succeeds has grown the machine and rooted its result.  So from the request that
issues a handle on, for as long as its frame is open, the handle keeps its value, the
objects below that value stay what they are, and so does the code of the closures among
them.
-/

namespace Zinc

namespace ProgramUnit

/-- Evaluating units carries the machine on, and the result so far has a value. -/
structure Rooted (s t : Option Handle × Machine) : Prop where
  carried : s.2.Carried t.2
  closed : t.2.closed = s.2.closed
  result : (∀ h, s.1 = some h → s.2.Resolves h) → ∀ h, t.1 = some h → t.2.Resolves h

theorem Rooted.ofGrown {result : Option Handle} {m m' : Machine}
    (hgrown : m.Grown m') : Rooted (result, m) (result, m') :=
  ⟨hgrown.carried, hgrown.closed,
    fun hresult h hh => (hresult h hh).carried hgrown.carried hgrown.closed⟩

theorem Rooted.trans {s t u : Option Handle × Machine} (hfirst : Rooted s t)
    (hsecond : Rooted t u) : Rooted s u :=
  ⟨hfirst.carried.trans hsecond.carried, hsecond.closed.trans hfirst.closed,
    fun hresult => hsecond.result (hfirst.result hresult)⟩

theorem evaluate_rooted (u : ProgramUnit) (s : Option Handle × Machine) :
    Rooted s (u.evaluate s).2.2 := by
  obtain ⟨result, m⟩ := s
  have hrun := m.grown_runEntry u.entry
  rw [evaluate]
  split
  · rename_i heq
    rw [heq] at hrun
    exact .ofGrown hrun
  · rename_i v after heq
    rw [heq] at hrun
    split
    · exact .ofGrown hrun
    · have hissued := after.issued_newHandle v
      have hclosed := after.newHandle_closed v
      split
      · rename_i f last hnew
        rw [hnew] at hissued hclosed
        refine ⟨hrun.carried.trans hissued.carried, hclosed.trans hrun.closed,
          fun hresult h hh => ?_⟩
        exact (hresult h hh).carried (hrun.carried.trans hissued.carried)
          (hclosed.trans hrun.closed)
      · rename_i fn last hnew
        rw [hnew] at hissued hclosed
        refine ⟨hrun.carried.trans hissued.carried, hclosed.trans hrun.closed,
          fun _ h hh => ?_⟩
        cases hh
        exact hissued.resolves fn rfl

end ProgramUnit

namespace Loading

variable {l : Loading}

theorem result_fail (l : Loading) (f : Failure) : (l.fail f).result = l.result := by
  rw [fail]
  split <;> rfl

theorem result_settle (l : Loading) (failure : Option Failure) :
    (l.settle failure).result = l.result := by
  cases failure with
  | none => rfl
  | some f => exact l.result_fail f

/-- Only the last stage has a result. -/
theorem result_stage [Yaml.Parser] (l : Loading) {s : Stage} (hs : s ≠ .evaluate) :
    (l.stage s).result = l.result := by
  cases hfailure : l.failure with
  | some f => rw [stage_of_failed (by rw [hfailure]; rfl)]
  | none =>
      rw [stage_of_going hfailure]
      cases s with
      | decode =>
          dsimp only [decode]
          split
          · exact l.result_fail _
          · rfl
      | lower => exact result_settle _ _
      | compile => exact result_settle _ _
      | evaluate => exact absurd rfl hs

theorem Undoable.rooted [Yaml.Parser] {m : Machine} (h : Undoable m l)
    (hresult : l.result = none) (hdone : (l.stage .evaluate).failure = none) :
    m.Carried (l.stage .evaluate).machine ∧
      ∀ fn, (l.stage .evaluate).result = some fn →
        (l.stage .evaluate).machine.Resolves fn := by
  have hstart : m.Carried l.machine :=
    (Machine.Carried.ofSaved m _).trans h.machine.carried
  have hrooted : ProgramUnit.Rooted (l.result, l.machine) _ :=
    ProgramUnit.each_preserves (fun s => .ofGrown (.refl s.2)) .trans
      ProgramUnit.evaluate_rooted l.units (l.result, l.machine)
  rw [stage_of_going h.failure] at hdone ⊢
  dsimp only [Loading.evaluate] at hdone ⊢
  generalize ProgramUnit.each ProgramUnit.evaluate l.units (l.result, l.machine) = r
    at *
  obtain ⟨failure, units, result, machine⟩ := r
  cases failure with
  | some f =>
      dsimp only [Loading.fail] at hdone
      rw [h.checkpoint] at hdone
      cases hdone
  | none =>
      rw [if_pos (by rw [h.checkpoint]; rfl)]
      have hlast : machine.Carried machine.commit := .ofSaved machine _
      refine ⟨(hstart.trans hrooted.carried).trans hlast, fun fn hfn => ?_⟩
      refine (hrooted.result (fun fn hfn => ?_) fn hfn).carried hlast rfl
      rw [hresult] at hfn
      cases hfn

/-- A program that loads carries the machine on, and its result has a value. -/
theorem run_rooted [Yaml.Parser] (path : String) (source : ByteArray) (symbols : SymbolTable)
    (machine : Machine)
    (hdone : (run { path, source, symbols, machine } Stage.all).failure = none) :
    machine.Carried (run { path, source, symbols, machine } Stage.all).machine ∧
      ∀ fn, (run { path, source, symbols, machine } Stage.all).result = some fn →
        (run { path, source, symbols, machine } Stage.all).machine.Resolves fn := by
  have hdecode := covered_decode
    (l := { path, source, symbols, machine }) rfl rfl rfl
  have hcompile := (hdecode.stage Undoable.lower).stage Undoable.compile
  rw [run_all] at hdone ⊢
  rcases hcompile with hgoing | ⟨hfailed, _⟩
  · refine hgoing.rooted ?_ hdone
    rw [result_stage _ (by simp), result_stage _ (by simp), result_stage _ (by simp)]
  · rw [stage_of_failed hfailed] at hdone
    rw [hdone] at hfailed
    cases hfailed

end Loading

/-- The handle that an answer hands out. -/
def Answer.handle? : Answer → Option Handle
  | .handle (.ok h) => some h
  | .loaded (.ok h) => h
  | _ => none

/-- A request that hands a handle of the host back to it. -/
def Request.relays : Request → Bool
  | .marshal x => match x.dynamic? with
    | some (.handle _) => true
    | _ => false
  | _ => false

namespace Session

open Machine (Issued)

/-- The handle that a request issues. -/
def issues [Yaml.Parser] (s : Session) (request : Request) : Option Handle :=
  if request.relays then none else (s.perform request).1.handle?

/-- The session and the frame of the handle stay open throughout the requests. -/
def Spares [Yaml.Parser] (h : Handle) : Session → List Request → Prop
  | _, [] => True
  | s, request :: rest =>
    let next := (s.perform request).2
    next.machine.closed = false ∧ h.frame < next.machine.handles.depth ∧
      Spares h next rest

variable {s : Session}

instance decidableSpares [Yaml.Parser] (h : Handle) : (s : Session) → (rest : List Request) →
    Decidable (Spares h s rest)
  | _, [] => .isTrue trivial
  | s, request :: rest =>
    have := decidableSpares h (s.perform request).2 rest
    inferInstanceAs (Decidable (_ ∧ _ ∧ _))

theorem issued_onMachine (s : Session) {f : Machine → Machine.Reply Handle}
    (hf : Issued s.machine (f s.machine)) :
    Issued s.machine ((s.onMachine f).1, (s.onMachine f).2.machine) := by
  refine ⟨hf.carried, fun h hh => hf.resolves h ?_⟩
  dsimp only [onMachine] at hh
  cases hanswer : (f s.machine).1 with
  | error e =>
      rw [hanswer] at hh
      cases hh
  | ok h' =>
      rw [hanswer] at hh
      cases hh
      rfl

/-- Rooting a value issues a handle. -/
theorem issued_root (s : Session) (v : Value) :
    Issued s.machine ((s.onMachine (·.newHandle v)).1,
      (s.onMachine (·.newHandle v)).2.machine) :=
  s.issued_onMachine (s.machine.issued_newHandle v)

theorem issued_global (s : Session) (name : String) :
    Issued s.machine ((s.global name).1, (s.global name).2.machine) := by
  unfold global symbol
  dsimp only
  split
  · exact .refuse (.refl _) _
  · exact issued_root { s with symbols := (s.symbols.intern name).2 } _

theorem issued_newTuple (s : Session) (fields : List Handle) :
    Issued s.machine ((s.newTuple fields).1, (s.newTuple fields).2.machine) := by
  rw [newTuple]
  split
  · exact .refuse (.refl _) _
  · exact s.issued_onMachine (Machine.issued_newTuple _ _)

theorem issued_field (s : Session) (h : Handle) (i : Int) :
    Issued s.machine ((s.field h i).1, (s.field h i).2.machine) := by
  rw [field]
  split
  · exact .refuse (.refl _) _
  · split
    · exact .refuse (.refl _) _
    · exact s.issued_root _

/-- A host value that is not a handle is taken over and rooted. -/
theorem issued_marshal (s : Session) {x : HostValue}
    (hrelays : Request.relays (.marshal x) = false) :
    Issued s.machine ((s.marshal x).1, (s.marshal x).2.machine) := by
  rw [Request.relays] at hrelays
  rw [marshal]
  split
  · exact .refuse (.refl _) _
  · rename_i heq
    simp [heq] at hrelays
  · rename_i y _ _
    have hconvert := (s.machine.allocated_ofHost y).carried
    split
    · rename_i heq
      rw [heq] at hconvert
      exact .refuse hconvert _
    · rename_i v machine heq
      rw [heq] at hconvert
      exact .after hconvert (issued_root { s with machine := machine } v)

theorem marshal_of_relays (s : Session) {x : HostValue}
    (hrelays : Request.relays (.marshal x) = true) : (s.marshal x).2 = s := by
  rw [Request.relays] at hrelays
  rw [marshal]
  split at hrelays
  · rename_i heq
    rw [heq]
  · cases hrelays

theorem carried_load [Yaml.Parser] (s : Session) (path : String) (source : ByteArray) :
    s.machine.Carried (s.load path source).2.machine ∧
      ∀ h, (s.load path source).1 = .ok (some h) →
        (s.load path source).2.machine.Resolves h := by
  have hdone := Loading.run_rooted path source s.symbols s.machine
  have hfailed := Loading.run_restored path source s.symbols s.machine
  unfold load
  dsimp only
  split
  · rename_i hfailure
    exact ⟨(hfailed (by rw [hfailure]; rfl)).carried, fun h hh => by cases hh⟩
  · rename_i hnone
    obtain ⟨hcarried, hresult⟩ := hdone hnone
    exact ⟨hcarried, fun h hh => hresult h (Except.ok.inj hh)⟩

/-- A request that closes neither the session nor a frame carries the machine on, and a
handle that it issues has a value. -/
theorem carried_perform [Yaml.Parser] (s : Session) {request : Request} (hpop : request ≠ .popFrame)
    (hclose : request ≠ .close) :
    s.machine.Carried (s.perform request).2.machine ∧
      ∀ h, s.issues request = some h → (s.perform request).2.machine.Resolves h := by
  -- a request that issues a handle answers with it
  have issued {r : Reply Handle} (hr : Issued s.machine (r.1, r.2.machine)) :
      s.machine.Carried (r.map Answer.handle id).2.machine ∧
        ∀ h, (r.map Answer.handle id).1.handle? = some h →
          (r.map Answer.handle id).2.machine.Resolves h := by
    refine ⟨hr.carried, fun h hh => hr.resolves h ?_⟩
    obtain ⟨answer, after⟩ := r
    cases answer with
    | error e => cases hh
    | ok h' =>
        cases hh
        rfl
  cases request with
  | close => exact absurd rfl hclose
  | popFrame => exact absurd rfl hpop
  | declare name => exact ⟨(s.machine.grown_declare _).carried, fun _ hh => nomatch hh⟩
  | pushFrame => exact ⟨s.machine.carried_pushFrame, fun _ hh => nomatch hh⟩
  | collect => exact ⟨s.machine.carried_collect, fun _ hh => nomatch hh⟩
  | compile e => exact issued (s.issued_onMachine (s.machine.issued_compile e))
  | define name e =>
      exact issued (issued_onMachine { s with symbols := (s.symbols.intern name).2 }
        (s.machine.issued_define _ e))
  | evaluate h => exact issued (s.issued_onMachine (s.machine.issued_call h []))
  | call fn args => exact issued (s.issued_onMachine (s.machine.issued_call fn args))
  | global name => exact issued (s.issued_global name)
  | newInt n => exact issued (s.issued_root (.int n))
  | newTuple fields => exact issued (s.issued_newTuple fields)
  | field h i => exact issued (s.issued_field h i)
  | load path source =>
      obtain ⟨hcarried, hresolves⟩ := s.carried_load path source
      refine ⟨hcarried, fun h hh => hresolves h ?_⟩
      change (Answer.loaded (s.load path source).1).handle? = some h at hh
      cases hresult : (s.load path source).1 with
      | error e =>
          rw [hresult] at hh
          cases hh
      | ok result =>
          rw [hresult] at hh
          exact congrArg Except.ok hh
  | marshal x =>
      cases hrelays : Request.relays (.marshal x) with
      | true =>
          have hsame : (s.perform (.marshal x)).2 = s := s.marshal_of_relays hrelays
          rw [issues, hrelays, hsame]
          exact ⟨.refl _, fun _ hh => nomatch hh⟩
      | false =>
          rw [issues, hrelays]
          exact issued (s.issued_marshal hrelays)
  | kind h => exact ⟨.refl _, fun _ hh => nomatch hh⟩
  | int h => exact ⟨.refl _, fun _ hh => nomatch hh⟩
  | size h => exact ⟨.refl _, fun _ hh => nomatch hh⟩
  | inspect h => exact ⟨.refl _, fun _ hh => nomatch hh⟩
  | unmarshal h => exact ⟨.refl _, fun _ hh => nomatch hh⟩
  | unmarshalInto h out => exact ⟨.refl _, fun _ hh => nomatch hh⟩
  | stats => exact ⟨.refl _, fun _ hh => nomatch hh⟩

end Session

namespace Machine

variable {m : Machine} {v : Value}

/-- What can be reached from a value of a program: every object is live, and the body
of a closure is code that is there. -/
theorem Sound.object (hsound : m.Sound) (hv : Typed m.world .data v) {a : Nat}
    (ha : m.heap.Reach [v] a) :
    ∃ c, m.heap.cells[a]? = some c ∧ c.mark = .white ∧
      (c.tag = .closure → ∃ env offset captured is, c.fields = #[env, .code offset] ∧
        m.code.At offset is ∧ Disciplined m.globals.size captured 0 false [] is) := by
  obtain ⟨shape, u, htyped, hu⟩ := Typed.of_reach (w := m.world)
    (fun u hu _ _ => ⟨.data, by rwa [List.mem_singleton.1 hu]⟩) ha
  have hlive {c : Cell} (hcell : m.heap.cells[a]? = some c)
      (htag : c.tag ≠ Cell.poisoned.tag) : c.mark = .white := by
    by_cases hmark : c.mark = .white
    · exact hmark
    · exact absurd (congrArg Cell.tag (hsound.tidy.dead a c hcell hmark)) htag
  cases htyped with
  | int n => cases hu
  | nil => cases hu
  | tuple hcell htag _ =>
      cases hu
      refine ⟨_, hcell, hlive hcell ?_, ?_⟩
      · rw [htag]
        decide
      · intro hclosure
        rw [htag] at hclosure
        cases hclosure
  | cons hcell htag _ _ _ =>
      cases hu
      refine ⟨_, hcell, hlive hcell ?_, ?_⟩
      · rw [htag]
        decide
      · intro hclosure
        rw [htag] at hclosure
        cases hclosure
  | closure hcell htag hfields _ hat hdisciplined =>
      cases hu
      refine ⟨_, hcell, hlive hcell ?_, fun _ => ⟨_, _, _, _, hfields, hat, hdisciplined⟩⟩
      rw [htag]
      decide

end Machine

namespace Session

/-- One request that leaves the frame of a handle open. -/
theorem held_perform [Yaml.Parser] {s : Session} {start : Machine} {h : Handle} {v : Value}
    (hheld : start.Held h v s.machine) {request : Request}
    (hopen : (s.perform request).2.machine.closed = false)
    (hframe : h.frame < (s.perform request).2.machine.handles.depth) :
    start.Held h v (s.perform request).2.machine := by
  by_cases hpop : request = .popFrame
  · subst hpop
    exact hheld.popFrame hframe
  · by_cases hclose : request = .close
    · subst hclose
      have hclosed : s.machine.close.2.closed = true := by
        rw [Machine.close, Machine.whenOpen]
        split
        · assumption
        · rfl
      exact absurd (hopen.symm.trans hclosed) Bool.false_ne_true
    · exact hheld.carried (s.carried_perform hpop hclose).1

/-- All requests, for as long as the frame stays open. -/
theorem held_after [Yaml.Parser] {s : Session} {start : Machine} {h : Handle} {v : Value}
    (hheld : start.Held h v s.machine) (hopen : s.machine.closed = false)
    {rest : List Request} (hspares : Spares h s rest) :
    start.Held h v (s.after rest).machine ∧ (s.after rest).machine.closed = false := by
  induction rest generalizing s with
  | nil => exact ⟨hheld, hopen⟩
  | cons request rest ih =>
      obtain ⟨hopen, hframe, hrest⟩ := hspares
      exact ih (held_perform hheld hopen hframe) hopen hrest

variable (owner : Nat) (limits : Limits) (logLevel : Option LogLevel)
  (watch : Option Watch) (horizon : Nat)

/-- Handles are stable: from the request that issues a handle on, whatever else the host
asks for, until it closes the frame of the handle or the session, the handle has the same
value; every object that the value leads to is live and stays exactly what it was; and
the code that was there stays where it was, with the whole body of every closure among
those objects. -/
theorem handles_are_stable [Yaml.Parser] (before : List Request) (request : Request)
    (rest : List Request) (h : Handle) :
    let s := (fresh owner limits logLevel watch horizon).after before
    let issued := (s.perform request).2
    let later := issued.after rest
    s.issues request = some h → Spares h issued rest →
      ∃ v, issued.machine.value h = .ok v ∧ later.machine.value h = .ok v ∧
        issued.machine.code.bytes.toList <+: later.machine.code.bytes.toList ∧
        ∀ a, issued.machine.heap.Reach [v] a → ∃ c,
          issued.machine.heap.cells[a]? = some c ∧
          later.machine.heap.cells[a]? = some c ∧ c.mark = .white ∧
          (c.tag = .closure → ∃ env offset captured is,
            c.fields = #[env, .code offset] ∧
            Disciplined issued.machine.globals.size captured 0 false [] is ∧
            issued.machine.code.At offset is ∧ later.machine.code.At offset is) := by
  intro s issued later hissues hspares
  have hR := Machine.inOrder_congruence
  have hlinked : Linked Machine.InOrder s s :=
    ((inOrder_fresh owner limits logLevel watch horizon).after hR before).2
  have hstable := (hlinked.perform hR request).2.machine.2
  have hpop : request ≠ .popFrame := by
    rintro rfl
    cases hissues
  have hclose : request ≠ .close := by
    rintro rfl
    cases hissues
  obtain ⟨hopen, v, hget⟩ := (s.carried_perform hpop hclose).2 h hissues
  have hsound := hstable.sound hopen
  have htyped := hsound.handles v (Machine.Congruence.mem_values_of_get hget)
  have hheld : issued.machine.Held h v issued.machine :=
    ⟨hget, List.prefix_refl _, hsound.tidy, .refl _ _⟩
  obtain ⟨hlater, hopen'⟩ := held_after hheld hopen hspares
  have hvalue {m : Machine} (hopen : m.closed = false) (hget : m.handles.get h = .ok v) :
      m.value h = .ok v := by
    rw [Machine.value, hopen]
    exact hget
  refine ⟨v, hvalue hopen hget, hvalue hopen' hlater.value, hlater.code, fun a ha => ?_⟩
  obtain ⟨c, hcell, hlive, hbody⟩ := hsound.object htyped ha
  refine ⟨c, hcell, hlater.heap a c ha hcell, hlive, fun htag => ?_⟩
  obtain ⟨env, offset, captured, is, hfields, hat, hdisciplined⟩ := hbody htag
  exact ⟨env, offset, captured, is, hfields, hdisciplined, hat, hat.mono hlater.code⟩

/-- The identity function, held through a call in an inner frame, a collection, a program
that fails to load and the end of that frame. -/
theorem handles_are_stable_identity :
    let s := (fresh 0 {} none none 9).after
      [.compile (.lam {} ⟨0, "x"⟩ (.var {} (some ⟨0, "x"⟩)))]
    let issued := (s.perform (.evaluate ⟨0, 0, 0, 1⟩)).2
    let rest : List Request := [.pushFrame, .newInt 3,
      .call ⟨0, 0, 1, 1⟩ [⟨0, 1, 0, 2⟩], .collect, .load "p" "[", .popFrame, .collect]
    s.issues (.evaluate ⟨0, 0, 0, 1⟩) = some ⟨0, 0, 1, 1⟩ ∧
      Spares ⟨0, 0, 1, 1⟩ issued rest ∧
      (issued.machine.value ⟨0, 0, 1, 1⟩).toOption = some (.ref .closure 1) ∧
      ∃ v, issued.machine.value ⟨0, 0, 1, 1⟩ = .ok v ∧
        (issued.after rest).machine.value ⟨0, 0, 1, 1⟩ = .ok v ∧
        ∀ a, issued.machine.heap.Reach [v] a → ∃ c,
          issued.machine.heap.cells[a]? = some c ∧
          (issued.after rest).machine.heap.cells[a]? = some c := by
  refine ⟨by decide +kernel, by decide +kernel, by decide +kernel, ?_⟩
  obtain ⟨v, hissued, hlater, _, hgraph⟩ := handles_are_stable 0 {} none none 9
    [.compile (.lam {} ⟨0, "x"⟩ (.var {} (some ⟨0, "x"⟩)))] (.evaluate ⟨0, 0, 0, 1⟩)
    [.pushFrame, .newInt 3, .call ⟨0, 0, 1, 1⟩ [⟨0, 1, 0, 2⟩], .collect, .load "p" "[",
      .popFrame, .collect] ⟨0, 0, 1, 1⟩ (by decide +kernel) (by decide +kernel)
  refine ⟨v, hissued, hlater, fun a ha => ?_⟩
  obtain ⟨c, hcell, hcell', _⟩ := hgraph a ha
  exact ⟨c, hcell, hcell'⟩

end Session

end Zinc
