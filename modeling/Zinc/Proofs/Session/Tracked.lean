import Zinc.Proofs.Session.Grant

/-!
The closures that a host has got from definitions, throughout whatever it asks for.  A
session remembers none of this; it is read off the requests.  The object of such a closure
is identified by its address, which no later object is given, and the global that it is
granted by the name that the host gave, which keeps its slot.
-/

namespace Zinc

namespace Machine

variable {m : Machine}

theorem code_addHandle (m : Machine) (v : Value) : (m.addHandle v).2.code = m.code := by
  rw [addHandle]
  split <;> rfl

theorem code_newHandle (m : Machine) (v : Value) : (m.newHandle v).2.code = m.code := by
  rw [newHandle, whenOpen]
  split
  · rfl
  · exact m.code_addHandle v

theorem Allocated.code {m' : Machine} (h : m.Allocated m') : m'.code = m.code := by
  obtain ⟨_, _⟩ := h
  rfl

theorem code_newTuple (m : Machine) (fields : List Value) :
    (m.newTuple fields).2.code = m.code := by
  rw [newTuple, whenFramed, whenOpen]
  split
  · rfl
  · split
    · rfl
    · have halloc := (m.allocated_allocTuple fields).code
      split
      · rename_i heq
        rwa [heq] at halloc
      · rename_i v after heq
        rw [heq] at halloc
        exact (after.code_addHandle v).trans halloc

theorem code_call (m : Machine) (fn : Handle) (args : List Handle) :
    (m.call fn args).2.code = m.code := by
  rw [call, whenOpen]
  split
  · rfl
  · split
    · rfl
    · rename_i callee _
      split
      · rfl
      · split
        · rfl
        · rename_i vs _
          have hrun := (m.evaluated_run callee vs).code
          split
          · rename_i heq
            rwa [heq] at hrun
          · rename_i v after heq
            rw [heq] at hrun
            exact (after.code_addHandle v).trans hrun

theorem code_close (m : Machine) : m.close.2.code = m.code := by
  rw [close, whenOpen]
  split <;> rfl

theorem code_pushFrame (m : Machine) : m.pushFrame.2.code = m.code := by
  rw [pushFrame, whenOpen]
  split
  · rfl
  · split <;> rfl

theorem code_popFrame (m : Machine) : m.popFrame.2.code = m.code := by
  rw [popFrame, whenOpen]
  split
  · rfl
  · split <;> rfl

theorem code_collect (m : Machine) : m.collect.2.code = m.code := by
  rw [collect, whenOpen]
  split <;> rfl

theorem code_declare (m : Machine) (s : Symbol) : (m.declare s).2.code = m.code := by
  rw [declare, whenOpen]
  split <;> rfl

end Machine

/-- A source that is decoded leaves every name its symbol. -/
theorem Document.lookup?_parse [Yaml.Parser] {source : ByteArray}
    {symbols symbols' : SymbolTable} {d : Document}
    (h : parse source symbols = .ok (d, symbols')) {name : String} {t : Symbol}
    (ht : symbols.lookup? name = some t) : symbols'.lookup? name = some t := by
  rw [parse] at h
  split at h
  · cases h
  · cases h
  · rename_i node _
    cases hdecoded : ofNode node { symbols } with
    | error f =>
        rw [hdecoded] at h
        cases h
    | ok r =>
        obtain ⟨d', names⟩ := r
        rw [hdecoded] at h
        cases h
        exact (ofNode_traced hdecoded).keeps name t ht

namespace Loading

theorem symbols_fail (l : Loading) (f : Failure) : (l.fail f).symbols = l.symbols := by
  rw [fail]
  split <;> rfl

theorem symbols_settle (l : Loading) (failure : Option Failure) :
    (l.settle failure).symbols = l.symbols := by
  cases failure with
  | none => rfl
  | some f => exact l.symbols_fail f

theorem lookup?_stage [Yaml.Parser] (l : Loading) (s : Stage) {name : String} {t : Symbol}
    (ht : l.symbols.lookup? name = some t) : (l.stage s).symbols.lookup? name = some t := by
  cases hfailure : l.failure with
  | some f =>
      rw [stage_of_failed (by rw [hfailure]; rfl)]
      exact ht
  | none =>
      rw [stage_of_going hfailure]
      cases s with
      | decode =>
          dsimp only [decode]
          split
          · rw [symbols_fail]
            exact ht
          · rename_i hparse
            exact Document.lookup?_parse hparse ht
      | lower =>
          dsimp only [lower]
          rw [symbols_settle]
          exact ht
      | compile =>
          dsimp only [compile]
          rw [symbols_settle]
          exact ht
      | evaluate =>
          dsimp only [evaluate]
          split
          · rw [symbols_fail]
            exact ht
          · split <;> exact ht

/-- Loading a program leaves every name its symbol. -/
theorem lookup?_run [Yaml.Parser] (stages : List Stage) (l : Loading) {name : String} {t : Symbol}
    (ht : l.symbols.lookup? name = some t) : (l.run stages).symbols.lookup? name = some t := by
  induction stages generalizing l with
  | nil => exact ht
  | cons s rest ih => exact ih (l.stage s) (l.lookup?_stage s ht)

end Loading

namespace Session

variable {s : Session}

/-- What adds code to a session: an expression or a definition that is compiled, and a
program that loads. -/
inductive Adds [Yaml.Parser] (s : Session) : Request → Prop where
  | compile (e : Expr) : Adds s (.compile e)
  | define (name : String) (e : Expr) : Adds s (.define name e)
  | load {path : String} {source : ByteArray} {result : Option Handle} :
      (s.load path source).1 = .ok result → Adds s (.load path source)

theorem code_marshal (s : Session) (x : HostValue) :
    (s.marshal x).2.machine.code = s.machine.code := by
  rw [marshal]
  split
  · rfl
  · rfl
  · rename_i y _ _
    have halloc := (s.machine.allocated_ofHost y).code
    split
    · rename_i heq
      rwa [heq] at halloc
    · rename_i v machine heq
      rw [heq] at halloc
      exact (machine.code_newHandle v).trans halloc

/-- Nothing else changes the code. -/
theorem code_perform [Yaml.Parser] (s : Session) (request : Request) :
    (s.perform request).2.machine.code = s.machine.code ∨ s.Adds request := by
  cases request with
  | close => exact .inl s.machine.code_close
  | declare name => exact .inl (s.machine.code_declare _)
  | compile e => exact .inr (.compile e)
  | define name e => exact .inr (.define name e)
  | evaluate h => exact .inl (s.machine.code_call h [])
  | call fn args => exact .inl (s.machine.code_call fn args)
  | global name =>
      refine .inl ?_
      change (s.global name).2.machine.code = _
      rw [global, symbol]
      dsimp only
      split
      · rfl
      · exact s.machine.code_newHandle _
  | pushFrame => exact .inl s.machine.code_pushFrame
  | popFrame => exact .inl s.machine.code_popFrame
  | newInt n => exact .inl (s.machine.code_newHandle _)
  | newTuple fields =>
      refine .inl ?_
      change (s.newTuple fields).2.machine.code = _
      rw [newTuple]
      split
      · rfl
      · exact s.machine.code_newTuple _
  | field h i =>
      refine .inl ?_
      change (s.field h i).2.machine.code = _
      rw [field]
      split
      · rfl
      · split
        · rfl
        · exact s.machine.code_newHandle _
  | collect => exact .inl s.machine.code_collect
  | load path source =>
      have hback := Loading.run_restored path source s.symbols s.machine
      cases hanswer : (s.load path source).1 with
      | ok result => exact .inr (.load hanswer)
      | error f =>
          refine .inl ?_
          change (s.load path source).2.machine.code = _
          unfold load at hanswer ⊢
          dsimp only at hanswer ⊢
          split at hanswer
          · rename_i hfailure
            exact (hback (by rw [hfailure]; rfl)).code
          · cases hanswer
  | marshal x => exact .inl (s.code_marshal x)
  | kind h => exact .inl rfl
  | int h => exact .inl rfl
  | size h => exact .inl rfl
  | inspect h => exact .inl rfl
  | unmarshal h => exact .inl rfl
  | unmarshalInto h out => exact .inl rfl
  | stats => exact .inl rfl

/-- The slot of a global that the session knows by name. -/
def slot? (s : Session) (name : String) : Option Nat :=
  (s.symbols.lookup? name).bind s.machine.globals.slot?

/-- The closure that a request defines a global with: its address, and the name. -/
def defines (s : Session) : Request → List (Nat × String)
  | .define name e =>
    match s.define name e with
    | (.ok fn, s) =>
      match s.machine.value fn with
      | .ok (.ref .closure a) => [(a, name)]
      | _ => []
    | (.error _, _) => []
  | _ => []

/-- The closures that requests define globals with, one after the other. -/
def definitions [Yaml.Parser] : Session → List Request → List (Nat × String)
  | _, [] => []
  | s, request :: rest => s.defines request ++ definitions (s.perform request).2 rest

/-- Each of the closures is granted the slot of its name. -/
def grants (defs : List (Nat × String)) (s : Session) (a : Nat) (k : UInt16) : Prop :=
  ∃ name i, (a, name) ∈ defs ∧ s.slot? name = some i ∧ k = UInt16.ofNat i

theorem defines_eq_nil {name : String} {e : Expr} {f : Failure}
    (h : (s.define name e).1 = .error f) : s.defines (.define name e) = [] := by
  rw [defines]
  generalize s.define name e = reply at *
  obtain ⟨_, after⟩ := reply
  cases h
  rfl

theorem defines_eq_singleton {name : String} {e : Expr} {fn : Handle} {a : Nat}
    (h : (s.define name e).1 = .ok fn)
    (hvalue : (s.define name e).2.machine.value fn = .ok (.ref .closure a)) :
    s.defines (.define name e) = [(a, name)] := by
  rw [defines]
  generalize s.define name e = reply at *
  obtain ⟨_, after⟩ := reply
  cases h
  dsimp only at hvalue ⊢
  rw [hvalue]

theorem lookup?_intern (symbols : SymbolTable) (name : String) :
    (symbols.intern name).2.lookup? name = some (symbols.intern name).1 :=
  Names.lookup?_intern { symbols } name

/-- A name keeps its symbol. -/
theorem lookup?_perform [Yaml.Parser] (request : Request) {name : String} {t : Symbol}
    (h : s.symbols.lookup? name = some t) :
    (s.perform request).2.symbols.lookup? name = some t := by
  have hintern (other : String) : (s.symbols.intern other).2.lookup? name = some t :=
    Names.keeps_intern { symbols := s.symbols } other name t h
  cases request with
  | declare other => exact hintern other
  | define other e => exact hintern other
  | global other =>
      change (s.global other).2.symbols.lookup? name = _
      rw [global, symbol]
      dsimp only
      split
      · exact hintern other
      · exact hintern other
  | load path source =>
      change (s.load path source).2.symbols.lookup? name = _
      have hrun := Loading.lookup?_run Stage.all
        { path, source, symbols := s.symbols, machine := s.machine } h
      unfold load
      dsimp only
      split <;> exact hrun
  | newTuple fields =>
      change (s.newTuple fields).2.symbols.lookup? name = _
      rw [newTuple]
      split <;> exact h
  | field fn i =>
      change (s.field fn i).2.symbols.lookup? name = _
      rw [field]
      split
      · exact h
      · split <;> exact h
  | marshal x =>
      change (s.marshal x).2.symbols.lookup? name = _
      rw [marshal]
      split
      · exact h
      · exact h
      · split <;> exact h
  | _ => exact h

open Machine (Keeping Sheltered granting)

/-- The closures that definitions gave were once given out, their names have slots, and they
are granted those and nothing else. -/
structure Tracked (defs : List (Nat × String)) (s : Session) : Prop where
  stable : Machine.Stable [] s.machine
  regs : s.machine.regs = {}
  named : ∀ d ∈ defs, ∃ i, s.slot? d.2 = some i
  bound : ∀ d ∈ defs, d.1 < s.machine.heap.cells.size
  sheltered : s.machine.Sheltered (grants defs s)

namespace Tracked

variable {defs : List (Nat × String)}

theorem granted_lt (h : Tracked defs s) {a : Nat} {k : UInt16} (hk : grants defs s a k) :
    a < s.machine.heap.cells.size := by
  obtain ⟨name, _, hmem, _⟩ := hk
  exact h.bound (a, name) hmem

/-- What every request keeps. -/
theorem keeping [Yaml.Parser] (h : Tracked defs s) (request : Request) :
    Keeping (grants defs s) s.machine [] (s.perform request).2.machine := by
  have hlinked : Linked (fun vs m m' => m' = m ∧ Keeping (grants defs s) s.machine vs m) s s :=
    ⟨rfl, rfl, .refl h.stable h.regs h.sheltered⟩
  have hR : Machine.Congruence (Machine.Fresh s.machine)
      fun vs m m' => m' = m ∧ Keeping (grants defs s) s.machine vs m :=
    Machine.keeping_congruence fun _ _ => h.granted_lt
  exact (hlinked.perform hR request).2.machine.2

theorem slot?_perform [Yaml.Parser] (h : Tracked defs s) (request : Request) {name : String}
    {i : Nat} (hslot : s.slot? name = some i) : (s.perform request).2.slot? name = some i := by
  obtain ⟨t, ht, hi⟩ := Option.bind_eq_some_iff.1 hslot
  exact Option.bind_eq_some_iff.2
    ⟨t, lookup?_perform request ht, (h.keeping request).globals.slot? hi⟩

/-- The grants of older definitions stay what they are. -/
theorem grants_perform [Yaml.Parser] (h : Tracked defs s) (request : Request) :
    grants defs (s.perform request).2 = grants defs s := by
  funext a k
  refine propext ⟨?_, ?_⟩
  · rintro ⟨name, i, hmem, hslot, rfl⟩
    obtain ⟨j, hj⟩ := h.named _ hmem
    obtain rfl := Option.some.inj ((h.slot?_perform request hj).symm.trans hslot)
    exact ⟨name, j, hmem, hj, rfl⟩
  · rintro ⟨name, i, hmem, hslot, rfl⟩
    exact ⟨name, i, hmem, h.slot?_perform request hslot, rfl⟩

/-- A request that defines nothing leaves the machine fenced. -/
theorem sheltered_perform [Yaml.Parser] (h : Tracked defs s) {request : Request}
    (hdefines : ∀ name e, request ≠ .define name e) :
    (s.perform request).2.machine.Sheltered (grants defs s) := by
  have hkeeping := h.keeping request
  rcases s.code_perform request with hcode | ⟨e⟩ | ⟨name, e⟩ | @⟨path, source, result, hloaded⟩
  · exact fun hopen => hkeeping.fenced hopen (congrArg Code.size hcode)
  · intro hopen
    have hopen := hkeeping.opened hopen
    exact (h.sheltered hopen).compile (h.stable.sound hopen) e
  · exact absurd rfl (hdefines name e)
  · have hall := Loading.sheltered_all (fun _ _ => h.granted_lt) h.stable h.regs h.sheltered
      path source s.symbols
    change (s.load path source).2.machine.Sheltered _
    unfold load at hloaded ⊢
    dsimp only at hloaded ⊢
    split at hloaded
    · cases hloaded
    · rename_i hnone
      exact hall hnone

/-- A definition adds the grant of its closure. -/
theorem sheltered_define [Yaml.Parser] (h : Tracked defs s) (name : String) (e : Expr) :
    let s' := (s.perform (.define name e)).2
    let new := s.defines (.define name e)
    s'.machine.Sheltered (grants (defs ++ new) s') ∧
      ∀ d ∈ new, (∃ i, s'.slot? d.2 = some i) ∧ d.1 < s'.machine.heap.cells.size := by
  intro s' new
  have hkeeping := h.keeping (.define name e)
  have hgrants := h.grants_perform (.define name e)
  let t := (s.symbols.intern name).1
  have hlookup : s'.symbols.lookup? name = some t := lookup?_intern s.symbols name
  have hmachine : s'.machine = (s.machine.define t e).2 := rfl
  have hissued := s.machine.issued_define t e
  have hreply : (s.define name e).1 = (s.machine.define t e).1.mapError .fault := rfl
  cases hanswer : (s.machine.define t e).1 with
  | error f =>
      have hnone : new = [] := defines_eq_nil (f := .fault f) (by rw [hreply, hanswer]; rfl)
      rw [hnone, List.append_nil]
      refine ⟨fun hopen => ?_, fun d hd => absurd hd List.not_mem_nil⟩
      have hopen := hkeeping.opened hopen
      rw [hgrants]
      exact ((h.sheltered hopen).define (h.stable.sound hopen) t e).1 f hanswer
  | ok fn =>
      obtain ⟨hopen', _⟩ := hissued.resolves fn hanswer
      have hopen := hkeeping.opened hopen'
      obtain ⟨i, hslot, hget, hsize, hfenced⟩ :=
        ((h.sheltered hopen).define (h.stable.sound hopen) t e).2 fn hanswer
      have hslot : s'.slot? name = some i := Option.bind_eq_some_iff.2 ⟨t, hlookup, hslot⟩
      have hvalue : s'.machine.value fn = .ok (.ref .closure s.machine.heap.cells.size) := by
        rw [Machine.value, if_neg (by rw [hmachine, hopen']; exact Bool.false_ne_true)]
        exact hget
      have hnew : new = [(s.machine.heap.cells.size, name)] :=
        defines_eq_singleton (by rw [hreply, hanswer]; rfl) hvalue
      have hgranting : grants (defs ++ new) s' =
          granting (grants defs s) s.machine.heap.cells.size i := by
        rw [hnew, ← hgrants]
        funext a k
        refine propext ⟨?_, ?_⟩
        · rintro ⟨other, j, hmem, hj, rfl⟩
          rcases List.mem_append.1 hmem with hold | hmem
          · exact .inl ⟨other, j, hold, hj, rfl⟩
          · cases List.mem_singleton.1 hmem
            obtain rfl := Option.some.inj (hslot.symm.trans hj)
            exact .inr ⟨rfl, rfl⟩
        · rintro (⟨other, j, hmem, hj, rfl⟩ | ⟨rfl, rfl⟩)
          · exact ⟨other, j, List.mem_append_left _ hmem, hj, rfl⟩
          · exact ⟨name, i, List.mem_append_right _ List.mem_cons_self, hslot, rfl⟩
      refine ⟨fun _ => hgranting ▸ hfenced, fun d hd => ?_⟩
      rw [hnew] at hd
      cases List.mem_singleton.1 hd
      refine ⟨⟨i, hslot⟩, ?_⟩
      rw [hmachine, hsize]
      exact Nat.lt_succ_self _

/-- Whatever a host asks for, its definitions stay tracked. -/
theorem perform [Yaml.Parser] (h : Tracked defs s) (request : Request) :
    Tracked (defs ++ s.defines request) (s.perform request).2 := by
  have hkeeping := h.keeping request
  have hold : ∀ d ∈ defs, (∃ i, (s.perform request).2.slot? d.2 = some i) ∧
      d.1 < (s.perform request).2.machine.heap.cells.size := fun d hd => by
    obtain ⟨i, hi⟩ := h.named d hd
    exact ⟨⟨i, h.slot?_perform request hi⟩, Nat.lt_of_lt_of_le (h.bound d hd) hkeeping.heap⟩
  obtain ⟨hsheltered, hnew⟩ : (s.perform request).2.machine.Sheltered
        (grants (defs ++ s.defines request) (s.perform request).2) ∧
      ∀ d ∈ s.defines request, (∃ i, (s.perform request).2.slot? d.2 = some i) ∧
        d.1 < (s.perform request).2.machine.heap.cells.size := by
    by_cases hdefine : ∃ name e, request = .define name e
    · obtain ⟨name, e, rfl⟩ := hdefine
      exact h.sheltered_define name e
    · have hne : ∀ name e, request ≠ .define name e :=
        fun name e heq => hdefine ⟨name, e, heq⟩
      have hnone : s.defines request = [] := by
        cases request with
        | define name e => exact absurd rfl (hne name e)
        | _ => rfl
      rw [hnone, List.append_nil, h.grants_perform]
      exact ⟨h.sheltered_perform hne, fun d hd => absurd hd List.not_mem_nil⟩
  have hall : ∀ d ∈ defs ++ s.defines request,
      (∃ i, (s.perform request).2.slot? d.2 = some i) ∧
        d.1 < (s.perform request).2.machine.heap.cells.size := fun d hd =>
    (List.mem_append.1 hd).elim (hold d) (hnew d)
  exact ⟨hkeeping.stable, hkeeping.regs, fun d hd => (hall d hd).1, fun d hd => (hall d hd).2,
    hsheltered⟩

theorem after [Yaml.Parser] (h : Tracked defs s) (requests : List Request) :
    Tracked (defs ++ s.definitions requests) (s.after requests) := by
  induction requests generalizing defs s with
  | nil =>
      rw [definitions, List.append_nil]
      exact h
  | cons request rest ih =>
      rw [definitions, ← List.append_assoc]
      exact ih (h.perform request)

end Tracked

/-- A new session has nothing to watch. -/
theorem tracked_fresh (owner : Nat) (limits : Limits) (logLevel : Option LogLevel)
    (watch : Option Watch) (horizon : Nat) :
    Tracked [] (fresh owner limits logLevel watch horizon) := by
  have hstable := (inOrder_fresh owner limits logLevel watch horizon).machine.2
  refine ⟨hstable, ?_, fun d hd => absurd hd List.not_mem_nil,
    fun d hd => absurd hd List.not_mem_nil, fun _ => ?_⟩
  · rcases logLevel with _ | (_ | _) <;> rfl
  · have hregion (ok : Nat → Value → Int → Prop) (h : Heap) : h.Region ok fun _ => False :=
      ⟨fun _ ha => ha.elim, fun _ ha => ha.elim, fun _ _ _ ha => ha.elim⟩
    have hempty : (fresh owner limits logLevel watch horizon).machine.globals.entries = #[] ∧
        (fresh owner limits logLevel watch horizon).machine.handles.values = [] := by
      rcases logLevel with _ | (_ | _) <;> exact ⟨rfl, rfl⟩
    obtain ⟨hglobals, hhandles⟩ := hempty
    refine ⟨⟨fun _ => False, fun _ => False⟩,
      ⟨⟨fun a k hk => ?_, fun _ ha => ha, hregion _ _, hregion _ _⟩, ?_⟩, ?_⟩
    · obtain ⟨_, _, hmem, _⟩ := hk
      exact absurd hmem List.not_mem_nil
    · rw [hglobals]
      exact fun g hg => absurd hg (Array.not_mem_empty g)
    · rw [hhandles]
      exact fun v hv => absurd hv List.not_mem_nil

end Session

end Zinc
