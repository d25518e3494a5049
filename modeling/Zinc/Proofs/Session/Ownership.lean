import Zinc.Proofs.Machine.Moved
import Zinc.Proofs.Session.Held
import Zinc.Yaml.Parser

/-!
Handles belong to the session that issued them, for as long as their frame is open.  Every
request that is given a handle looks up its value, also where the handle is deep inside a
host value, and is refused when there is none.  The one request that does not look is the
one that hands a handle itself over: it gets the handle back as it is.
-/

namespace Zinc

namespace Session

variable {s : Session}

theorem moved_newTuple (s : Session) (fields : List Handle) :
    s.machine.handles.Moved (s.newTuple fields).2.machine.handles := by
  rw [newTuple]
  split
  · exact .refl
  · exact s.machine.moved_newTuple _

theorem moved_global (s : Session) (name : String) :
    s.machine.handles.Moved (s.global name).2.machine.handles := by
  unfold global symbol
  dsimp only
  split
  · exact .refl
  · exact s.machine.moved_newHandle _

theorem moved_field (s : Session) (h : Handle) (i : Int) :
    s.machine.handles.Moved (s.field h i).2.machine.handles := by
  rw [field]
  split
  · exact .refl
  · split
    · exact .refl
    · exact s.machine.moved_newHandle _

theorem moved_marshal (s : Session) (x : HostValue) :
    s.machine.handles.Moved (s.marshal x).2.machine.handles := by
  rw [marshal]
  split
  · exact .refl
  · exact .refl
  · rename_i y _ _
    have halloc := (s.machine.allocated_ofHost y).handles
    split
    · rename_i heq
      rw [heq] at halloc
      exact .of_eq halloc
    · rename_i v machine heq
      rw [heq] at halloc
      exact (HandleStack.Moved.of_eq halloc).trans (machine.moved_newHandle v)

/-- A request moves the handles and does nothing else to them. -/
theorem moved_perform [Yaml.Parser] (s : Session) (request : Request) :
    s.machine.handles.Moved (s.perform request).2.machine.handles := by
  cases request with
  | close => exact s.machine.moved_close
  | declare name => exact (s.machine.grown_declare _).moved
  | compile e => exact s.machine.moved_compile e
  | define name e => exact s.machine.moved_define _ e
  | evaluate h => exact s.machine.moved_call h []
  | call fn args => exact s.machine.moved_call fn args
  | global name => exact s.moved_global name
  | pushFrame => exact s.machine.moved_pushFrame
  | popFrame => exact s.machine.moved_popFrame
  | newInt n => exact s.machine.moved_newHandle _
  | newTuple fields => exact s.moved_newTuple fields
  | field h i => exact s.moved_field h i
  | collect => exact s.machine.moved_collect
  | load path source =>
      have hrun := Loading.moved_run
        { path, source, symbols := s.symbols, machine := s.machine } Stage.all
      change s.machine.handles.Moved (s.load path source).2.machine.handles
      unfold load
      dsimp only
      split <;> exact hrun
  | marshal x => exact s.moved_marshal x
  | kind h => exact .refl
  | int h => exact .refl
  | size h => exact .refl
  | inspect h => exact .refl
  | unmarshal h => exact .refl
  | unmarshalInto h out => exact .refl
  | stats => exact .refl

theorem moved_after [Yaml.Parser] (s : Session) (requests : List Request) :
    s.machine.handles.Moved (s.after requests).machine.handles := by
  induction requests generalizing s with
  | nil => exact .refl
  | cons request rest ih => exact (s.moved_perform request).trans (ih _)

end Session

namespace HostValue

mutual

/-- The handles in a host value that a session can see. -/
def handles : HostValue → List Handle
  | .handle h => [h]
  | .any (some x) | .ptr _ (some x) => x.handles
  | .slice _ items | .array _ items => itemHandles items
  | .struct fields values => fieldHandles fields values
  | _ => []

/-- The handles in some items. -/
def itemHandles : List HostValue → List Handle
  | [] => []
  | x :: rest => x.handles ++ itemHandles rest

/-- The handles in the fields that can be seen. -/
def fieldHandles : FieldTypes → List HostValue → List Handle
  | .cons name _ fields, x :: rest =>
    if isExported name then x.handles ++ fieldHandles fields rest
    else fieldHandles fields rest
  | _, _ => []

end

/-- A value passed on as one of any type has the same handles. -/
theorem handles_dynamic {x y : HostValue} (hy : x.dynamic? = some y) :
    y.handles = x.handles := by
  fun_induction dynamic? x with
  | case1 => cases hy
  | case2 v ih => exact ih hy
  | case3 x =>
      cases hy
      rfl

end HostValue

/-- Whether a request is one of those that take handles. -/
def Request.takesHandles : Request → Bool
  | .evaluate _ | .call _ _ | .newTuple _ | .kind _ | .int _ | .size _ | .field _ _
  | .inspect _ | .unmarshal _ | .unmarshalInto _ _ | .marshal _ => true
  | _ => false

/-- The handles that a request is given. -/
def Request.given : Request → List Handle
  | .evaluate h | .kind h | .int h | .size h | .field h _ | .inspect h | .unmarshal h
  | .unmarshalInto h _ => [h]
  | .call fn args => fn :: args
  | .newTuple fields => fields
  | .marshal x => x.handles
  | _ => []

/-- Whether an answer is an error. -/
def Answer.failed : Answer → Bool
  | .done (.error _) | .handle (.error _) | .loaded (.error _) | .kind (.error _)
  | .int (.error _) | .size (.error _) | .text (.error _) | .collected (.error _)
  | .value (.error _) => true
  | _ => false

namespace Machine

/-- The machine has no value for a handle. -/
def Lacks (m : Machine) (h : Handle) : Prop :=
  ∃ f, m.value h = .error f

variable {m m' : Machine} {h : Handle}

theorem lacks_of_closed (hclosed : m.closed = true) (h : Handle) : m.Lacks h :=
  ⟨closedFault "get handle", by rw [value, if_pos hclosed]⟩

theorem Lacks.of_get (h' : ∀ v, m.handles.get h ≠ .ok v) : m.Lacks h := by
  rw [Lacks, value]
  split
  · exact ⟨_, rfl⟩
  · cases hget : m.handles.get h with
    | error f => exact ⟨f, rfl⟩
    | ok v => exact absurd hget (h' v)

theorem Allocated.lacks (halloc : m.Allocated m') (hlacks : m.Lacks h) : m'.Lacks h := by
  obtain ⟨_, _⟩ := halloc
  exact hlacks

theorem handleValues_of_lacks {args : List Handle} (hh : h ∈ args)
    (hget : ∃ f, m.handles.get h = .error f) : ∃ f, m.handleValues args = .error f := by
  induction args with
  | nil => exact absurd hh List.not_mem_nil
  | cons a rest ih =>
      rw [handleValues]
      split
      · exact ⟨_, rfl⟩
      · rename_i v hv
        rcases List.mem_cons.1 hh with rfl | hrest
        · obtain ⟨f, hf⟩ := hget
          rw [hf] at hv
          cases hv
        · obtain ⟨f, hf⟩ := ih hrest
          rw [hf]
          exact ⟨f, rfl⟩

/-- A call that is given a handle without a value is refused before anything is run. -/
theorem call_of_lacks {fn : Handle} {args : List Handle} (hh : h ∈ fn :: args)
    (hlacks : m.Lacks h) :
    (∃ f, m.call fn args = (.error f, m)) ∧ m.callRuns fn args = [] := by
  unfold call whenOpen callRuns
  by_cases hclosed : m.closed = true
  · obtain ⟨f, hf⟩ := lacks_of_closed hclosed fn
    rw [if_pos hclosed, hf]
    exact ⟨⟨_, rfl⟩, rfl⟩
  · have hvalue (k : Handle) : m.value k = m.handles.get k := by rw [value, if_neg hclosed]
    obtain ⟨f, hget⟩ := hlacks
    rw [hvalue] at hget
    rw [if_neg hclosed, hvalue]
    dsimp only
    rcases List.mem_cons.1 hh with rfl | hargs
    · rw [hget]
      exact ⟨⟨_, rfl⟩, rfl⟩
    · obtain ⟨f', hf'⟩ := handleValues_of_lacks hargs ⟨f, hget⟩
      rw [hf']
      cases hfn : m.handles.get fn with
      | error e => exact ⟨⟨_, rfl⟩, rfl⟩
      | ok callee =>
          refine ⟨?_, rfl⟩
          dsimp only
          split <;> exact ⟨_, rfl⟩

mutual

/-- A host value with a handle that has no value is refused. -/
theorem ofHost_of_lacks : (x : HostValue) → (m : Machine) → h ∈ x.handles → m.Lacks h →
    ∃ e, (ofHost x m).1 = .error e
  | .handle k, m, hh, hlacks => by
      rw [HostValue.handles, List.mem_singleton] at hh
      subst hh
      obtain ⟨f, hf⟩ := hlacks
      exact ⟨.fault f, by rw [ofHost, hf]; rfl⟩
  | .any (some x), m, hh, hlacks => by
      rw [HostValue.handles] at hh
      rw [ofHost]
      exact ofHost_of_lacks x m hh hlacks
  | .ptr _ (some x), m, hh, hlacks => by
      rw [HostValue.handles] at hh
      rw [ofHost]
      exact ofHost_of_lacks x m hh hlacks
  | .slice _ items, m, hh, hlacks => by
      rw [HostValue.handles] at hh
      obtain ⟨e, he⟩ := ofItems_of_lacks 0 items m hh hlacks
      rw [ofHost]
      split
      · exact ⟨_, rfl⟩
      · rename_i heq
        rw [heq] at he
        cases he
  | .array _ items, m, hh, hlacks => by
      rw [HostValue.handles] at hh
      obtain ⟨e, he⟩ := ofItems_of_lacks 0 items m hh hlacks
      rw [ofHost]
      split
      · exact ⟨_, rfl⟩
      · rename_i heq
        rw [heq] at he
        cases he
  | .struct fields values, m, hh, hlacks => by
      rw [HostValue.handles] at hh
      obtain ⟨e, he⟩ := ofFields_of_lacks fields values m hh hlacks
      rw [ofHost]
      split
      · exact ⟨_, rfl⟩
      · rename_i heq
        rw [heq] at he
        cases he
  | .int _ _, m, hh, _ | .bool _, m, hh, _ | .any none, m, hh, _ | .ptr _ none, m, hh, _
  | .address _, m, hh, _ | .string _, m, hh, _ | .float, m, hh, _ | .func, m, hh, _
  | .map _ _, m, hh, _ => by
      simp [HostValue.handles] at hh

theorem ofItems_of_lacks (i : Nat) : (items : List HostValue) → (m : Machine) →
    h ∈ HostValue.itemHandles items → m.Lacks h → ∃ e, (ofItems i items m).1 = .error e
  | [], m, hh, _ => by simp [HostValue.itemHandles] at hh
  | x :: rest, m, hh, hlacks => by
      have halloc : m.Allocated (inPart ("element " ++ toString i) (ofHost x m)).2 :=
        allocated_ofHost x m
      rw [HostValue.itemHandles, List.mem_append] at hh
      rw [ofItems]
      split
      · exact ⟨_, rfl⟩
      · rename_i v m' heq
        rcases hh with hx | hrest
        · obtain ⟨e, he⟩ := ofHost_of_lacks x m hx hlacks
          rw [inPart, he] at heq
          cases heq
        · rw [heq] at halloc
          obtain ⟨e, he⟩ := ofItems_of_lacks (i + 1) rest m' hrest (halloc.lacks hlacks)
          split
          · exact ⟨_, rfl⟩
          · rename_i heq'
            rw [heq'] at he
            cases he

theorem ofFields_of_lacks : (fields : FieldTypes) → (values : List HostValue) →
    (m : Machine) → h ∈ HostValue.fieldHandles fields values → m.Lacks h →
    ∃ e, (ofFields fields values m).1 = .error e
  | .cons name _ fields, x :: rest, m, hh, hlacks => by
      have halloc : m.Allocated (inPart ("field " ++ name) (ofHost x m)).2 :=
        allocated_ofHost x m
      rw [HostValue.fieldHandles] at hh
      rw [ofFields]
      by_cases hseen : isExported name = true
      · rw [if_pos hseen] at hh ⊢
        split
        · exact ⟨_, rfl⟩
        · rename_i v m' heq
          rcases List.mem_append.1 hh with hx | hrest
          · obtain ⟨e, he⟩ := ofHost_of_lacks x m hx hlacks
            rw [inPart, he] at heq
            cases heq
          · rw [heq] at halloc
            obtain ⟨e, he⟩ := ofFields_of_lacks fields rest m' hrest (halloc.lacks hlacks)
            split
            · exact ⟨_, rfl⟩
            · rename_i heq'
              rw [heq'] at he
              cases he
      · rw [if_neg hseen] at hh ⊢
        exact ofFields_of_lacks fields rest m hh hlacks
  | .nil, values, m, hh, _ => by simp [HostValue.fieldHandles] at hh
  | .cons _ _ _, [], m, hh, _ => by simp [HostValue.fieldHandles] at hh

end

end Machine

namespace Session

variable {s : Session} {h : Handle} {request : Request}

/-- A request is answered with an error; it runs nothing and issues no handle. -/
structure Refuses [Yaml.Parser] (s : Session) (request : Request) : Prop where
  failed : (s.perform request).1.failed = true
  handles : (s.perform request).2.machine.handles = s.machine.handles
  runs : s.runs request = []

theorem values_of_lacks {fields : List Handle} (hh : h ∈ fields)
    (hlacks : s.machine.Lacks h) : ∃ f, s.values fields = .error f := by
  induction fields with
  | nil => exact absurd hh List.not_mem_nil
  | cons a rest ih =>
      rw [values]
      split
      · exact ⟨_, rfl⟩
      · rename_i v hv
        rcases List.mem_cons.1 hh with rfl | hrest
        · obtain ⟨f, hf⟩ := hlacks
          rw [hf] at hv
          cases hv
        · obtain ⟨f, hf⟩ := ih hrest
          rw [hf]
          exact ⟨f, rfl⟩

theorem refuses_call [Yaml.Parser] {fn : Handle} {args : List Handle} (hh : h ∈ fn :: args)
    (hlacks : s.machine.Lacks h) : s.Refuses (.call fn args) := by
  obtain ⟨⟨f, hf⟩, hruns⟩ := Machine.call_of_lacks hh hlacks
  have hcall : s.call fn args = (.error (.fault f), s) := by
    rw [call, onMachine, hf]
    rfl
  refine ⟨?_, ?_, hruns⟩
  · rw [perform, hcall]
    rfl
  · rw [perform, hcall]
    rfl

/-- A host value other than a handle is refused, which leaves the handles alone, or it is
taken over and rooted. -/
theorem marshal_cases {x : HostValue} (hrelays : Request.relays (.marshal x) = false) :
    (∃ e machine, s.marshal x = (.error e, { s with machine }) ∧
      machine.handles = s.machine.handles) ∨
    ∃ y v machine, x.dynamic? = some y ∧ Machine.ofHost y s.machine = (.ok v, machine) ∧
      s.marshal x = { s with machine }.onMachine (·.newHandle v) := by
  rw [Request.relays] at hrelays
  rw [marshal]
  split
  · exact Or.inl ⟨_, _, rfl, rfl⟩
  · rename_i heq
    simp [heq] at hrelays
  · rename_i y _ hdynamic
    have halloc := (s.machine.allocated_ofHost y).handles
    split
    · rename_i heq
      rw [heq] at halloc
      exact Or.inl ⟨_, _, rfl, halloc⟩
    · rename_i heq
      exact Or.inr ⟨y, _, _, hdynamic, heq, rfl⟩

theorem refuses_marshal [Yaml.Parser] {x : HostValue}
    (h : ∃ e machine, s.marshal x = (.error e, { s with machine }) ∧
      machine.handles = s.machine.handles) : s.Refuses (.marshal x) := by
  obtain ⟨e, machine, hmarshal, hhandles⟩ := h
  refine ⟨?_, ?_, rfl⟩
  · rw [perform, hmarshal]
    rfl
  · rw [perform, hmarshal]
    exact hhandles

/-- A request that is given a handle without a value is refused. -/
theorem refuses_of_lacks [Yaml.Parser] (hrelays : request.relays = false) (hh : h ∈ request.given)
    (hlacks : s.machine.Lacks h) : s.Refuses request := by
  obtain ⟨f, hf⟩ := id hlacks
  cases request with
  | evaluate k =>
      have hcall : s.Refuses (.call k []) := refuses_call hh hlacks
      exact ⟨hcall.failed, hcall.handles, hcall.runs⟩
  | call fn args => exact refuses_call hh hlacks
  | newTuple fields =>
      obtain ⟨f', hf'⟩ : ∃ f, s.values fields = .error f := values_of_lacks hh hlacks
      have hnew : s.newTuple fields = (.error (.fault f'), s) := by rw [newTuple, hf']
      refine ⟨?_, ?_, rfl⟩
      · rw [perform, hnew]
        rfl
      · rw [perform, hnew]
        rfl
  | kind k =>
      obtain rfl := List.mem_singleton.1 hh
      refine ⟨?_, rfl, rfl⟩
      rw [perform, kind, hf]
      rfl
  | int k =>
      obtain rfl := List.mem_singleton.1 hh
      refine ⟨?_, rfl, rfl⟩
      rw [perform, int, hf]
      rfl
  | size k =>
      obtain rfl := List.mem_singleton.1 hh
      refine ⟨?_, rfl, rfl⟩
      rw [perform, size, tupleFields, hf]
      rfl
  | field k i =>
      obtain rfl := List.mem_singleton.1 hh
      have hfield : s.field h i = (.error (.fault f), s) := by
        rw [field, tupleFields, hf]
        rfl
      refine ⟨?_, ?_, rfl⟩
      · rw [perform, hfield]
        rfl
      · rw [perform, hfield]
        rfl
  | inspect k =>
      obtain rfl := List.mem_singleton.1 hh
      refine ⟨?_, rfl, rfl⟩
      rw [perform, inspect, hf]
      rfl
  | unmarshal k =>
      obtain rfl := List.mem_singleton.1 hh
      refine ⟨?_, rfl, rfl⟩
      rw [perform, unmarshal, unmarshalAs, hf]
      rfl
  | unmarshalInto k out =>
      obtain rfl := List.mem_singleton.1 hh
      refine ⟨?_, rfl, rfl⟩
      rw [perform, unmarshalInto]
      split
      · rw [unmarshalAs, hf]
        rfl
      · rfl
  | marshal x =>
      rcases marshal_cases (s := s) hrelays with hrefused | ⟨y, v, m, hdynamic, hy, _⟩
      · exact refuses_marshal hrefused
      · have hhy : h ∈ y.handles := HostValue.handles_dynamic hdynamic ▸ hh
        obtain ⟨e, he⟩ := Machine.ofHost_of_lacks y s.machine hhy hlacks
        rw [hy] at he
        cases he
  | _ => exact absurd hh List.not_mem_nil

theorem refuses_newTuple_of_closed [Yaml.Parser] (hclosed : s.machine.closed = true)
    (fields : List Handle) :
    s.Refuses (.newTuple fields) := by
  have hnew : ∃ e, s.newTuple fields = (.error e, s) := by
    rw [newTuple]
    split
    · exact ⟨_, rfl⟩
    · refine ⟨.fault (Machine.closedFault "tuple"), ?_⟩
      rw [onMachine, Machine.newTuple, Machine.whenFramed, Machine.whenOpen, if_pos hclosed]
      rfl
  obtain ⟨e, he⟩ := hnew
  refine ⟨?_, ?_, rfl⟩
  · rw [perform, he]
    rfl
  · rw [perform, he]
    rfl

/-- A closed session refuses every request that takes handles, whether or not it is given
one. -/
theorem refuses_of_closed [Yaml.Parser] (hclosed : s.machine.closed = true)
    (htakes : request.takesHandles = true) (hrelays : request.relays = false) :
    s.Refuses request := by
  have lacks (k : Handle) : s.machine.Lacks k := Machine.lacks_of_closed hclosed k
  cases request with
  | evaluate k | call k args | kind k | int k | size k | field k i | inspect k
  | unmarshal k | unmarshalInto k out =>
      exact refuses_of_lacks (h := k) hrelays List.mem_cons_self (lacks k)
  | newTuple fields => exact refuses_newTuple_of_closed hclosed fields
  | marshal x =>
      rcases marshal_cases (s := s) hrelays with hrefused | ⟨y, v, m, _, hy, hmarshal⟩
      · exact refuses_marshal hrefused
      · have halloc := s.machine.allocated_ofHost y
        rw [hy] at halloc
        have hm : m.closed = true := halloc.closed.trans hclosed
        refine refuses_marshal ⟨.fault (Machine.closedFault "add handle"), m, ?_, halloc.handles⟩
        rw [hmarshal, onMachine, Machine.newHandle, Machine.whenOpen, if_pos hm]
        rfl
  | _ => cases htakes

/-- The handle was issued by a session on the machine `owner`. -/
def IssuedBy [Yaml.Parser] (owner : Nat) (h : Handle) : Prop :=
  ∃ (limits : Limits) (logLevel : Option LogLevel) (watch : Option Watch) (horizon : Nat)
    (before : List Request) (request : Request),
    ((fresh owner limits logLevel watch horizon).after before).issues request = some h

/-- The handle was issued in the course of a history, and its frame was closed since. -/
def Popped [Yaml.Parser] (start : Session) (history : List Request) (h : Handle) : Prop :=
  ∃ (before : List Request) (request : Request) (during later : List Request),
    history = before ++ request :: (during ++ later) ∧
    (start.after before).issues request = some h ∧
    (start.after (before ++ request :: during)).machine.handles.depth ≤ h.frame

theorem handles_fresh (owner : Nat) (limits : Limits) (logLevel : Option LogLevel)
    (watch : Option Watch) (horizon : Nat) :
    (fresh owner limits logLevel watch horizon).machine.handles =
      { owner, frames := #[{ generation := 1 }], nextGeneration := 2 } := by
  cases logLevel with
  | none => rfl
  | some level => cases level <;> rfl

/-- A handle that is issued has a value. -/
theorem get_of_issues [Yaml.Parser] (hissues : s.issues request = some h) :
    ∃ v, (s.perform request).2.machine.handles.get h = .ok v := by
  have hpop : request ≠ .popFrame := by
    rintro rfl
    cases hissues
  have hclose : request ≠ .close := by
    rintro rfl
    cases hissues
  exact ((s.carried_perform hpop hclose).2 h hissues).2

theorem after_append [Yaml.Parser] (s : Session) (before rest : List Request) :
    s.after (before ++ rest) = (s.after before).after rest :=
  List.foldl_append

theorem issues_of_failed [Yaml.Parser] (hfailed : (s.perform request).1.failed = true) :
    s.issues request = none := by
  rw [issues]
  split
  · rfl
  · revert hfailed
    cases (s.perform request).1 with
    | handle r | loaded r => cases r <;> simp [Answer.failed, Answer.handle?]
    | _ => simp [Answer.handle?]

variable (owner : Nat) (limits : Limits) (logLevel : Option LogLevel)
  (watch : Option Watch) (horizon : Nat)

theorem owner_after [Yaml.Parser] (history : List Request) :
    ((fresh owner limits logLevel watch horizon).after history).machine.handles.owner =
      owner := by
  rw [(moved_after _ history).owner, handles_fresh]

/-- A session has no value for a handle of another one. -/
theorem get_of_foreign [Yaml.Parser] {other : Nat} (hother : other ≠ owner)
    (hissued : IssuedBy other h)
    (history : List Request) (v : Value) :
    ((fresh owner limits logLevel watch horizon).after history).machine.handles.get h ≠
      .ok v := by
  obtain ⟨limits', logLevel', watch', horizon', before, request, hissues⟩ := hissued
  obtain ⟨w, hw⟩ := get_of_issues hissues
  have howner : h.owner = other := by
    rw [(HandleStack.get_eq_ok_iff.1 hw).1, (moved_perform _ request).owner, owner_after]
  intro hv
  rw [HandleStack.get_eq_ok_iff, howner, owner_after] at hv
  exact hother hv.1

/-- A session has no value for a handle of a frame that was closed. -/
theorem get_of_popped [Yaml.Parser] {history : List Request}
    (hpopped : Popped (fresh owner limits logLevel watch horizon) history h) (v : Value) :
    ((fresh owner limits logLevel watch horizon).after history).machine.handles.get h ≠
      .ok v := by
  obtain ⟨before, request, during, later, rfl, hissues, hclosed⟩ := hpopped
  obtain ⟨w, hw⟩ := get_of_issues hissues
  have hdated : (fresh owner limits logLevel watch horizon).machine.handles.Dated := by
    rw [handles_fresh]
    intro i f hf
    rw [Array.getElem?_eq_some_iff] at hf
    obtain ⟨hi, rfl⟩ := hf
    obtain rfl : i = 0 := by simpa using hi
    exact Nat.lt_succ_self 1
  have hissued := (hdated.moved (moved_after _ before)).moved (moved_perform _ request)
  have hduring := moved_after
    ((Session.after (fresh owner limits logLevel watch horizon) before).perform request).2 during
  have hlater := moved_after
    ((fresh owner limits logLevel watch horizon).after (before ++ request :: during)) later
  rw [← after_append, List.append_assoc, List.cons_append] at hlater
  rw [after_append] at hclosed hlater
  exact HandleStack.get_of_closed hissued hw hduring hclosed hlater v

/-- Handle ownership is enforced: whatever a session has gone through, a request that takes
handles is answered with an error, issues no handle and runs no code when the session is
closed or when any handle that it is given was issued on another machine or belongs to a
frame that was closed.  A request that hands a handle itself over to get it back is left
out. -/
theorem ownership_enforced [Yaml.Parser] (history : List Request) (request : Request)
    (htakes : request.takesHandles = true) (hrelays : request.relays = false) :
    let start := fresh owner limits logLevel watch horizon
    let s := start.after history
    (s.machine.closed = true ∨ ∃ h ∈ request.given,
      (∃ other, other ≠ owner ∧ IssuedBy other h) ∨ Popped start history h) →
      (s.perform request).1.failed = true ∧ s.issues request = none ∧
        (s.perform request).2.machine.handles = s.machine.handles ∧
        s.runs request = [] := by
  intro start s hbad
  have hrefuses : s.Refuses request := by
    rcases hbad with hclosed | ⟨h, hgiven, hforeign | hpopped⟩
    · exact refuses_of_closed hclosed htakes hrelays
    · obtain ⟨other, hother, hissued⟩ := hforeign
      exact refuses_of_lacks hrelays hgiven
        (.of_get (get_of_foreign owner limits logLevel watch horizon hother hissued history))
    · exact refuses_of_lacks hrelays hgiven
        (.of_get (get_of_popped owner limits logLevel watch horizon hpopped))
  exact ⟨hrefuses.failed, issues_of_failed hrefuses.failed, hrefuses.handles, hrefuses.runs⟩

/-- A slice that holds a handle of another session is refused. -/
theorem ownership_enforced_slice :
    let s := fresh 1 {} none none 9
    let foreign : Handle := ⟨2, 0, 0, 1⟩
    (fresh 2 {} none none 9).issues (.newInt 5) = some foreign ∧
      (s.perform (.marshal (.slice .handle [.handle foreign]))).1.failed = true := by
  refine ⟨by decide +kernel, ?_⟩
  refine (ownership_enforced 1 {} none none 9 []
    (.marshal (.slice .handle [.handle ⟨2, 0, 0, 1⟩])) rfl rfl (Or.inr ?_)).1
  exact ⟨⟨2, 0, 0, 1⟩, by decide +kernel, Or.inl ⟨2, by decide,
    {}, none, none, 9, [], .newInt 5, by decide +kernel⟩⟩

/-- The same handle on its own is handed back as if it were the session's, and so are one
of a closed frame and one of a closed session. -/
theorem relayed_handle_unchecked :
    let s := fresh 1 {} none none 9
    let foreign : Handle := ⟨2, 0, 0, 1⟩
    let stale : Handle := ⟨1, 1, 0, 2⟩
    let own : Handle := ⟨1, 0, 0, 1⟩
    (fresh 2 {} none none 9).issues (.newInt 5) = some foreign ∧
      (s.perform (.marshal (.handle foreign))).1.handle? = some foreign ∧
      (s.perform (.kind foreign)).1.failed = true ∧
      (s.after [.pushFrame]).issues (.newInt 5) = some stale ∧
      ((s.after [.pushFrame, .newInt 5, .popFrame]).perform
        (.marshal (.handle stale))).1.handle? = some stale ∧
      s.issues (.newInt 5) = some own ∧
      ((s.after [.newInt 5, .close]).perform
        (.marshal (.handle own))).1.handle? = some own := by
  decide +kernel

end Session

end Zinc
