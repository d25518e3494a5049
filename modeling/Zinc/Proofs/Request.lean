import Zinc.Session

/-!
Sessions as a host drives them: one request after the other, each with its answer.
Whatever a session has gone through is a list of requests made on a new one, so a
property of all sessions is one that a new session has and every request keeps.
-/

namespace Zinc

/-- A request that a host makes of a session. -/
inductive Request where
  | close
  | declare (name : String)
  | compile (e : Expr)
  | define (name : String) (e : Expr)
  | evaluate (h : Handle)
  | call (fn : Handle) (args : List Handle)
  | global (name : String)
  | pushFrame
  | popFrame
  | newInt (n : Int64)
  | newTuple (fields : List Handle)
  | kind (h : Handle)
  | int (h : Handle)
  | size (h : Handle)
  | field (h : Handle) (i : Int)
  | inspect (h : Handle)
  | collect
  | load (path : String) (source : ByteArray)
  | marshal (x : HostValue)
  | unmarshal (h : Handle)
  | unmarshalInto (h : Handle) (out : HostValue)
  | stats

/-- What a host gets back. -/
inductive Answer where
  | done (r : Except Failure Unit)
  | handle (r : Except Failure Handle)
  | loaded (r : Except Failure (Option Handle))
  | kind (r : Except Fault HostKind)
  | int (r : Except Fault Int64)
  | size (r : Except Fault Nat)
  | text (r : Except Fault String)
  | collected (r : Except Failure Nat)
  | value (r : Except Failure HostValue)
  | stats (usage : Usage) (heap : HeapStats)

/-- An answer without what it says about the heap: how many objects a collection has
released, and the statistics. -/
def Answer.masked : Answer → Answer
  | .collected r => .collected (r.map fun _ => 0)
  | .stats usage _ => .stats usage {}
  | a => a

/-- A run of a machine: a closure that is applied to arguments. -/
structure Run where
  machine : Machine
  callee : Value
  args : List Value

namespace Machine

/-- The offsets of the instructions that at most `fuel` steps start, in their order. -/
def starts : Nat → Machine → List Int
  | 0, _ => []
  | fuel + 1, m =>
    match m.ready with
    | (some _, _) => []
    | (none, m) =>
      m.regs.pc :: match m.counted.step with
        | .running m => starts fuel m
        | .finished _ | .faulted _ _ => []

/-- The run that a call makes, unless it is refused. -/
def callRuns (m : Machine) (fn : Handle) (args : List Handle) : List Run :=
  match m.value fn, m.handleValues args with
  | .ok callee, .ok vs => if callee.kind = .closure then [⟨m, callee, vs⟩] else []
  | _, _ => []

/-- The run of code on its own, unless it is refused. -/
def entryRuns (m : Machine) (entry : Int) : List Run :=
  if m.closed then [] else [⟨(m.topClosure entry).2, (m.topClosure entry).1, []⟩]

/-- A call that runs a closure answers with a handle to what the run gives. -/
theorem call_of_mem_callRuns {m : Machine} {fn : Handle} {args : List Handle} {r : Run}
    (hr : r ∈ m.callRuns fn args) :
    m.call fn args = match r.machine.run r.callee r.args with
      | (.error f, m) => (.error f, m)
      | (.ok v, m) => m.addHandle v := by
  rw [callRuns] at hr
  split at hr
  · rename_i callee vs hcallee hargs
    split at hr
    · rename_i hkind
      obtain rfl := List.mem_singleton.1 hr
      rw [value] at hcallee
      split at hcallee
      · cases hcallee
      · rename_i hopen
        unfold call whenOpen
        rw [if_neg hopen]
        dsimp only
        rw [hcallee, hargs]
        exact if_neg (not_not_intro hkind)
    · exact absurd hr List.not_mem_nil
  · exact absurd hr List.not_mem_nil

/-- A call that runs nothing does nothing. -/
theorem call_of_callRuns_eq_nil {m : Machine} {fn : Handle} {args : List Handle}
    (hnone : m.callRuns fn args = []) : (m.call fn args).2 = m := by
  unfold call whenOpen
  split
  · rfl
  · rename_i hopen
    dsimp only
    split
    · rfl
    · rename_i callee hcallee
      split
      · rfl
      · rename_i hkind
        split
        · rfl
        · rename_i vs hargs
          rw [callRuns, value, if_neg hopen, hcallee, hargs] at hnone
          simp only [if_pos (Decidable.not_not.1 hkind)] at hnone
          cases hnone

end Machine

/-- What a run answers. -/
def Run.answer (r : Run) : Except Fault Value :=
  (r.machine.run r.callee r.args).1

/-- The offsets of the instructions that a run starts, in their order. -/
def Run.starts (r : Run) : List Int :=
  match r.machine.enter r.callee r.args with
  | .running m => m.starts m.horizon
  | .finished _ | .faulted _ _ => []

/-- The runs that evaluating units makes, up to the first unit that fails. -/
def ProgramUnit.runs : List ProgramUnit → Option Handle × Machine → List Run
  | [], _ => []
  | u :: rest, s =>
    s.2.entryRuns u.entry ++ match u.evaluate s with
      | (some _, _, _) => []
      | (none, _, s) => runs rest s

namespace Session

/-- The runs that a request makes. -/
def runs [Yaml.Parser] (s : Session) : Request → List Run
  | .evaluate h => s.machine.callRuns h []
  | .call fn args => s.machine.callRuns fn args
  | .load path source =>
    let l := Loading.run { path, source, symbols := s.symbols, machine := s.machine }
      [.decode, .lower, .compile]
    if l.failure.isSome then [] else ProgramUnit.runs l.units (l.result, l.machine)
  | _ => []

/-- Answers one request. -/
def perform [Yaml.Parser] (s : Session) : Request → Answer × Session
  | .close => s.close.map .done id
  | .declare name => (s.declare name).map .done id
  | .compile e => (s.compile e).map .handle id
  | .define name e => (s.define name e).map .handle id
  | .evaluate h => (s.evaluate h).map .handle id
  | .call fn args => (s.call fn args).map .handle id
  | .global name => (s.global name).map .handle id
  | .pushFrame => s.pushFrame.map .done id
  | .popFrame => s.popFrame.map .done id
  | .newInt n => (s.newInt n).map .handle id
  | .newTuple fields => (s.newTuple fields).map .handle id
  | .kind h => (.kind (s.kind h), s)
  | .int h => (.int (s.int h), s)
  | .size h => (.size (s.size h), s)
  | .field h i => (s.field h i).map .handle id
  | .inspect h => (.text (s.inspect h), s)
  | .collect => s.collect.map .collected id
  | .load path source => (s.load path source).map .loaded id
  | .marshal x => (s.marshal x).map .handle id
  | .unmarshal h => (.value (s.unmarshal h), s)
  | .unmarshalInto h out => (.value (s.unmarshalInto h out).value, s)
  | .stats => (.stats s.machine.usage s.machine.heap.stats, s)

/-- The session after a list of requests. -/
def after [Yaml.Parser] (s : Session) (requests : List Request) : Session :=
  requests.foldl (fun s request => (s.perform request).2) s

/-- The answers to a list of requests. -/
def answers [Yaml.Parser] (s : Session) : List Request → List Answer
  | [] => []
  | request :: rest =>
    (s.perform request).1 :: (s.perform request).2.answers rest

/-- A new session whose evaluations are called off after `horizon` instructions. -/
def fresh (owner : Nat) (limits : Limits) (logLevel : Option LogLevel)
    (watch : Option Watch) (horizon : Nat) : Session :=
  let s := create owner limits logLevel watch
  { s with machine := { s.machine with horizon := horizon } }

end Session

end Zinc
