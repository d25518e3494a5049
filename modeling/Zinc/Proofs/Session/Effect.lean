import Zinc.Proofs.Program.Stages
import Zinc.Proofs.Session.Curry
import Zinc.Proofs.Session.Held
import Zinc.Proofs.Session.Tracked
import Zinc.Yaml.Parser

/-!
What evaluations change.  Whatever it runs and whatever it answers, an evaluation leaves the
code, the names of the globals and everything behind open handles alone, and its registers
clear.  It assigns nothing unless it can get at a closure that a definition gave; and such a
closure, on its own, assigns the global that it defines and no other.
-/

namespace Zinc

namespace Globals

variable {g g' : Globals} {i : Nat} {v : Value}

theorem getElem?_set_self (h : g.set? i v = some g') :
    ∃ e, g'.entries[i]? = some e ∧ e.defined = true ∧ e.value = v := by
  obtain ⟨hi, rfl⟩ := set?_eq_some h
  have hi : i < g.entries.size := hi
  refine ⟨{ g.entries[i] with value := v, defined := true }, ?_, rfl, rfl⟩
  rw [Array.getElem?_modify, if_pos rfl, Array.getElem?_eq_getElem hi]
  rfl

theorem getElem?_set_of_ne (h : g.set? i v = some g') {j : Nat} (hj : j ≠ i) :
    g'.entries[j]? = g.entries[j]? := by
  obtain ⟨_, rfl⟩ := set?_eq_some h
  rw [Array.getElem?_modify, if_neg hj.symm]

end Globals

namespace Machine

variable {m : Machine} {fn : Handle} {args : List Handle} {callee v : Value}
  {vs : List Value} {run : Reply Value} {reply : Reply Handle}

/-- What becomes of a run in the answer to a call. -/
inductive Handover (run : Reply Value) : Reply Handle → Prop where
  | fault {f : Fault} {m : Machine} : run = (.error f, m) → Handover run (.error f, m)
  | refused {v : Value} {f : Fault} {m : Machine} :
      run = (.ok v, m) → m.handles.add v = .error f → Handover run (.error f, m)
  | value {v : Value} {m : Machine} {h : Handle} {handles : HandleStack} :
      run = (.ok v, m) → m.handles.add v = .ok (h, handles) →
      Handover run (.ok h, { m with handles := handles })

/-- A call of a closure with handles that have values is a run. -/
theorem handover_call (hvalue : m.value fn = .ok callee) (hargs : m.handleValues args = .ok vs)
    (hkind : callee.kind = .closure) : Handover (m.run callee vs) (m.call fn args) := by
  have hruns : m.callRuns fn args = [⟨m, callee, vs⟩] := by
    rw [callRuns, hvalue, hargs]
    exact if_pos hkind
  rw [call_of_mem_callRuns (r := ⟨m, callee, vs⟩) (by simp [hruns])]
  dsimp only
  cases hrun : m.run callee vs with
  | mk answer after =>
      cases answer with
      | error f => exact .fault rfl
      | ok v =>
          dsimp only [addHandle]
          cases hadd : after.handles.add v with
          | error f => exact .refused rfl hadd
          | ok x => exact .value rfl hadd

/-- What is not a closure is not run. -/
theorem call_of_not_closure (hvalue : m.value fn = .ok callee)
    (hkind : callee.kind ≠ .closure) : (m.call fn args).2 = m := by
  refine call_of_callRuns_eq_nil ?_
  rw [callRuns, hvalue]
  split
  · rename_i heq _
    cases heq
    exact if_neg hkind
  · rfl

/-- Besides the run, a call roots its value. -/
theorem Handover.rooted (h : Handover run reply) :
    reply.2 = { run.2 with handles := reply.2.handles } ∧
      (reply.2.handles = run.2.handles ∨ ∃ fn v, reply.1 = .ok fn ∧
        run.2.handles.add v = .ok (fn, reply.2.handles)) := by
  cases h with
  | fault hrun =>
      rw [hrun]
      exact ⟨rfl, .inl rfl⟩
  | refused hrun _ =>
      rw [hrun]
      exact ⟨rfl, .inl rfl⟩
  | value hrun hadd =>
      rw [hrun]
      exact ⟨rfl, .inr ⟨_, _, rfl, hadd⟩⟩

theorem cause_of_add {s : HandleStack} {f : Fault} (h : s.add v = .error f) :
    f.cause ∈ [.internalKind, .noHandleFrame, .handleFrameFull] := by
  rw [HandleStack.add] at h
  split at h
  · cases h
    simp [HandleStack.notPublic]
  · split at h
    · cases h
      simp [HandleStack.noFrame]
    · split at h
      · cases h
        simp [HandleStack.frameFull]
      · cases h

/-- What the call of a definition comes to, when it returns and when it fails. -/
theorem Assignment.handed {g : Globals} {k : UInt16} (h : Assignment g (some k) run)
    (hhandover : Handover run reply) :
    (∀ j, j ≠ k.toNat → reply.2.globals.entries[j]? = g.entries[j]?) ∧
      (∀ fn, reply.1 = .ok fn → ∃ v e, reply.2.handles.get fn = .ok v ∧
        reply.2.globals.entries[k.toNat]? = some e ∧ e.defined = true ∧ e.value = v) ∧
      ∀ f, reply.1 = .error f →
        f.cause ∈ [.notClosure, .undefinedGlobal, .argStackFull, .returnStackFull] →
        reply.2.globals = g := by
  have hglobals : reply.2.globals = run.2.globals := by rw [hhandover.rooted.1]
  rw [hglobals]
  cases h with
  | missing hsame hnone =>
      rw [hsame]
      refine ⟨fun _ _ => rfl, fun fn hfn => ?_, fun _ _ _ => rfl⟩
      cases hhandover with
      | fault hrun => cases hfn
      | refused hrun hadd => cases hfn
      | value hrun hadd => exact absurd (hnone _ (by rw [hrun])) (Option.some_ne_none k)
  | made hk hset hvalue hstop =>
      cases hk
      refine ⟨fun j hj => Globals.getElem?_set_of_ne hset hj, fun fn hfn => ?_,
        fun f hf hcause => ?_⟩
      · cases hhandover with
        | fault hrun => cases hfn
        | refused hrun hadd => cases hfn
        | value hrun hadd =>
            cases hfn
            obtain ⟨e, hentry, hdefined, he⟩ := Globals.getElem?_set_self hset
            exact ⟨_, e, HandleStack.get_add hadd, hentry, hdefined,
              he.trans (hvalue _ (by rw [hrun])).symm⟩
      · -- a run that has assigned can only be stopped, and a handle only be refused
        cases hhandover with
        | fault hrun =>
            cases hf
            have hstopped := hstop f (by rw [hrun])
            revert hcause hstopped
            simp only [stopCauses, List.mem_cons, List.not_mem_nil, or_false]
            rintro (h | h | h | h) (h' | h') <;> (rw [h] at h'; cases h')
        | refused hrun hadd =>
            cases hf
            have hrefused := cause_of_add hadd
            revert hcause hrefused
            simp only [List.mem_cons, List.not_mem_nil, or_false]
            rintro (h | h | h | h) (h' | h' | h') <;> (rw [h] at h'; cases h')
        | value hrun hadd => cases hf

end Machine

/-- The handle that a request applies, and to which others. -/
def Request.applies : Request → Option (Handle × List Handle)
  | .evaluate h => some (h, [])
  | .call fn args => some (fn, args)
  | _ => none

namespace Session

/-- What is left alone between two states of a session with an answer between them.  At most
a handle is new, the one that is answered, and the registers are clear. -/
structure Untouched (s : Session) (answer : Answer) (s' : Session) : Prop where
  symbols : s'.symbols = s.symbols
  code : s'.machine.code = s.machine.code
  names : s'.machine.globals.entries.toList.map Global.symbol =
    s.machine.globals.entries.toList.map Global.symbol
  index : s'.machine.globals.index = s.machine.globals.index
  handles : s'.machine.handles = s.machine.handles ∨ ∃ h v, answer = .handle (.ok h) ∧
    s.machine.handles.add v = .ok (h, s'.machine.handles)
  values : ∀ h v, s.machine.value h = .ok v → s'.machine.value h = .ok v
  objects : ∀ a, s.machine.heap.Reach s.machine.handles.values a →
    ∃ c, s.machine.heap.cells[a]? = some c ∧ s'.machine.heap.cells[a]? = some c
  regs : s'.machine.regs = {}

variable {s : Session} {defs : List (Nat × String)} {request : Request} {fn : Handle}
  {args : List Handle} {callee : Value} {vs : List Value}

theorem perform_of_applies [Yaml.Parser] (h : request.applies = some (fn, args)) :
    s.perform request = (.handle ((s.machine.call fn args).1.mapError .fault),
      { s with machine := (s.machine.call fn args).2 }) := by
  cases request with
  | evaluate _ =>
      cases h
      rfl
  | call _ _ =>
      cases h
      rfl
  | _ => cases h

theorem eq_ok_of_answer {r : Except Fault Handle} {k : Handle}
    (h : Answer.handle (r.mapError .fault) = .handle (.ok k)) : r = .ok k := by
  cases r with
  | error f => cases h
  | ok k' =>
      cases h
      rfl

theorem eq_error_of_answer {r : Except Fault Handle} {f : Fault}
    (h : Answer.handle (r.mapError .fault) = .handle (.error (.fault f))) : r = .error f := by
  cases r with
  | error f' =>
      cases h
      rfl
  | ok k => cases h

namespace Tracked

variable (h : Tracked defs s) (hvalue : s.machine.value fn = .ok callee)
  (hargs : s.machine.handleValues args = .ok vs)

include h hvalue

theorem sound : s.machine.Sound :=
  h.stable.sound (Machine.value_eq_ok_iff.1 hvalue).1

theorem fenced : Machine.Fenced (grants defs s) [] s.machine :=
  h.sheltered (Machine.value_eq_ok_iff.1 hvalue).1

omit h in
theorem mem_values : callee ∈ s.machine.handles.values :=
  Machine.Congruence.mem_values_of_get (Machine.value_eq_ok_iff.1 hvalue).2

theorem typed : Typed s.machine.world .data callee :=
  (h.sound hvalue).handles _ (mem_values hvalue)

/-- An object behind an open handle is there. -/
theorem object {a : Nat} (ha : s.machine.heap.Reach s.machine.handles.values a) :
    ∃ c, s.machine.heap.cells[a]? = some c := by
  obtain ⟨_, _, htyped, haddress⟩ := (h.sound hvalue).reach (ha.mono fun _ =>
    List.mem_append_left _)
  obtain ⟨c, hcell, _⟩ := htyped.fields haddress
  exact ⟨c, hcell⟩

include hargs

theorem untouched [Yaml.Parser] (happlies : request.applies = some (fn, args)) :
    Untouched s (s.perform request).1 (s.perform request).2 := by
  rw [perform_of_applies happlies]
  by_cases hkind : callee.kind = .closure
  · have hhandover := Machine.handover_call hvalue hargs hkind
    have hrun := s.machine.evaluated_run callee vs
    have hassigned := (h.fenced hvalue).assigned_run (h.sound hvalue) (h.typed hvalue)
      (List.mem_append_left _ (mem_values hvalue))
      (fun v hv => (h.sound hvalue).handles v (Machine.mem_values_of_handleValues hargs v hv))
      fun v hv => List.mem_append_left _ (Machine.mem_values_of_handleValues hargs v hv)
    have hregs : (s.machine.run callee vs).2.regs = {} := rfl
    obtain ⟨hmachine, hrooted⟩ := hhandover.rooted
    generalize s.machine.call fn args = reply at *
    generalize s.machine.run callee vs = run at *
    have hextends : s.machine.handles.Extends reply.2.handles := by
      rw [← hrun.handles]
      rcases hrooted with hsame | ⟨_, _, _, hadd⟩
      · rw [hsame]
        exact .refl _
      · exact HandleStack.extends_add hadd
    refine ⟨rfl, ?_, ?_, ?_, ?_, fun k v hk => ?_, fun a ha => ?_, ?_⟩
    all_goals dsimp only
    · rw [hmachine]
      exact hrun.code
    · rw [hmachine]
      exact hassigned.names.1
    · rw [hmachine]
      exact hassigned.names.2
    · rw [hrun.handles] at hrooted
      refine hrooted.imp_right ?_
      rintro ⟨k, v, hanswer, hadd⟩
      refine ⟨k, v, ?_, hadd⟩
      rw [hanswer]
      rfl
    · obtain ⟨hopen, hget⟩ := Machine.value_eq_ok_iff.1 hk
      refine Machine.value_eq_ok_iff.2 ⟨?_, hextends.get hget⟩
      rw [hmachine]
      exact hrun.closed.trans hopen
    · obtain ⟨c, hcell⟩ := h.object hvalue ha
      refine ⟨c, hcell, ?_⟩
      rw [hmachine]
      exact hrun.heap (h.sound hvalue).tidy a c (ha.mono fun _ => List.mem_append_left _) hcell
    · rw [hmachine]
      exact hregs
  · rw [Machine.call_of_not_closure hvalue hkind]
    refine ⟨rfl, rfl, rfl, rfl, .inl rfl, fun _ _ hk => hk, fun a ha => ?_, h.regs⟩
    obtain ⟨c, hcell⟩ := h.object hvalue ha
    exact ⟨c, hcell, hcell⟩

theorem globals_perform [Yaml.Parser] (happlies : request.applies = some (fn, args))
    (hnone : ∀ d ∈ defs, ¬ s.machine.heap.Reach (callee :: vs) d.1) :
    (s.perform request).2.machine.globals = s.machine.globals := by
  rw [perform_of_applies happlies]
  dsimp only
  by_cases hkind : callee.kind = .closure
  · rw [(Machine.handover_call hvalue hargs hkind).rooted.1]
    refine (h.fenced hvalue).globals_run (h.sound hvalue) (h.typed hvalue)
      (List.mem_append_left _ (mem_values hvalue))
      (fun v hv => (h.sound hvalue).handles v (Machine.mem_values_of_handleValues hargs v hv))
      (fun v hv => List.mem_append_left _ (Machine.mem_values_of_handleValues hargs v hv)) ?_
    rintro a k ⟨name, _, hmem, _⟩
    exact hnone (a, name) hmem
  · rw [Machine.call_of_not_closure hvalue hkind]

omit hargs

/-- A definition that is run assigns its global, as the last thing that it does. -/
theorem assigns_perform [Yaml.Parser] (happlies : request.applies = some (fn, [])) {a : Nat}
    (hcallee : callee = .ref .closure a) {name : String} (hmem : (a, name) ∈ defs) :
    let reply := s.perform request
    let before := s.machine.globals
    let after := reply.2.machine.globals
    ∃ k, s.slot? name = some k ∧
      (∀ j, j ≠ k → after.entries[j]? = before.entries[j]?) ∧
      (∀ handle, reply.1 = .handle (.ok handle) → ∃ v g,
        reply.2.machine.value handle = .ok v ∧ after.entries[k]? = some g ∧
        g.defined = true ∧ g.value = v) ∧
      ∀ f, reply.1 = .handle (.error (.fault f)) →
        f.cause ∈ [.notClosure, .undefinedGlobal, .argStackFull, .returnStackFull] →
        after = before := by
  intro reply before after
  obtain ⟨k, hslot⟩ := h.named _ hmem
  have hk : (UInt16.ofNat k).toNat = k := by
    obtain ⟨t, _, ht⟩ := Option.bind_eq_some_iff.1 hslot
    have hmax := ((h.sound hvalue).index t k ht).2
    rw [maxGlobalSlot] at hmax
    rw [UInt16.toNat_ofNat', Nat.mod_eq_of_lt (by omega)]
  have hreply : reply = _ := perform_of_applies happlies
  have hhandover : Machine.Handover (s.machine.run callee []) (s.machine.call fn []) :=
    Machine.handover_call hvalue rfl (by rw [hcallee]; rfl)
  have hassignment := (h.fenced hvalue).assignment (h.sound hvalue)
    (hcallee ▸ h.typed hvalue) (List.mem_append_left _ (hcallee ▸ mem_values hvalue))
    ⟨name, k, hmem, hslot, rfl⟩
  rw [← hcallee] at hassignment
  obtain ⟨hothers, hdone, hfailed⟩ := hassignment.handed hhandover
  rw [hk] at hothers hdone
  have hopen : reply.2.machine.closed = false := by
    rw [hreply]
    dsimp only
    rw [hhandover.rooted.1]
    exact (s.machine.evaluated_run callee []).closed.trans (Machine.value_eq_ok_iff.1 hvalue).1
  have hmachine : reply.2.machine = (s.machine.call fn []).2 := by rw [hreply]
  refine ⟨k, hslot, fun j hj => ?_, fun handle hhandle => ?_, fun f hf hcause => ?_⟩
  · dsimp only [after]
    rw [hmachine]
    exact hothers j hj
  · rw [hreply] at hhandle
    obtain ⟨v, g, hget, hentry, hg⟩ := hdone handle (eq_ok_of_answer hhandle)
    refine ⟨v, g, Machine.value_eq_ok_iff.2 ⟨hopen, hmachine ▸ hget⟩, ?_, hg⟩
    dsimp only [after]
    rw [hmachine]
    exact hentry
  · dsimp only [after]
    rw [hmachine]
    refine hfailed f ?_ hcause
    rw [hreply] at hf
    exact eq_error_of_answer hf

end Tracked

variable (owner : Nat) (limits : Limits) (logLevel : Option LogLevel)
  (watch : Option Watch) (horizon : Nat)

/-- Evaluation changes only what it must.  Whatever a host has done before, and whatever an
evaluation of handles with values answers, the code, the globals there are and their order,
and the open handles with everything behind them stay what they are, and the registers and
the stacks are clear.  No global changes when no closure that a definition gave can be
reached from the closure and its arguments.  When the closure is one that a definition gave
and there are no arguments, no global but the defined one changes; it holds the value that
is answered, and no global changes at all if the run fails with one of its own faults. -/
theorem only_definitions_assign [Yaml.Parser] (requests : List Request) (request : Request)
    (fn : Handle) (args : List Handle) (callee : Value) (vs : List Value) :
    let start := fresh owner limits logLevel watch horizon
    let defs := start.definitions requests
    let s := start.after requests
    let reply := s.perform request
    let before := s.machine.globals
    let after := reply.2.machine.globals
    request.applies = some (fn, args) → s.machine.value fn = .ok callee →
    s.machine.handleValues args = .ok vs →
      Untouched s reply.1 reply.2 ∧
      ((∀ d ∈ defs, ¬ s.machine.heap.Reach (callee :: vs) d.1) → after = before) ∧
      ∀ a name, callee = .ref .closure a → (a, name) ∈ defs → args = [] →
        ∃ k, s.slot? name = some k ∧
          (∀ j, j ≠ k → after.entries[j]? = before.entries[j]?) ∧
          (∀ handle, reply.1 = .handle (.ok handle) → ∃ v g,
            reply.2.machine.value handle = .ok v ∧ after.entries[k]? = some g ∧
            g.defined = true ∧ g.value = v) ∧
          ∀ f, reply.1 = .handle (.error (.fault f)) →
            f.cause ∈ [.notClosure, .undefinedGlobal, .argStackFull, .returnStackFull] →
            after = before := by
  intro start defs s reply before after happlies hvalue hargs
  have htracked : Tracked defs s :=
    (tracked_fresh owner limits logLevel watch horizon).after requests
  refine ⟨htracked.untouched hvalue hargs happlies,
    htracked.globals_perform hvalue hargs happlies, fun a name hcallee hmem hnone => ?_⟩
  subst hnone
  exact htracked.assigns_perform hvalue happlies hcallee hmem

/-- The table with the globals `y` and `x`, in that order. -/
def declared : Globals where
  entries := #[{ symbol := ⟨0, "y"⟩ }, { symbol := ⟨0, "x"⟩ }]
  index := ((({} : Globals).declare ⟨0, "y"⟩).2.declare ⟨0, "x"⟩).2.index

theorem declare_declared :
    (({} : Globals).declare ⟨0, "y"⟩).2.declare ⟨0, "x"⟩ = (.ok ⟨1, true⟩, declared) ∧
      declared.slot? ⟨0, "x"⟩ = some 1 := by
  have hy : ({} : Globals).slot? ⟨0, "y"⟩ = none := by simp [Globals.slot?]
  have hx : (({} : Globals).declare ⟨0, "y"⟩).2.slot? ⟨0, "x"⟩ = none := by
    rw [Globals.declare, hy]
    simp [Globals.slot?, Globals.size, maxGlobalSlot]
  rw [declared, Globals.slot?, Globals.declare, hx, Globals.declare, hy]
  refine ⟨rfl, ?_⟩
  simp [Globals.size, maxGlobalSlot]

/-- A session with the global `y`, which is not defined yet. -/
def withY : Session :=
  (fresh 0 {} none none 40).after [.declare "y"]

/-- The machine after `x` has been defined as 7. -/
def withX : Machine :=
  (({ withY.machine with globals := declared }.extended "define"
    [.int64 7, .setGlobal 1, .ret]).entryHandle 0).2

theorem define_withY : withY.define "x" (.int {} 7) =
    (.ok ⟨0, 0, 0, 1⟩, { machine := withX, symbols := (withY.symbols.intern "x").2 }) := by
  obtain ⟨hdeclare, hslot⟩ := declare_declared
  have hcode : (Lir.generateDefinition declared.slot? ⟨0, "x"⟩ (.int 7)).code =
      .ok [.int64 7, .setGlobal 1, .ret] := by
    rw [Lir.generateDefinition, hslot]
    rfl
  have hframe : withY.machine.handles.depth ≠ 0 := by decide +kernel
  have hdefine : withY.machine.define ⟨0, "x"⟩ (.int {} 7) = _ :=
    Machine.define_of_lowered rfl hframe hdeclare rfl hcode
  have hanswer : withY.define "x" (.int {} 7) =
      ((withY.machine.define ⟨0, "x"⟩ (.int {} 7)).1.mapError .fault,
        { machine := (withY.machine.define ⟨0, "x"⟩ (.int {} 7)).2
          symbols := (withY.symbols.intern "x").2 }) := rfl
  rw [hanswer, hdefine]
  rfl

/-- Running the definition of `x` leaves `y` undefined and makes `x` the answer. -/
theorem only_definitions_assign_seven :
    let s := (fresh 0 {} none none 40).after [.declare "y", .define "x" (.int {} 7)]
    let reply := s.perform (.evaluate ⟨0, 0, 0, 1⟩)
    reply.1 = .handle (.ok ⟨0, 0, 1, 1⟩) ∧
      reply.2.machine.globals.entries[0]? = some { symbol := ⟨0, "y"⟩ } ∧
      ∃ g, reply.2.machine.globals.entries[1]? = some g ∧ g.defined = true ∧
        g.value = .int 7 := by
  intro s reply
  have hs : s = { machine := withX, symbols := (withY.symbols.intern "x").2 } :=
    congrArg Prod.snd define_withY
  have hslot : s.slot? "x" = some 1 := by
    rw [hs, slot?, lookup?_intern]
    exact declare_declared.2
  have hdefs : (0, "x") ∈ (fresh 0 {} none none 40).definitions
      [.declare "y", .define "x" (.int {} 7)] := by
    have hnew : withY.defines (.define "x" (.int {} 7)) = [(0, "x")] :=
      defines_eq_singleton (congrArg Prod.fst define_withY) (by rw [define_withY]; rfl)
    exact List.mem_append_right _ (List.mem_append_left _ (hnew ▸ List.mem_cons_self))
  have hvalue : s.machine.value ⟨0, 0, 0, 1⟩ = .ok (.ref .closure 0) := by
    rw [hs]
    rfl
  have hanswer : reply.1 = .handle (.ok ⟨0, 0, 1, 1⟩) := by
    have hcall : (withX.call ⟨0, 0, 0, 1⟩ []).1 = .ok ⟨0, 0, 1, 1⟩ := rfl
    dsimp only [reply]
    rw [hs, perform_of_applies rfl]
    dsimp only
    rw [hcall]
    rfl
  have hseven : ((withX.call ⟨0, 0, 0, 1⟩ []).2.value ⟨0, 0, 1, 1⟩).toOption =
      some (.int 7) := by decide +kernel
  obtain ⟨_, _, hassigns⟩ := only_definitions_assign 0 {} none none 40
    [.declare "y", .define "x" (.int {} 7)] (.evaluate ⟨0, 0, 0, 1⟩) ⟨0, 0, 0, 1⟩ []
    (.ref .closure 0) [] rfl hvalue rfl
  obtain ⟨k, hk, hothers, hdone, _⟩ := hassigns 0 "x" rfl hdefs rfl
  obtain rfl := Option.some.inj (hslot.symm.trans hk)
  obtain ⟨v, g, hv, hentry, hdefined, hg⟩ := hdone _ hanswer
  obtain rfl : v = .int 7 := by
    have hv : (s.perform (.evaluate ⟨0, 0, 0, 1⟩)).2.machine.value ⟨0, 0, 1, 1⟩ = .ok v := hv
    rw [hs, perform_of_applies rfl] at hv
    rw [hv] at hseven
    exact Option.some.inj hseven
  refine ⟨hanswer, (hothers 0 (by decide)).trans ?_, g, hentry, hdefined, hg⟩
  change s.machine.globals.entries[0]? = _
  rw [hs]
  rfl

end Session

end Zinc
