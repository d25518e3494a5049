import Zinc.Proofs.Handle
import Zinc.Proofs.Machine.Curry
import Zinc.Proofs.Session.Sound
import Zinc.Yaml.Parser

/-!
A call with all arguments against two calls, the second one on what the first gives.  The
runs correspond, so what is left is that a call answers with what its run gives: the
handles of the host outlive the first call, and rooting a result fails only for want of
room.
-/

namespace Zinc

open Heap (Mirror)

namespace Machine

variable {m : Machine} {fn : Handle} {callee : Value} {xs ys : List Handle}
  {us vs : List Value}

/-- A call that succeeds, or whose bounds suffice for `turns` instructions and for the
handle of a result. -/
def Persists (turns : Nat) (m : Machine) (fn : Handle) (xs : List Handle) : Prop :=
  (∃ h, (m.call fn xs).1 = .ok h) ∨ m.Suffices xs.length turns ∧ m.handles.Room 1

/-- Two calls, the second one on what the first gives, that succeed, or whose bounds suffice
for `turns` instructions of each and for the handles of their results. -/
def PersistsTwice (turns : Nat) (m : Machine) (fn : Handle) (xs ys : List Handle) : Prop :=
  (∃ c h, (m.call fn xs).1 = .ok c ∧ ((m.call fn xs).2.call c ys).1 = .ok h) ∨
    m.Suffices (xs ++ ys).length turns ∧ m.handles.Room 2

/-- The handle of a closure. -/
def Names (m : Machine) (fn : Handle) : Prop :=
  ∃ v, m.value fn = .ok v ∧ v.kind = .closure

theorem value_eq_ok_iff {h : Handle} {v : Value} :
    m.value h = .ok v ↔ m.closed = false ∧ m.handles.get h = .ok v := by
  rw [value]
  cases m.closed <;> simp

theorem handleValues_eq_ok_iff :
    m.handleValues xs = .ok us ↔
      List.Forall₂ (fun h v => m.handles.get h = .ok v) xs us := by
  induction xs generalizing us with
  | nil => simp [handleValues, eq_comm]
  | cons h rest ih =>
      rw [handleValues, List.forall₂_cons_left_iff]
      cases hget : m.handles.get h with
      | error f => simp
      | ok v =>
          cases hrest : m.handleValues rest with
          | error f =>
              simp only [← ih, hrest]
              simp
          | ok vs =>
              simp only [← ih, hrest]
              simp [eq_comm]

theorem mem_values_of_handleValues (hvalues : m.handleValues xs = .ok us) :
    ∀ v ∈ us, v ∈ m.handles.values := by
  rw [handleValues_eq_ok_iff] at hvalues
  induction hvalues with
  | nil => simp
  | cons hget _ ih =>
      exact List.forall_mem_cons.2 ⟨Congruence.mem_values_of_get hget, ih⟩

theorem exists_handleValues (hvalues : ∀ h ∈ xs, ∃ v, m.value h = .ok v) :
    ∃ us, m.handleValues xs = .ok us := by
  induction xs with
  | nil => exact ⟨[], rfl⟩
  | cons h rest ih =>
      obtain ⟨⟨v, hv⟩, hrest⟩ := List.forall_mem_cons.1 hvalues
      obtain ⟨us, hus⟩ := ih hrest
      refine ⟨v :: us, handleValues_eq_ok_iff.2 (.cons ?_ (handleValues_eq_ok_iff.1 hus))⟩
      exact (value_eq_ok_iff.1 hv).2

theorem handleValues_append (hxs : m.handleValues xs = .ok us)
    (hys : m.handleValues ys = .ok vs) : m.handleValues (xs ++ ys) = .ok (us ++ vs) :=
  handleValues_eq_ok_iff.2
    (List.rel_append (handleValues_eq_ok_iff.1 hxs) (handleValues_eq_ok_iff.1 hys))

theorem handleValues_extends {m' : Machine} (hextends : m.handles.Extends m'.handles)
    (hxs : m.handleValues xs = .ok us) : m'.handleValues xs = .ok us :=
  handleValues_eq_ok_iff.2
    ((handleValues_eq_ok_iff.1 hxs).imp fun _ _ hget => hextends.get hget)

theorem Sound.root {v : Value} {h : Handle} {handles : HandleStack} (hsound : m.Sound)
    (hv : Typed m.world .data v) (hadd : m.handles.add v = .ok (h, handles)) :
    { m with handles := handles }.Sound where
  tidy := hsound.tidy
  laid := hsound.laid
  index := hsound.index
  handles w hw := by
    rcases Congruence.mem_values_add hadd hw with hold | rfl
    · exact hsound.handles w hold
    · exact hv
  globals := hsound.globals

/-- What a call makes of the reply of its run: it passes a fault on and roots a value. -/
inductive Rooting : Reply Value → Reply Handle → Prop where
  | fault {f : Fault} {last : Machine} : Rooting (.error f, last) (.error f, last)
  | value {v : Value} {last : Machine} {h : Handle} {handles : HandleStack} :
      last.handles.add v = .ok (h, handles) →
      { last with handles := handles }.value h = .ok v →
      Rooting (.ok v, last) (.ok h, { last with handles := handles })

theorem Rooting.error {r : Reply Value} {s : Reply Handle} {f : Fault}
    (h : Rooting r s) (hf : r.1 = .error f) : s.1 = .error f := by
  cases h with
  | fault =>
      cases hf
      rfl
  | value _ _ => cases hf

theorem Rooting.ok {r : Reply Value} {s : Reply Handle} {v : Value}
    (h : Rooting r s) (hv : r.1 = .ok v) :
    ∃ h, s.1 = .ok h ∧ s.2.value h = .ok v ∧ s.2.heap = r.2.heap := by
  cases h with
  | fault => cases hv
  | value _ hvalue =>
      cases hv
      exact ⟨_, rfl, hvalue, rfl⟩

/-- A call that persists makes a run that endures and roots its value. -/
theorem Sound.call_rooting {turns : Nat} (h : m.Sound) (hfn : m.value fn = .ok callee)
    (hkind : callee.kind = .closure) (hargs : m.handleValues xs = .ok us)
    (hpersists : m.Persists turns fn xs) :
    m.Endures turns callee us ∧ Rooting (m.run callee us) (m.call fn xs) := by
  obtain ⟨hopen, hget⟩ := value_eq_ok_iff.1 hfn
  have hlength : xs.length = us.length := (handleValues_eq_ok_iff.1 hargs).length_eq
  have hrun : ⟨m, callee, us⟩ ∈ m.callRuns fn xs := by
    rw [callRuns, hfn, hargs]
    simp [hkind]
  have hsafe := safe_run h (h.handles _ (Congruence.mem_values_of_get hget))
    fun v hv => h.handles v (mem_values_of_handleValues hargs v hv)
  have hfixed := (m.evaluated_run callee us).toFixed
  rw [Persists, call_of_mem_callRuns hrun, hlength] at hpersists
  rw [call_of_mem_callRuns hrun, Endures]
  dsimp only at hpersists ⊢
  generalize m.run callee us = r at hsafe hfixed hpersists ⊢
  rcases r with ⟨f | v, last⟩
  · refine ⟨Or.inr ?_, .fault⟩
    rcases hpersists with ⟨_, hok⟩ | ⟨hsuffices, _⟩
    · cases hok
    · exact hsuffices
  · refine ⟨Or.inl (by simp [Settled]), ?_⟩
    obtain ⟨h, handles, hadd⟩ : ∃ h handles, last.handles.add v = .ok (h, handles) := by
      rcases hpersists with ⟨_, hok⟩ | ⟨_, hroom⟩
      · dsimp only [addHandle] at hok
        cases hadd : last.handles.add v with
        | error f =>
            rw [hadd] at hok
            cases hok
        | ok added => exact ⟨_, _, rfl⟩
      · exact (hfixed.handles ▸ hroom).exists_add (Typed.isPublic hsafe.2)
    dsimp only [addHandle]
    rw [hadd]
    exact .value hadd
      (value_eq_ok_iff.2 ⟨hfixed.closed.trans hopen, HandleStack.get_add hadd⟩)

/-- Both calls fault, or both answer with a handle, and then to corresponding values. -/
def Concur (p q : Reply Handle) : Prop :=
  (∃ f f', p.1 = .error f ∧ q.1 = .error f') ∨
    ∃ h h' v v', p.1 = .ok h ∧ q.1 = .ok h' ∧ p.2.value h = .ok v ∧
      q.2.value h' = .ok v' ∧ Mirror p.2.heap q.2.heap v v'

theorem Agree.concur {p q : Reply Value} {p' q' : Reply Handle} (hagree : Agree p q)
    (hp : Rooting p p') (hq : Rooting q q') : Concur p' q' := by
  rcases hagree with ⟨f, f', hf, hf'⟩ | ⟨v, v', hv, hv', hmirror⟩
  · exact Or.inl ⟨f, f', hp.error hf, hq.error hf'⟩
  · obtain ⟨h, hh, hvalue, hheap⟩ := hp.ok hv
    obtain ⟨h', hh', hvalue', hheap'⟩ := hq.ok hv'
    rw [← hheap, ← hheap'] at hmirror
    exact Or.inr ⟨h, h', v, v', hh, hh', hvalue, hvalue', hmirror⟩

theorem Concur.succeeds_iff {p q : Reply Handle} (h : Concur p q) :
    (∃ h, p.1 = .ok h) ↔ ∃ h, q.1 = .ok h := by
  rcases h with ⟨f, f', hf, hf'⟩ | ⟨h, h', _, _, hh, hh', _⟩
  · simp [hf, hf']
  · simp [hh, hh']

theorem Concur.mirror {p q : Reply Handle} {h h' : Handle} (hconcur : Concur p q)
    (hp : p.1 = .ok h) (hq : q.1 = .ok h') :
    ∃ v v', p.2.value h = .ok v ∧ q.2.value h' = .ok v' ∧
      Mirror p.2.heap q.2.heap v v' := by
  rcases hconcur with ⟨f, _, hf, _⟩ | ⟨g, g', v, v', hg, hg', hvalues⟩
  · cases hf.symm.trans hp
  · cases hg.symm.trans hp
    cases hg'.symm.trans hq
    exact ⟨v, v', hvalues⟩

/-- A call on all arguments either faults, and then the call on the first ones gives no
closure, or ends as the call of that closure on the others does. -/
def Splits (whole first : Reply Handle) (second : Handle → Reply Handle) : Prop :=
  ((∃ f, whole.1 = .error f) ∧ ∀ c, first.1 = .ok c → ¬ first.2.Names c) ∨
    ∃ c, first.1 = .ok c ∧ first.2.Names c ∧ Concur whole (second c)

section Splits

variable {whole first : Reply Handle} {second : Handle → Reply Handle}

theorem Splits.succeeds_iff (h : Splits whole first second) : (∃ h, whole.1 = .ok h) ↔
    ∃ c h, first.1 = .ok c ∧ first.2.Names c ∧ (second c).1 = .ok h := by
  rcases h with ⟨⟨f, hf⟩, hnot⟩ | ⟨c, hc, hclosure, hconcur⟩
  · refine iff_of_false (by simp [hf]) ?_
    rintro ⟨c, _, hc, hclosure, _⟩
    exact hnot c hc hclosure
  · rw [hconcur.succeeds_iff]
    constructor
    · rintro ⟨h, hh⟩
      exact ⟨c, h, hc, hclosure, hh⟩
    · rintro ⟨c', h, hc', _, hh⟩
      cases hc.symm.trans hc'
      exact ⟨h, hh⟩

theorem Splits.mirror {h c h' : Handle} (hsplits : Splits whole first second)
    (hh : whole.1 = .ok h) (hc : first.1 = .ok c) (hh' : (second c).1 = .ok h') :
    ∃ v v', whole.2.value h = .ok v ∧ (second c).2.value h' = .ok v' ∧
      Mirror whole.2.heap (second c).2.heap v v' := by
  rcases hsplits with ⟨⟨f, hf⟩, _⟩ | ⟨c', hc', _, hconcur⟩
  · cases hf.symm.trans hh
  · cases hc'.symm.trans hc
    exact hconcur.mirror hh hh'

end Splits

/-- A run leaves the bounds as they are. -/
theorem Suffices.run {count turns : Nat} (h : m.Suffices count turns) (callee : Value)
    (args : List Value) : (m.run callee args).2.Suffices count turns := by
  have hfixed := (m.evaluated_run callee args).toFixed
  exact ⟨hfixed.horizon ▸ h.fuel, h.ample.mono (Nat.le_refl _) hfixed.limits,
    watch_run h.watch callee args⟩

/-- The bounds of a machine do not matter to what its handles are. -/
theorem handleValues_bounded (hxs : m.handleValues xs = .ok us) (limits : Limits)
    (horizon : Nat) : (m.bounded limits horizon).handleValues xs = .ok us :=
  handleValues_eq_ok_iff.2 (handleValues_eq_ok_iff (m := m) |>.1 hxs)

/-- A call on all arguments against a call on the first ones and, if that answers with a
closure, a call of the closure on the others.  The bounds of the first call may be other ones
than those of the others. -/
theorem Sound.call_append {limits limits' : Limits} {n k : Nat} (h : m.Sound)
    (hfn : m.Names fn) (hxs : m.handleValues xs = .ok us) (hys : m.handleValues ys = .ok vs)
    (hne : ys ≠ []) (hwhole : (m.bounded limits n).Persists (k + k) fn (xs ++ ys))
    (htwice : (m.bounded limits' k).PersistsTwice n fn xs ys) :
    Splits ((m.bounded limits n).call fn (xs ++ ys)) ((m.bounded limits' k).call fn xs)
      fun c => ((m.bounded limits' k).call fn xs).2.call c ys := by
  obtain ⟨callee, hvalue, hkind⟩ := hfn
  obtain ⟨_, hget⟩ := value_eq_ok_iff.1 hvalue
  have hcallee := h.handles _ (Congruence.mem_values_of_get hget)
  have hus v hv := h.handles v (mem_values_of_handleValues hxs v hv)
  have hheld := ((m.bounded limits' k).evaluated_run callee us).handles
  have hsafe := safe_run (h.bounded limits' k) hcallee hus
  obtain ⟨hendures, hrooting⟩ := (h.bounded limits n).call_rooting hvalue hkind
    (handleValues_bounded (handleValues_append hxs hys) limits n) hwhole
  have hfirst : (m.bounded limits' k).Persists n fn xs := by
    refine htwice.imp (fun ⟨c, _, hc, _⟩ => ⟨c, hc⟩) fun ⟨hsuffices, hroom⟩ => ⟨?_, ?_⟩
    · exact hsuffices.shorter (List.length_append ▸ Nat.le_add_right _ _)
    · exact hroom.mono (Nat.le_succ 1)
  obtain ⟨hendures', hrooting'⟩ := (h.bounded limits' k).call_rooting hvalue hkind
    (handleValues_bounded hxs limits' k) hfirst
  obtain ⟨a, rfl, _⟩ := hcallee.exists_closure hkind
  have hvs : vs ≠ [] := by
    rintro rfl
    cases handleValues_eq_ok_iff.1 hys
    exact hne rfl
  rcases h.run_append hcallee hus (mem_values_of_handleValues hys) hvs hendures hendures'
    with ⟨⟨f, hfault⟩, hnot⟩ | ⟨v, last, hrun, hclosure, hagree⟩
  · clear htwice hfirst
    refine Or.inl ⟨⟨f, hrooting.error hfault⟩, ?_⟩
    generalize (m.bounded limits' k).run _ us = r at hnot hrooting'
    generalize (m.bounded limits' k).call fn xs = s at hrooting'
    rintro c hc ⟨v, hv, hclosure⟩
    cases hrooting' with
    | fault => cases hc
    | value _ hu =>
        cases hc
        cases hu.symm.trans hv
        exact hnot v rfl hclosure
  · have hbounds {count : Nat} (h : (m.bounded limits' k).Suffices count n) :=
      h.run (.ref .closure a) us
    rw [hrun] at hrooting' hheld hsafe hbounds
    rw [PersistsTwice] at htwice
    generalize (m.bounded limits' k).call fn xs = s at hrooting' htwice
    cases hrooting' with
    | @value _ _ c handles hadd hv =>
        refine Or.inr ⟨_, rfl, ⟨v, hv, hclosure⟩, ?_⟩
        have hpersists : { last with handles := handles }.Persists n c ys := by
          refine htwice.imp (fun ⟨c', h, hc', hh⟩ => ?_) fun ⟨hsuffices, hroom⟩ => ⟨?_, ?_⟩
          · cases hc'
            exact ⟨h, hh⟩
          · obtain ⟨hfuel, hample, hwatch⟩ := hbounds hsuffices
            have hlast : { last with handles := handles }.Suffices (xs ++ ys).length n :=
              ⟨hfuel, hample.mono (Nat.le_refl _) rfl, hwatch⟩
            exact hlast.shorter (List.length_append ▸ Nat.le_add_left _ _)
          · exact (hheld ▸ hroom : last.handles.Room 2).add hadd
        -- the first call leaves the host its handles, with their values
        have hsound := hsafe.1.root hsafe.2 hadd
        have hextends := HandleStack.extends_add hadd
        rw [hheld] at hextends
        have hargs : { last with handles := handles }.handleValues ys = .ok vs :=
          handleValues_extends (m := m) hextends hys
        obtain ⟨hendures, hrooting'⟩ := hsound.call_rooting hv hclosure hargs hpersists
        exact (hagree _ hsound hendures).concur hrooting hrooting'

end Machine

namespace Session

theorem kind_eq_closure_iff {s : Session} {h : Handle} :
    s.kind h = .ok .closure ↔ s.machine.Names h := by
  unfold kind Machine.Names
  cases s.machine.value h with
  | error f => simp [bind, Except.bind]
  | ok v => cases hkind : v.kind <;> simp [hkind, bind, Except.bind, pure, Except.pure]

section Call

variable {s : Session} {fn : Handle} {args : List Handle}

theorem call_eq_ok_iff {h : Handle} :
    (s.call fn args).1 = .ok h ↔ (s.machine.call fn args).1 = .ok h := by
  change (s.machine.call fn args).1.mapError Failure.fault = _ ↔ _
  cases (s.machine.call fn args).1 <;> simp [Except.mapError]

end Call

variable (owner : Nat) (limits : Limits) (logLevel : Option LogLevel)
  (watch : Option Watch) (horizon : Nat)

/-- Arguments may be given in two calls.  Whatever a host has asked for before, take a
closure and arguments for it.  With bounds that are large enough, and room for two handles,
the call on all arguments succeeds just when the call on the first of them gives a closure and
the call of that on the others succeeds.  Whatever the bounds of calls that succeed are, the two
results are equal up to the identity of objects. -/
theorem calls_curry [Yaml.Parser] (requests : List Request) (fn : Handle) (args : List Handle)
    (k : Nat) :
    let s := (fresh owner limits logLevel watch horizon).after requests
    let whole := fun z => { s with machine := z }.call fn args
    let first := fun z => { s with machine := z }.call fn (args.take k)
    let second := fun z c => (first z).2.call c (args.drop k)
    k < args.length → s.kind fn = .ok .closure →
    (∀ h ∈ args, ∃ v, s.machine.value h = .ok v) →
      (s.machine.handles.Room 2 →
        ((s.machine.Eventually fun z => ∃ h, (whole z).1 = .ok h) ↔
          s.machine.Eventually fun z => ∃ c h, (first z).1 = .ok c ∧
            (first z).2.kind c = .ok .closure ∧ (second z c).1 = .ok h)) ∧
      ∀ limits horizon limits' horizon',
        let z := s.machine.bounded limits horizon
        let z' := s.machine.bounded limits' horizon'
        ∀ h c h', (whole z).1 = .ok h → (first z').1 = .ok c → (second z' c).1 = .ok h' →
          ∃ v v', (whole z).2.machine.value h = .ok v ∧
            (second z' c).2.machine.value h' = .ok v' ∧
            Mirror (whole z).2.machine.heap (second z' c).2.machine.heap v v' := by
  intro s whole first second hk hfn hargs
  have hlinked : Linked Machine.InOrder s s :=
    ((inOrder_fresh owner limits logLevel watch horizon).after Machine.inOrder_congruence
      requests).2
  obtain ⟨callee, hvalue, hkind⟩ := kind_eq_closure_iff.1 hfn
  have hsound := hlinked.machine.2.sound (Machine.value_eq_ok_iff.1 hvalue).1
  obtain ⟨us, hus⟩ : ∃ us, s.machine.handleValues (args.take k) = .ok us :=
    Machine.exists_handleValues fun h hh => hargs h (List.mem_of_mem_take hh)
  obtain ⟨vs, hvs⟩ : ∃ vs, s.machine.handleValues (args.drop k) = .ok vs :=
    Machine.exists_handleValues fun h hh => hargs h (List.mem_of_mem_drop hh)
  have hne : args.drop k ≠ [] := by
    simpa using hk
  have hsplits {limits limits' : Limits} {n n' : Nat}
      (hwhole : (s.machine.bounded limits n).Persists (n' + n') fn args)
      (htwice : (s.machine.bounded limits' n').PersistsTwice n fn (args.take k) (args.drop k)) :
      Machine.Splits ((s.machine.bounded limits n).call fn args)
        ((s.machine.bounded limits' n').call fn (args.take k))
        fun c => ((s.machine.bounded limits' n').call fn (args.take k)).2.call c
          (args.drop k) := by
    have happend := hsound.call_append ⟨callee, hvalue, hkind⟩ hus hvs hne
      (by rwa [List.take_append_drop]) htwice
    rwa [List.take_append_drop] at happend
  simp only [whole, first, second, call_eq_ok_iff, kind_eq_closure_iff]
  refine ⟨fun hroom => ⟨fun hwhole => ?_, fun htwice => ?_⟩, ?_⟩
  · obtain ⟨limits, n, hok⟩ := hwhole.exists
    refine ⟨args.length + 1 + n, fun limits' n' hample hle => ?_⟩
    refine (hsplits (Or.inl hok) (Or.inr ⟨⟨?_, ?_, rfl⟩, hroom⟩)).succeeds_iff.1 hok
    · change n < n'
      omega
    · rwa [List.take_append_drop]
  · obtain ⟨limits', n', hok⟩ := htwice.exists
    refine ⟨args.length + 1 + (n' + n'), fun limits n hample hle => ?_⟩
    have hroom := hroom.mono (Nat.le_succ 1)
    obtain ⟨c, h, hc, hclosure, hh⟩ := hok
    refine (hsplits (Or.inr ⟨⟨?_, hample, rfl⟩, hroom⟩)
      (Or.inl ⟨c, h, hc, hh⟩)).succeeds_iff.2 ⟨c, h, hc, hclosure, hh⟩
    change n' + n' < n
    omega
  · intro limits n limits' n' h c h' hh hc hh'
    exact (hsplits (Or.inl ⟨h, hh⟩) (Or.inl ⟨c, h', hc, hh'⟩)).mirror hh hc hh'

/-- A function of one argument that binds it and gives a function of another one.  It is
called as it was compiled, before it is evaluated: on two arguments, and on one after the
other with other bounds. -/
theorem calls_curry_pair :
    let s := (fresh 0 {} none none 0).after
      [.compile (.lam {} ⟨0, "x"⟩ (.letIn {} ⟨1, "z"⟩ (.var {} (some ⟨0, "x"⟩))
        (.lam {} ⟨2, "y"⟩
          (.tuple {} [.var {} (some ⟨1, "z"⟩), .var {} (some ⟨2, "y"⟩)])))),
        .newInt 1, .newInt 2]
    let args : List Handle := [⟨0, 0, 1, 1⟩, ⟨0, 0, 2, 1⟩]
    let whole := fun z => { s with machine := z }.call ⟨0, 0, 0, 1⟩ args
    let first := fun z => { s with machine := z }.call ⟨0, 0, 0, 1⟩ (args.take 1)
    let second := fun z c => (first z).2.call c (args.drop 1)
    let z := s.machine.bounded { argStack := 3, returnStack := 3 } 30
    let z' := s.machine.bounded { argStack := 3, returnStack := 2 } 20
    ((s.machine.Eventually fun z => ∃ h, (whole z).1 = .ok h) ↔
        s.machine.Eventually fun z => ∃ c h, (first z).1 = .ok c ∧
          (first z).2.kind c = .ok .closure ∧ (second z c).1 = .ok h) ∧
      (whole z).1 = .ok ⟨0, 0, 3, 1⟩ ∧ (whole z).2.inspect ⟨0, 0, 3, 1⟩ = .ok "(1, 2)" ∧
      (first z').1 = .ok ⟨0, 0, 3, 1⟩ ∧ (second z' ⟨0, 0, 3, 1⟩).1 = .ok ⟨0, 0, 4, 1⟩ ∧
      ∃ v v', (whole z).2.machine.value ⟨0, 0, 3, 1⟩ = .ok v ∧
        (second z' ⟨0, 0, 3, 1⟩).2.machine.value ⟨0, 0, 4, 1⟩ = .ok v' ∧
        Mirror (whole z).2.machine.heap (second z' ⟨0, 0, 3, 1⟩).2.machine.heap v v' := by
  have hcurry := calls_curry 0 {} none none 0
    [.compile (.lam {} ⟨0, "x"⟩ (.letIn {} ⟨1, "z"⟩ (.var {} (some ⟨0, "x"⟩))
      (.lam {} ⟨2, "y"⟩
        (.tuple {} [.var {} (some ⟨1, "z"⟩), .var {} (some ⟨2, "y"⟩)])))),
      .newInt 1, .newInt 2]
    ⟨0, 0, 0, 1⟩ [⟨0, 0, 1, 1⟩, ⟨0, 0, 2, 1⟩] 1 (by decide) (by decide +kernel)
    (List.forall_mem_cons.2 ⟨⟨.int 1, by decide +kernel⟩,
      List.forall_mem_cons.2 ⟨⟨.int 2, by decide +kernel⟩, nofun⟩⟩)
  refine ⟨hcurry.1 ⟨_, rfl, by decide +kernel⟩, by decide +kernel, by decide +kernel,
    by decide +kernel, by decide +kernel, ?_⟩
  exact hcurry.2 { argStack := 3, returnStack := 3 } 30 { argStack := 3, returnStack := 2 } 20
    ⟨0, 0, 3, 1⟩ ⟨0, 0, 3, 1⟩ ⟨0, 0, 4, 1⟩ (by decide +kernel) (by decide +kernel)
    (by decide +kernel)

end Session

end Zinc
