import Zinc.Proofs.Machine.Twin
import Zinc.Proofs.Session.Congruence

/-!
Collections are invisible.  Machines that differ in their threshold are related by what
`Machine.Twin` says, and a host cannot tell related machines apart: whatever it asks
for, both sessions give the same answers, but for the counts of objects that an answer
may hold.
-/

namespace Zinc

namespace Machine

/-- Two machines that differ at most in what they have collected, with the values in
hand among those that they agree on. -/
def Twins (vs : List Value) (m m' : Machine) : Prop :=
  ∃ S heap t log, m.Twin S heap ∧ (∀ v ∈ vs, v.Within S) ∧
    m' = m.atop heap t log

theorem Twins.cons {vs : List Value} {m m' : Machine} {v : Value}
    (h : Twins vs m m')
    (hv : ∀ S heap, m.Twin S heap → (∀ w ∈ vs, w.Within S) → v.Within S) :
    Twins (v :: vs) m m' := by
  obtain ⟨S, heap, t, log, htwin, hvs, rfl⟩ := h
  exact ⟨S, heap, t, log, htwin,
    List.forall_mem_cons.2 ⟨hv S heap htwin hvs, hvs⟩, rfl⟩

theorem Twins.fields {vs : List Value} {m m' : Machine} {v : Value}
    (h : Twins vs m m') (hv : v ∈ vs) :
    m'.heap.fieldsOf v = m.heap.fieldsOf v ∧ Twins (m.heap.fieldsOf v ++ vs) m m' := by
  obtain ⟨S, heap, t, log, htwin, hvs, rfl⟩ := h
  refine ⟨htwin.heap.fieldsOf (hvs v hv), S, heap, t, log, htwin, ?_, rfl⟩
  intro w hw
  rcases List.mem_append.1 hw with hw | hw
  · exact htwin.heap.closed.fieldsOf (hvs v hv) hw
  · exact hvs w hw

theorem Twins.hold {vs : List Value} {m m' : Machine} (handles : HandleStack)
    (h : Twins vs m m')
    (hhold : ∀ v ∈ handles.values, v ∈ m.handles.values ∨ v ∈ vs) :
    Twins vs { m with handles := handles } { m' with handles := handles } := by
  obtain ⟨S, heap, t, log, htwin, hvs, rfl⟩ := h
  refine ⟨S, heap, t, log, ?_, hvs, rfl⟩
  refine ⟨htwin.heap, htwin.regs, fun v hv => ?_, htwin.globals, htwin.saved⟩
  rcases hhold v hv with hold | hnew
  · exact htwin.handles v hold
  · exact hvs v hnew

theorem Twins.declare {vs : List Value} {m m' : Machine} (s : Symbol)
    (h : Twins vs m m') :
    Twins vs { m with globals := (m.globals.declare s).2 }
      { m' with globals := (m.globals.declare s).2 } := by
  obtain ⟨S, heap, t, log, htwin, hvs, rfl⟩ := h
  refine ⟨S, heap, t, log, ?_, hvs, rfl⟩
  refine ⟨htwin.heap, htwin.regs, htwin.handles, fun g hg => ?_, htwin.saved⟩
  rw [Globals.declare] at hg
  split at hg
  · exact htwin.globals g hg
  · dsimp only at hg
    split at hg
    · exact htwin.globals g hg
    · rcases Array.mem_push.1 hg with hold | rfl
      · exact htwin.globals g hold
      · exact within_of_address?_eq_none rfl

theorem Twins.install {vs : List Value} {m m' : Machine} (op : String)
    (is : List Instr) (h : Twins vs m m') :
    Twins vs (m.extended op is) (m'.extended op is) := by
  obtain ⟨S, heap, t, log, htwin, hvs, rfl⟩ := h
  obtain ⟨left, hleft⟩ := m.extended_eq op is
  obtain ⟨right, hright⟩ := (m.atop heap t log).extended_eq op is
  rw [hleft, hright]
  exact ⟨S, heap, t, right, ⟨htwin.heap, htwin.regs, htwin.handles, htwin.globals,
    htwin.saved⟩, hvs, rfl⟩

/-- Both machines allocate an object of values in hand. -/
theorem Twins.alloc {vs : List Value} {m m' : Machine} (h : Twins vs m m')
    (tag : Kind) (fields : Array Value)
    (hfields : ∀ v ∈ fields, v ∈ vs ∨ v.address? = none) :
    m'.heap.cells.size = m.heap.cells.size ∧
      Twins (.ref tag m.heap.cells.size :: vs)
        { m with heap := (m.heap.alloc tag fields).2 }
        { m' with heap := (m'.heap.alloc tag fields).2 } := by
  obtain ⟨S, heap, t, log, htwin, hvs, rfl⟩ := h
  have hwithin : ∀ v ∈ fields, v.Within S := by
    intro v hv
    rcases hfields v hv with hv | hnone
    · exact hvs v hv
    · exact within_of_address?_eq_none hnone
  refine ⟨htwin.heap.size, _, _, t, log,
    htwin.grow (htwin.heap.alloc tag fields hwithin) fun _ => Or.inl, ?_, rfl⟩
  refine List.forall_mem_cons.2 ⟨Value.within_ref.2 (Or.inr rfl), ?_⟩
  exact fun v hv => (hvs v hv).mono fun _ => Or.inl

theorem Twins.run {vs : List Value} {m m' : Machine} {callee : Value}
    {args : List Value} (h : Twins vs m m') (hcallee : callee ∈ vs)
    (hargs : ∀ w ∈ args, w ∈ vs) :
    Linked Twins (fun v => [v]) (m.run callee args) (m'.run callee args) := by
  obtain ⟨S, heap, t, log, htwin, hvs, rfl⟩ := h
  obtain ⟨S', heap', log', htwin', hvalue, heq⟩ := @Twin.run S m heap t log htwin
    callee args (hvs callee hcallee) fun w hw => hvs w (hargs w hw)
  rw [heq]
  refine ⟨rfl, S', heap', t, log', htwin', fun v hv => ?_, rfl⟩
  cases hanswer : (m.run callee args).1 with
  | error f => simp [hanswer, Except.toOption] at hv
  | ok w =>
      simp only [hanswer, Except.toOption, Option.map_some, Option.getD_some,
        List.mem_singleton] at hv
      exact hv ▸ hvalue w hanswer

theorem Twins.collect {vs : List Value} {m m' : Machine} (h : Twins vs m m') :
    Twins [] m.collectGarbage.2 m'.collectGarbage.2 := by
  obtain ⟨S, heap, t, log, htwin, _, rfl⟩ := h
  exact ⟨_, _, t, log, htwin.collect_left.collect_right, by simp, rfl⟩

theorem Twins.close {vs : List Value} {m m' : Machine} (h : Twins vs m m') :
    Twins [] m.close.2 m'.close.2 := by
  obtain ⟨S, heap, t, log, htwin, _, rfl⟩ := h
  unfold Machine.close Machine.whenOpen
  by_cases hclosed : m.closed = true
  · rw [if_pos hclosed, if_pos (by exact hclosed)]
    exact ⟨S, heap, t, log, htwin, by simp, rfl⟩
  · rw [if_neg hclosed, if_neg (by exact hclosed)]
    refine ⟨S, heap.destroyAll, t, log, ?_, by simp, rfl⟩
    refine ⟨htwin.heap.destroyAll, ?_, htwin.handles, htwin.globals, by simp⟩
    exact ⟨within_of_address?_eq_none rfl, within_of_address?_eq_none rfl,
      fun _ hv => absurd hv List.not_mem_nil, fun _ he => absurd he List.not_mem_nil⟩

/-- Rolling back keeps machines alike because the recorded globals were roots. -/
theorem Twins.rollback {vs : List Value} {start m m' : Machine}
    (h : Twins vs m m') (hgrown : start.checkpoint.2.Grown m) :
    Twins [] (m.rollback start.checkpoint.1) (m'.rollback start.checkpoint.1) := by
  obtain ⟨S, heap, t, log, htwin, _, rfl⟩ := h
  refine ⟨S, heap, t, log, ?_, by simp, rfl⟩
  refine ⟨htwin.heap, htwin.regs, htwin.handles, fun g hg => ?_,
    by simp [Machine.rollback]⟩
  have hsaved : m.saved = start.checkpoint.1.globals := hgrown.saved
  dsimp only [Machine.rollback] at hg
  rw [Globals.restore] at hg
  split at hg
  · exact htwin.globals g hg
  · exact htwin.saved g (hsaved ▸ hg)

/-- A host cannot tell machines apart that differ in what they have collected. -/
theorem twins_congruence : Congruence (fun _ _ _ => True) Twins where
  closed := by rintro vs m m' ⟨S, heap, t, log, _, _, rfl⟩; rfl
  handles := by rintro vs m m' ⟨S, heap, t, log, _, _, rfl⟩; rfl
  globals := by rintro vs m m' ⟨S, heap, t, log, _, _, rfl⟩; rfl
  code := by rintro vs m m' ⟨S, heap, t, log, _, _, rfl⟩; rfl
  usage := by rintro vs m m' ⟨S, heap, t, log, _, _, rfl⟩; rfl
  entry _ _ _ := trivial
  drop := by
    rintro vs ws m m' ⟨S, heap, t, log, htwin, hvs, rfl⟩ hsub
    exact ⟨S, heap, t, log, htwin, fun v hv => hvs v (hsub v hv), rfl⟩
  int _ h := h.cons fun _ _ _ _ => within_of_address?_eq_none rfl
  handle h _ hv := h.cons fun _ _ htwin _ => htwin.handles _ hv
  global h _ hg _ := h.cons fun _ _ htwin _ => htwin.globals _ hg
  fields h _ hv _ := h.fields hv
  inspect := by
    rintro vs m m' v ⟨S, heap, t, log, htwin, hvs, rfl⟩ hv
    exact htwin.heap.inspect (hvs v hv)
  toHost := by
    rintro vs m m' v ⟨S, heap, t, log, htwin, hvs, rfl⟩ hv target
    dsimp only [atop]
    rw [htwin.heap.size]
    exact toHost_congr htwin.heap _ (hvs v hv) target
  hold handles h hhold := h.hold handles hhold
  declare s h _ := h.declare s
  install op h _ _ := ⟨h.install op _, trivial⟩
  closure {vs m m' e} h _ _ := by
    obtain ⟨hsize, halloc⟩ := h.alloc .closure #[.emptyEnv, .code e] (by
      intro v hv
      simp only [List.mem_toArray, List.mem_cons, List.not_mem_nil, or_false] at hv
      rcases hv with rfl | rfl <;> exact Or.inr rfl)
    refine ⟨?_, halloc⟩
    dsimp only [topClosure]
    rw [Heap.fst_alloc, Heap.fst_alloc, hsize]
  tuple ws h _ hws := h.alloc .tuple ws.toArray fun v hv =>
    Or.inl (hws v (by simpa using hv)).1
  run h _ hcallee hargs := h.run hcallee hargs
  collect h _ := h.collect
  close h := h.close
  checkpoint := by
    rintro vs m m' ⟨S, heap, t, log, htwin, hvs, rfl⟩
    exact ⟨S, heap, t, log, ⟨htwin.heap, htwin.regs, htwin.handles, htwin.globals,
      htwin.globals⟩, hvs, rfl⟩
  commit := by
    rintro vs m m' ⟨S, heap, t, log, htwin, hvs, rfl⟩
    exact ⟨S, heap, t, log, ⟨htwin.heap, htwin.regs, htwin.handles, htwin.globals,
      by simp [commit]⟩, hvs, rfl⟩
  rollback _ h hgrown := h.rollback hgrown

end Machine

namespace Session

variable (owner : Nat) (limits : Limits) (logLevel : Option LogLevel)
  (watch : Option Watch) (horizon : Nat)

/-- New sessions that differ in their thresholds are alike. -/
theorem twins_fresh (t t' : Option Int) :
    Linked Machine.Twins
      (fresh owner { limits with threshold? := t } logLevel watch horizon)
      (fresh owner { limits with threshold? := t' } logLevel watch horizon) := by
  have hempty : ({} : Heap).Agree (fun _ => False) {} :=
    Heap.agree_self Heap.tidy_empty (fun _ h => h.elim) fun _ h => h.elim
  rcases logLevel with _ | (_ | _)
  all_goals
    refine ⟨rfl, fun _ => False, {}, t', _, ?_, by simp, rfl⟩
    refine ⟨hempty, Machine.within_empty_registers, ?_, ?_, ?_⟩
    · exact fun v hv => absurd hv List.not_mem_nil
    · exact fun g hg => absurd hg (Array.not_mem_empty g)
    · exact fun g hg => absurd hg (Array.not_mem_empty g)

/-- What handles and globals refer to, however far away, exists and is the same in
two sessions that are alike. -/
theorem Linked.cell {s s' : Session} (h : Linked Machine.Twins s s') {a : Nat}
    (ha : s.machine.heap.Reach
      (s.machine.handles.values ++ s.machine.globals.values) a) :
    ∃ c, s.machine.heap.cells[a]? = some c ∧
      s'.machine.heap.cells[a]? = some c := by
  obtain ⟨S, heap, t, log, htwin, _, heq⟩ := h.machine
  have hS : S a := by
    refine ha.least htwin.heap.closed fun v hv => ?_
    rcases List.mem_append.1 hv with hv | hv
    · exact htwin.handles v hv
    · rw [Globals.values, List.mem_map] at hv
      obtain ⟨g, hg, rfl⟩ := hv
      exact htwin.globals g (Array.mem_toList_iff.1 hg)
  have hcell := Array.getElem?_eq_getElem (htwin.heap.bound a hS)
  refine ⟨_, hcell, ?_⟩
  rw [heq]
  exact (htwin.heap.cell a hS).trans hcell

/-- Garbage collection is unobservable: sessions that differ only in the threshold give
the same answers to the same requests, but for counts of objects, and afterwards show
the same handles, globals, objects and usage. -/
theorem threshold_unobservable [Yaml.Parser] (t t' : Option Int) (requests : List Request) :
    let first := fresh owner { limits with threshold? := t } logLevel watch horizon
    let second := fresh owner { limits with threshold? := t' } logLevel watch horizon
    let s := first.after requests
    let s' := second.after requests
    (second.answers requests).map Answer.masked =
        (first.answers requests).map Answer.masked ∧
      (∀ h, s'.inspect h = s.inspect h ∧ s'.kind h = s.kind h ∧
        s'.size h = s.size h ∧ s'.int h = s.int h) ∧
      s'.machine.handles = s.machine.handles ∧
      s'.machine.globals = s.machine.globals ∧
      (∀ a, s.machine.heap.Reach
          (s.machine.handles.values ++ s.machine.globals.values) a →
        s'.machine.heap.cells[a]? = s.machine.heap.cells[a]?) ∧
      s'.machine.usage = s.machine.usage := by
  intro first second s s'
  have hR := Machine.twins_congruence
  obtain ⟨hanswers, hafter⟩ :=
    (twins_fresh owner limits logLevel watch horizon t t').after hR requests
  refine ⟨hanswers, fun h => ?_, hR.handles hafter.machine, hR.globals hafter.machine,
    fun a ha => ?_, hR.usage hafter.machine⟩
  · exact ⟨hafter.inspect hR h, hafter.kind hR h, hafter.size hR h, hafter.int hR h⟩
  · obtain ⟨c, hleft, hright⟩ := hafter.cell ha
    exact hright.trans hleft.symm

end Session

end Zinc
