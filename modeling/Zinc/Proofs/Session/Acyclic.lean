import Zinc.Proofs.Host.Descent
import Zinc.Proofs.Machine.Ordered
import Zinc.Proofs.Session.Hostile
import Zinc.Yaml.Parser

/-!
The heap of a session has no cycles.  Everything that allocates, in a run or for the host,
does so over live objects, so the objects of all machines that a session goes through are
in order, whatever the host asks for and whatever code is run.  So functions that go down
fields without looking back come to an end, and those that show values and hand them to
the host are of this kind.  Globals may refer to themselves, but they do so by name and not
by a field.
-/

namespace Zinc

namespace Machine

/-- A guarded machine whose objects are in order. -/
def Sorted (vs : List Value) (m m' : Machine) : Prop :=
  Guarded vs m m' ∧ m.heap.Ordered

/-- Whatever a host does keeps the objects in order. -/
theorem sorted_congruence : Congruence (fun _ _ _ => True) Sorted where
  closed h := guarded_congruence.closed h.1
  handles h := guarded_congruence.handles h.1
  globals h := guarded_congruence.globals h.1
  code h := guarded_congruence.code h.1
  usage h := guarded_congruence.usage h.1
  entry := fun _ _ _ => trivial
  drop h hsub := ⟨guarded_congruence.drop h.1 hsub, h.2⟩
  int n h := ⟨guarded_congruence.int n h.1, h.2⟩
  handle h hopen hv := ⟨guarded_congruence.handle h.1 hopen hv, h.2⟩
  global h hopen hg hdefined := ⟨guarded_congruence.global h.1 hopen hg hdefined, h.2⟩
  fields h hopen hv hkind := by
    obtain ⟨hsame, hfields⟩ := guarded_congruence.fields h.1 hopen hv hkind
    exact ⟨hsame, hfields, h.2⟩
  inspect h hv := guarded_congruence.inspect h.1 hv
  toHost h hv := guarded_congruence.toHost h.1 hv
  hold handles h hhold := ⟨guarded_congruence.hold handles h.1 hhold, h.2⟩
  declare s h hopen := ⟨guarded_congruence.declare s h.1 hopen, h.2⟩
  install op h hopen hgenerated := by
    obtain ⟨hinstalled, hentry⟩ := guarded_congruence.install op h.1 hopen hgenerated
    refine ⟨⟨hinstalled, ?_⟩, hentry⟩
    rw [heap_extended]
    exact h.2
  closure {vs m m' e} h hopen hentry := by
    obtain ⟨hsame, hclosure⟩ := guarded_congruence.closure h.1 hopen hentry
    refine ⟨hsame, hclosure, ?_⟩
    apply h.2.alloc (h.1.2 hopen).tidy .closure
    intro v hv a ha
    simp only [List.mem_toArray, List.mem_cons, List.not_mem_nil, or_false] at hv
    rcases hv with rfl | rfl
    · cases ha
    · cases ha
  tuple {vs m m'} ws h hopen hws := by
    obtain ⟨hsame, htuple⟩ := guarded_congruence.tuple ws h.1 hopen hws
    have hintact := h.1.2 hopen
    refine ⟨hsame, htuple, h.2.alloc hintact.tidy .tuple fun v hv => ?_⟩
    have hv : v ∈ ws := by simpa using hv
    exact (hintact.formed v (List.mem_append_left _ (hws v hv).1)).within_live hintact.tidy
  run {vs m m' callee args} h hopen hcallee hargs := by
    obtain ⟨hanswer, hmachine⟩ := guarded_congruence.run h.1 hopen hcallee hargs
    have hintact := h.1.2 hopen
    obtain ⟨x, hx, hheap⟩ := Run.exists_visit_heap ⟨m, callee, args⟩
    refine ⟨hanswer, hmachine, ?_⟩
    rw [hheap]
    refine Run.visits_ordered (hintact.mono fun v => List.mem_append_right vs) ?_ ?_ h.2 x hx
    · exact hintact.formed callee (List.mem_append_left _ hcallee)
    · exact fun w hw => hintact.formed w (List.mem_append_left _ (hargs w hw))
  collect h hopen :=
    ⟨guarded_congruence.collect h.1 hopen, h.2.collect (h.1.2 hopen).tidy _⟩
  close {vs m m'} h := by
    refine ⟨guarded_congruence.close h.1, ?_⟩
    unfold Machine.close whenOpen
    split
    · exact h.2
    · rename_i hopen
      exact (h.1.2 (Bool.eq_false_iff.2 hopen)).tidy.ordered_destroyAll
  checkpoint h := ⟨guarded_congruence.checkpoint h.1, h.2⟩
  commit h := ⟨guarded_congruence.commit h.1, h.2⟩
  rollback hstart h hgrown := ⟨guarded_congruence.rollback hstart.1 h.1 hgrown, h.2⟩

theorem Sorted.visits {r : Run} {m' : Machine} (hopen : r.machine.closed = false)
    (h : Sorted (r.callee :: r.args) r.machine m') : ∀ x ∈ r.visits, x.heap.Ordered := by
  have hintact := h.1.2 hopen
  refine Run.visits_ordered (hintact.mono fun v => List.mem_append_right _) ?_ ?_ h.2
  · exact hintact.formed _ (by simp)
  · exact fun w hw => hintact.formed w (by simp [hw])

end Machine

namespace Session

/-- The runs that a deed makes. -/
def deedRuns [Yaml.Parser] (s : Session) : Deed → List Run
  | .request r => s.runs r
  | .overwrite _ => []
  | .runEntry entry => s.machine.entryRuns entry

/-- The machines that a session goes through, those between the instructions of runs
included. -/
def passes [Yaml.Parser] (s : Session) : List Deed → List Machine
  | [] => [s.machine]
  | deed :: rest =>
    s.machine :: ((s.deedRuns deed).flatMap Run.visits ++ (s.enact deed).passes rest)

/-- A machine that some session goes through, whatever its limits are and whatever is done
with it. -/
def Arises [Yaml.Parser] (x : Machine) : Prop :=
  ∃ owner limits logLevel watch horizon deeds,
    x ∈ (fresh owner limits logLevel watch horizon).passes deeds

/-- A session whose machine holds well-formed values and has its objects in order. -/
abbrev Orderly (s : Session) : Prop :=
  Linked Machine.Sorted s s

variable {s : Session}

theorem Orderly.enact [Yaml.Parser] (h : s.Orderly) (deed : Deed) : (s.enact deed).Orderly := by
  have hR := Machine.sorted_congruence
  cases deed with
  | request r => exact (h.perform hR r).2
  | overwrite code => exact ⟨rfl, ⟨rfl, h.machine.1.2⟩, h.machine.2⟩
  | runEntry entry =>
      have hrun : Machine.Linked Machine.Sorted (fun v => [v])
          (s.machine.runEntry entry) (s.machine.runEntry entry) :=
        hR.runEntry h.machine trivial
      exact ⟨rfl, hR.clear hrun.machine⟩

/-- Whatever a deed runs, it runs on related machines. -/
theorem Linked.deedRuns [Yaml.Parser] {R : List Value → Machine → Machine → Prop}
    (hR : Machine.Congruence (fun _ _ _ => True) R) (h : Linked R s s) (deed : Deed) :
    ∀ r ∈ s.deedRuns deed, r.machine.closed = false ∧
      ∃ after, R (r.callee :: r.args) r.machine after := by
  cases deed with
  | request request => exact h.runs hR request
  | overwrite code => exact fun r hr => absurd hr List.not_mem_nil
  | runEntry entry =>
      intro r hr
      rw [Session.deedRuns, Machine.entryRuns] at hr
      split at hr
      · exact absurd hr List.not_mem_nil
      · rename_i hopen
        obtain rfl := List.mem_singleton.1 hr
        have hopen := Bool.eq_false_iff.2 hopen
        obtain ⟨_, hclosure⟩ := hR.closure h.machine hopen (e := entry) trivial
        exact ⟨hopen, _, hclosure⟩

theorem Orderly.deedRuns [Yaml.Parser] (h : s.Orderly) (deed : Deed) :
    ∀ r ∈ s.deedRuns deed, ∀ x ∈ r.visits, x.heap.Ordered := by
  intro r hr
  obtain ⟨hopen, after, hsorted⟩ := Linked.deedRuns Machine.sorted_congruence h deed r hr
  exact hsorted.visits hopen

theorem Orderly.passes [Yaml.Parser] (h : s.Orderly) (deeds : List Deed) :
    ∀ x ∈ s.passes deeds, x.heap.Ordered := by
  induction deeds generalizing s with
  | nil => exact List.forall_mem_singleton.2 h.machine.2
  | cons deed rest ih =>
      rw [Session.passes]
      refine List.forall_mem_cons.2 ⟨h.machine.2, fun x hx => ?_⟩
      rcases List.mem_append.1 hx with hx | hx
      · obtain ⟨r, hr, hx⟩ := List.mem_flatMap.1 hx
        exact h.deedRuns deed r hr x hx
      · exact ih (h.enact deed) x hx

variable (owner : Nat) (limits : Limits) (logLevel : Option LogLevel)
  (watch : Option Watch) (horizon : Nat)

theorem orderly_fresh : (fresh owner limits logLevel watch horizon).Orderly := by
  have hguarded := guarded_fresh owner limits logLevel watch horizon
  refine ⟨rfl, hguarded.machine, ?_⟩
  rcases logLevel with _ | (_ | _)
  all_goals exact Heap.ordered_empty

theorem Arises.ordered [Yaml.Parser] {x : Machine} (hx : Arises x) : x.heap.Ordered := by
  obtain ⟨owner, limits, logLevel, watch, horizon, deeds, hx⟩ := hx
  exact (orderly_fresh owner limits logLevel watch horizon).passes deeds x hx

/-- No machine that a session goes through has a cycle in its heap: whatever the host has
asked for and whatever code has been run from wherever, a field of a live object refers
to live objects only, and to older ones.  So there is no endless way from a value to a
field, to a field of that and so on.  Showing a value and converting it for the host, which
go that way, come to an end for every value at all, and what they give does not depend on
the depth that they are allowed, once it exceeds the number of objects. -/
theorem heap_is_acyclic [Yaml.Parser] {x : Machine} (hx : Arises x) :
    (∀ a ∈ x.heap.live, ∀ v ∈ x.heap.fields a, ∀ b, v.address? = some b →
      b ∈ x.heap.live ∧ b < a) ∧
    (WellFounded fun w v : Value => w ∈ x.heap.fieldsOf v) ∧
    (∀ a, x.inspect (.ref .tuple a) =
      "(" ++ ", ".intercalate ((x.heap.fields a).toList.map x.inspect) ++ ")") ∧
    (∀ depth, x.heap.cells.size < depth → ∀ v,
      x.heap.inspectTo depth v = x.inspect v ∧
      ∀ target, Machine.toHost x.heap depth v target =
        Machine.toHost x.heap (x.heap.cells.size + 1) v target) := by
  have hordered := hx.ordered
  refine ⟨fun a _ v hv b hb => hordered a v hv b hb, hordered.wellFounded,
    hordered.inspect_tuple, fun depth hdepth v => ⟨?_, fun target => ?_⟩⟩
  · exact hordered.inspectTo_eq hdepth v
  · exact Machine.toHost_eq hordered hdepth v target

/-- Code that builds a tuple of a tuple and a closure over a local. -/
theorem heap_is_acyclic_nested :
    let code : Code := ⟨(Instr.encodeAll [.int64 7, .push, .makeBlock 1, .bind, .push,
      .closure 0, .push, .makeBlock 2, .ret]).toArray⟩
    ∃ x ∈ (fresh 0 {} none none 9).passes [.overwrite code, .runEntry 0],
      x.heap.live = [4, 3, 2, 1, 0] ∧
      x.heap.fields 4 = #[.ref .tuple 1, .ref .closure 3] ∧
      x.heap.fields 3 = #[.ref .env 2, .code 18] ∧
      x.heap.fields 2 = #[.ref .tuple 1, .emptyEnv] ∧
      x.inspect (.ref .tuple 4) = "((7), <closure @0018>)" ∧
      ∀ depth, 5 < depth → x.heap.inspectTo depth (.ref .tuple 4) = "((7), <closure @0018>)" := by
  intro code
  have hany : ((fresh 0 {} none none 9).passes [.overwrite code, .runEntry 0]).any (fun x =>
      x.heap.live = [4, 3, 2, 1, 0] ∧
      x.heap.fields 4 = #[.ref .tuple 1, .ref .closure 3] ∧
      x.heap.fields 3 = #[.ref .env 2, .code 18] ∧
      x.heap.fields 2 = #[.ref .tuple 1, .emptyEnv] ∧
      x.heap.cells.size = 5 ∧
      x.inspect (.ref .tuple 4) = "((7), <closure @0018>)") = true := by
    decide +kernel
  obtain ⟨x, hx, hfound⟩ := List.any_eq_true.1 hany
  obtain ⟨hlive, hpair, hclosure, henv, hsize, htext⟩ := of_decide_eq_true hfound
  obtain ⟨_, _, _, hdeep⟩ := heap_is_acyclic ⟨0, {}, none, none, 9, _, hx⟩
  refine ⟨x, hx, hlive, hpair, hclosure, henv, htext, fun depth hdepth => ?_⟩
  rw [(hdeep depth (hsize ▸ hdepth) _).1, htext]

end Session

end Zinc
