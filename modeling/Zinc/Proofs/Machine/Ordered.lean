import Zinc.Proofs.Heap.Ordered
import Zinc.Proofs.Machine.Contained

/-!
Running code keeps the objects of a heap in order, whatever the code is.  An instruction
allocates over values that the machine holds, and those refer to live objects: the cells
of an environment over the locals, a closure over the environment, a tuple over arguments.
No instruction changes an object that is there.
-/

namespace Zinc

theorem Heap.Formed.within_live {h : Heap} {v : Value} (hv : h.Formed v) (htidy : h.Tidy) :
    v.Within (· ∈ h.live) :=
  fun _ ha => (hv.live htidy ha).1

namespace Machine

variable {m : Machine}

theorem heap_pushArg (m : Machine) (v : Value) :
    (m.pushArg v).After fun x => x.heap = m.heap := by
  rw [pushArg]
  split
  · rfl
  · rfl

theorem heap_pushArgs (m : Machine) (vs : List Value) :
    (m.pushArgs vs).After fun x => x.heap = m.heap := by
  induction vs generalizing m with
  | nil => exact rfl
  | cons v rest ih =>
      apply (m.heap_pushArg v).andThen
      intro x hx
      exact (ih x).imp fun y hy => hy.trans hx

theorem heap_pushReturn (m : Machine) (e : ReturnEntry) :
    (m.pushReturn e).After fun x => x.heap = m.heap := by
  rw [pushReturn]
  split
  · rfl
  · rfl

theorem heap_jump (m : Machine) (callee : Value) :
    (m.jump callee).After fun x => x.heap = m.heap := by
  rcases m.jump_cases callee with ⟨_, _, _, heq⟩ | ⟨_, heq⟩
  · rw [heq]
    rfl
  · rw [heq]
    rfl

theorem heap_leave (m : Machine) : m.leave.After fun x => x.heap = m.heap := by
  rw [leave]
  dsimp only
  split
  · rfl
  · rfl
  · rfl

/-- The environment that a closure captures is built from the bottom, each cell over the
one before. -/
theorem ordered_captureEnv {h : Heap} (htidy : h.Tidy) (hordered : h.Ordered) {env : Value}
    (henv : h.Formed env) (hkind : env.kind = .env) (entries : List ReturnEntry)
    (hentries : ∀ e ∈ entries, h.Formed e.localValue) :
    (entries.foldr consEnv (env, h)).2.Ordered := by
  induction entries with
  | nil => exact hordered
  | cons e rest ih =>
      obtain ⟨he, hrest⟩ := List.forall_mem_cons.1 hentries
      obtain ⟨hgrows, _, hformed⟩ := henv.captureEnv hkind rest hrest
      have htidy' := hgrows.tidy htidy
      apply (ih hrest).alloc htidy' .env
      intro v hv
      simp only [List.mem_toArray, List.mem_cons, List.not_mem_nil, or_false] at hv
      rcases hv with rfl | rfl
      · exact (he.grow hgrows).within_live htidy'
      · exact hformed.within_live htidy'

theorem ordered_loadClosure (h : m.Contained) (hordered : m.heap.Ordered) (offset : Int) :
    (m.loadClosure offset).heap.Ordered := by
  have hlocals : ∀ e ∈ m.regs.returns.items.take m.regs.extra, m.heap.Formed e.localValue :=
    fun e he => (h.regs.entries e (List.mem_of_mem_take he)).local
  obtain ⟨hgrows, _, hformed⟩ := h.regs.env.captureEnv h.regs.envKind _ hlocals
  have htidy := hgrows.tidy h.intact.tidy
  have hcaptured := ordered_captureEnv h.intact.tidy hordered h.regs.env h.regs.envKind _ hlocals
  apply hcaptured.alloc htidy .closure
  intro v hv
  simp only [List.mem_toArray, List.mem_cons, List.not_mem_nil, or_false] at hv
  rcases hv with rfl | rfl
  · exact hformed.within_live htidy
  · intro a ha
    cases ha

theorem ordered_makeTuple (h : m.Contained) (hordered : m.heap.Ordered) (n : Nat) :
    (m.makeTuple n).After fun x => x.heap.Ordered := by
  -- with too few arguments the tuple stays on the heap with those that were popped
  have hnew : (m.heap.alloc .tuple (popFields m.regs.args n)).2.Ordered := by
    apply hordered.alloc h.intact.tidy .tuple
    intro v hv
    rcases mem_popFields hv with rfl | hv
    · intro a ha
      cases ha
    · exact (h.regs.args v hv).within_live h.intact.tidy
  rw [makeTuple]
  dsimp only
  split
  · exact hnew
  · exact hnew

/-- An instruction keeps the objects in order. -/
theorem ordered_execute (h : m.Contained) (hordered : m.heap.Ordered) (i : Instr) :
    (m.execute i).After fun x => x.heap.Ordered := by
  have same {p : Progress} (hp : p.After fun x => x.heap = m.heap) :
      p.After fun x => x.heap.Ordered :=
    hp.imp fun x hx => hx ▸ hordered
  cases i with
  | int64 value => exact hordered
  | push => exact same (m.heap_pushArg _)
  | pushMark => exact same (m.heap_pushArg _)
  | access index =>
      rw [execute]
      split
      · exact hordered
      · exact hordered
  | closure length =>
      rw [execute]
      dsimp only
      split
      · exact hordered
      · refine ordered_loadClosure ?_ ?_ _
        · exact ⟨h.intact, h.regs.moved _⟩
        · exact hordered
  | apply =>
      apply same
      apply (m.heap_pushReturn _).andThen
      intro x hx
      exact (heap_jump _ _).imp fun y hy => hy.trans hx
  | appTerm => exact same (m.dropExtras.heap_jump _)
  | grab =>
      rw [execute]
      split
      · exact hordered
      · split
        · have hloaded := ordered_loadClosure h hordered m.started.offset
          exact (heap_leave _).imp fun x hx => hx ▸ hloaded
        · apply same
          apply (heap_pushReturn _ _).andThen
          intro x hx
          exact hx
  | ret =>
      rw [execute]
      split
      · exact hordered
      · split
        · exact same m.heap_leave
        · exact same (m.dropExtras.heap_jump _)
  | makeBlock n => exact ordered_makeTuple h hordered _
  | bind =>
      apply same
      apply (m.heap_pushReturn _).andThen
      intro x hx
      exact hx
  | unbind =>
      rw [execute]
      split
      · exact hordered
      · exact hordered
  | setGlobal slot =>
      rw [execute]
      split
      · exact hordered
      · exact hordered
  | getGlobal slot =>
      rw [execute]
      split
      · exact hordered
      · split
        · exact hordered
        · exact hordered

/-- So does a step of any code. -/
theorem ordered_step (h : m.Contained) (hordered : m.heap.Ordered) :
    m.step.After fun x => x.heap.Ordered := by
  rw [step_eq]
  split
  · exact hordered
  · exact hordered
  · exact hordered
  · refine ordered_execute ?_ ?_ _
    · exact ⟨h.intact, h.regs.moved _⟩
    · exact hordered

theorem ordered_ready (h : m.Contained) (hordered : m.heap.Ordered) :
    m.ready.2.heap.Ordered := by
  rcases m.ready_heap with heq | ⟨roots, heq⟩
  · rw [heq]
    exact hordered
  · rw [heq]
    exact hordered.collect h.intact.tidy roots

/-- The objects are in order in all machines that a run goes through. -/
theorem ordered_visits (h : m.Contained) (hordered : m.heap.Ordered) (fuel : Nat) :
    ∀ x ∈ m.visits fuel, x.heap.Ordered := by
  induction fuel generalizing m with
  | zero => exact List.forall_mem_singleton.2 hordered
  | succ fuel ih =>
      have hcontained := h.ready
      have hready := ordered_ready h hordered
      rw [Machine.visits]
      refine List.forall_mem_cons.2 ⟨hordered, ?_⟩
      generalize m.ready = r at hcontained hready
      obtain ⟨stop, x⟩ := r
      cases stop with
      | some f => exact List.forall_mem_singleton.2 hready
      | none =>
          have hcounted : x.counted.Contained := ⟨hcontained.intact, hcontained.regs⟩
          have hnext := contained_step hcounted
          have hstep := ordered_step hcounted hready
          refine List.forall_mem_cons.2 ⟨hready, ?_⟩
          generalize x.counted.step = p at hnext hstep
          cases p with
          | running next => exact ih hnext hstep
          | finished last => exact List.forall_mem_singleton.2 hstep
          | faulted f last => exact List.forall_mem_singleton.2 hstep

theorem heap_enter (m : Machine) (callee : Value) (args : List Value) :
    (m.enter callee args).After fun x => x.heap = m.heap := by
  apply (heap_pushArgs _ _).andThen
  intro x hx
  exact (x.heap_jump callee).imp fun y hy => hy.trans hx

end Machine

/-- Entering a closure allocates nothing, so the objects are in order in all machines that
the run goes through. -/
theorem Run.visits_ordered {r : Run} (h : r.machine.heap.Intact r.machine.outside)
    (hcallee : r.machine.heap.Formed r.callee)
    (hargs : ∀ v ∈ r.args, r.machine.heap.Formed v) (hordered : r.machine.heap.Ordered) :
    ∀ x ∈ r.visits, x.heap.Ordered := by
  have hentered := Machine.contained_enter h hcallee hargs
  have hheap := r.machine.heap_enter r.callee r.args
  rw [Run.visits]
  generalize r.machine.enter r.callee r.args = p at hentered hheap
  cases p with
  | running m => exact Machine.ordered_visits hentered (hheap ▸ hordered) _
  | finished m => exact List.forall_mem_singleton.2 (hheap ▸ hordered)
  | faulted f m => exact List.forall_mem_singleton.2 (hheap ▸ hordered)

/-- A run leaves the heap of a machine that it goes through. -/
theorem Run.exists_visit_heap (r : Run) :
    ∃ x ∈ r.visits, (r.machine.run r.callee r.args).2.heap = x.heap := by
  rw [Run.visits, Machine.run]
  cases r.machine.enter r.callee r.args with
  | running next => exact ⟨_, (Machine.loop_mem_visits next.horizon next).1, rfl⟩
  | finished last => exact ⟨last, List.mem_singleton_self _, rfl⟩
  | faulted f last => exact ⟨last, List.mem_singleton_self _, rfl⟩

end Zinc
