import Zinc.Proofs.Machine.Formed
import Zinc.Proofs.Machine.Usage

/-!
Arbitrary code cannot break a machine out of its data.  Registers, stacks, globals and
handles hold well-formed values and the return stack is in segments, before and after
every instruction, whatever the instruction is and however it ends.  So all machines that
a run goes through are contained in this sense.
-/

namespace Zinc

/-- An entry of the return stack holds a well-formed value, and a frame an environment. -/
def ReturnEntry.Formed (h : Heap) : ReturnEntry → Prop
  | .value v => h.Formed v
  | .frame _ env _ => h.Formed env ∧ env.kind = .env

theorem ReturnEntry.Formed.held {h : Heap} {e : ReturnEntry} (he : e.Formed h) :
    h.Formed e.held := by
  cases e with
  | value v => exact he
  | frame pc env extra => exact he.1

theorem ReturnEntry.Formed.local {h : Heap} {e : ReturnEntry} (he : e.Formed h) :
    h.Formed e.localValue := by
  cases e with
  | value v => exact he
  | frame pc env extra => exact .plain rfl

/-- The registers hold well-formed values, and the return stack is in segments. -/
structure Registers.Contained (h : Heap) (r : Registers) : Prop where
  acc : h.Formed r.acc
  env : h.Formed r.env
  envKind : r.env.kind = .env
  args : ∀ v ∈ r.args.items, h.Formed v
  entries : ∀ e ∈ r.returns.items, e.Formed h
  segmented : Segmented r.extra r.returns.items

namespace Registers.Contained

variable {h h' : Heap} {r : Registers}

theorem keep {roots : List Value} (hr : r.Contained h) (hkeeps : Heap.Keeps roots h h')
    (hroots : ∀ v ∈ r.acc :: r.env :: (r.args.items ++ r.returns.items.map ReturnEntry.held),
      v ∈ roots) : r.Contained h' := by
  have hkept {v : Value} (hv : h.Formed v) (hmem : v ∈ r.acc :: r.env ::
      (r.args.items ++ r.returns.items.map ReturnEntry.held)) : h'.Formed v :=
    hv.keep hkeeps (Heap.within_reach (hroots v hmem))
  refine ⟨hkept hr.acc (by simp), hkept hr.env (by simp), hr.envKind, fun v hv => ?_,
    fun e he => ?_, hr.segmented⟩
  · exact hkept (hr.args v hv) (by simp [hv])
  · have hheld : e.held ∈ r.returns.items.map ReturnEntry.held := List.mem_map_of_mem he
    have hformed := hr.entries e he
    cases e with
    | value v => exact hkept hformed (by simp_all [ReturnEntry.held])
    | frame pc env extra =>
        exact ⟨hkept hformed.1 (by simp_all [ReturnEntry.held]), hformed.2⟩

theorem grow (hr : r.Contained h) (hgrows : h.Grows h') : r.Contained h' :=
  hr.keep (hgrows.keeps _) fun _ hv => hv

/-- Where the next instruction is does not matter. -/
theorem moved (hr : r.Contained h) (pc : Int) : Contained h { r with pc := pc } :=
  ⟨hr.acc, hr.env, hr.envKind, hr.args, hr.entries, hr.segmented⟩

theorem clear (h : Heap) : Contained h {} :=
  ⟨.plain rfl, .plain rfl, rfl, by simp [Stack.empty], by simp [Stack.empty], .bottom []⟩

end Registers.Contained

/-- A tidy heap in which some values are well formed. -/
structure Heap.Intact (h : Heap) (vs : List Value) : Prop where
  tidy : h.Tidy
  formed : ∀ v ∈ vs, h.Formed v

theorem Heap.Intact.keep {h h' : Heap} {vs roots : List Value} (hvs : h.Intact vs)
    (hkeeps : Keeps roots h h') (htidy : h'.Tidy) (hroots : ∀ v ∈ vs, v ∈ roots) :
    h'.Intact vs :=
  ⟨htidy, fun v hv => (hvs.formed v hv).keep hkeeps (within_reach (hroots v hv))⟩

theorem Heap.Intact.grow {h h' : Heap} {vs : List Value} (hvs : h.Intact vs)
    (hgrows : h.Grows h') : h'.Intact vs :=
  hvs.keep (hgrows.keeps vs) (hgrows.tidy hvs.tidy) fun _ hv => hv

theorem Heap.Intact.mono {h : Heap} {few many : List Value} (hmany : h.Intact many)
    (hsub : ∀ v ∈ few, v ∈ many) : h.Intact few :=
  ⟨hmany.tidy, fun v hv => hmany.formed v (hsub v hv)⟩

theorem Heap.Intact.cons {h : Heap} {v : Value} {vs : List Value} (hv : h.Formed v)
    (hvs : h.Intact vs) : h.Intact (v :: vs) :=
  ⟨hvs.tidy, List.forall_mem_cons.2 ⟨hv, hvs.formed⟩⟩

namespace Machine

/-- The values that a machine holds outside of its registers. -/
def outside (m : Machine) : List Value :=
  m.held ++ m.globals.values

theorem mem_roots_of_mem_outside {m : Machine} {v : Value} (hv : v ∈ m.outside) :
    v ∈ m.roots := by
  rcases List.mem_append.1 hv with hv | hv
  · exact mem_roots_of_mem_held hv
  · simp [roots, hv]

/-- Everything that a machine holds is well formed, and its return stack is in
segments. -/
structure Contained (m : Machine) : Prop where
  intact : m.heap.Intact m.outside
  regs : m.regs.Contained m.heap

variable {m m' : Machine}

theorem Contained.roots (h : m.Contained) : ∀ v ∈ m.roots, m.heap.Formed v := by
  intro v hv
  have hheld := h.intact.formed v
  rw [outside, held] at hheld
  simp only [Machine.roots, List.mem_cons, List.mem_append, List.mem_map] at hv hheld
  rcases hv with rfl | rfl | hv | ⟨e, he, rfl⟩ | hv | hv | hv
  · exact h.regs.acc
  · exact h.regs.env
  · exact h.regs.args v hv
  · exact (h.regs.entries e he).held
  · exact hheld (Or.inl (Or.inl hv))
  · exact hheld (Or.inr hv)
  · exact hheld (Or.inl (Or.inr hv))

theorem contained_jump (h : m.Contained) {callee : Value} (hcallee : m.heap.Formed callee) :
    (m.jump callee).After Contained := by
  rcases m.jump_cases callee with ⟨a, rfl, _, heq⟩ | ⟨_, heq⟩
  · have hkind : (m.heap.field a 0).kind = .env := by
      cases hcallee with
      | plain hnone => cases hnone
      | closure hcell _ hfields hkind _ =>
          rw [Heap.field, Heap.fields_of_cell hcell, hfields]
          exact hkind
    rw [heq]
    exact ⟨h.intact, h.regs.acc, hcallee.field rfl 0, hkind, h.regs.args, h.regs.entries,
      h.regs.segmented⟩
  · rw [heq]
    exact h

theorem contained_pushArg (h : m.Contained) {v : Value} (hv : m.heap.Formed v) :
    (m.pushArg v).After Contained := by
  rw [pushArg]
  split
  · exact h
  · exact ⟨h.intact, h.regs.acc, h.regs.env, h.regs.envKind,
      List.forall_mem_cons.2 ⟨hv, h.regs.args⟩, h.regs.entries, h.regs.segmented⟩

/-- An entry is pushed, and then the count of locals is set to what it is now. -/
theorem contained_pushReturn (h : m.Contained) (e : ReturnEntry) {extra : Nat}
    (he : e.Formed m.heap) (hsegmented : Segmented extra (e :: m.regs.returns.items))
    {k : Machine → Progress}
    (hk : ∀ x : Machine, Contained { x with regs := { x.regs with extra := extra } } →
      x.regs.extra = m.regs.extra → (k x).After Contained) :
    ((m.pushReturn e).andThen k).After Contained := by
  rw [pushReturn]
  split
  · exact h
  · refine hk _ ?_ rfl
    exact ⟨h.intact, h.regs.acc, h.regs.env, h.regs.envKind, h.regs.args,
      List.forall_mem_cons.2 ⟨he, h.regs.entries⟩, hsegmented⟩

theorem contained_dropExtras (h : m.Contained) : m.dropExtras.Contained :=
  ⟨h.intact, h.regs.acc, h.regs.env, h.regs.envKind, h.regs.args,
    fun e he => h.regs.entries e (List.mem_of_mem_drop he), h.regs.segmented.dropAll⟩

theorem Contained.dropArgs (h : m.Contained) (n : Nat) :
    Contained { m with regs := { m.regs with args := m.regs.args.drop n } } :=
  ⟨h.intact, h.regs.acc, h.regs.env, h.regs.envKind,
    fun v hv => h.regs.args v (List.mem_of_mem_drop hv), h.regs.entries, h.regs.segmented⟩

theorem contained_leave (h : m.Contained) : m.leave.After Contained := by
  have hdropped := contained_dropExtras (h.dropArgs 1)
  rw [leave]
  dsimp only
  generalize dropExtras _ = x at hdropped
  split
  · exact hdropped
  · exact hdropped
  · rename_i pc env extra htop
    obtain ⟨rest, hitems⟩ := List.head?_eq_some_iff.1 htop
    have hentries := hdropped.regs.entries
    have hsegmented := hdropped.regs.segmented
    rw [hitems] at hentries hsegmented
    obtain ⟨⟨henv, hkind⟩, hrest⟩ := List.forall_mem_cons.1 hentries
    refine ⟨hdropped.intact, hdropped.regs.acc, henv, hkind, hdropped.regs.args, ?_, ?_⟩
    · simpa [hitems] using hrest
    · simpa [hitems] using hsegmented.underFrame

/-- A closure over the current locals is well formed. -/
theorem contained_loadClosure (h : m.Contained) (offset : Int) :
    (m.loadClosure offset).Contained := by
  obtain ⟨hgrows, hkind, hformed⟩ := h.regs.env.captureEnv h.regs.envKind
    (m.regs.returns.items.take m.regs.extra)
    fun e he => (h.regs.entries e (List.mem_of_mem_take he)).local
  have hnew := Heap.Grows.alloc .closure #[m.captureEnv.1, .code offset]
    (Heap.Grows.refl m.captureEnv.2)
  have hall := hgrows.trans hnew
  have hregs := h.regs.grow hall
  refine ⟨h.intact.grow hall, ?_, hregs.env, hregs.envKind, hregs.args, hregs.entries,
    hregs.segmented⟩
  exact .closure (Heap.cells_alloc_self _ _ _) rfl rfl hkind (hformed.grow hnew)

theorem contained_makeTuple (h : m.Contained) (n : Nat) : (m.makeTuple n).After Contained := by
  have hgrows (fields : Array Value) : m.heap.Grows (m.heap.alloc .tuple fields).2 :=
    .alloc _ _ (.refl _)
  rw [makeTuple]
  dsimp only
  split
  · exact ⟨h.intact.grow (hgrows _), (h.dropArgs n).regs.grow (hgrows _)⟩
  · rename_i hdeep
    rw [popFields_of_deep hdeep]
    have hregs := (h.dropArgs n).regs.grow (hgrows (m.regs.args.items.take n).reverse.toArray)
    refine ⟨h.intact.grow (hgrows _), ?_, hregs.env, hregs.envKind, hregs.args,
      hregs.entries, hregs.segmented⟩
    refine .tuple (Heap.cells_alloc_self _ _ _) rfl fun v hv => ?_
    have hv : v ∈ m.regs.args.items.take n := by simpa using hv
    exact (h.regs.args v (List.mem_of_mem_take hv)).grow (hgrows _)

theorem Contained.load (h : m.Contained) {v : Value} (hv : m.heap.Formed v) :
    Contained { m with regs := { m.regs with acc := v } } :=
  ⟨h.intact, hv, h.regs.env, h.regs.envKind, h.regs.args, h.regs.entries,
    h.regs.segmented⟩

theorem Contained.local (h : m.Contained) {i : Nat} {v : Value} (hv : m.local? i = some v) :
    m.heap.Formed v := by
  rw [local?] at hv
  split at hv
  · obtain ⟨e, he, rfl⟩ := Option.map_eq_some_iff.1 hv
    exact (h.regs.entries e (List.mem_of_getElem? he)).local
  · exact h.regs.env.chainAt hv

theorem Contained.setGlobal (h : m.Contained) {i : Nat} {v : Value} {globals : Globals}
    (hv : m.heap.Formed v) (hset : m.globals.set? i v = some globals) :
    Contained { m with globals := globals } := by
  obtain ⟨_, rfl⟩ := Globals.set?_eq_some hset
  refine ⟨⟨h.intact.tidy, fun u hu => ?_⟩, h.regs⟩
  rcases List.mem_append.1 hu with hu | hu
  · exact h.intact.formed u (List.mem_append_left _ hu)
  · obtain ⟨g, hg, rfl⟩ := List.mem_map.1 hu
    obtain ⟨j, hj, rfl⟩ := Array.mem_iff_getElem.1 (Array.mem_toList_iff.1 hg)
    rw [Array.getElem_modify]
    split
    · exact hv
    · refine h.intact.formed _ (List.mem_append_right _ (List.mem_map_of_mem ?_))
      exact Array.mem_toList_iff.2 (Array.getElem_mem _)

theorem contained_execute (h : m.Contained) (i : Instr) :
    (m.execute i).After Contained := by
  cases i with
  | int64 value => exact h.load (.plain rfl)
  | push => exact contained_pushArg h h.regs.acc
  | pushMark => exact contained_pushArg h (.plain rfl)
  | access index =>
      rw [execute]
      split
      · rename_i v hv
        exact h.load (h.local hv)
      · exact h
  | closure length =>
      rw [execute]
      dsimp only
      split
      · exact h
      · have hmoved : Contained
            { m with regs := { m.regs with pc := m.regs.pc + length.toNat } } :=
          ⟨h.intact, h.regs.moved _⟩
        exact contained_loadClosure hmoved _
  | apply =>
      refine contained_pushReturn h (.frame _ _ _) ⟨h.regs.env, h.regs.envKind⟩
        (h.regs.segmented.pushFrame _ _) fun x hx _ => ?_
      exact contained_jump hx hx.regs.acc
  | appTerm => exact contained_jump (contained_dropExtras h) h.regs.acc
  | grab =>
      rw [execute]
      split
      · exact h
      · rename_i v hv
        split
        · exact contained_leave (contained_loadClosure h _)
        · have hmem : v ∈ m.regs.args.items := List.mem_of_mem_head? hv
          refine contained_pushReturn (h.dropArgs 1) (.value v) (h.regs.args v hmem)
            (h.regs.segmented.push v) fun x hx hextra => ?_
          rw [hextra]
          exact hx
  | ret =>
      rw [execute]
      split
      · exact h
      · split
        · exact contained_leave h
        · exact contained_jump (contained_dropExtras h) h.regs.acc
  | makeBlock n => exact contained_makeTuple h _
  | bind =>
      refine contained_pushReturn h (.value _) h.regs.acc (h.regs.segmented.push _)
        fun x hx hextra => ?_
      rw [hextra]
      exact hx
  | unbind =>
      rw [execute]
      split
      · exact h
      · rename_i hextra
        obtain ⟨n, hn⟩ := Nat.exists_eq_succ_of_ne_zero hextra
        have hsegmented := h.regs.segmented
        rw [hn] at hsegmented
        refine ⟨h.intact, h.regs.acc, h.regs.env, h.regs.envKind, h.regs.args, ?_, ?_⟩
        · exact fun e he => h.regs.entries e (List.mem_of_mem_drop he)
        · rw [hn]
          exact hsegmented.pop
  | setGlobal slot =>
      rw [execute]
      split
      · rename_i globals hset
        exact h.setGlobal h.regs.acc hset
      · exact h
  | getGlobal slot =>
      rw [execute]
      split
      · exact h
      · rename_i g hg
        split
        · have hmem : g.value ∈ m.globals.values :=
            List.mem_map_of_mem (Array.mem_toList_iff.2 (Array.mem_of_getElem? hg))
          exact h.load (h.intact.formed _ (List.mem_append_right _ hmem))
        · exact h

/-- No instruction of any code breaks out. -/
theorem contained_step (h : m.Contained) : m.step.After Contained := by
  rw [step_eq]
  split
  · exact ⟨h.intact, h.regs⟩
  · exact ⟨h.intact, h.regs.moved _⟩
  · exact ⟨h.intact, h.regs.moved _⟩
  · exact contained_execute (by exact ⟨h.intact, h.regs.moved _⟩) _

theorem Contained.asked (h : m.Contained) : m.asked.2.Contained := by
  unfold Machine.asked askWatch
  split
  · split
    · exact h
    · split
      · exact h
      · exact ⟨h.intact, h.regs⟩
  · exact h

/-- A collection keeps everything that the machine holds. -/
theorem Contained.collectGarbage (h : m.Contained) : m.collectGarbage.2.Contained := by
  have hkeeps := h.intact.tidy.collect_keeps m.roots
  refine ⟨h.intact.keep hkeeps (h.intact.tidy.collect _) fun v => mem_roots_of_mem_outside,
    h.regs.keep hkeeps fun v hv => ?_⟩
  simp only [List.mem_cons, List.mem_append] at hv
  rcases hv with rfl | rfl | hv | hv
  · simp [Machine.roots]
  · simp [Machine.roots]
  · simp [Machine.roots, hv]
  · simp [Machine.roots, List.mem_map.1 hv]

theorem Contained.ready (h : m.Contained) : m.ready.2.Contained := by
  have hcollected {x : Machine} (hx : x.Contained) : x.collectIfFull.Contained := by
    rw [collectIfFull]
    split
    · exact hx.collectGarbage
    · exact hx
  have htraced {x : Machine} (hx : x.Contained) : x.traced.Contained := by
    unfold traced logged
    split
    · split
      · exact ⟨hx.intact, hx.regs⟩
      · exact hx
    · exact hx
  have hasked := h.asked
  rcases m.ready_cases with ⟨_, hready⟩ | ⟨_, f, x, heq, hready⟩ | ⟨_, x, heq, hready⟩
  · rw [hready]
    exact h
  · rw [hready]
    rwa [heq] at hasked
  · rw [hready]
    rw [heq] at hasked
    exact htraced (hcollected hasked)

/-- All machines that a run goes through are contained. -/
theorem Contained.visits (h : m.Contained) (fuel : Nat) :
    ∀ x ∈ m.visits fuel, x.Contained := by
  induction fuel generalizing m with
  | zero => exact List.forall_mem_singleton.2 h
  | succ fuel ih =>
      have hready := h.ready
      rw [Machine.visits]
      refine List.forall_mem_cons.2 ⟨h, ?_⟩
      generalize m.ready = r at hready
      obtain ⟨stop, x⟩ := r
      cases stop with
      | some f => exact List.forall_mem_singleton.2 hready
      | none =>
          have hcounted : x.counted.Contained := ⟨hready.intact, hready.regs⟩
          have hstep := contained_step hcounted
          refine List.forall_mem_cons.2 ⟨hcounted, ?_⟩
          generalize x.counted.step = p at hstep
          cases p with
          | running next => exact ih hstep
          | finished last => exact List.forall_mem_singleton.2 hstep
          | faulted f last => exact List.forall_mem_singleton.2 hstep

/-- A run ends with a machine that it goes through, and with the value loaded there. -/
theorem loop_mem_visits (fuel : Nat) (m : Machine) :
    (loop fuel m).2 ∈ m.visits fuel ∧
      ∀ v, (loop fuel m).1 = .ok v → v = (loop fuel m).2.regs.acc := by
  induction fuel generalizing m with
  | zero => exact ⟨List.mem_singleton_self _, fun v hv => by cases hv⟩
  | succ fuel ih =>
      rw [loop, Machine.visits]
      rcases m.ready with ⟨_ | f, x⟩
      · dsimp only
        cases x.counted.step with
        | running next =>
            obtain ⟨hmem, hvalue⟩ := ih next
            exact ⟨List.mem_cons_of_mem _ (List.mem_cons_of_mem _ hmem), hvalue⟩
        | finished last => exact ⟨by simp, fun v hv => (Except.ok.inj hv).symm⟩
        | faulted f last => exact ⟨by simp, fun v hv => by cases hv⟩
      · exact ⟨by simp, fun v hv => by cases hv⟩

theorem contained_pushArgs (h : m.Contained) (vs : List Value)
    (hvs : ∀ v ∈ vs, m.heap.Formed v) :
    (m.pushArgs vs).After Contained := by
  induction vs generalizing m with
  | nil => exact h
  | cons v rest ih =>
      obtain ⟨hv, hrest⟩ := List.forall_mem_cons.1 hvs
      have hpushed := contained_pushArg h hv
      have hstepped := m.stepped_pushArg v
      rw [pushArgs]
      generalize m.pushArg v = p at hpushed hstepped
      cases p with
      | running next => exact ih hpushed fun u hu => (hrest u hu).grow hstepped.heap
      | finished last => exact hpushed
      | faulted f last => exact hpushed

theorem contained_enter (h : m.heap.Intact m.outside) {callee : Value} {args : List Value}
    (hcallee : m.heap.Formed callee) (hargs : ∀ v ∈ args, m.heap.Formed v) :
    (m.enter callee args).After Contained := by
  have hclear : Contained { m with usage := {}, regs := {} } := ⟨h, .clear _⟩
  have hpushed := contained_pushArgs hclear (.mark :: args.reverse)
    (List.forall_mem_cons.2 ⟨.plain rfl, fun v hv => hargs v (List.mem_reverse.1 hv)⟩)
  have hstepped := stepped_pushArgs { m with usage := {}, regs := {} } (.mark :: args.reverse)
  rw [enter, clearRegisters]
  generalize pushArgs _ _ = p at hpushed hstepped
  cases p with
  | running next => exact contained_jump hpushed (hcallee.grow hstepped.heap)
  | finished last => exact hpushed
  | faulted f last => exact hpushed

end Machine

/-- All machines that a run on well-formed values goes through are contained. -/
theorem Run.visits_contained {r : Run} (h : r.machine.heap.Intact r.machine.outside)
    (hcallee : r.machine.heap.Formed r.callee)
    (hargs : ∀ v ∈ r.args, r.machine.heap.Formed v) : ∀ x ∈ r.visits, x.Contained := by
  have henter := Machine.contained_enter h hcallee hargs
  rw [Run.visits]
  generalize r.machine.enter r.callee r.args = p at henter
  cases p with
  | running m => exact Machine.Contained.visits henter _
  | finished m => exact List.forall_mem_singleton.2 henter
  | faulted f m => exact List.forall_mem_singleton.2 henter

/-- A run on well-formed values leaves what the machine holds well formed, and so is the
value that it gives. -/
theorem Machine.contained_run {m : Machine} (h : m.heap.Intact m.outside) {callee : Value}
    {args : List Value} (hcallee : m.heap.Formed callee)
    (hargs : ∀ v ∈ args, m.heap.Formed v) :
    (m.run callee args).2.heap.Intact (m.run callee args).2.outside ∧
      ∀ v, (m.run callee args).1 = .ok v → (m.run callee args).2.heap.Formed v := by
  have henter := contained_enter h hcallee hargs
  rw [run]
  generalize m.enter callee args = p at henter
  cases p with
  | running next =>
      obtain ⟨hmem, hvalue⟩ := loop_mem_visits next.horizon next
      have hlast := Contained.visits henter _ _ hmem
      refine ⟨hlast.intact, fun v hv => ?_⟩
      rw [hvalue v hv]
      exact hlast.regs.acc
  | finished last =>
      refine ⟨henter.intact, fun v hv => ?_⟩
      obtain rfl := Except.ok.inj hv
      exact henter.regs.acc
  | faulted f last => exact ⟨henter.intact, fun v hv => by cases hv⟩

end Zinc
