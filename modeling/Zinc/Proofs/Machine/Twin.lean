import Zinc.Proofs.Heap.Agree
import Zinc.Proofs.Machine.Frame

/-!
Two machines that differ in when they collect.  One has another heap, another threshold
and another log than the other, and the heaps agree on a closed set of objects around
everything that the machines can still use.  An instruction does the same on both, and
a collection on either side only shrinks that set; so whole evaluations end with the
same answer.
-/

namespace Zinc

/-- The registers refer to objects of `S` only. -/
structure Registers.Within (S : Nat → Prop) (r : Registers) : Prop where
  acc : r.acc.Within S
  env : r.env.Within S
  args : ∀ v ∈ r.args.items, v.Within S
  returns : ∀ e ∈ r.returns.items, e.held.Within S

namespace Machine

/-- The machine with another heap, another threshold and another log. -/
def atop (m : Machine) (heap : Heap) (threshold : Option Int)
    (log : Array Record) : Machine :=
  { m with
    heap := heap
    limits := { m.limits with threshold? := threshold }
    log := log }

/-- All that the machine can still use lies in `S`, and there its heap agrees with
another one. -/
structure Twin (S : Nat → Prop) (m : Machine) (heap : Heap) : Prop where
  heap : Heap.Agree S m.heap heap
  regs : m.regs.Within S
  handles : ∀ v ∈ m.handles.values, v.Within S
  globals : ∀ g ∈ m.globals.entries, g.value.Within S
  saved : ∀ g ∈ m.saved, g.value.Within S

end Machine

/-- A step of a machine that has another heap, threshold and log. -/
def Progress.atop (p : Progress) (heap : Heap) (threshold : Option Int)
    (log : Array Record) : Progress :=
  match p with
  | .running m => .running (m.atop heap threshold log)
  | .finished m => .finished (m.atop heap threshold log)
  | .faulted f m => .faulted f (m.atop heap threshold log)

namespace Machine

variable {S : Nat → Prop} {m : Machine} {heap : Heap} {t : Option Int}
  {log : Array Record}

theorem within_of_address?_eq_none {v : Value} (h : v.address? = none) :
    v.Within S := by
  intro a ha
  rw [h] at ha
  cases ha

theorem Twin.roots (h : Twin S m heap) : ∀ v ∈ m.roots, v.Within S := by
  intro v hv
  simp only [Machine.roots, Globals.values, List.mem_cons, List.mem_append,
    List.mem_map, Array.mem_toList_iff] at hv
  rcases hv with rfl | rfl | hv | ⟨e, he, rfl⟩ | hv | ⟨g, hg, rfl⟩ | ⟨g, hg, rfl⟩
  · exact h.regs.acc
  · exact h.regs.env
  · exact h.regs.args v hv
  · exact h.regs.returns e he
  · exact h.handles v hv
  · exact h.globals g hg
  · exact h.saved g hg

/-- Only the objects that a machine can still use matter. -/
theorem Twin.of_roots {S' : Nat → Prop} {heap' : Heap}
    (hagree : Heap.Agree S' m.heap heap') (hroots : ∀ v ∈ m.roots, v.Within S') :
    Twin S' m heap' := by
  simp only [Machine.roots, Globals.values, List.mem_cons, List.mem_append,
    List.mem_map, Array.mem_toList_iff] at hroots
  refine ⟨hagree, ⟨?_, ?_, ?_, ?_⟩, ?_, ?_, ?_⟩
  · exact hroots _ (Or.inl rfl)
  · exact hroots _ (Or.inr (Or.inl rfl))
  · exact fun v hv => hroots v (Or.inr (Or.inr (Or.inl hv)))
  · exact fun e he => hroots _ (Or.inr (Or.inr (Or.inr (Or.inl ⟨e, he, rfl⟩))))
  · exact fun v hv => hroots v (Or.inr (Or.inr (Or.inr (Or.inr (Or.inl hv)))))
  · exact fun g hg => hroots _
      (Or.inr (Or.inr (Or.inr (Or.inr (Or.inr (Or.inl ⟨g, hg, rfl⟩))))))
  · exact fun g hg => hroots _
      (Or.inr (Or.inr (Or.inr (Or.inr (Or.inr (Or.inr ⟨g, hg, rfl⟩))))))

theorem Twin.withRegisters (h : Twin S m heap) (regs : Registers)
    (hregs : regs.Within S) (usage : Usage) (started : Started) :
    Twin S { m with regs := regs, usage := usage, started := started } heap :=
  ⟨h.heap, hregs, h.handles, h.globals, h.saved⟩

theorem Twin.withExtra (h : Twin S m heap) (extra : Nat) :
    Twin S { m with regs := { m.regs with extra := extra } } heap :=
  ⟨h.heap, ⟨h.regs.acc, h.regs.env, h.regs.args, h.regs.returns⟩, h.handles,
    h.globals, h.saved⟩

/-- Larger heaps that agree on a larger set. -/
theorem Twin.grow (h : Twin S m heap) {S' : Nat → Prop} {left right : Heap}
    (hagree : Heap.Agree S' left right) (hsub : ∀ a, S a → S' a) :
    Twin S' { m with heap := left } right where
  heap := hagree
  regs := ⟨h.regs.acc.mono hsub, h.regs.env.mono hsub,
    fun v hv => (h.regs.args v hv).mono hsub,
    fun e he => (h.regs.returns e he).mono hsub⟩
  handles v hv := (h.handles v hv).mono hsub
  globals g hg := (h.globals g hg).mono hsub
  saved g hg := (h.saved g hg).mono hsub

/-- Two machines take the same step, after which they agree on `S`. -/
structure Beside (S : Nat → Prop) (heap : Heap) (t : Option Int)
    (log : Array Record) (p p' : Progress) : Prop where
  twin : p.After fun m => m.Twin S heap
  eq : p' = p.atop heap t log

theorem Twin.running (h : Twin S m heap) :
    Beside S heap t log (.running m) (.running (m.atop heap t log)) :=
  ⟨h, rfl⟩

theorem Twin.finished (h : Twin S m heap) :
    Beside S heap t log (.finished m) (.finished (m.atop heap t log)) :=
  ⟨h, rfl⟩

theorem Twin.fail (h : Twin S m heap) (kind : FaultKind) (cause : Cause)
    (detail : Option String) :
    Beside S heap t log (m.fail kind cause detail)
      ((m.atop heap t log).fail kind cause detail) :=
  ⟨h, rfl⟩

theorem Beside.andThen {p p' : Progress} {k : Machine → Progress}
    (hp : Beside S heap t log p p')
    (hk : ∀ m, Twin S m heap →
      Beside S heap t log (k m) (k (m.atop heap t log))) :
    Beside S heap t log (p.andThen k) (p'.andThen k) := by
  obtain ⟨htwin, rfl⟩ := hp
  cases p with
  | running m => exact hk m htwin
  | finished m => exact ⟨htwin, rfl⟩
  | faulted f m => exact ⟨htwin, rfl⟩

theorem Twin.pushArg (h : Twin S m heap) {v : Value} (hv : v.Within S) :
    Beside S heap t log (m.pushArg v) ((m.atop heap t log).pushArg v) := by
  unfold Machine.pushArg
  by_cases hfull : m.limits.argStack ≤ m.regs.args.depth
  · rw [if_pos hfull, if_pos (by exact hfull)]
    exact h.fail _ _ _
  · rw [if_neg hfull, if_neg (by exact hfull)]
    refine Twin.running (h.withRegisters _ ?_ _ _)
    refine ⟨h.regs.acc, h.regs.env, ?_, h.regs.returns⟩
    exact List.forall_mem_cons.2 ⟨hv, h.regs.args⟩

theorem Twin.pushReturn (h : Twin S m heap) (e : ReturnEntry)
    (he : e.held.Within S) :
    Beside S heap t log (m.pushReturn e) ((m.atop heap t log).pushReturn e) := by
  unfold Machine.pushReturn
  by_cases hfull : m.limits.returnStack ≤ m.regs.returns.depth
  · rw [if_pos hfull, if_pos (by exact hfull)]
    exact h.fail _ _ _
  · rw [if_neg hfull, if_neg (by exact hfull)]
    refine Twin.running (h.withRegisters _ ?_ _ _)
    refine ⟨h.regs.acc, h.regs.env, h.regs.args, ?_⟩
    exact List.forall_mem_cons.2 ⟨he, h.regs.returns⟩

theorem Twin.dropExtras (h : Twin S m heap) : Twin S m.dropExtras heap := by
  refine h.withRegisters _ ?_ _ _
  refine ⟨h.regs.acc, h.regs.env, h.regs.args, fun e he => ?_⟩
  exact h.regs.returns e (List.mem_of_mem_drop he)

theorem Twin.jump (h : Twin S m heap) {callee : Value}
    (hcallee : callee.Within S) :
    Beside S heap t log (m.jump callee) ((m.atop heap t log).jump callee) := by
  rcases m.jump_cases callee with ⟨a, rfl, hsize, heq⟩ | ⟨hnot, heq⟩
  · have ha := Value.within_ref.1 hcallee
    have hother : (m.atop heap t log).jump (.ref .closure a) =
        .running { m.atop heap t log with
          regs := { m.regs with
            env := m.heap.field a 0, pc := (m.heap.field a 1).asOffset } } := by
      have hsize' : (heap.fields a).size = 2 := by
        rw [h.heap.fields ha, hsize]
      simp only [Machine.jump, atop, hsize', if_pos, h.heap.field ha]
    rw [heq, hother]
    refine Twin.running (h.withRegisters _ ?_ _ _)
    exact ⟨h.regs.acc, h.heap.closed.field_within ha 0, h.regs.args,
      h.regs.returns⟩
  · rcases (m.atop heap t log).jump_cases callee with ⟨a, rfl, hsize, _⟩ | ⟨_, heq'⟩
    · have ha := Value.within_ref.1 hcallee
      refine absurd ?_ (hnot a rfl)
      rw [← h.heap.fields ha]
      exact hsize
    · rw [heq, heq']
      exact h.fail _ _ _

theorem Twin.leave (h : Twin S m heap) :
    Beside S heap t log m.leave (m.atop heap t log).leave := by
  have hdropped : Twin S
      { m with regs := { m.regs with args := m.regs.args.drop 1 } }.dropExtras
      heap := by
    refine Twin.dropExtras (h.withRegisters _ ?_ _ _)
    refine ⟨h.regs.acc, h.regs.env, fun v hv => ?_, h.regs.returns⟩
    exact h.regs.args v (List.mem_of_mem_drop hv)
  unfold Machine.leave
  dsimp only [atop, Machine.dropExtras] at hdropped ⊢
  split
  · exact hdropped.finished
  · exact hdropped.fail _ _ _
  · rename_i pc env extra htop
    refine Twin.running (hdropped.withRegisters _ ?_ _ _)
    have hframe := hdropped.regs.returns _ (List.mem_of_head? htop)
    refine ⟨hdropped.regs.acc, hframe, hdropped.regs.args, fun e he => ?_⟩
    exact hdropped.regs.returns e (List.mem_of_mem_drop he)

theorem chainAt_congr {h h' : Heap} (hagree : Heap.Agree S h h') {env : Value}
    (henv : env.Within S) (k : Nat) :
    chainAt h' env k = chainAt h env k ∧
      ∀ v, chainAt h env k = some v → v.Within S := by
  induction k generalizing env with
  | zero =>
      cases haddr : env.address? with
      | none => simp [chainAt, haddr]
      | some a =>
          have ha := henv a haddr
          refine ⟨by simp [chainAt, haddr, hagree.field ha], fun v hv => ?_⟩
          simp only [chainAt, haddr, Option.map_some, Option.some.injEq] at hv
          exact hv ▸ hagree.closed.field_within ha 0
  | succ k ih =>
      cases haddr : env.address? with
      | none => simp [chainAt, haddr]
      | some a =>
          have ha := henv a haddr
          simp only [chainAt, haddr, Option.bind_some, hagree.field ha]
          exact ih (hagree.closed.field_within ha 1)

theorem localValue_within {e : ReturnEntry} (h : e.held.Within S) :
    e.localValue.Within S := by
  cases e with
  | value v => exact h
  | frame pc env extra => exact within_of_address?_eq_none rfl

theorem Twin.local? (h : Twin S m heap) (i : Nat) :
    (m.atop heap t log).local? i = m.local? i ∧
      ∀ v, m.local? i = some v → v.Within S := by
  have hchain := chainAt_congr h.heap h.regs.env (i - m.regs.extra)
  unfold Machine.local?
  by_cases hi : i < m.regs.extra
  · rw [if_pos hi, if_pos (by exact hi)]
    refine ⟨rfl, fun v hv => ?_⟩
    obtain ⟨e, he, rfl⟩ := Option.map_eq_some_iff.1 hv
    exact localValue_within (h.regs.returns e (List.mem_of_getElem? he))
  · rw [if_neg hi, if_neg (by exact hi)]
    exact hchain

/-- Moving locals onto the environment allocates the same objects in both heaps. -/
theorem Agree.captureEnv {h h' : Heap} (hagree : Heap.Agree S h h') {env : Value}
    (henv : env.Within S) {locals : List ReturnEntry}
    (hlocals : ∀ e ∈ locals, e.held.Within S) :
    ∃ S' : Nat → Prop, (∀ a, S a → S' a) ∧
      Heap.Agree S' (locals.foldr consEnv (env, h)).2
        (locals.foldr consEnv (env, h')).2 ∧
      (locals.foldr consEnv (env, h')).1 = (locals.foldr consEnv (env, h)).1 ∧
      (locals.foldr consEnv (env, h)).1.Within S' := by
  induction locals with
  | nil => exact ⟨S, fun _ h => h, hagree, rfl, henv⟩
  | cons e rest ih =>
      obtain ⟨he, hrest⟩ := List.forall_mem_cons.1 hlocals
      obtain ⟨S', hsub, hagree', heq, hwithin⟩ := ih hrest
      simp only [List.foldr_cons, consEnv, heq, Heap.fst_alloc, hagree'.size]
      refine ⟨_, fun a ha => Or.inl (hsub a ha), hagree'.alloc .env _ ?_, trivial, ?_⟩
      · intro v hv
        simp only [List.mem_toArray, List.mem_cons, List.not_mem_nil,
          or_false] at hv
        rcases hv with rfl | rfl
        · exact (localValue_within he).mono hsub
        · exact hwithin
      · exact Value.within_ref.2 (Or.inr rfl)

theorem Twin.loadClosure (h : Twin S m heap) (code : Int) :
    ∃ S' heap', Twin S' (m.loadClosure code) heap' ∧
      (m.atop heap t log).loadClosure code =
        (m.loadClosure code).atop heap' t log := by
  have hlocals : ∀ e ∈ m.regs.returns.items.take m.regs.extra,
      e.held.Within S :=
    fun e he => h.regs.returns e (List.mem_of_mem_take he)
  obtain ⟨S', hsub, hagree, heq, hwithin⟩ :=
    Agree.captureEnv h.heap h.regs.env hlocals
  have hfields : ∀ v ∈ #[m.captureEnv.1, .code code], v.Within S' := by
    intro v hv
    simp only [List.mem_toArray, List.mem_cons, List.not_mem_nil,
      or_false] at hv
    rcases hv with rfl | rfl
    · exact hwithin
    · exact within_of_address?_eq_none rfl
  have htwin := h.grow (hagree.alloc .closure _ hfields)
    fun a ha => Or.inl (hsub a ha)
  refine ⟨_, _, htwin.withRegisters { m.regs with
      acc := .ref .closure m.captureEnv.2.cells.size } ?_ m.usage m.started, ?_⟩
  · exact ⟨Value.within_ref.2 (Or.inr rfl), htwin.regs.env, htwin.regs.args,
      htwin.regs.returns⟩
  · unfold Machine.loadClosure Machine.captureEnv
    dsimp only [atop]
    rw [heq, Heap.fst_alloc, Heap.fst_alloc, hagree.size]

theorem Twin.makeTuple (h : Twin S m heap) (n : Nat) :
    ∃ S' heap', Beside S' heap' t log (m.makeTuple n)
      ((m.atop heap t log).makeTuple n) := by
  have hfields : ∀ v ∈ Machine.popFields m.regs.args n, v.Within S := by
    intro v hv
    rcases Machine.mem_popFields hv with rfl | hv
    · exact within_of_address?_eq_none rfl
    · exact h.regs.args v hv
  have halloc := h.grow (h.heap.alloc .tuple _ hfields) fun _ => Or.inl
  have hargs : ∀ v ∈ (m.regs.args.drop n).items, v.Within _ :=
    fun v hv => halloc.regs.args v (List.mem_of_mem_drop hv)
  have hpopped := halloc.withRegisters { m.regs with args := m.regs.args.drop n }
    ⟨halloc.regs.acc, halloc.regs.env, hargs, halloc.regs.returns⟩ m.usage m.started
  unfold Machine.makeTuple
  dsimp only [atop]
  by_cases hshort : m.regs.args.depth < n
  · simp only [hshort, if_true]
    exact ⟨_, _, hpopped.fail _ _ _⟩
  · simp only [hshort, if_false]
    rw [Heap.fst_alloc, Heap.fst_alloc, h.heap.size]
    refine ⟨_, _, Twin.running (hpopped.withRegisters _ ?_ _ _)⟩
    exact ⟨Value.within_ref.2 (Or.inr rfl), hpopped.regs.env, hpopped.regs.args,
      hpopped.regs.returns⟩

theorem Twin.setGlobal (h : Twin S m heap) {i : Nat} {globals : Globals}
    (hset : m.globals.set? i m.regs.acc = some globals) :
    Twin S { m with globals := globals } heap := by
  refine ⟨h.heap, h.regs, h.handles, fun g hg => ?_, h.saved⟩
  obtain ⟨_, rfl⟩ := Globals.set?_eq_some hset
  obtain ⟨j, hj, rfl⟩ := Array.mem_iff_getElem.1 hg
  rw [Array.getElem_modify]
  split
  · exact h.regs.acc
  · exact h.globals _ (Array.getElem_mem _)

/-- Both machines execute an instruction alike. -/
theorem Twin.execute (h : Twin S m heap) (i : Instr) :
    ∃ S' heap', Beside S' heap' t log (m.execute i)
      ((m.atop heap t log).execute i) := by
  have loaded {v : Value} (hv : v.Within S) :
      ({ m.regs with acc := v } : Registers).Within S :=
    ⟨hv, h.regs.env, h.regs.args, h.regs.returns⟩
  cases i with
  | int64 value =>
      refine ⟨S, heap, Twin.running (h.withRegisters _ (loaded ?_) _ _)⟩
      exact within_of_address?_eq_none rfl
  | push => exact ⟨S, heap, h.pushArg h.regs.acc⟩
  | pushMark => exact ⟨S, heap, h.pushArg (within_of_address?_eq_none rfl)⟩
  | access index =>
      obtain ⟨heq, hwithin⟩ := @Twin.local? S m heap t log h index.toNat
      refine ⟨S, heap, ?_⟩
      simp only [Machine.execute, heq]
      cases hlocal : m.local? index.toNat with
      | none => exact h.fail _ _ _
      | some v =>
          exact Twin.running (h.withRegisters _ (loaded (hwithin v hlocal)) _ _)
  | closure length =>
      unfold Machine.execute
      dsimp only
      by_cases hcut : (m.code.size : Int) < m.regs.pc + length.toNat
      · rw [if_pos hcut, if_pos (by exact hcut)]
        exact ⟨S, heap, h.fail _ _ _⟩
      · rw [if_neg hcut, if_neg (by exact hcut)]
        have hpast := h.withRegisters
          { m.regs with pc := m.regs.pc + length.toNat }
          ⟨h.regs.acc, h.regs.env, h.regs.args, h.regs.returns⟩ m.usage m.started
        obtain ⟨S', heap', htwin, heq⟩ :=
          @Twin.loadClosure _ _ _ t log hpast m.regs.pc
        exact ⟨S', heap', htwin, congrArg Progress.running heq⟩
  | apply =>
      refine ⟨S, heap, (h.pushReturn (.frame _ _ _) h.regs.env).andThen fun m' hm' => ?_⟩
      exact (hm'.withExtra 0).jump hm'.regs.acc
  | appTerm => exact ⟨S, heap, h.dropExtras.jump h.regs.acc⟩
  | grab =>
      unfold Machine.execute
      dsimp only [atop]
      cases htop : m.regs.args.top? with
      | none => exact ⟨S, heap, h.fail _ _ _⟩
      | some v =>
          dsimp only
          by_cases hmark : v.isMark
          · rw [if_pos hmark, if_pos hmark]
            obtain ⟨S', heap', htwin, heq⟩ :=
              @Twin.loadClosure _ _ _ t log h m.started.offset
            refine ⟨S', heap', ?_⟩
            have hleave := @Twin.leave _ _ _ t log htwin
            rwa [← heq] at hleave
          · rw [if_neg hmark, if_neg hmark]
            have htaken := h.withRegisters
              { m.regs with args := m.regs.args.drop 1 }
              ⟨h.regs.acc, h.regs.env,
                fun w hw => h.regs.args w (List.mem_of_mem_drop hw),
                h.regs.returns⟩ m.usage m.started
            have hv := h.regs.args v (List.mem_of_head? htop)
            refine ⟨S, heap, (htaken.pushReturn (.value v) hv).andThen fun m' hm' => ?_⟩
            exact (hm'.withExtra _).running
  | ret =>
      unfold Machine.execute
      dsimp only [atop]
      cases m.regs.args.top? with
      | none => exact ⟨S, heap, h.fail _ _ _⟩
      | some v =>
          dsimp only
          by_cases hmark : v.isMark
          · rw [if_pos hmark, if_pos hmark]
            exact ⟨S, heap, h.leave⟩
          · rw [if_neg hmark, if_neg hmark]
            exact ⟨S, heap, h.dropExtras.jump h.regs.acc⟩
  | makeBlock n => exact h.makeTuple _
  | bind =>
      refine ⟨S, heap, (h.pushReturn (.value _) h.regs.acc).andThen fun m' hm' => ?_⟩
      exact (hm'.withExtra _).running
  | unbind =>
      unfold Machine.execute
      by_cases hnone : m.regs.extra = 0
      · rw [if_pos hnone, if_pos (by exact hnone)]
        exact ⟨S, heap, h.fail _ _ _⟩
      · rw [if_neg hnone, if_neg (by exact hnone)]
        refine ⟨S, heap, Twin.running (h.withRegisters _ ?_ _ _)⟩
        exact ⟨h.regs.acc, h.regs.env, h.regs.args,
          fun e he => h.regs.returns e (List.mem_of_mem_drop he)⟩
  | setGlobal slot =>
      refine ⟨S, heap, ?_⟩
      unfold Machine.execute
      dsimp only [atop]
      cases hset : m.globals.set? slot.toNat m.regs.acc with
      | none => exact h.fail _ _ _
      | some globals => exact (h.setGlobal hset).running
  | getGlobal slot =>
      refine ⟨S, heap, ?_⟩
      unfold Machine.execute
      dsimp only [atop]
      cases hentry : m.globals.entries[slot.toNat]? with
      | none => exact h.fail _ _ _
      | some g =>
          have hg := h.globals g (Array.mem_of_getElem? hentry)
          dsimp only
          by_cases hdefined : g.defined
          · rw [if_pos hdefined, if_pos hdefined]
            exact Twin.running (h.withRegisters _ (loaded hg) _ _)
          · rw [if_neg hdefined, if_neg hdefined]
            exact h.fail _ _ _

/-- Both machines take the same step. -/
theorem Twin.step (h : Twin S m heap) :
    ∃ S' heap', Beside S' heap' t log m.step (m.atop heap t log).step := by
  have started (pc : Int) (offset : Int) (byte : UInt8) :
      Twin S { m with started := ⟨offset, byte⟩, regs := { m.regs with pc := pc } } heap :=
    h.withRegisters { m.regs with pc := pc }
      ⟨h.regs.acc, h.regs.env, h.regs.args, h.regs.returns⟩ m.usage _
  rw [Machine.step_eq, Machine.step_eq]
  dsimp only [atop]
  cases m.code.fetch m.regs.pc with
  | outside => exact ⟨S, heap, (started _ _ _).fail _ _ _⟩
  | unknown b => exact ⟨S, heap, (started _ _ _).fail _ _ _⟩
  | cut op => exact ⟨S, heap, (started _ _ _).fail _ _ _⟩
  | instr i => exact @Twin.execute _ _ _ t log (started _ _ _) i

theorem Twin.withRecords (h : Twin S m heap) (records : Array Record)
    (watch : Option Watch) :
    Twin S { m with log := records, watch := watch } heap :=
  ⟨h.heap, h.regs, h.handles, h.globals, h.saved⟩

/-- Collecting on the first side only. -/
theorem Twin.collect_left (h : Twin S m heap) :
    Twin (m.heap.Reach m.roots) m.collectGarbage.2 heap :=
  .of_roots (h.heap.collect_left h.roots) fun _ => Heap.within_reach

/-- Collecting on the second side only. -/
theorem Twin.collect_right (h : Twin S m heap) :
    Twin (m.heap.Reach m.roots) m (heap.collect m.roots).2 :=
  .of_roots (h.heap.collect_right h.roots) fun _ => Heap.within_reach

/-- Each side may collect or not. -/
theorem Twin.collectIfFull (h : Twin S m heap) :
    ∃ S' heap', Twin S' m.collectIfFull heap' ∧
      (m.atop heap t log).collectIfFull = m.collectIfFull.atop heap' t log := by
  have hleft : ∃ S', Twin S' m.collectIfFull heap := by
    rw [Machine.collectIfFull]
    split
    · exact ⟨_, h.collect_left⟩
    · exact ⟨S, h⟩
  -- the roots are the same before and after a collection
  have hroots : m.collectIfFull.roots = m.roots := by
    rw [Machine.collectIfFull]
    split <;> rfl
  have hrest (heap' : Heap) :
      m.collectIfFull.atop heap' t log = m.atop heap' t log := by
    rw [Machine.collectIfFull]
    split <;> rfl
  obtain ⟨S', htwin⟩ := hleft
  unfold Machine.collectIfFull
  by_cases hfull : 0 < (m.atop heap t log).limits.threshold ∧
      (m.atop heap t log).limits.threshold ≤ (m.atop heap t log).heap.stats.live
  · rw [if_pos hfull]
    refine ⟨_, _, htwin.collect_right, ?_⟩
    rw [← Machine.collectIfFull, hroots, hrest]
    rfl
  · rw [if_neg hfull]
    exact ⟨S', heap, htwin, (hrest heap).symm⟩

theorem Twin.logged (h : Twin S m heap) (r r' : Record) :
    ∃ log', Twin S (m.logged r) heap ∧
      (m.atop heap t log).logged r' = (m.logged r).atop heap t log' := by
  unfold Machine.logged
  dsimp only [atop]
  split
  · exact ⟨_, h.withRecords _ _, rfl⟩
  · exact ⟨_, h, rfl⟩

theorem Twin.traced (h : Twin S m heap) :
    ∃ log', Twin S m.traced heap ∧
      (m.atop heap t log).traced = m.traced.atop heap t log' := by
  unfold Machine.traced
  by_cases htrace : (m.limits.trace && m.logLevel == some .debug) = true
  · rw [if_pos htrace, if_pos (by exact htrace)]
    exact h.logged _ _
  · rw [if_neg htrace, if_neg (by exact htrace)]
    exact ⟨log, h, rfl⟩

theorem Twin.askWatch (h : Twin S m heap) :
    Twin S m.askWatch.2 heap ∧
      (m.atop heap t log).askWatch =
        (m.askWatch.1, m.askWatch.2.atop heap t log) := by
  unfold Machine.askWatch
  dsimp only [atop]
  split
  · exact ⟨h, rfl⟩
  · split
    · exact ⟨h, rfl⟩
    · exact ⟨h.withRecords _ _, rfl⟩

/-- Both machines get ready for an instruction, or neither does. -/
theorem Twin.ready (h : Twin S m heap) :
    ∃ S' heap' log', Twin S' m.ready.2 heap' ∧
      (m.atop heap t log).ready = (m.ready.1, m.ready.2.atop heap' t log') := by
  unfold Machine.ready
  by_cases hlimit : 0 < m.limits.maxSteps ∧ m.limits.maxSteps ≤ m.usage.steps
  · rw [if_pos hlimit, if_pos (by exact hlimit)]
    exact ⟨S, heap, log, h, rfl⟩
  · have hlimit' : ¬ (0 < (m.atop heap t log).limits.maxSteps ∧
        (m.atop heap t log).limits.maxSteps ≤ (m.atop heap t log).usage.steps) :=
      hlimit
    rw [if_neg hlimit, if_neg hlimit']
    have hasked : ∃ stop m', Twin S m' heap ∧
        (if m.usage.steps % watchPeriod = 0 then m.askWatch else (none, m)) =
          (stop, m') ∧
        (if (m.atop heap t log).usage.steps % watchPeriod = 0 then
          (m.atop heap t log).askWatch else (none, m.atop heap t log)) =
            (stop, m'.atop heap t log) := by
      by_cases hask : m.usage.steps % watchPeriod = 0
      · rw [if_pos hask, if_pos (by exact hask)]
        obtain ⟨htwin, heq⟩ := @Twin.askWatch S m heap t log h
        exact ⟨_, _, htwin, rfl, heq⟩
      · rw [if_neg hask, if_neg (by exact hask)]
        exact ⟨none, m, h, rfl, rfl⟩
    obtain ⟨stop, m', htwin, heq, heq'⟩ := hasked
    rw [heq, heq']
    cases stop with
    | some f => exact ⟨S, heap, log, htwin, rfl⟩
    | none =>
        obtain ⟨S', heap', hcollected, hover⟩ :=
          @Twin.collectIfFull S m' heap t log htwin
        obtain ⟨log', htraced, hover'⟩ :=
          @Twin.traced S' m'.collectIfFull heap' t log hcollected
        refine ⟨S', heap', log', htraced, ?_⟩
        dsimp only
        rw [hover, hover']

/-- Two evaluations that give the same answer, which is still in use, and leave the
machines alike. -/
def Alike (t : Option Int) (r r' : Reply Value) : Prop :=
  ∃ S heap log, Twin S r.2 heap ∧ (∀ v, r.1 = .ok v → v.Within S) ∧
    r' = (r.1, r.2.atop heap t log)

theorem Twin.refuse (h : Twin S m heap) (f : Fault) :
    Alike t (.error f, m) (.error f, m.atop heap t log) :=
  ⟨S, heap, log, h, (fun _ hv => by cases hv), rfl⟩

theorem Twin.give (h : Twin S m heap) {v : Value} (hv : v.Within S) :
    Alike t (.ok v, m) (.ok v, m.atop heap t log) :=
  ⟨S, heap, log, h, (fun _ heq => by cases heq; exact hv), rfl⟩

/-- However often either one collects, both evaluations end alike. -/
theorem Twin.loop (h : Twin S m heap) (fuel : Nat) :
    Alike t (loop fuel m) (loop fuel (m.atop heap t log)) := by
  induction fuel generalizing S m heap log with
  | zero => exact h.refuse _
  | succ fuel ih =>
      obtain ⟨S', heap', log', hready, hover⟩ := @Twin.ready S m heap t log h
      unfold Machine.loop
      rw [hover]
      cases hprep : m.ready with
      | mk stop m' =>
          rw [hprep] at hready
          cases stop with
          | some f => exact hready.refuse _
          | none =>
              have hcounted : Twin S' m'.counted heap' :=
                hready.withRegisters m'.regs hready.regs _ _
              obtain ⟨S'', heap'', hstep, heq⟩ :=
                @Twin.step S' m'.counted heap' t log' hcounted
              dsimp only
              have hsame : (m'.atop heap' t log').counted.step =
                  m'.counted.step.atop heap'' t log' := heq
              rw [hsame]
              cases hprogress : m'.counted.step with
              | running m'' =>
                  rw [hprogress] at hstep
                  exact ih hstep
              | finished m'' =>
                  rw [hprogress] at hstep
                  exact Twin.give hstep hstep.regs.acc
              | faulted f m'' =>
                  rw [hprogress] at hstep
                  exact Twin.refuse hstep f

theorem within_empty_registers : ({} : Registers).Within S :=
  ⟨within_of_address?_eq_none rfl, within_of_address?_eq_none rfl,
    fun _ h => absurd h List.not_mem_nil, fun _ h => absurd h List.not_mem_nil⟩

theorem Twin.clearRegisters (h : Twin S m heap) :
    Twin S m.clearRegisters heap :=
  h.withRegisters _ within_empty_registers _ _

theorem Twin.pushArgs (h : Twin S m heap) {vs : List Value}
    (hvs : ∀ v ∈ vs, v.Within S) :
    Beside S heap t log (m.pushArgs vs) ((m.atop heap t log).pushArgs vs) := by
  induction vs generalizing m with
  | nil => exact h.running
  | cons v rest ih =>
      obtain ⟨hv, hrest⟩ := List.forall_mem_cons.1 hvs
      exact (h.pushArg hv).andThen fun m' hm' => ih hm' hrest

theorem Twin.enter (h : Twin S m heap) {callee : Value} {args : List Value}
    (hcallee : callee.Within S) (hargs : ∀ v ∈ args, v.Within S) :
    Beside S heap t log (m.enter callee args)
      ((m.atop heap t log).enter callee args) := by
  have hclear : Twin S { m with usage := {} }.clearRegisters heap :=
    h.withRegisters _ within_empty_registers _ _
  refine (hclear.pushArgs ?_).andThen fun m' hm' => hm'.jump hcallee
  refine List.forall_mem_cons.2 ⟨within_of_address?_eq_none rfl, ?_⟩
  exact fun v hv => hargs v (List.mem_reverse.1 hv)

/-- Both machines answer a call alike. -/
theorem Twin.run (h : Twin S m heap) {callee : Value} {args : List Value}
    (hcallee : callee.Within S) (hargs : ∀ v ∈ args, v.Within S) :
    Alike t (m.run callee args) ((m.atop heap t log).run callee args) := by
  have hclear {r r' : Reply Value} (halike : Alike t r r') :
      Alike t (r.1, r.2.clearRegisters) (r'.1, r'.2.clearRegisters) := by
    obtain ⟨S', heap', log', htwin, hvalue, rfl⟩ := halike
    exact ⟨S', heap', log', htwin.clearRegisters, hvalue, rfl⟩
  obtain ⟨htwin, heq⟩ := @Twin.enter S m heap t log h callee args hcallee hargs
  unfold Machine.run
  rw [heq]
  cases hprogress : m.enter callee args with
  | running m' =>
      rw [hprogress] at htwin
      exact hclear (Twin.loop htwin _)
  | finished m' =>
      rw [hprogress] at htwin
      exact hclear (Twin.give htwin htwin.regs.acc)
  | faulted f m' =>
      rw [hprogress] at htwin
      exact hclear (Twin.refuse htwin f)

end Machine

end Zinc
