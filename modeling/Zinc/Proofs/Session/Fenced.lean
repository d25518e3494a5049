import Zinc.Proofs.Document
import Zinc.Proofs.Heap.Agree
import Zinc.Proofs.Machine.Fenced

/-!
Sessions stay fenced.  What a host does without compiling anything keeps its machine
fenced, and a program that fails to load leaves no trace.  Code that is compiled grants
its closure nothing, or, if it defines a global, that global; and the closures that loading
a program makes for its definitions are not to be found once they have been run.
-/

namespace Zinc

namespace Machine

variable {grant grant' : Nat → UInt16 → Prop} {vs ws : List Value} {start m m' : Machine}
  {v : Value} {z : Zones}

theorem mem_declare {g : Globals} {s : Symbol} {e : Global}
    (he : e ∈ (g.declare s).2.entries) : e ∈ g.entries ∨ e.value = .undefined := by
  rw [Globals.declare] at he
  split at he
  · exact .inl he
  · dsimp only at he
    split at he
    · exact .inl he
    · rcases Array.mem_push.1 he with hold | rfl
      · exact .inl hold
      · exact .inr rfl

theorem Fenced.declare (h : Fenced grant vs m) (s : Symbol) :
    Fenced grant vs { m with globals := (m.globals.declare s).2 } :=
  h.keep (List.prefix_refl _) (.refl _) (fun _ he => mem_declare he) fun _ hv => hv

theorem Fenced.extended (h : Fenced grant vs m) (op : String) (is : List Instr) :
    Fenced grant vs (m.extended op is) := by
  obtain ⟨log, heq⟩ := m.extended_eq op is
  rw [heq]
  refine h.keep ?_ (.refl _) (fun _ he => .inl he) fun _ hv => hv
  simp [Code.append]

/-- New code that starts at the end of the old one, and what it assigns. -/
theorem acts_extended (h : ∃ is, m.code.bytes.toList = Instr.encodeAll is) (op : String)
    {is : List Instr} {w : Option UInt16} (heffect : Effect w is) :
    (m.extended op is).code.Acts w m.code.size := by
  obtain ⟨older, holder⟩ := h
  rw [code_extended]
  exact ⟨is, Code.at_append holder, heffect⟩

theorem size_extended (m : Machine) (op : String) {is : List Instr} {w : Option UInt16}
    (heffect : Effect w is) : m.code.size < (m.extended op is).code.size := by
  rw [code_extended, Code.size_append, Instr.length_encodeAll]
  obtain ⟨i, rest, rfl⟩ : ∃ i rest, is = i :: rest := by
    cases heffect <;> exact ⟨_, _, rfl⟩
  have hi := i.size_pos
  simp only [Instr.sizeAll_cons]
  omega

theorem Generated.effect {is : List Instr} (h : Generated m is) : ∃ w, Effect w is := by
  cases h with
  | entry hcode => exact ⟨_, Lir.generateEntry_effect hcode⟩
  | definition hcode =>
      obtain ⟨i, _, heffect⟩ := Lir.generateDefinition_effect hcode
      exact ⟨_, heffect⟩

/-- A closure that is handed out may assign what it has been granted. -/
theorem Fenced.alloc (h : Fenced grant vs m) (hold : ∀ a k, grant a k → grant' a k)
    (hnew : ∀ a k, grant' a k → grant a k ∨ a = m.heap.cells.size) {entry : Int}
    (hpermitted : Permitted grant' m.code m.heap.cells.size .emptyEnv entry) :
    Fenced grant' ((m.topClosure entry).1 :: vs) (m.topClosure entry).2 := by
  obtain ⟨z, hz, hknown⟩ := h
  have hsame {a : Nat} (ha : a < m.heap.cells.size) (k : UInt16) : grant' a k ↔ grant a k := by
    refine ⟨fun hk => ?_, hold a k⟩
    rcases hnew a k hk with hk | rfl
    · exact hk
    · exact absurd ha (Nat.lt_irrefl _)
  have hkept : m.heap.Region (Permitted grant' m.code) z.known := by
    refine hz.fit.known.mono fun a env pc ha hok => ?_
    have hsame := hsame (hz.fit.known.lt_size a ha)
    simpa only [Permitted, hsame] using hok
  have hfades : m.heap.Fades (m.topClosure entry).2.heap :=
    (Heap.Grows.alloc _ _ (.refl _)).fades
  have hfields : ∀ v ∈ #[Value.emptyEnv, .code entry], v.Within z.known := by
    simp [Value.Within, Value.address?]
  have hregion := hkept.alloc .closure hfields fun env pc heq => by
    cases heq
    exact hpermitted
  refine ⟨⟨z.calm, fun a => z.known a ∨ a = m.heap.cells.size⟩,
    ⟨⟨fun a k hk => ?_, fun a ha => .inl (hz.fit.sub a ha), hz.fit.calm.fade hfades, hregion⟩,
      hz.globals⟩, fun v hv => ?_⟩
  · have hsize : (m.topClosure entry).2.heap.cells.size = m.heap.cells.size + 1 :=
      Heap.size_alloc _ _ _
    rw [hsize]
    rcases hnew a k hk with hk | rfl
    · exact Nat.lt_succ_of_lt (hz.fit.granted a k hk)
    · exact Nat.lt_succ_self _
  · simp only [List.mem_append, List.mem_cons] at hv
    rcases hv with hv | rfl | hv
    · exact (hknown v (List.mem_append_left _ hv)).mono fun _ => .inl
    · exact Value.within_ref.2 (.inr rfl)
    · exact (hknown v (List.mem_append_right _ hv)).mono fun _ => .inl

/-- A machine that is taken back to one that was fenced is fenced. -/
theorem Fenced.restored (h : Fenced grant [] start) (htidy : start.heap.Tidy)
    (hrestored : start.Restored m) (hgrant : ∀ a k, grant a k → a < m.heap.cells.size) :
    Fenced grant [] m := by
  obtain ⟨z, hz, hknown⟩ := h
  let held := start.handles.values ++ start.globals.values
  have hglobal {u : Value} (hu : u ∈ start.globals.values) : u.Within z.calm := by
    obtain ⟨g, hg, rfl⟩ := List.mem_map.1 hu
    exact hz.globals g (Array.mem_toList_iff.1 hg)
  have hheld {u : Value} (hu : u ∈ held) : u.Within z.known := by
    rcases List.mem_append.1 hu with hu | hu
    · exact hknown u (List.mem_append_left _ hu)
    · exact (hglobal hu).mono hz.fit.sub
  have hsub {a : Nat} (ha : start.heap.Reach start.globals.values a) :
      start.heap.Reach held a := ha.mono fun v hv => List.mem_append_right _ hv
  have hkeeps := hrestored.heap htidy
  have hcalm := (hz.fit.calm.reach fun v hv => hglobal hv).keep hkeeps fun _ => hsub
  have hall := (hz.fit.known.reach fun v hv => hheld hv).keep hkeeps fun _ ha => ha
  refine ⟨⟨start.heap.Reach start.globals.values, start.heap.Reach held⟩,
    ⟨⟨hgrant, fun _ => hsub, ?_, ?_⟩, fun g hg => ?_⟩, fun v hv => ?_⟩
  · rw [hrestored.code]
    exact hcalm
  · rw [hrestored.code]
    exact hall
  · rw [hrestored.globals] at hg
    exact Heap.within_reach (List.mem_map_of_mem (Array.mem_toList_iff.2 hg))
  · rw [List.append_nil, hrestored.handles] at hv
    exact Heap.within_reach (List.mem_append_left _ hv)

/-- A machine in order, fenced as long as no code has been added since `start`. -/
structure Keeping (grant : Nat → UInt16 → Prop) (start : Machine) (vs : List Value)
    (m : Machine) : Prop where
  stable : Stable vs m
  opened : m.closed = false → start.closed = false
  regs : m.regs = {}
  globals : start.globals.Extends m.globals
  code : start.code.size ≤ m.code.size
  heap : start.heap.cells.size ≤ m.heap.cells.size
  fenced : m.closed = false → m.code.size = start.code.size → Fenced grant vs m

/-- Code that was added since `start` and can be run on its own. -/
def Fresh (start : Machine) (c : Code) (g : Globals) (e : Int) : Prop :=
  Enterable c g e ∧ (∃ w, c.Acts w e) ∧ start.code.size < c.size

namespace Keeping

theorem refl (hstable : Stable [] start) (hregs : start.regs = {})
    (hfenced : start.closed = false → Fenced grant [] start) : Keeping grant start [] start :=
  ⟨hstable, fun hopen => hopen, hregs, .refl _, Nat.le_refl _, Nat.le_refl _,
    fun hopen _ => hfenced hopen⟩

/-- Handles, values in hand and counters may change when what is known stays known. -/
theorem update (h : Keeping grant start vs m) (hstable : Stable ws m')
    (hregs : m'.regs = {}) (hcode : m'.code = m.code) (hheap : m'.heap = m.heap)
    (hglobals : m'.globals = m.globals) (hclosed : m'.closed = m.closed)
    (hknown : ∀ v ∈ m'.handles.values ++ ws, v ∈ m.handles.values ++ vs) :
    Keeping grant start ws m' := by
  refine ⟨hstable, fun hopen => h.opened (hclosed ▸ hopen), hregs, hglobals ▸ h.globals,
    hcode ▸ h.code, hheap ▸ h.heap, fun hopen hsize => ?_⟩
  rw [hclosed] at hopen
  rw [hcode] at hsize
  refine (h.fenced hopen hsize).keep (by rw [hcode]) (hheap ▸ .refl _) ?_ hknown
  exact fun g hg => .inl (hglobals ▸ hg)

/-- A value is taken in hand. -/
theorem cons (h : Keeping grant start vs m) (hstable : Stable (v :: vs) m)
    (hv : ∀ z, Zoned grant z m → (∀ v ∈ m.handles.values ++ vs, v.Within z.known) →
      v.Within z.known) : Keeping grant start (v :: vs) m :=
  { h with
    stable := hstable
    fenced := fun hopen hsize => (h.fenced hopen hsize).cons hv }

end Keeping

/-- Everything that operations are made of keeps a machine fenced when it adds no code. -/
theorem keeping_preserved (hgrant : ∀ a k, grant a k → a < start.heap.cells.size) :
    Preserved (Fresh start) (Keeping grant start) where
  entry := by
    rintro c c' g g' e ⟨henter, ⟨w, hacts⟩, hsize⟩ hcode hglobals
    refine ⟨stable_preserved.entry henter hcode hglobals, ⟨w, hacts.mono hcode⟩, ?_⟩
    exact Nat.lt_of_lt_of_le hsize (by simpa [Code.size] using hcode.length_le)
  drop h hsub := by
    have hstable := stable_preserved.drop h.stable hsub
    refine h.update hstable h.regs rfl rfl rfl rfl fun v hv => ?_
    rcases List.mem_append.1 hv with hv | hv
    · exact List.mem_append_left _ hv
    · exact List.mem_append_right _ (hsub v hv)
  int n h := h.cons (stable_preserved.int n h.stable) fun _ _ _ _ heq => by cases heq
  handle h hopen hv := h.cons (stable_preserved.handle h.stable hopen hv)
    fun _ _ hknown => hknown _ (List.mem_append_left _ hv)
  global h hopen hg hdefined := h.cons (stable_preserved.global h.stable hopen hg hdefined)
    fun _ hz _ => (hz.globals _ hg).mono hz.fit.sub
  fields h hopen hv hkind := by
    have hstable := stable_preserved.fields h.stable hopen hv hkind
    refine { h with stable := hstable, fenced := fun hopen hsize => ?_ }
    obtain ⟨z, hz, hknown⟩ := h.fenced hopen hsize
    refine ⟨z, hz, fun u hu => ?_⟩
    simp only [List.mem_append] at hu
    rcases hu with hu | hu | hu
    · exact hknown u (List.mem_append_left _ hu)
    · exact Heap.Closed.fieldsOf hz.fit.known.closed (hknown _ (List.mem_append_right _ hv)) hu
    · exact hknown u (List.mem_append_right _ hu)
  hold handles h hhold := by
    have hstable := stable_preserved.hold handles h.stable hhold
    refine h.update hstable h.regs rfl rfl rfl rfl fun v hv => ?_
    rcases List.mem_append.1 hv with hv | hv
    · exact List.mem_append.2 (hhold v hv)
    · exact List.mem_append_right _ hv
  declare s h hopen :=
    ⟨stable_preserved.declare s h.stable hopen, h.opened, h.regs, h.globals.declare s, h.code,
      h.heap, fun hopen hsize => (h.fenced hopen hsize).declare s⟩
  install op h hopen hgenerated := by
    obtain ⟨hstable, henter⟩ := stable_preserved.install op h.stable hopen hgenerated
    obtain ⟨w, heffect⟩ := hgenerated.effect
    have hacts := acts_extended (h.stable.sound hopen).laid op heffect
    have hgrows := Nat.lt_of_le_of_lt h.code (size_extended _ op heffect)
    refine ⟨⟨hstable, fun _ => h.opened hopen, ?_, ?_, Nat.le_of_lt hgrows, ?_,
      fun _ hsize => ?_⟩, henter, ⟨w, hacts⟩, hgrows⟩
    · rw [regs_extended]
      exact h.regs
    · rw [globals_extended]
      exact h.globals
    · rw [heap_extended]
      exact h.heap
    · exact absurd hsize (Nat.ne_of_gt hgrows)
  closure := by
    rintro vs m e h hopen ⟨henter, _, hgrows⟩
    have hstable := stable_preserved.closure h.stable hopen henter
    have hsize : (m.topClosure e).2.heap.cells.size = m.heap.cells.size + 1 :=
      Heap.size_alloc _ _ _
    refine ⟨hstable, h.opened, h.regs, h.globals, h.code, ?_, fun _ hsize => ?_⟩
    · rw [hsize]
      exact Nat.le_succ_of_le h.heap
    · exact absurd hsize (Nat.ne_of_gt hgrows)
  tuple := by
    intro vs m ws h hopen hws
    have hstable := stable_preserved.tuple ws h.stable hopen hws
    refine ⟨hstable, h.opened, h.regs, h.globals, h.code, ?_, fun hopen hsize => ?_⟩
    · rw [Heap.size_alloc]
      exact Nat.le_succ_of_le h.heap
    · obtain ⟨z, hz, hknown⟩ := h.fenced hopen hsize
      have hown : ∀ v ∈ ws.toArray, Role.Own z .free v := fun v hv => by
        have hv := (hws v (by simpa using hv)).1
        exact own_of_typed (h.stable.inHand hopen v hv) (hknown v (List.mem_append_right _ hv))
      obtain ⟨z', hle, hfit, hnew⟩ :=
        hz.fit.allocData .free .tuple (fun heq => by cases heq) hown
      refine ⟨z', hz.grow hle hfit rfl rfl rfl, fun v hv => ?_⟩
      simp only [List.mem_append, List.mem_cons] at hv
      rcases hv with hv | rfl | hv
      · exact (hknown v (List.mem_append_left _ hv)).mono hle.known
      · exact hnew.within
      · exact (hknown v (List.mem_append_right _ hv)).mono hle.known
  run := by
    intro vs m callee args h hopen hcallee hargs
    have hstable := stable_preserved.run h.stable hopen hcallee hargs
    have hevaluated := m.evaluated_run callee args
    refine ⟨hstable, fun _ => h.opened hopen, rfl, hevaluated.globals _ h.globals, ?_, ?_,
      fun _ hsize => ?_⟩
    · rw [hevaluated.code]
      exact h.code
    · exact Nat.le_trans h.heap (fades_run (h.stable.sound hopen).tidy callee args).size_le
    · rw [hevaluated.code] at hsize
      have htyped {v : Value} (hv : v ∈ vs) := h.stable.inHand hopen v hv
      exact (h.fenced hopen hsize).run (h.stable.sound hopen) (htyped hcallee)
        (List.mem_append_right _ hcallee) (fun v hv => htyped (hargs v hv))
        fun v hv => List.mem_append_right _ (hargs v hv)
  collect := by
    intro vs m h hopen
    have hstable := stable_preserved.collect h.stable hopen
    have hfades := (h.stable.sound hopen).tidy.collect_fades m.roots
    refine ⟨hstable, h.opened, h.regs, h.globals, h.code, Nat.le_trans h.heap hfades.size_le,
      fun hopen hsize => ?_⟩
    refine (h.fenced hopen hsize).keep (List.prefix_refl _) hfades (fun _ hg => .inl hg)
      fun v hv => ?_
    rw [List.append_nil] at hv
    exact List.mem_append_left _ hv
  close := by
    intro vs m h
    have hclosed : m.close.2.closed = true := by
      rw [Machine.close, whenOpen]
      split
      · assumption
      · rfl
    have hparts : m.close.2.regs = {} ∧ m.close.2.globals = m.globals ∧
        m.close.2.code = m.code ∧ m.close.2.heap.cells.size = m.heap.cells.size := by
      rw [Machine.close, whenOpen]
      split
      · exact ⟨h.regs, rfl, rfl, rfl⟩
      · refine ⟨?_, rfl, rfl, Heap.size_destroyAll _⟩
        dsimp only
        rw [h.regs]
    obtain ⟨hregs, hglobals, hcode, hheap⟩ := hparts
    have hshut (hopen : m.close.2.closed = false) : False := by
      rw [hclosed] at hopen
      cases hopen
    exact ⟨stable_preserved.close h.stable, fun hopen => (hshut hopen).elim, hregs,
      hglobals ▸ h.globals, hcode ▸ h.code, hheap ▸ h.heap, fun hopen => (hshut hopen).elim⟩
  checkpoint h :=
    h.update (stable_preserved.checkpoint h.stable) h.regs rfl rfl rfl rfl fun _ hv => hv
  commit h :=
    h.update (stable_preserved.commit h.stable) h.regs rfl rfl rfl rfl fun _ hv => hv
  rollback := by
    intro vs back m hback h hgrown
    have hstable := stable_preserved.rollback hback.stable h.stable hgrown
    have hrestored := hgrown.rollback
    have hclosed : m.closed = back.closed := hgrown.closed
    refine ⟨hstable, h.opened, h.regs, ?_, ?_, h.heap, fun hopen hsize => ?_⟩
    · rw [hrestored.globals]
      exact hback.globals
    · rw [hrestored.code]
      exact hback.code
    · have hopen : back.closed = false := hclosed.symm.trans hopen
      rw [hrestored.code] at hsize
      exact (hback.fenced hopen hsize).restored (hback.stable.sound hopen).tidy hrestored
        fun a k hk => Nat.lt_of_lt_of_le (hgrant a k hk) h.heap

/-- Whatever a host does keeps a machine fenced that it adds no code to. -/
theorem keeping_congruence (hgrant : ∀ a k, grant a k → a < start.heap.cells.size) :
    Congruence (Fresh start) fun vs m m' => m' = m ∧ Keeping grant start vs m :=
  (keeping_preserved hgrant).congruence

end Machine

end Zinc
