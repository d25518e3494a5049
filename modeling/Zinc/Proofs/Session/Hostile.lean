import Zinc.Proofs.Machine.Checked
import Zinc.Proofs.Session.Congruence
import Zinc.Yaml.Parser

/-!
Arbitrary code in a session.  Whatever a host asks for, whatever is written into the code
area and wherever runs are started, what handles and globals hold stays well formed.  So
every run of any code at any offset goes through contained machines only, and its
instructions make no access out of range.
-/

namespace Zinc

namespace Machine

/-- A machine, next to itself, that holds well-formed values only, those in hand
included. -/
def Guarded (vs : List Value) (m m' : Machine) : Prop :=
  m' = m ∧ (m.closed = false → m.heap.Intact (vs ++ m.outside))

variable {vs : List Value} {m : Machine}

theorem mem_outside_of_handle {v : Value} (hv : v ∈ m.handles.values) : v ∈ m.outside :=
  List.mem_append_left _ (List.mem_append_left _ hv)

theorem mem_outside_of_global {v : Value} (hv : v ∈ m.globals.values) : v ∈ m.outside :=
  List.mem_append_right _ hv

/-- Declaring a global adds a slot without a value, or none. -/
theorem values_declare {g : Globals} {s : Symbol} {v : Value}
    (hv : v ∈ (g.declare s).2.values) : v ∈ g.values ∨ v = .undefined := by
  rw [Globals.declare] at hv
  split at hv
  · exact Or.inl hv
  · dsimp only at hv
    split at hv
    · exact Or.inl hv
    · simp only [Globals.values, Array.toList_push, List.map_append, List.map_cons,
        List.map_nil, List.mem_append, List.mem_singleton] at hv
      exact hv

theorem Guarded.rollback {start : Machine} (hstart : start.closed = false →
      start.heap.Intact start.outside) (hgrown : start.checkpoint.2.Grown m)
    (hopen : m.closed = false) :
    (m.rollback start.checkpoint.1).heap.Intact (m.rollback start.checkpoint.1).outside := by
  have hrestored := hgrown.rollback
  have hintact := hstart (hgrown.closed.symm.trans hopen)
  have houtside : (m.rollback start.checkpoint.1).outside =
      start.handles.values ++ start.globals.values := by
    rw [outside, held, hrestored.handles, hrestored.globals]
    simp [Machine.rollback]
  rw [houtside]
  have hfew : ∀ v ∈ start.handles.values ++ start.globals.values, v ∈ start.outside := by
    intro v hv
    rcases List.mem_append.1 hv with hv | hv
    · exact mem_outside_of_handle hv
    · exact mem_outside_of_global hv
  exact (hintact.mono hfew).keep (hrestored.heap hintact.tidy)
    (hrestored.tidy hintact.tidy) fun _ hv => hv

/-- Everything that operations are made of keeps a machine guarded. -/
theorem intact_preserved : Preserved (fun _ _ _ => True)
    fun vs m => m.closed = false → m.heap.Intact (vs ++ m.outside) where
  entry := fun _ _ _ => trivial
  drop h hsub hopen := by
    refine (h hopen).mono fun v hv => ?_
    rcases List.mem_append.1 hv with hv | hv
    · exact List.mem_append_left _ (hsub v hv)
    · exact List.mem_append_right _ hv
  int n h hopen := (h hopen).cons (.plain rfl)
  handle h _ hv hopen := by
    refine (h hopen).cons ((h hopen).formed _ ?_)
    exact List.mem_append_right _ (mem_outside_of_handle hv)
  global h _ hg _ hopen := by
    refine (h hopen).cons ((h hopen).formed _ ?_)
    exact List.mem_append_right _ (mem_outside_of_global
      (List.mem_map_of_mem (Array.mem_toList_iff.2 hg)))
  fields := by
    intro vs m v h hopen hv _ _
    refine ⟨(h hopen).tidy, fun u hu => ?_⟩
    rw [List.append_assoc] at hu
    rcases List.mem_append.1 hu with hu | hu
    · obtain ⟨a, ha, hu⟩ : ∃ a, v.address? = some a ∧ u ∈ (m.heap.fields a).toList := by
        rw [Heap.fieldsOf] at hu
        cases ha : v.address? with
        | none => simp [ha] at hu
        | some a => exact ⟨a, rfl, by simpa [ha] using hu⟩
      obtain ⟨c, hcell, _, _, hfields⟩ :=
        ((h hopen).formed v (List.mem_append_left _ hv)).fields ha
      rw [Heap.fields_of_cell hcell] at hu
      exact hfields u (Array.mem_toList_iff.1 hu)
    · exact (h hopen).formed u hu
  hold := by
    intro vs m handles h hhold hopen
    refine (h hopen).mono fun v hv => ?_
    simp only [outside, held, List.mem_append] at hv ⊢
    rcases hv with hv | (hv | hv) | hv
    · exact Or.inl hv
    · rcases hhold v hv with hold | hnew
      · exact Or.inr (Or.inl (Or.inl hold))
      · exact Or.inl hnew
    · exact Or.inr (Or.inl (Or.inr hv))
    · exact Or.inr (Or.inr hv)
  declare := by
    intro vs m s h hopen _
    refine ⟨(h hopen).tidy, fun v hv => ?_⟩
    have hformed := (h hopen).formed v
    simp only [outside, List.mem_append] at hv hformed
    rcases hv with hv | hv | hv
    · exact hformed (Or.inl hv)
    · exact hformed (Or.inr (Or.inl hv))
    · rcases values_declare hv with hold | rfl
      · exact hformed (Or.inr (Or.inr hold))
      · exact .plain rfl
  install := by
    intro vs m is op h hopen _
    obtain ⟨log, heq⟩ := m.extended_eq op is
    refine ⟨fun _ => ?_, trivial⟩
    rw [heq]
    exact h hopen
  closure := by
    intro vs m e h hopen _ _
    have hgrows : m.heap.Grows (m.heap.alloc .closure #[.emptyEnv, .code e]).2 :=
      .alloc _ _ (.refl _)
    refine ((h hopen).grow hgrows).cons ?_
    exact .closure (Heap.cells_alloc_self _ _ _) rfl rfl rfl (.plain rfl)
  tuple := by
    intro vs m ws h hopen hws _
    have hgrows : m.heap.Grows (m.heap.alloc .tuple ws.toArray).2 := .alloc _ _ (.refl _)
    refine ((h hopen).grow hgrows).cons ?_
    refine .tuple (Heap.cells_alloc_self _ _ _) rfl fun v hv => ?_
    have hv : v ∈ ws := by simpa using hv
    exact ((h hopen).formed v (List.mem_append_left _ (hws v hv).1)).grow hgrows
  run := by
    intro vs m callee args h hopen hcallee hargs _
    have hintact := (h hopen).mono fun v hv => List.mem_append_right vs hv
    obtain ⟨hafter, hanswer⟩ := contained_run hintact
      ((h hopen).formed callee (List.mem_append_left _ hcallee))
      fun w hw => (h hopen).formed w (List.mem_append_left _ (hargs w hw))
    cases hreply : (m.run callee args).1 with
    | error f => exact hafter
    | ok v => exact hafter.cons (hanswer v hreply)
  collect := by
    intro vs m h hopen _
    have hintact := (h hopen).mono fun v hv => List.mem_append_right vs hv
    exact hintact.keep (hintact.tidy.collect_keeps m.roots) (hintact.tidy.collect _)
      fun v => mem_roots_of_mem_outside
  close := by
    intro vs m h
    unfold Machine.close whenOpen
    split
    · rename_i hclosed
      exact fun hopen => absurd hclosed (Bool.eq_false_iff.1 hopen)
    · exact fun hopen => absurd hopen (by simp)
  checkpoint := by
    intro vs m h hopen
    refine (h hopen).mono fun v hv => ?_
    simp only [outside, held, List.mem_append] at hv ⊢
    rcases hv with hv | (hv | hv) | hv
    · exact Or.inl hv
    · exact Or.inr (Or.inl (Or.inl hv))
    · exact Or.inr (Or.inr hv)
    · exact Or.inr (Or.inr hv)
  commit := by
    intro vs m h hopen
    refine (h hopen).mono fun v hv => ?_
    simp only [outside, held, List.mem_append] at hv ⊢
    rcases hv with hv | (hv | hv) | hv
    · exact Or.inl hv
    · exact Or.inr (Or.inl (Or.inl hv))
    · exact absurd hv List.not_mem_nil
    · exact Or.inr (Or.inr hv)
  rollback hstart _ hgrown := Guarded.rollback hstart hgrown

/-- Whatever a host does keeps a machine guarded. -/
theorem guarded_congruence : Congruence (fun _ _ _ => True) Guarded :=
  intact_preserved.congruence

end Machine

/-- What can happen to a session whose code nobody vouches for: a request, any bytes in
the code area, and a run that starts anywhere. -/
inductive Deed where
  | request (r : Request)
  | overwrite (code : Code)
  | runEntry (entry : Int)

namespace Session

/-- A session after a deed. -/
def enact [Yaml.Parser] (s : Session) : Deed → Session
  | .request r => (s.perform r).2
  | .overwrite code => { s with machine := { s.machine with code := code } }
  | .runEntry entry => { s with machine := (s.machine.runEntry entry).2 }

theorem Linked.enact [Yaml.Parser] {s : Session} (h : Linked Machine.Guarded s s) (deed : Deed) :
    Linked Machine.Guarded (s.enact deed) (s.enact deed) := by
  have hR := Machine.guarded_congruence
  cases deed with
  | request r => exact (h.perform hR r).2
  | overwrite code => exact ⟨rfl, rfl, h.machine.2⟩
  | runEntry entry =>
      have hrun : Machine.Linked Machine.Guarded (fun v => [v])
          (s.machine.runEntry entry) (s.machine.runEntry entry) :=
        hR.runEntry h.machine trivial
      exact ⟨rfl, hR.clear hrun.machine⟩

theorem Linked.enactAll [Yaml.Parser] {s : Session} (h : Linked Machine.Guarded s s)
    (deeds : List Deed) :
    Linked Machine.Guarded (deeds.foldl Session.enact s) (deeds.foldl Session.enact s) := by
  induction deeds generalizing s with
  | nil => exact h
  | cons deed rest ih => exact ih (h.enact deed)

variable (owner : Nat) (limits : Limits) (logLevel : Option LogLevel)
  (watch : Option Watch) (horizon : Nat)

/-- A new session holds nothing. -/
theorem guarded_fresh :
    Linked Machine.Guarded (fresh owner limits logLevel watch horizon)
      (fresh owner limits logLevel watch horizon) := by
  rcases logLevel with _ | (_ | _)
  all_goals
    exact ⟨rfl, rfl, fun _ => ⟨Heap.tidy_empty, fun v hv => absurd hv List.not_mem_nil⟩⟩

/-- A machine survives any code.  After any requests, any writes into the code area and
any runs, a run of any code from any offset goes only through machines whose return stack
is in segments, whose environments are chains of live cells and whose closures are live
and whole; so a step with all accesses checked is the step, and no access is out of
range. -/
theorem any_code_is_contained [Yaml.Parser] (deeds : List Deed) (code : Code) (entry : Int) :
    let s := deeds.foldl enact (fresh owner limits logLevel watch horizon)
    let m := { s.machine with code := code }
    ∀ r ∈ m.entryRuns entry, ∀ x ∈ r.visits,
      Segmented x.regs.extra x.regs.returns.items ∧
      x.heap.IsEnv x.regs.env ∧
      (∀ pc env extra, .frame pc env extra ∈ x.regs.returns.items → x.heap.IsEnv env) ∧
      (∀ a, x.heap.Finds x.roots (.ref .closure a) → x.heap.IsClosure a) ∧
      x.stepChecked = some x.step := by
  intro s m r hr x hx
  have hs := (guarded_fresh owner limits logLevel watch horizon).enactAll deeds
  have hguarded : Machine.Guarded [] m m := ⟨rfl, hs.machine.2⟩
  have hcontained : x.Contained := by
    rw [Machine.entryRuns] at hr
    split at hr
    · exact absurd hr List.not_mem_nil
    · rename_i hopen
      obtain rfl := List.mem_singleton.1 hr
      have hopen := Bool.eq_false_iff.2 hopen
      obtain ⟨_, _, hclosure⟩ :=
        Machine.guarded_congruence.closure (e := entry) hguarded hopen trivial
      have hintact := hclosure hopen
      exact Run.visits_contained (hintact.mono fun v => List.mem_cons_of_mem _)
        (hintact.formed _ List.mem_cons_self) (fun v hv => absurd hv List.not_mem_nil) x hx
  have htidy := hcontained.intact.tidy
  refine ⟨hcontained.regs.segmented, hcontained.regs.env.isEnv htidy hcontained.regs.envKind,
    fun pc env extra hmem => ?_, fun a hfinds => ?_, hcontained.stepChecked⟩
  · obtain ⟨henv, hkind⟩ := hcontained.regs.entries _ hmem
    exact henv.isEnv htidy hkind
  · exact (Heap.Formed.of_finds hcontained.roots hfinds).isClosure htidy

/-- Code that binds what is loaded, builds a closure over it and calls the closure, whose
body is the call itself. -/
theorem any_code_is_contained_calls :
    let code : Code := ⟨(Instr.encodeAll [.bind, .closure 0, .apply]).toArray⟩
    let m := { (fresh 0 {} none none 4).machine with code := code }
    ∃ r ∈ m.entryRuns 0, ∃ x ∈ r.visits,
      x.regs.returns.items = [.frame 5 (.ref .env 1) 0, .frame 5 .emptyEnv 1,
        .value .undefined] ∧
      Segmented 0 x.regs.returns.items ∧ x.heap.IsEnv (.ref .env 1) ∧
      x.stepChecked = some x.step := by
  intro code m
  have hany : (Run.visits ⟨(m.topClosure 0).2, (m.topClosure 0).1, []⟩).any (fun x =>
      x.regs.returns.items = [.frame 5 (.ref .env 1) 0, .frame 5 .emptyEnv 1,
        .value .undefined] ∧ x.regs.extra = 0 ∧ x.regs.env = .ref .env 1) = true := by
    decide +kernel
  obtain ⟨x, hx, hfound⟩ := List.any_eq_true.1 hany
  obtain ⟨hitems, hextra, henv⟩ := of_decide_eq_true hfound
  have hr : ⟨(m.topClosure 0).2, (m.topClosure 0).1, []⟩ ∈ m.entryRuns 0 :=
    List.mem_singleton_self _
  obtain ⟨hsegmented, hisEnv, _, _, hchecked⟩ :=
    any_code_is_contained 0 {} none none 4 [] code 0 _ hr x hx
  rw [hextra] at hsegmented
  rw [henv] at hisEnv
  exact ⟨_, hr, x, hx, hitems, hsegmented, hisEnv, hchecked⟩

end Session

end Zinc
