import Zinc.Proofs.Machine.Safe
import Zinc.Proofs.Session.Congruence
import Zinc.Yaml.Parser

/-!
Programs never break a session.  A machine in order is related to itself, and whatever
a host asks for keeps it in order, also when a program fails to load and its code and
globals are taken back.  So every run that a request makes is safe.
-/

namespace Zinc

namespace Machine

/-- A machine that is in order, with values in hand that a program can compute with.
Nothing is left in the heap of a closed machine. -/
structure Stable (vs : List Value) (m : Machine) : Prop where
  sound : m.closed = false → m.Sound
  inHand : m.closed = false → ∀ v ∈ vs, Typed m.world .data v
  empty : m.closed = true → ∀ a, m.heap.fields a = #[]

/-- Code at `e` that can be run on its own. -/
def Enterable (code : Code) (globals : Globals) (e : Int) : Prop :=
  ∃ is, code.At e is ∧ Disciplined globals.size 0 0 false [] is

/-- A machine that is in order, next to itself. -/
def InOrder (vs : List Value) (m m' : Machine) : Prop :=
  m' = m ∧ Stable vs m

variable {vs : List Value} {m : Machine}

theorem Stable.ofOpen (hopen : m.closed = false) (hsound : m.Sound)
    (hvs : ∀ v ∈ vs, Typed m.world .data v) : Stable vs m :=
  ⟨fun _ => hsound, fun _ => hvs, fun h => by rw [hopen] at h; cases h⟩

theorem Stable.cons (h : Stable vs m) {v : Value}
    (hv : m.closed = false → Typed m.world .data v) : Stable (v :: vs) m :=
  ⟨h.sound, fun hopen => List.forall_mem_cons.2 ⟨hv hopen, h.inHand hopen⟩, h.empty⟩

theorem Stable.fields (h : Stable vs m) (hopen : m.closed = false) {v : Value}
    (hv : v ∈ vs) (hkind : v.kind = .tuple) : Stable (m.heap.fieldsOf v ++ vs) m := by
  refine .ofOpen hopen (h.sound hopen) fun u hu => ?_
  rcases List.mem_append.1 hu with hu | hu
  · cases h.inHand hopen v hv with
    | int n => cases hkind
    | closure _ _ _ _ _ _ => cases hkind
    | tuple hcell htag hfields =>
        have hu : u ∈ (m.heap.fields _).toList := hu
        have hsame : m.heap.fields _ = _ := Heap.fields_of_cell hcell
        rw [hsame, Array.mem_toList_iff] at hu
        exact hfields u hu
  · exact h.inHand hopen u hu

theorem Stable.hold (h : Stable vs m) (handles : HandleStack)
    (hhold : ∀ v ∈ handles.values, v ∈ m.handles.values ∨ v ∈ vs) :
    Stable vs { m with handles := handles } := by
  refine ⟨fun hopen => ?_, h.inHand, h.empty⟩
  obtain ⟨htidy, hlaid, hindex, hhandles, hglobals⟩ := h.sound hopen
  refine ⟨htidy, hlaid, hindex, fun v hv => ?_, hglobals⟩
  rcases hhold v hv with hold | hnew
  · exact hhandles v hold
  · exact h.inHand hopen v hnew

/-- New code and new globals leave a machine in order. -/
theorem Stable.extend (h : Stable vs m) (hopen : m.closed = false) {code : Code}
    {globals : Globals} (log : Array Record)
    (hcode : m.code.bytes.toList <+: code.bytes.toList)
    (hlaid : ∃ is, code.bytes.toList = Instr.encodeAll is)
    (hsize : m.globals.size ≤ globals.size)
    (hindex : Lir.Addresses globals.size globals.slot?)
    (hglobals : ∀ g ∈ globals.entries, g ∈ m.globals.entries ∨
      g.defined = false ∧ g.value = .undefined) :
    Stable vs { m with code := code, globals := globals, log := log } := by
  have hsound := h.sound hopen
  refine .ofOpen hopen ⟨hsound.tidy, hlaid, hindex, fun v hv => ?_, fun g hg => ?_⟩
    fun v hv => (h.inHand hopen v hv).extend hcode hsize
  · exact (hsound.handles v hv).extend hcode hsize
  · rcases hglobals g hg with hold | ⟨hundefined, hvalue⟩
    · have hassigned := hsound.globals g hold
      exact ⟨fun hdefined => (hassigned.typed hdefined).extend hcode hsize,
        hassigned.undefined⟩
    · exact ⟨fun hdefined => absurd hdefined (by simp [hundefined]), fun _ => hvalue⟩

theorem Stable.declare (h : Stable vs m) (hopen : m.closed = false) (s : Symbol) :
    Stable vs { m with globals := (m.globals.declare s).2 } := by
  have hsound := h.sound hopen
  rw [Globals.declare]
  cases hslot : m.globals.slot? s with
  | some i => exact h
  | none =>
      dsimp only
      split
      · exact h
      · rename_i hroom
        refine h.extend hopen m.log (List.prefix_refl _) hsound.laid ?_ ?_ ?_
        · simp [Globals.size]
        · intro t i hi
          simp only [Globals.slot?, Std.ExtHashMap.getElem?_insert, Globals.size,
            Array.size_push] at hi ⊢
          split at hi
          · obtain rfl := Option.some.inj hi
            exact ⟨Nat.lt_succ_self _, Nat.not_lt.1 hroom⟩
          · obtain ⟨hlt, hmax⟩ := hsound.index t i hi
            exact ⟨Nat.lt_succ_of_lt hlt, hmax⟩
        · intro g hg
          rcases Array.mem_push.1 hg with hold | rfl
          · exact Or.inl hold
          · exact Or.inr ⟨rfl, rfl⟩

/-- Generated code can be run. -/
theorem Stable.install (h : Stable vs m) (hopen : m.closed = false) (op : String)
    {is : List Instr} (hgenerated : Generated m is) :
    Stable vs (m.extended op is) ∧
      Enterable (m.extended op is).code m.globals m.code.size := by
  have hsound := h.sound hopen
  obtain ⟨older, holder⟩ := hsound.laid
  obtain ⟨log, heq⟩ := m.extended_eq op is
  rw [heq]
  refine ⟨?_, is, Code.at_append holder, ?_⟩
  · refine h.extend hopen log (by simp [Code.append]) ⟨older ++ is, ?_⟩ (Nat.le_refl _)
      hsound.index fun g hg => Or.inl hg
    simp [Code.append, holder]
  · cases hgenerated with
    | entry hcode => exact Lir.generateEntry_disciplined hsound.index hcode
    | definition hcode => exact Lir.generateDefinition_disciplined hsound.index hcode

/-- A new object of a known shape. -/
theorem Stable.alloc (h : Stable vs m) (hopen : m.closed = false) {tag : Kind}
    {fields : Array Value}
    (hnew : Typed { m.world with heap := (m.heap.alloc tag fields).2 } .data
      (.ref tag m.heap.cells.size)) :
    Stable (.ref tag m.heap.cells.size :: vs)
      { m with heap := (m.heap.alloc tag fields).2 } := by
  have hgrows : m.heap.Grows (m.heap.alloc tag fields).2 := .alloc _ _ (.refl _)
  refine .ofOpen hopen ((h.sound hopen).grow hgrows _) ?_
  exact List.forall_mem_cons.2 ⟨hnew, fun v hv => (h.inHand hopen v hv).grow hgrows⟩

theorem Stable.run (h : Stable vs m) (hopen : m.closed = false) {callee : Value}
    {args : List Value} (hcallee : callee ∈ vs) (hargs : ∀ w ∈ args, w ∈ vs) :
    Stable (((m.run callee args).1.toOption.map fun v => [v]).getD [])
      (m.run callee args).2 := by
  obtain ⟨hsound, hanswer⟩ := safe_run (h.sound hopen) (h.inHand hopen callee hcallee)
    fun w hw => h.inHand hopen w (hargs w hw)
  have hclosed := (m.evaluated_run callee args).closed.trans hopen
  refine .ofOpen hclosed hsound fun v hv => ?_
  generalize m.run callee args = r at *
  obtain ⟨answer, after⟩ := r
  cases answer with
  | error f => exact absurd hv List.not_mem_nil
  | ok w =>
      obtain rfl := List.mem_singleton.1 hv
      exact hanswer

theorem Stable.close (h : Stable vs m) : Stable [] m.close.2 := by
  unfold Machine.close whenOpen
  by_cases hclosed : m.closed = true
  · rw [if_pos hclosed]
    exact ⟨h.sound, by simp, h.empty⟩
  · rw [if_neg hclosed]
    have htidy := (h.sound (by simpa using hclosed)).tidy
    exact ⟨fun hopen => absurd hopen (by simp), by simp,
      fun _ => htidy.fields_destroyAll⟩

/-- A machine that was taken back to a checkpoint is in order, since it was so then. -/
theorem Stable.rollback {start : Machine} (hstart : Stable [] start) (h : Stable vs m)
    (hgrown : start.checkpoint.2.Grown m) :
    Stable [] (m.rollback start.checkpoint.1) := by
  have hrestored := hgrown.rollback
  have hclosed : m.closed = start.closed := hgrown.closed
  refine ⟨fun hopen => ?_, by simp, h.empty⟩
  have hsound := hstart.sound (hclosed.symm.trans hopen)
  have hworld : (m.rollback start.checkpoint.1).world =
      { start.world with heap := (m.rollback start.checkpoint.1).heap } := by
    rw [world, hrestored.code, hrestored.globals]
    rfl
  have hkeep {v : Value} (hv : v ∈ start.handles.values ++ start.globals.values)
      (htyped : Typed start.world .data v) :
      Typed (m.rollback start.checkpoint.1).world .data v := by
    rw [hworld]
    exact htyped.keep (hrestored.heap hsound.tidy) (Heap.within_reach hv)
  refine ⟨hrestored.tidy hsound.tidy, ?_, ?_, ?_, ?_⟩
  · rw [hrestored.code]
    exact hsound.laid
  · rw [hrestored.globals]
    exact hsound.index
  · rw [hrestored.handles]
    exact fun v hv => hkeep (List.mem_append_left _ hv) (hsound.handles v hv)
  · rw [hrestored.globals]
    intro g hg
    refine ⟨fun hdefined => hkeep (List.mem_append_right _ ?_)
      ((hsound.globals g hg).typed hdefined), (hsound.globals g hg).undefined⟩
    exact List.mem_map_of_mem (Array.mem_toList_iff.2 hg)

/-- Everything that operations are made of keeps a machine in order. -/
theorem stable_preserved : Preserved Enterable Stable where
  entry := by
    rintro c c' g g' e ⟨is, hat, hdisciplined⟩ hcode hsize
    exact ⟨is, hat.mono hcode, hdisciplined.mono hsize⟩
  drop h hsub := ⟨h.sound, fun hopen v hv => h.inHand hopen v (hsub v hv), h.empty⟩
  int n h := h.cons fun _ => .int n
  handle h _ hv := h.cons fun hopen => (h.sound hopen).handles _ hv
  global h _ hg hdefined := h.cons fun hopen => ((h.sound hopen).globals _ hg).typed hdefined
  fields h hopen hv hkind := h.fields hopen hv hkind
  hold handles h hhold := h.hold handles hhold
  declare s h hopen := h.declare hopen s
  install op h hopen hgenerated := h.install hopen op hgenerated
  closure := by
    rintro vs m e h hopen ⟨is, hat, hdisciplined⟩
    exact h.alloc hopen (.closure (Heap.cells_alloc_self _ _ _) rfl rfl .nil hat hdisciplined)
  tuple := by
    intro vs m ws h hopen hws
    refine h.alloc hopen (.tuple (Heap.cells_alloc_self _ _ _) rfl fun v hv => ?_)
    have hv := (hws v (by simpa using hv)).1
    exact (h.inHand hopen v hv).grow (.alloc _ _ (.refl _))
  run h hopen hcallee hargs := h.run hopen hcallee hargs
  collect h hopen := by
    have hsound := h.sound hopen
    refine .ofOpen hopen ?_ (by simp)
    exact hsound.keep (keeps_collectGarbage hsound.tidy) (hsound.tidy.collect _) rfl rfl
  close h := h.close
  checkpoint h := by
    refine ⟨fun hopen => ?_, h.inHand, h.empty⟩
    obtain ⟨htidy, hlaid, hindex, hhandles, hglobals⟩ := h.sound hopen
    exact ⟨htidy, hlaid, hindex, hhandles, hglobals⟩
  commit h := by
    refine ⟨fun hopen => ?_, h.inHand, h.empty⟩
    obtain ⟨htidy, hlaid, hindex, hhandles, hglobals⟩ := h.sound hopen
    exact ⟨htidy, hlaid, hindex, hhandles, hglobals⟩
  rollback hstart h hgrown := hstart.rollback h hgrown

/-- Whatever a host does keeps a machine in order. -/
theorem inOrder_congruence : Congruence Enterable InOrder :=
  stable_preserved.congruence

/-- Every instruction that a machine in order starts is listed when its code is
decoded. -/
theorem Going.starts (h : m.Going) (fuel : Nat) :
    ∀ pc ∈ m.starts fuel, ∃ n i, pc = (n : Nat) ∧ (n, i) ∈ m.code.decodeAll.instrs := by
  induction fuel generalizing m with
  | zero => exact fun pc hpc => absurd hpc List.not_mem_nil
  | succ fuel ih =>
      have hgoing := h.ready.1
      have hready := m.evaluated_ready.code
      unfold Machine.starts
      split
      · exact fun pc hpc => absurd hpc List.not_mem_nil
      · rename_i after heq
        rw [heq] at hgoing hready
        rw [← hready]
        obtain ⟨hpoised, hat, hdisciplined⟩ := hgoing.running
        obtain ⟨i, is, rfl⟩ := hdisciplined.exists_cons
        obtain ⟨n, hn, hlisted⟩ := hat.listed
        have hcounted : after.counted.Going := hgoing.withRecords _ _ _
        have hfine := fine_step hcounted.sound hcounted.running
        have hcode := after.counted.stepped_step
        refine List.forall_mem_cons.2 ⟨⟨n, i, hn, hlisted⟩, ?_⟩
        split
        · rename_i next hnext
          rw [hnext] at hfine hcode
          have hsame : next.code = after.code := hcode.code
          rw [← hsame]
          exact ih ⟨hfine.1, hfine.2⟩
        · exact fun pc hpc => absurd hpc List.not_mem_nil
        · exact fun pc hpc => absurd hpc List.not_mem_nil

/-- What handles and globals lead to has a shape. -/
theorem Sound.reach (h : m.Sound) {a : Nat}
    (ha : m.heap.Reach (m.handles.values ++ m.globals.values) a) :
    ∃ shape v, Typed m.world shape v ∧ v.address? = some a := by
  refine Typed.of_reach (fun v hv b hb => ?_) ha
  rcases List.mem_append.1 hv with hv | hv
  · exact ⟨_, h.handles v hv⟩
  · obtain ⟨g, hg, rfl⟩ := List.mem_map.1 hv
    have hassigned := h.globals g (Array.mem_toList_iff.1 hg)
    cases hdefined : g.defined with
    | true => exact ⟨_, hassigned.typed hdefined⟩
    | false =>
        rw [hassigned.undefined hdefined] at hb
        cases hb

/-- The fields of a tuple that handles or globals lead to are values that a host can
see. -/
theorem Stable.publicFields (h : Stable vs m) {a : Nat} {c : Cell}
    (ha : m.heap.Reach (m.handles.values ++ m.globals.values) a)
    (hcell : m.heap.cells[a]? = some c) (htag : c.tag = .tuple) :
    ∀ v ∈ c.fields, v.kind.isPublic = true := by
  cases hclosed : m.closed with
  | true =>
      have hempty := h.empty hclosed a
      rw [Heap.fields_of_cell hcell] at hempty
      simp [hempty]
  | false =>
      obtain ⟨shape, u, htyped, hu⟩ := (h.sound hclosed).reach ha
      obtain ⟨c', hcell', _, hfields, _⟩ := htyped.fields hu
      obtain rfl := Option.some.inj (hcell.symm.trans hcell')
      exact fun v hv => (hfields htag v hv).isPublic

end Machine

/-- A run of a machine in order starts only instructions that are listed when the code
is decoded. -/
theorem Run.starts_listed {r : Run} (hopen : r.machine.closed = false)
    (h : Machine.Stable (r.callee :: r.args) r.machine) :
    ∀ pc ∈ r.starts, ∃ n i, pc = (n : Nat) ∧
      (n, i) ∈ r.machine.code.decodeAll.instrs := by
  obtain ⟨hcallee, hargs⟩ := List.forall_mem_cons.1 (h.inHand hopen)
  have hfine := Machine.fine_enter (h.sound hopen) hcallee hargs
  have hstepped := r.machine.stepped_enter r.callee r.args
  unfold Run.starts
  split
  · rename_i next hnext
    rw [hnext] at hfine hstepped
    have hsame : next.code = r.machine.code := hstepped.code
    rw [← hsame]
    exact Machine.Going.starts ⟨hfine.1, hfine.2⟩ _
  · exact fun pc hpc => absurd hpc List.not_mem_nil
  · exact fun pc hpc => absurd hpc List.not_mem_nil

/-- A run of a machine in order ends with a value that a host can see or with one of
the causes that a run can stop with. -/
theorem Run.answer_safe {r : Run} (hopen : r.machine.closed = false)
    (h : Machine.Stable (r.callee :: r.args) r.machine) :
    (∃ v, r.answer = .ok v ∧ v.kind.isPublic = true) ∨
      ∃ f, r.answer = .error f ∧ f.cause ∈ Machine.runtimeCauses := by
  obtain ⟨hcallee, hargs⟩ := List.forall_mem_cons.1 (h.inHand hopen)
  have hsafe := (Machine.safe_run (h.sound hopen) hcallee hargs).2
  rw [Run.answer]
  cases hanswer : (r.machine.run r.callee r.args).1 with
  | ok v =>
      rw [hanswer] at hsafe
      exact Or.inl ⟨v, rfl, Typed.isPublic hsafe⟩
  | error f =>
      rw [hanswer] at hsafe
      exact Or.inr ⟨f, rfl, hsafe⟩

namespace Session

variable (owner : Nat) (limits : Limits) (logLevel : Option LogLevel)
  (watch : Option Watch) (horizon : Nat)

/-- A new session is in order. -/
theorem inOrder_fresh :
    Linked Machine.InOrder (fresh owner limits logLevel watch horizon)
      (fresh owner limits logLevel watch horizon) := by
  refine ⟨rfl, rfl, ?_⟩
  rcases logLevel with _ | (_ | _)
  all_goals
    refine .ofOpen rfl ⟨Heap.tidy_empty, ⟨[], rfl⟩, ?_, ?_, ?_⟩ (by simp)
    · intro s i hi
      have hi : (∅ : Std.ExtHashMap Symbol Nat)[s]? = some i := hi
      simp at hi
    · exact fun v hv => absurd hv List.not_mem_nil
    · exact fun g hg => absurd hg (Array.not_mem_empty g)

/-- Compiled programs never break the machine: whatever a host has asked for, a request
that runs code starts only instructions that are listed when the whole code is decoded,
and stops with an integer, a closure or a tuple, or for one of a few causes that are
not the fault of the code; and the fields of all tuples that the host can reach are such
values. -/
theorem programs_never_break [Yaml.Parser] (requests : List Request) (request : Request) :
    let s := (fresh owner limits logLevel watch horizon).after requests
    (∀ r ∈ s.runs request,
      (∀ pc ∈ r.starts, ∃ n i, pc = (n : Nat) ∧
        (n, i) ∈ r.machine.code.decodeAll.instrs) ∧
      ((∃ v, r.answer = .ok v ∧ v.kind ∈ [.int, .closure, .tuple]) ∨
        ∃ f, r.answer = .error f ∧
          f.cause ∈ [.notClosure, .undefinedGlobal, .argStackFull, .returnStackFull,
            .stepLimit, .interrupted])) ∧
      ∀ a c, s.machine.heap.Reach
          (s.machine.handles.values ++ s.machine.globals.values) a →
        s.machine.heap.cells[a]? = some c → c.tag = .tuple →
        ∀ v ∈ c.fields, v.kind.isPublic = true := by
  intro s
  have hR := Machine.inOrder_congruence
  have hlinked : Linked Machine.InOrder s s :=
    ((inOrder_fresh owner limits logLevel watch horizon).after hR requests).2
  refine ⟨fun r hr => ?_, fun a c => hlinked.machine.2.publicFields⟩
  obtain ⟨hopen, _, _, hstable⟩ := hlinked.runs hR request r hr
  refine ⟨Run.starts_listed hopen hstable, ?_⟩
  rcases Run.answer_safe hopen hstable with ⟨v, hv, hpublic⟩ | hfault
  · refine Or.inl ⟨v, hv, ?_⟩
    cases hkind : v.kind <;> simp_all [Kind.isPublic]
  · exact Or.inr hfault

/-- A function that makes a tuple of its argument is called by code that is evaluated twice:
the second run starts every instruction of the code, and the field of the tuple that the
first run has left with the host is an integer. -/
theorem programs_never_break_tuple :
    let x : Binder := ⟨0, "x"⟩
    let single : Expr := .lam {} x (.tuple {} [.var {} (some x)])
    let h : Handle := ⟨0, 0, 0, 1⟩
    let s := (fresh 0 {} none none 20).after
      [.compile (.app {} single (.int {} 5)), .evaluate h]
    (∃ r ∈ s.runs (.evaluate h),
      r.starts = [0, 1, 10, 11, 22, 14, 15, 17, 18, 21, 23] ∧
        r.answer.toOption = some (.ref .tuple 4) ∧
        ∀ pc ∈ r.starts, ∃ n i, pc = (n : Nat) ∧
          (n, i) ∈ r.machine.code.decodeAll.instrs) ∧
      s.machine.heap.cells[2]? = some { tag := .tuple, fields := #[.int 5] } ∧
      (Value.int 5).kind.isPublic = true := by
  intro x single h s
  have hany : (s.runs (.evaluate h)).any (fun r =>
      r.starts = [0, 1, 10, 11, 22, 14, 15, 17, 18, 21, 23] ∧
        r.answer.toOption = some (.ref .tuple 4)) = true := by
    decide +kernel
  obtain ⟨r, hr, hfound⟩ := List.any_eq_true.1 hany
  obtain ⟨hstarts, hanswer⟩ := of_decide_eq_true hfound
  have hsafe := programs_never_break 0 {} none none 20
    [.compile (.app {} single (.int {} 5)), .evaluate h] (.evaluate h)
  refine ⟨⟨r, hr, hstarts, hanswer, (hsafe.1 r hr).1⟩, by decide +kernel, ?_⟩
  -- the tuple is reached from its handle
  refine hsafe.2 2 { tag := .tuple, fields := #[.int 5] } (.root (v := .ref .tuple 2) ?_ rfl)
    ?_ rfl _ ?_
  · exact List.mem_append_left _ (by decide +kernel)
  · decide +kernel
  · exact Array.mem_singleton_self _

end Session

end Zinc
