import Zinc.Host.Convert
import Zinc.Proofs.Program.Undo

/-!
Relations between machines that a host cannot tell apart.  Such a relation is given
together with the values in hand, those that an operation holds on to and that may not
be rooted anywhere.  When it survives the few things that operations are made of, then
every operation on related machines gives the same answer and related machines again.
A property of single machines is the case of a relation between a machine and itself.
-/

namespace Zinc.Machine

/-- Code that was generated against the globals of a machine. -/
inductive Generated (m : Machine) (is : List Instr) : Prop where
  | entry {l : Lir} :
      (l.generateEntry m.globals.slot?).code = .ok is → Generated m is
  | definition {s : Symbol} {l : Lir} :
      (l.generateDefinition m.globals.slot? s).code = .ok is → Generated m is

/-- Two replies with the same answer and related machines. -/
structure Linked {ε α : Type} (R : List Value → Machine → Machine → Prop)
    (inHand : α → List Value) (r r' : Except ε α × Machine) : Prop where
  answer : r'.1 = r.1
  machine : R ((r.1.toOption.map inHand).getD []) r.2 r'.2

theorem Linked.cases {ε α : Type} {R : List Value → Machine → Machine → Prop}
    {inHand : α → List Value} {r r' : Except ε α × Machine}
    (h : Linked R inHand r r') :
    (∃ e m m', r = (.error e, m) ∧ r' = (.error e, m') ∧ R [] m m') ∨
      ∃ a m m', r = (.ok a, m) ∧ r' = (.ok a, m') ∧ R (inHand a) m m' := by
  obtain ⟨answer, after⟩ := r
  obtain ⟨answer', after'⟩ := r'
  obtain ⟨hanswer, hmachine⟩ := h
  dsimp only at hanswer
  subst hanswer
  cases answer' with
  | error e => exact Or.inl ⟨e, after, after', rfl, rfl, hmachine⟩
  | ok a => exact Or.inr ⟨a, after, after', rfl, rfl, hmachine⟩

/-- Nothing of the answer is in hand. -/
def nothing {α : Type} (_ : α) : List Value := []

/-- `R vs m m'` relates machines whose operations hold the values `vs` in hand, and
`E code globals e` says that code which can be run on its own starts at `e`. -/
structure Congruence (E : Code → Globals → Int → Prop)
    (R : List Value → Machine → Machine → Prop) : Prop where
  closed : ∀ {vs m m'}, R vs m m' → m'.closed = m.closed
  handles : ∀ {vs m m'}, R vs m m' → m'.handles = m.handles
  globals : ∀ {vs m m'}, R vs m m' → m'.globals = m.globals
  code : ∀ {vs m m'}, R vs m m' → m'.code = m.code
  usage : ∀ {vs m m'}, R vs m m' → m'.usage = m.usage
  entry : ∀ {c c' g g' e}, E c g e → c.bytes.toList <+: c'.bytes.toList →
    g.size ≤ g'.size → E c' g' e
  drop : ∀ {vs ws m m'}, R vs m m' → (∀ v ∈ ws, v ∈ vs) → R ws m m'
  int : ∀ {vs m m'} (n : Int64), R vs m m' → R (.int n :: vs) m m'
  handle : ∀ {vs m m' v}, R vs m m' → m.closed = false →
    v ∈ m.handles.values → R (v :: vs) m m'
  global : ∀ {vs m m' g}, R vs m m' → m.closed = false →
    g ∈ m.globals.entries → g.defined = true → R (g.value :: vs) m m'
  fields : ∀ {vs m m' v}, R vs m m' → m.closed = false → v ∈ vs →
    v.kind = .tuple → m'.heap.fieldsOf v = m.heap.fieldsOf v ∧
      R (m.heap.fieldsOf v ++ vs) m m'
  inspect : ∀ {vs m m' v}, R vs m m' → v ∈ vs → m'.inspect v = m.inspect v
  toHost : ∀ {vs m m' v}, R vs m m' → v ∈ vs → ∀ target,
    toHost m'.heap (m'.heap.cells.size + 1) v target =
      toHost m.heap (m.heap.cells.size + 1) v target
  hold : ∀ {vs m m'} (handles : HandleStack), R vs m m' →
    (∀ v ∈ handles.values, v ∈ m.handles.values ∨ v ∈ vs) →
    R vs { m with handles := handles } { m' with handles := handles }
  declare : ∀ {vs m m'} (s : Symbol), R vs m m' → m.closed = false →
    R vs { m with globals := (m.globals.declare s).2 }
      { m' with globals := (m.globals.declare s).2 }
  install : ∀ {vs m m' is} (op : String), R vs m m' → m.closed = false →
    Generated m is → R vs (m.extended op is) (m'.extended op is) ∧
      E (m.extended op is).code m.globals m.code.size
  closure : ∀ {vs m m' e}, R vs m m' → m.closed = false →
    E m.code m.globals e → (m'.topClosure e).1 = (m.topClosure e).1 ∧
      R ((m.topClosure e).1 :: vs) (m.topClosure e).2 (m'.topClosure e).2
  tuple : ∀ {vs m m'} (ws : List Value), R vs m m' → m.closed = false →
    (∀ w ∈ ws, w ∈ vs ∧ w.kind.isPublic = true) →
    m'.heap.cells.size = m.heap.cells.size ∧
      R (.ref .tuple m.heap.cells.size :: vs)
        { m with heap := (m.heap.alloc .tuple ws.toArray).2 }
        { m' with heap := (m'.heap.alloc .tuple ws.toArray).2 }
  run : ∀ {vs m m' callee args}, R vs m m' → m.closed = false →
    callee ∈ vs → (∀ w ∈ args, w ∈ vs) →
    Linked R (fun v => [v]) (m.run callee args) (m'.run callee args)
  collect : ∀ {vs m m'}, R vs m m' → m.closed = false →
    R [] m.collectGarbage.2 m'.collectGarbage.2
  close : ∀ {vs m m'}, R vs m m' → R [] m.close.2 m'.close.2
  checkpoint : ∀ {vs m m'}, R vs m m' → R vs m.checkpoint.2 m'.checkpoint.2
  commit : ∀ {vs m m'}, R vs m m' → R vs m.commit m'.commit
  rollback : ∀ {vs start start' m m'}, R [] start start' → R vs m m' →
    start.checkpoint.2.Grown m → R [] (m.rollback start.checkpoint.1)
      (m'.rollback start.checkpoint.1)

/-- A property of single machines whose operations hold the values `vs` in hand, which
the few things that operations are made of keep. -/
structure Preserved (E : Code → Globals → Int → Prop)
    (P : List Value → Machine → Prop) : Prop where
  entry : ∀ {c c' g g' e}, E c g e → c.bytes.toList <+: c'.bytes.toList →
    g.size ≤ g'.size → E c' g' e
  drop : ∀ {vs ws m}, P vs m → (∀ v ∈ ws, v ∈ vs) → P ws m
  int : ∀ {vs m} (n : Int64), P vs m → P (.int n :: vs) m
  handle : ∀ {vs m v}, P vs m → m.closed = false → v ∈ m.handles.values → P (v :: vs) m
  global : ∀ {vs m g}, P vs m → m.closed = false → g ∈ m.globals.entries →
    g.defined = true → P (g.value :: vs) m
  fields : ∀ {vs m v}, P vs m → m.closed = false → v ∈ vs → v.kind = .tuple →
    P (m.heap.fieldsOf v ++ vs) m
  hold : ∀ {vs m} (handles : HandleStack), P vs m →
    (∀ v ∈ handles.values, v ∈ m.handles.values ∨ v ∈ vs) →
    P vs { m with handles := handles }
  declare : ∀ {vs m} (s : Symbol), P vs m → m.closed = false →
    P vs { m with globals := (m.globals.declare s).2 }
  install : ∀ {vs m is} (op : String), P vs m → m.closed = false → Generated m is →
    P vs (m.extended op is) ∧ E (m.extended op is).code m.globals m.code.size
  closure : ∀ {vs m e}, P vs m → m.closed = false → E m.code m.globals e →
    P ((m.topClosure e).1 :: vs) (m.topClosure e).2
  tuple : ∀ {vs m} (ws : List Value), P vs m → m.closed = false →
    (∀ w ∈ ws, w ∈ vs ∧ w.kind.isPublic = true) →
    P (.ref .tuple m.heap.cells.size :: vs)
      { m with heap := (m.heap.alloc .tuple ws.toArray).2 }
  run : ∀ {vs m callee args}, P vs m → m.closed = false → callee ∈ vs →
    (∀ w ∈ args, w ∈ vs) →
    P (((m.run callee args).1.toOption.map fun v => [v]).getD []) (m.run callee args).2
  collect : ∀ {vs m}, P vs m → m.closed = false → P [] m.collectGarbage.2
  close : ∀ {vs m}, P vs m → P [] m.close.2
  checkpoint : ∀ {vs m}, P vs m → P vs m.checkpoint.2
  commit : ∀ {vs m}, P vs m → P vs m.commit
  rollback : ∀ {vs start m}, P [] start → P vs m → start.checkpoint.2.Grown m →
    P [] (m.rollback start.checkpoint.1)

/-- What operations keep of a single machine relates it to itself. -/
theorem Preserved.congruence {E : Code → Globals → Int → Prop}
    {P : List Value → Machine → Prop} (hP : Preserved E P) :
    Congruence E fun vs m m' => m' = m ∧ P vs m where
  closed := by rintro vs m _ ⟨rfl, _⟩; rfl
  handles := by rintro vs m _ ⟨rfl, _⟩; rfl
  globals := by rintro vs m _ ⟨rfl, _⟩; rfl
  code := by rintro vs m _ ⟨rfl, _⟩; rfl
  usage := by rintro vs m _ ⟨rfl, _⟩; rfl
  entry := hP.entry
  drop h hsub := ⟨h.1, hP.drop h.2 hsub⟩
  int n h := ⟨h.1, hP.int n h.2⟩
  handle h hopen hv := ⟨h.1, hP.handle h.2 hopen hv⟩
  global h hopen hg hdefined := ⟨h.1, hP.global h.2 hopen hg hdefined⟩
  fields := by
    rintro vs m _ v ⟨rfl, h⟩ hopen hv hkind
    exact ⟨rfl, rfl, hP.fields h hopen hv hkind⟩
  inspect := by rintro vs m _ v ⟨rfl, _⟩ _; rfl
  toHost := by rintro vs m _ v ⟨rfl, _⟩ _ target; rfl
  hold := by
    rintro vs m _ handles ⟨rfl, h⟩ hhold
    exact ⟨rfl, hP.hold handles h hhold⟩
  declare := by
    rintro vs m _ s ⟨rfl, h⟩ hopen
    exact ⟨rfl, hP.declare s h hopen⟩
  install := by
    rintro vs m _ is op ⟨rfl, h⟩ hopen hgenerated
    obtain ⟨hinstalled, hentry⟩ := hP.install op h hopen hgenerated
    exact ⟨⟨rfl, hinstalled⟩, hentry⟩
  closure := by
    rintro vs m _ e ⟨rfl, h⟩ hopen hentry
    exact ⟨rfl, rfl, hP.closure h hopen hentry⟩
  tuple := by
    rintro vs m _ ws ⟨rfl, h⟩ hopen hws
    exact ⟨rfl, rfl, hP.tuple ws h hopen hws⟩
  run := by
    rintro vs m _ callee args ⟨rfl, h⟩ hopen hcallee hargs
    exact ⟨rfl, rfl, hP.run h hopen hcallee hargs⟩
  collect := by
    rintro vs m _ ⟨rfl, h⟩ hopen
    exact ⟨rfl, hP.collect h hopen⟩
  close := by
    rintro vs m _ ⟨rfl, h⟩
    exact ⟨rfl, hP.close h⟩
  checkpoint := by
    rintro vs m _ ⟨rfl, h⟩
    exact ⟨rfl, hP.checkpoint h⟩
  commit := by
    rintro vs m _ ⟨rfl, h⟩
    exact ⟨rfl, hP.commit h⟩
  rollback := by
    rintro vs start _ m _ ⟨rfl, hstart⟩ ⟨rfl, h⟩ hgrown
    exact ⟨rfl, hP.rollback hstart h hgrown⟩

namespace Congruence

variable {E : Code → Globals → Int → Prop}
  {R : List Value → Machine → Machine → Prop} {vs : List Value} {m m' : Machine}

theorem clear (hR : Congruence E R) (h : R vs m m') : R [] m m' :=
  hR.drop h fun _ hv => absurd hv List.not_mem_nil

theorem give {ε α : Type} {inHand : α → List Value} {a : α}
    (h : R (inHand a) m m') :
    Linked R inHand ((.ok a, m) : Except ε α × Machine) (.ok a, m') :=
  ⟨rfl, h⟩

theorem refuse {ε α : Type} {inHand : α → List Value} (hR : Congruence E R)
    (h : R vs m m') (e : ε) :
    Linked R inHand ((.error e, m) : Except ε α × Machine) (.error e, m') :=
  ⟨rfl, hR.clear h⟩

theorem whenOpen {α : Type} {inHand : α → List Value} (hR : Congruence E R)
    (h : R vs m m') {op : String} {k : Machine → Reply α}
    (hk : m.closed = false → Linked R inHand (k m) (k m')) :
    Linked R inHand (m.whenOpen op k) (m'.whenOpen op k) := by
  unfold Machine.whenOpen
  rw [hR.closed h]
  cases hclosed : m.closed with
  | true => exact hR.refuse h _
  | false => exact hk hclosed

theorem whenFramed {α : Type} {inHand : α → List Value} (hR : Congruence E R)
    (h : R vs m m') {op : String} {k : Machine → Reply α}
    (hk : m.closed = false → Linked R inHand (k m) (k m')) :
    Linked R inHand (m.whenFramed op k) (m'.whenFramed op k) := by
  refine hR.whenOpen h fun hopen => ?_
  rw [hR.handles h]
  split
  · exact hR.refuse h _
  · exact hk hopen

theorem mem_frames_of_mem_pop {frames : Array HandleFrame} {f : HandleFrame}
    (hf : f ∈ frames.pop) : f ∈ frames := by
  rw [← Array.mem_toList_iff, Array.toList_pop] at hf
  exact Array.mem_toList_iff.1 (List.dropLast_subset _ hf)

theorem mem_values_add {s s' : HandleStack} {h : Handle} {v w : Value}
    (hadd : s.add v = .ok (h, s')) (hw : w ∈ s'.values) :
    w ∈ s.values ∨ w = v := by
  rw [HandleStack.add] at hadd
  split at hadd
  · cases hadd
  · split at hadd
    · cases hadd
    · rename_i f hback
      split at hadd
      · cases hadd
      · cases hadd
        simp only [HandleStack.values, Array.toList_push, List.flatMap_append,
          List.flatMap_cons, List.flatMap_nil, List.append_nil, List.mem_append,
          List.mem_singleton, List.mem_flatMap, Array.mem_toList_iff] at hw ⊢
        rcases hw with ⟨f', hf', hw⟩ | hw | rfl
        · exact Or.inl ⟨f', mem_frames_of_mem_pop hf', hw⟩
        · exact Or.inl ⟨f, Array.mem_of_back? hback, hw⟩
        · exact Or.inr rfl

theorem addHandle (hR : Congruence E R) (h : R vs m m') {v : Value}
    (hv : v ∈ vs) : Linked R nothing (m.addHandle v) (m'.addHandle v) := by
  unfold Machine.addHandle
  rw [hR.handles h]
  cases hadd : m.handles.add v with
  | error f => exact hR.refuse h f
  | ok added =>
      refine give (hR.clear (hR.hold added.2 h fun w hw => ?_))
      rcases mem_values_add (h := added.1) hadd hw with hold | rfl
      · exact Or.inl hold
      · exact Or.inr hv

theorem newHandle (hR : Congruence E R) (h : R vs m m') {v : Value}
    (hv : v ∈ vs) : Linked R nothing (m.newHandle v) (m'.newHandle v) :=
  hR.whenOpen h fun _ => hR.addHandle h hv

theorem pushFrame (hR : Congruence E R) (h : R vs m m') :
    Linked R nothing m.pushFrame m'.pushFrame := by
  refine hR.whenOpen h fun _ => ?_
  rw [hR.handles h]
  cases hpush : m.handles.pushFrame with
  | error f => exact hR.refuse h f
  | ok handles =>
      refine give (hR.clear (hR.hold handles h fun w hw => Or.inl ?_))
      rw [HandleStack.pushFrame] at hpush
      split at hpush
      · cases hpush
      · cases hpush
        simpa [HandleStack.values] using hw

theorem popFrame (hR : Congruence E R) (h : R vs m m') :
    Linked R nothing m.popFrame m'.popFrame := by
  refine hR.whenOpen h fun _ => ?_
  rw [hR.handles h]
  cases hpop : m.handles.popFrame with
  | error f => exact hR.refuse h f
  | ok handles =>
      refine give (hR.clear (hR.hold handles h fun w hw => Or.inl ?_))
      rw [HandleStack.popFrame] at hpop
      split at hpop
      · cases hpop
      · cases hpop
        simp only [HandleStack.values, List.mem_flatMap,
          Array.mem_toList_iff] at hw ⊢
        obtain ⟨f, hf, hw⟩ := hw
        exact ⟨f, mem_frames_of_mem_pop hf, hw⟩

theorem value (hR : Congruence E R) (h : R vs m m') (fn : Handle) :
    m'.value fn = m.value fn := by
  rw [Machine.value, Machine.value, hR.closed h, hR.handles h]

theorem mem_values_of_get {s : HandleStack} {h : Handle} {v : Value}
    (hget : s.get h = .ok v) : v ∈ s.values := by
  rw [HandleStack.get] at hget
  split at hget
  · cases hget
  · split at hget
    · cases hget
    · rename_i f hf
      split at hget
      · cases hget
      · split at hget
        · cases hget
        · rename_i w hw
          cases hget
          rw [HandleStack.values, List.mem_flatMap]
          exact ⟨f, Array.mem_toList_iff.2 (Array.mem_of_getElem? hf),
            Array.mem_toList_iff.2 (Array.mem_of_getElem? hw)⟩

/-- The value of a handle can be taken in hand. -/
theorem value_in_hand (hR : Congruence E R) (h : R vs m m') {fn : Handle}
    {v : Value} (hv : m.value fn = .ok v) :
    m.closed = false ∧ R (v :: vs) m m' := by
  rw [Machine.value] at hv
  cases hclosed : m.closed with
  | true => simp [hclosed] at hv
  | false =>
      rw [hclosed, if_neg Bool.false_ne_true] at hv
      exact ⟨rfl, hR.handle h hclosed (mem_values_of_get hv)⟩

theorem declareGlobal (hR : Congruence E R) (h : R vs m m') (s : Symbol) :
    Linked R nothing (m.declare s) (m'.declare s) := by
  refine hR.whenOpen h fun hopen => ?_
  have hdeclared := hR.clear (hR.declare s h hopen)
  rw [hR.globals h]
  cases hdeclare : m.globals.declare s with
  | mk declared globals =>
      rw [hdeclare] at hdeclared
      cases declared <;> exact ⟨rfl, hdeclared⟩

theorem lower (hR : Congruence E R) (h : R vs m m') (e : Expr) :
    m'.lower e = m.lower e := by
  rw [Machine.lower, Machine.lower, hR.closed h, hR.globals h]

/-- Compiling answered the same for two machines, which are related afterwards; where
it succeeded there is code to run. -/
structure Compiles {ε : Type} (E : Code → Globals → Int → Prop)
    (R : List Value → Machine → Machine → Prop) (vs : List Value)
    (r r' : Except ε Nat × Machine) : Prop where
  answer : r'.1 = r.1
  machine : R vs r.2 r'.2
  entry : ∀ e, r.1 = .ok e → r.2.closed = false ∧ E r.2.code r.2.globals e

theorem Compiles.fail {ε : Type} (h : R vs m m') (e : ε) :
    Compiles E R vs (.error e, m) (.error e, m') :=
  ⟨rfl, h, fun _ heq => by cases heq⟩

theorem installs (hR : Congruence E R) (h : R vs m m') (hopen : m.closed = false)
    (op : String) {is : List Instr} (hgen : Generated m is) :
    Compiles E R vs (m.install op (.ok is)) (m'.install op (.ok is)) := by
  obtain ⟨hinstall, hentry⟩ := hR.install op h hopen hgen
  refine ⟨?_, hinstall, fun e hok => ?_⟩
  · dsimp only [Machine.install]
    rw [hR.code h]
  · cases hok
    change (m.extended op is).closed = false ∧
      E (m.extended op is).code (m.extended op is).globals m.code.size
    rw [closed_extended, globals_extended]
    exact ⟨hopen, hentry⟩

theorem compileEntry (hR : Congruence E R) (h : R vs m m') (l : Lir) :
    (m'.compileEntry l).1.tree = (m.compileEntry l).1.tree ∧
      Compiles E R vs ((m.compileEntry l).1.entry, (m.compileEntry l).2)
        ((m'.compileEntry l).1.entry, (m'.compileEntry l).2) := by
  unfold Machine.compileEntry
  rw [hR.closed h]
  cases hclosed : m.closed with
  | true => exact ⟨rfl, .fail h _⟩
  | false =>
      rw [compileExpr_eq, compileExpr_eq, hR.globals h]
      refine ⟨rfl, ?_⟩
      cases hcode : (l.generateEntry m.globals.slot?).code with
      | error f => exact .fail h f
      | ok is => exact hR.installs h hclosed "compile" (.entry hcode)

theorem defineEntryWith {ε : Type} (hR : Congruence E R) (h : R vs m m')
    (s : Symbol) (refuse : Fault → ε) (lower : Machine → Except ε Lir)
    (hlower : ∀ m m', R vs m m' → lower m' = lower m) :
    (m'.defineEntryWith s refuse fun m => (lower m, m)).1 =
        (m.defineEntryWith s refuse fun m => (lower m, m)).1 ∧
      Compiles E R vs (m.defineEntryWith s refuse fun m => (lower m, m)).2
        (m'.defineEntryWith s refuse fun m => (lower m, m)).2 := by
  unfold Machine.defineEntryWith
  by_cases hclosed : m.closed = true
  · rw [if_pos hclosed, if_pos ((hR.closed h).trans hclosed)]
    exact ⟨rfl, .fail h _⟩
  · have hopen := Bool.eq_false_iff.2 hclosed
    have hdeclared := hR.declare s h hopen
    have hdeclare' : m'.globals.declare s = m.globals.declare s := by
      rw [hR.globals h]
    rw [if_neg hclosed, if_neg (by rwa [hR.closed h]), hdeclare']
    cases hdeclare : m.globals.declare s with
    | mk answer globals =>
        rw [hdeclare] at hdeclared hdeclare'
        cases answer with
        | error f => exact ⟨rfl, .fail hdeclared _⟩
        | ok declared =>
            -- giving the global up again brings back the machines as they were
            have hundone : R vs
                (if declared.fresh then { m with globals := globals.undeclare s }
                  else { m with globals := globals })
                (if declared.fresh then { m' with globals := globals.undeclare s }
                  else { m' with globals := globals }) := by
              rw [giveUp_eq hdeclare, giveUp_eq hdeclare']
              exact h
            dsimp only
            rw [hlower _ _ hdeclared]
            cases lower { m with globals := globals } with
            | error e => exact ⟨rfl, .fail hundone e⟩
            | ok l =>
                dsimp only
                rw [compileDefinition_eq, compileDefinition_eq]
                dsimp only
                cases hcode : (l.generateDefinition globals.slot? s).code with
                | error f => exact ⟨rfl, .fail hundone _⟩
                | ok is =>
                    have hinstalls := hR.installs hdeclared hopen "define"
                      (.definition hcode)
                    refine ⟨rfl, ?_, hinstalls.machine, fun e hok => ?_⟩
                    · dsimp only [Machine.install]
                      rw [hR.code h]
                    · cases hok
                      exact hinstalls.entry _ rfl

theorem entryHandle (hR : Congruence E R) (h : R vs m m')
    (hopen : m.closed = false) {entry : Nat} (hentry : E m.code m.globals entry) :
    Linked R nothing (m.entryHandle entry) (m'.entryHandle entry) := by
  obtain ⟨hsame, hclosure⟩ := hR.closure h hopen hentry
  unfold Machine.entryHandle
  dsimp only
  rw [hsame]
  exact hR.addHandle hclosure List.mem_cons_self

theorem compile (hR : Congruence E R) (h : R vs m m') (e : Expr) :
    Linked R nothing (m.compile e) (m'.compile e) := by
  unfold Machine.compile
  rw [hR.lower h]
  cases m.lower e with
  | error f => exact hR.refuse h f
  | ok l =>
      refine hR.whenFramed h fun _ => ?_
      obtain ⟨_, hanswer, hmachine, hentry⟩ := hR.compileEntry h l
      generalize m.compileEntry l = r at *
      generalize m'.compileEntry l = r' at *
      obtain ⟨⟨tree, answer⟩, after⟩ := r
      obtain ⟨⟨tree', answer'⟩, after'⟩ := r'
      dsimp only at hanswer hmachine hentry
      subst hanswer
      cases answer' with
      | error f => exact hR.refuse hmachine f
      | ok entry =>
          obtain ⟨hopen, hrun⟩ := hentry entry rfl
          exact hR.entryHandle hmachine hopen hrun

theorem define (hR : Congruence E R) (h : R vs m m') (s : Symbol) (e : Expr) :
    Linked R nothing (m.define s e) (m'.define s e) := by
  refine hR.whenFramed h fun _ => ?_
  obtain ⟨_, hanswer, hmachine, hentry⟩ := hR.defineEntryWith h s id
    (fun m => Lir.lower m.globals.isDeclared e)
    fun m m' h => by rw [hR.globals h]
  unfold Machine.defineExpr
  generalize m.defineEntryWith s id _ = r at *
  generalize m'.defineEntryWith s id _ = r' at *
  obtain ⟨tree, answer, after⟩ := r
  obtain ⟨tree', answer', after'⟩ := r'
  dsimp only at hanswer hmachine hentry
  subst hanswer
  cases answer' with
  | error f => exact hR.refuse hmachine f
  | ok entry =>
      obtain ⟨hopen, hrun⟩ := hentry entry rfl
      exact hR.entryHandle hmachine hopen hrun

theorem runEntry (hR : Congruence E R) (h : R vs m m') {entry : Int}
    (hentry : E m.code m.globals entry) :
    Linked R (fun v => [v]) (m.runEntry entry) (m'.runEntry entry) := by
  refine hR.whenOpen h fun hopen => ?_
  obtain ⟨hsame, hclosure⟩ := hR.closure h hopen hentry
  dsimp only
  rw [hsame]
  exact hR.run hclosure hopen List.mem_cons_self fun _ hw =>
    absurd hw List.not_mem_nil

/-- The values of several handles can be taken in hand. -/
theorem handleValues (hR : Congruence E R) (h : R vs m m')
    (hopen : m.closed = false) (fns : List Handle) :
    m'.handleValues fns = m.handleValues fns ∧
      ∀ ws, m.handleValues fns = .ok ws → R (ws ++ vs) m m' := by
  induction fns with
  | nil => exact ⟨rfl, fun ws hws => by cases hws; exact h⟩
  | cons fn rest ih =>
      unfold Machine.handleValues
      rw [hR.handles h, ih.1]
      cases hget : m.handles.get fn with
      | error f => exact ⟨rfl, fun _ hws => by cases hws⟩
      | ok v =>
          cases hrest : m.handleValues rest with
          | error f => exact ⟨rfl, fun _ hws => by cases hws⟩
          | ok ws =>
              refine ⟨rfl, fun _ hws => ?_⟩
              cases hws
              exact hR.handle (ih.2 ws hrest) hopen (mem_values_of_get hget)

theorem call (hR : Congruence E R) (h : R vs m m') (fn : Handle)
    (args : List Handle) : Linked R nothing (m.call fn args) (m'.call fn args) := by
  refine hR.whenOpen h fun hopen => ?_
  obtain ⟨hsame, hargs⟩ := hR.handleValues h hopen args
  rw [hR.handles h, hsame]
  cases hget : m.handles.get fn with
  | error f => exact hR.refuse h f
  | ok callee =>
      dsimp only
      split
      · exact hR.refuse h _
      · cases hvalues : m.handleValues args with
        | error f => exact hR.refuse h f
        | ok ws =>
            have hready := hR.handle (hargs ws hvalues) hopen
              (mem_values_of_get hget)
            have hrun := hR.run hready hopen List.mem_cons_self fun w hw =>
              List.mem_cons_of_mem callee (List.mem_append_left vs hw)
            rcases hrun.cases with ⟨f, _, _, hr, hr', hmachine⟩ |
              ⟨v, _, _, hr, hr', hmachine⟩
            · simp only [hr, hr']
              exact hR.refuse hmachine f
            · simp only [hr, hr']
              exact hR.addHandle hmachine List.mem_cons_self

/-- A tuple of values in hand is in hand as well. -/
theorem allocTuple (hR : Congruence E R) (h : R vs m m') {ws : List Value}
    (hws : ∀ w ∈ ws, w ∈ vs) :
    Linked R (fun t => t :: vs) (m.allocTuple ws) (m'.allocTuple ws) := by
  refine hR.whenOpen h fun hopen => ?_
  cases hfind : ws.find? fun v => !v.kind.isPublic with
  | some v => exact hR.refuse h _
  | none =>
      dsimp only
      split
      · exact hR.refuse h _
      · obtain ⟨hsize, halloc⟩ := hR.tuple ws h hopen fun w hw => by
          have hpublic := List.find?_eq_none.1 hfind w hw
          exact ⟨hws w hw, by simpa using hpublic⟩
        refine ⟨?_, halloc⟩
        rw [Heap.fst_alloc, Heap.fst_alloc, hsize]

theorem newTuple (hR : Congruence E R) (h : R vs m m') {ws : List Value}
    (hws : ∀ w ∈ ws, w ∈ vs) :
    Linked R nothing (m.newTuple ws) (m'.newTuple ws) := by
  refine hR.whenFramed h fun _ => ?_
  rcases (hR.allocTuple h hws).cases with ⟨f, _, _, hr, hr', hmachine⟩ |
    ⟨t, _, _, hr, hr', hmachine⟩
  · rw [hr, hr']
    exact hR.refuse hmachine f
  · rw [hr, hr']
    exact hR.addHandle hmachine List.mem_cons_self

theorem closes (hR : Congruence E R) (h : R vs m m') :
    Linked R nothing m.close m'.close := by
  have hclose := hR.close h
  refine ⟨?_, ?_⟩
  · rw [Machine.close, Machine.close, Machine.whenOpen, Machine.whenOpen, hR.closed h]
    split <;> rfl
  · cases m.close.1 <;> exact hclose

end Congruence

end Zinc.Machine
