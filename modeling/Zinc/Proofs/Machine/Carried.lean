import Zinc.Proofs.Handle
import Zinc.Proofs.Machine.Congruence

/-!
What every operation leaves alone for the host: the code that is there, the handles that
are open and the objects that they lead to.  Each operation of the machine, other than
closing a frame or the machine itself, appends code, adds handles, and keeps whatever the
handles hold; and a handle that it answers with has a value from then on.
-/

namespace Zinc.Machine

/-- The host finds all that it could use in the first machine again in the second. -/
structure Carried (m m' : Machine) : Prop where
  code : m.code.bytes.toList <+: m'.code.bytes.toList
  handles : m.handles.Extends m'.handles
  tidy : m.heap.Tidy → m'.heap.Tidy
  heap : m.heap.Tidy → Heap.Keeps m.handles.values m.heap m'.heap

variable {m m' m'' : Machine}

theorem Carried.refl (m : Machine) : m.Carried m :=
  ⟨List.prefix_refl _, .refl _, fun h => h, fun _ => .refl _ _⟩

theorem Carried.trans (hfirst : m.Carried m') (hsecond : m'.Carried m'') :
    m.Carried m'' where
  code := hfirst.code.trans hsecond.code
  handles := hfirst.handles.trans hsecond.handles
  tidy htidy := hsecond.tidy (hfirst.tidy htidy)
  heap htidy :=
    (hfirst.heap htidy).trans
      ((hsecond.heap (hfirst.tidy htidy)).mono fun _ => hfirst.handles.mem_values)

theorem Grown.carried (h : m.Grown m') : m.Carried m' where
  code := h.code
  handles := h.handles ▸ .refl _
  tidy := h.tidy
  heap htidy := (h.heap htidy).mono fun _ => List.mem_append_left _

theorem Restored.carried (h : m.Restored m') : m.Carried m' where
  code := h.code ▸ List.prefix_refl _
  handles := h.handles ▸ .refl _
  tidy := h.tidy
  heap htidy := (h.heap htidy).mono fun _ => List.mem_append_left _

theorem Carried.ofHandles {handles : HandleStack} (hext : m.handles.Extends handles) :
    m.Carried { m with handles := handles } :=
  ⟨List.prefix_refl _, hext, fun h => h, fun _ => .refl _ _⟩

theorem Carried.ofSaved (m : Machine) (saved : Array Global) :
    m.Carried { m with saved := saved } :=
  ⟨List.prefix_refl _, .refl _, fun h => h, fun _ => .refl _ _⟩

theorem carried_pushFrame (m : Machine) : m.Carried m.pushFrame.2 := by
  rw [pushFrame, whenOpen]
  split
  · exact .refl m
  · split
    · exact .refl m
    · rename_i hpush
      exact .ofHandles (HandleStack.extends_pushFrame hpush)

theorem carried_collect (m : Machine) : m.Carried m.collect.2 := by
  rw [collect, whenOpen]
  split
  · exact .refl m
  · exact m.evaluated_collectGarbage.grown.carried

/-- The second machine differs from the first by new objects only. -/
inductive Allocated (m : Machine) : Machine → Prop where
  | intro (heap : Heap) : m.heap.Grows heap → Allocated m { m with heap := heap }

theorem Allocated.refl (m : Machine) : m.Allocated m :=
  .intro m.heap (.refl _)

theorem Allocated.trans (hfirst : m.Allocated m') (hsecond : m'.Allocated m'') :
    m.Allocated m'' := by
  obtain ⟨heap, hgrows⟩ := hfirst
  obtain ⟨heap', hgrows'⟩ := hsecond
  exact .intro heap' (hgrows.trans hgrows')

theorem Allocated.closed (h : m.Allocated m') : m'.closed = m.closed := by
  obtain ⟨_, _⟩ := h
  rfl

theorem Allocated.carried (h : m.Allocated m') : m.Carried m' := by
  obtain ⟨heap, hgrows⟩ := h
  exact ⟨List.prefix_refl _, .refl _, hgrows.tidy, fun _ => hgrows.keeps _⟩

theorem allocated_topClosure (m : Machine) (entry : Int) :
    m.Allocated (m.topClosure entry).2 :=
  .intro _ (.alloc _ _ (.refl _))

theorem allocated_allocTuple (m : Machine) (fields : List Value) :
    m.Allocated (m.allocTuple fields).2 := by
  rw [allocTuple, whenOpen]
  split
  · exact .refl m
  · split
    · exact .refl m
    · split
      · exact .refl m
      · exact .intro _ (.alloc _ _ (.refl _))

mutual

/-- Taking over a host value allocates tuples and does nothing else. -/
theorem allocated_ofHost : (x : HostValue) → (m : Machine) →
    m.Allocated (ofHost x m).2
  | .int t n, m => by
      rw [ofHost]
      split <;> exact .refl m
  | .bool b, m | .handle fn, m | .any none, m | .ptr elem none, m
  | .address n, m | .string s, m | .float, m | .func, m | .map k v, m => by
      rw [ofHost]
      exact .refl m
  | .any (some x), m | .ptr elem (some x), m => by
      rw [ofHost]
      exact allocated_ofHost x m
  | .slice elem items, m | .array elem items, m => by
      have hitems := allocated_ofItems 0 items m
      rw [ofHost]
      split
      · rename_i heq
        rwa [heq] at hitems
      · rename_i heq
        rw [heq] at hitems
        exact hitems.trans (allocated_allocTuple _ _)
  | .struct fields values, m => by
      have hfields := allocated_ofFields fields values m
      rw [ofHost]
      split
      · rename_i heq
        rwa [heq] at hfields
      · rename_i heq
        rw [heq] at hfields
        exact hfields.trans (allocated_allocTuple _ _)

theorem allocated_ofItems (i : Nat) : (items : List HostValue) → (m : Machine) →
    m.Allocated (ofItems i items m).2
  | [], m => .refl m
  | item :: rest, m => by
      have hitem : m.Allocated
          (inPart ("element " ++ toString i) (ofHost item m)).2 :=
        allocated_ofHost item m
      rw [ofItems]
      split
      · rename_i heq
        rwa [heq] at hitem
      · rename_i v m' heq
        rw [heq] at hitem
        have hrest := hitem.trans (allocated_ofItems (i + 1) rest m')
        split
        · rename_i heq
          rwa [heq] at hrest
        · rename_i heq
          rwa [heq] at hrest

theorem allocated_ofFields : (fields : FieldTypes) → (values : List HostValue) →
    (m : Machine) → m.Allocated (ofFields fields values m).2
  | .cons name type fields, value :: rest, m => by
      have hvalue : m.Allocated (inPart ("field " ++ name) (ofHost value m)).2 :=
        allocated_ofHost value m
      rw [ofFields]
      split
      · split
        · rename_i heq
          rwa [heq] at hvalue
        · rename_i v m' heq
          rw [heq] at hvalue
          have hrest := hvalue.trans (allocated_ofFields fields rest m')
          split
          · rename_i heq
            rwa [heq] at hrest
          · rename_i heq
            rwa [heq] at hrest
      · exact allocated_ofFields fields rest m
  | .nil, values, m => by
      rw [ofFields]
      · exact .refl m
      · exact fun _ _ _ _ _ h => by cases h
  | .cons name type fields, [], m => by
      rw [ofFields]
      · exact .refl m
      · exact fun _ _ _ _ _ _ h => by cases h

end

/-- A handle that the machine has a value for. -/
def Resolves (m : Machine) (h : Handle) : Prop :=
  m.closed = false ∧ ∃ v, m.handles.get h = .ok v

/-- An operation carries the machine on, and a handle that it answers with has a
value. -/
structure Issued {ε : Type} (m : Machine) (r : Except ε Handle × Machine) : Prop where
  carried : m.Carried r.2
  resolves : ∀ h, r.1 = .ok h → r.2.Resolves h

variable {ε : Type} {r : Except ε Handle × Machine}

theorem Issued.refuse (h : m.Carried m') (e : ε) : Issued m (.error e, m') :=
  ⟨h, fun _ heq => by cases heq⟩

theorem Issued.after (hfirst : m.Carried m') (hr : Issued m' r) : Issued m r :=
  ⟨hfirst.trans hr.carried, hr.resolves⟩

theorem issued_addHandle (hopen : m.closed = false) (v : Value) :
    Issued m (m.addHandle v) := by
  rw [addHandle]
  split
  · exact .refuse (.refl m) _
  · rename_i hadd
    refine ⟨.ofHandles (HandleStack.extends_add hadd), fun fn hfn => ?_⟩
    cases hfn
    exact ⟨hopen, v, HandleStack.get_add hadd⟩

theorem issued_whenOpen (op : String) {k : Machine → Reply Handle}
    (hk : m.closed = false → Issued m (k m)) : Issued m (m.whenOpen op k) := by
  rw [whenOpen]
  split
  · exact .refuse (.refl m) _
  · rename_i hopen
    exact hk (Bool.eq_false_iff.2 hopen)

theorem issued_whenFramed (op : String) {k : Machine → Reply Handle}
    (hk : m.closed = false → Issued m (k m)) : Issued m (m.whenFramed op k) := by
  refine issued_whenOpen op fun hopen => ?_
  split
  · exact .refuse (.refl m) _
  · exact hk hopen

theorem issued_newHandle (m : Machine) (v : Value) : Issued m (m.newHandle v) :=
  issued_whenOpen _ fun hopen => issued_addHandle hopen v

theorem issued_newTuple (m : Machine) (fields : List Value) :
    Issued m (m.newTuple fields) := by
  refine issued_whenFramed _ fun hopen => ?_
  have halloc := m.allocated_allocTuple fields
  split
  · rename_i heq
    rw [heq] at halloc
    exact .refuse halloc.carried _
  · rename_i heq
    rw [heq] at halloc
    exact .after halloc.carried (issued_addHandle (halloc.closed.trans hopen) _)

theorem issued_entryHandle (hopen : m.closed = false) (entry : Nat) :
    Issued m (m.entryHandle entry) := by
  have halloc := m.allocated_topClosure entry
  exact .after halloc.carried (issued_addHandle (halloc.closed.trans hopen) _)

theorem issued_compile (m : Machine) (e : Expr) : Issued m (m.compile e) := by
  rw [compile]
  split
  · exact .refuse (.refl m) _
  · rename_i l _
    refine issued_whenFramed _ fun hopen => ?_
    have hgrown := m.grown_compileEntry l
    split
    · rename_i heq
      rw [heq] at hgrown
      exact .refuse hgrown.carried _
    · rename_i heq
      rw [heq] at hgrown
      exact .after hgrown.carried (issued_entryHandle (hgrown.closed.trans hopen) _)

theorem issued_define (m : Machine) (s : Symbol) (e : Expr) :
    Issued m (m.define s e) := by
  refine issued_whenFramed _ fun hopen => ?_
  have hgrown := m.grown_defineEntryWith s id fun m => Lir.lower m.globals.isDeclared e
  rw [defineExpr]
  split
  · rename_i heq
    rw [heq] at hgrown
    exact .refuse hgrown.carried _
  · rename_i heq
    rw [heq] at hgrown
    exact .after hgrown.carried (issued_entryHandle (hgrown.closed.trans hopen) _)

/-- Whatever comes of an evaluation, the host keeps what it had. -/
theorem issued_call (m : Machine) (fn : Handle) (args : List Handle) :
    Issued m (m.call fn args) := by
  refine issued_whenOpen _ fun hopen => ?_
  split
  · exact .refuse (.refl m) _
  · rename_i callee _
    split
    · exact .refuse (.refl m) _
    · split
      · exact .refuse (.refl m) _
      · rename_i vs _
        have hrun := (m.evaluated_run callee vs).grown
        split
        · rename_i heq
          rw [heq] at hrun
          exact .refuse hrun.carried _
        · rename_i heq
          rw [heq] at hrun
          exact .after hrun.carried (issued_addHandle (hrun.closed.trans hopen) _)

variable {h : Handle} {v : Value}

theorem Resolves.carried (hresolves : m.Resolves h) (hcarried : m.Carried m')
    (hclosed : m'.closed = m.closed) : m'.Resolves h := by
  obtain ⟨hopen, v, hget⟩ := hresolves
  exact ⟨hclosed.trans hopen, v, hcarried.handles.get hget⟩

theorem newHandle_closed (m : Machine) (v : Value) :
    (m.newHandle v).2.closed = m.closed := by
  rw [newHandle, whenOpen, addHandle]
  split
  · rfl
  · split <;> rfl

/-- What a host held by a handle on the machine `start` is there, as it was. -/
structure Held (start : Machine) (h : Handle) (v : Value) (m : Machine) : Prop where
  value : m.handles.get h = .ok v
  code : start.code.bytes.toList <+: m.code.bytes.toList
  tidy : m.heap.Tidy
  heap : Heap.Keeps [v] start.heap m.heap

variable {start : Machine}

theorem Held.carried (hheld : Held start h v m) (hcarried : m.Carried m') :
    Held start h v m' where
  value := hcarried.handles.get hheld.value
  code := hheld.code.trans hcarried.code
  tidy := hcarried.tidy hheld.tidy
  heap := by
    have hrooted : v ∈ m.handles.values := Congruence.mem_values_of_get hheld.value
    refine hheld.heap.trans ((hcarried.heap hheld.tidy).mono fun u hu => ?_)
    rw [List.mem_singleton.1 hu]
    exact hrooted

theorem popFrame_cases (m : Machine) : m.popFrame.2 = m ∨
    ∃ handles, m.handles.popFrame = .ok handles ∧
      m.popFrame.2 = { m with handles := handles } := by
  rw [popFrame, whenOpen]
  split
  · exact Or.inl rfl
  · split
    · exact Or.inl rfl
    · rename_i handles hpop
      exact Or.inr ⟨handles, hpop, rfl⟩

/-- Closing a frame above the handle changes nothing for it. -/
theorem Held.popFrame (hheld : Held start h v m)
    (hframe : h.frame < m.popFrame.2.handles.depth) :
    Held start h v m.popFrame.2 := by
  rcases m.popFrame_cases with heq | ⟨handles, hpop, heq⟩
  · rwa [heq]
  · rw [heq] at hframe ⊢
    exact ⟨HandleStack.get_popFrame hpop hframe hheld.value, hheld.code, hheld.tidy,
      hheld.heap⟩

end Zinc.Machine
