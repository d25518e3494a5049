import Mathlib.Data.List.Forall2
import Zinc.Proofs.Machine.Moved
import Zinc.Session

/-!
Host values that go over to a machine and come back.  A plain type is one of integers, truth
values, slices and records that can be seen whole.  Its values become machine values that
read back as they were, however the heap grows later on; only an unsigned integer beyond the
machine's integers is refused.  The conversions in the two directions meet at what a machine
value reads as: one makes values that read as the host value, the other reads them.
-/

namespace Zinc

namespace IntType

/-- An integer of a type that is signed, or that is not too great, is one of the machine's. -/
theorem toInt_ofInt {t : IntType} {n : Int} (hholds : t.holds n = true)
    (hfits : t.isSigned = true ∨ n ≤ int64.greatest) : (Int64.ofInt n).toInt = n := by
  have hrange : -2 ^ 63 ≤ n ∧ n < 2 ^ 63 := by
    cases t <;> simp_all [holds, least, greatest, half, isSigned] <;> omega
  exact Int64.toInt_ofInt_of_le hrange.1 hrange.2

end IntType

mutual

/-- Whether a type is made of integers, truth values, slices, and records all of whose fields
can be seen. -/
def HostType.isPlain : HostType → Bool
  | .int _ | .bool => true
  | .slice elem => elem.isPlain
  | .struct fields => fields.isPlain
  | _ => false

/-- Whether all fields can be seen and are of plain types. -/
def FieldTypes.isPlain : FieldTypes → Bool
  | .nil => true
  | .cons name type rest => isExported name && type.isPlain && rest.isPlain

end

mutual

/-- The values of a plain type. -/
def HostType.Has : HostType → HostValue → Prop
  | .int t, .int t' n => t' = t ∧ t.holds n = true
  | .bool, .bool _ => True
  | .slice elem, .slice elem' items => elem' = elem ∧ ∀ x ∈ items, elem.Has x
  | .struct fields, .struct fields' values => fields' = fields ∧ fields.Have values
  | _, _ => False

/-- The values of the fields of a record of plain types. -/
def FieldTypes.Have : FieldTypes → List HostValue → Prop
  | .nil, [] => True
  | .cons _ type rest, x :: values => type.Has x ∧ rest.Have values
  | _, _ => False

end

namespace HostValue

/-- The values that a slice or a record is made of. -/
def items : HostValue → List HostValue
  | .slice _ items => items
  | .struct _ values => values
  | _ => []

/-- The first value is the second one or somewhere inside it. -/
inductive PartOf (y : HostValue) : HostValue → Prop where
  | self : PartOf y y
  | inside {x z : HostValue} : PartOf y z → z ∈ x.items → PartOf y x

/-- An unsigned integer in the value is greater than the machine's integers. -/
def Overflows (x : HostValue) : Prop :=
  ∃ t n, (HostValue.int t n).PartOf x ∧ t.isSigned = false ∧ IntType.int64.greatest < n

/-- No slice and no record in the value has more items than an object has slots. -/
def Narrow (x : HostValue) : Prop :=
  ∀ y : HostValue, y.PartOf x → y.items.length ≤ maxObjectSlots

variable {x y z : HostValue}

theorem partOf_iff : y.PartOf x ↔ y = x ∨ ∃ z ∈ x.items, y.PartOf z := by
  constructor
  · intro h
    cases h with
    | self => exact Or.inl rfl
    | inside hpart hz => exact Or.inr ⟨_, hz, hpart⟩
  · rintro (rfl | ⟨z, hz, hpart⟩)
    · exact .self
    · exact .inside hpart hz

theorem narrow_iff : x.Narrow ↔ x.items.length ≤ maxObjectSlots ∧ ∀ z ∈ x.items, z.Narrow := by
  constructor
  · intro h
    exact ⟨h x .self, fun z hz y hy => h y (.inside hy hz)⟩
  · rintro ⟨hsize, hitems⟩ y hy
    rcases partOf_iff.1 hy with rfl | ⟨z, hz, hpart⟩
    · exact hsize
    · exact hitems z hz y hpart

@[simp] theorem overflows_int {t : IntType} {n : Int} :
    (HostValue.int t n).Overflows ↔ t.isSigned = false ∧ IntType.int64.greatest < n := by
  constructor
  · rintro ⟨t', n', hpart, hover⟩
    rcases partOf_iff.1 hpart with heq | ⟨z, hz, _⟩
    · cases heq
      exact hover
    · exact absurd hz List.not_mem_nil
  · intro hover
    exact ⟨t, n, .self, hover⟩

/-- A value that is not an integer overflows where one of its items does. -/
theorem overflows_iff (hint : ∀ t n, x ≠ .int t n) :
    x.Overflows ↔ ∃ z ∈ x.items, z.Overflows := by
  constructor
  · rintro ⟨t, n, hpart, hover⟩
    rcases partOf_iff.1 hpart with heq | ⟨z, hz, hinside⟩
    · exact absurd heq.symm (hint t n)
    · exact ⟨z, hz, t, n, hinside, hover⟩
  · rintro ⟨z, hz, t, n, hpart, hover⟩
    exact ⟨t, n, .inside hpart hz, hover⟩

section

variable {t : IntType} {n : Int} {b : Bool} {elem : HostType} {fields : FieldTypes}
  {items values : List HostValue}

@[simp] theorem overflows_bool : ¬ (bool b).Overflows := by
  simp [overflows_iff (x := bool b) nofun, HostValue.items]

@[simp] theorem overflows_slice :
    (slice elem items).Overflows ↔ ∃ z ∈ items, z.Overflows :=
  overflows_iff nofun

@[simp] theorem overflows_struct :
    (struct fields values).Overflows ↔ ∃ z ∈ values, z.Overflows :=
  overflows_iff nofun

@[simp] theorem narrow_int : (int t n).Narrow := by
  simp [narrow_iff (x := int t n), HostValue.items]

@[simp] theorem narrow_bool : (bool b).Narrow := by
  simp [narrow_iff (x := bool b), HostValue.items]

@[simp] theorem narrow_slice : (slice elem items).Narrow ↔
    items.length ≤ maxObjectSlots ∧ ∀ z ∈ items, z.Narrow :=
  narrow_iff

@[simp] theorem narrow_struct : (struct fields values).Narrow ↔
    values.length ≤ maxObjectSlots ∧ ∀ z ∈ values, z.Narrow :=
  narrow_iff

end

end HostValue

theorem HostType.Has.type {t : HostType} {x : HostValue} (h : t.Has x) :
    x.type = t ∧ t ≠ .any := by
  cases t <;> cases x <;> simp_all [HostType.Has, HostValue.type]

namespace Machine

/-- Storing a value of a plain type in a variable of that type. -/
theorem stored_of_has {t : HostType} {x : HostValue} (h : t.Has x) : stored x t = .ok x := by
  rw [stored, if_neg h.type.2, if_pos h.type.1]

/-- The machine value is one that a host may see, and it reads as the host value, in the heap
and in all that the heap grows to. -/
structure ReadsAs (h : Heap) (t : HostType) (v : Value) (x : HostValue) : Prop where
  isPublic : v.kind.isPublic = true
  reads : ∀ h', h.Grows h' → ∀ depth, h.cells.size ≤ depth →
    toHost h' depth v (some t) = .ok (some x)

/-- The machine values read as the fields of a record, one each. -/
structure FieldsRead (h : Heap) (fields : FieldTypes) (vs : List Value)
    (values : List HostValue) : Prop where
  isPublic : ∀ v ∈ vs, v.kind.isPublic = true
  length_eq : vs.length = values.length
  reads : ∀ h', h.Grows h' → ∀ depth, h.cells.size ≤ depth → ∀ tooFew,
    hostFields (fun v t => toHost h' depth v (some t)) tooFew fields vs = .ok (values, [])

variable {h h' : Heap} {t elem : HostType} {v : Value} {x : HostValue} {vs : List Value}
  {items values : List HostValue} {fields : FieldTypes} {m : Machine}

theorem ReadsAs.grow (hv : ReadsAs h t v x) (hgrows : h.Grows h') : ReadsAs h' t v x where
  isPublic := hv.isPublic
  reads h'' hlater depth hdepth :=
    hv.reads h'' (hgrows.trans hlater) depth (Nat.le_trans hgrows.size_le hdepth)

theorem FieldsRead.cons {name : String} (hfields : FieldsRead h fields vs values)
    (hname : isExported name = true) (hv : ReadsAs h t v x) (hx : t.Has x) :
    FieldsRead h (.cons name t fields) (v :: vs) (x :: values) where
  isPublic := List.forall_mem_cons.2 ⟨hv.isPublic, hfields.isPublic⟩
  length_eq := congrArg (· + 1) hfields.length_eq
  reads h' hgrows depth hdepth tooFew := by
    rw [hostFields, if_pos hname]
    simp only [hv.reads h' hgrows depth hdepth, Except.mapError,
      hfields.reads h' hgrows depth hdepth tooFew]
    change (do
      let kept ← stored x t
      pure (kept :: values, []) : Except Failure _) = _
    rw [stored_of_has hx]
    rfl

/-- What taking over a host value comes to: it is refused when `overflows`, and otherwise
gives something that is `good` in the heap that it leaves. -/
inductive Converts {α : Type} (overflows : Prop) (good : Heap → α → Prop) :
    Conversion α → Prop where
  | refused {e : Failure} {m : Machine} : overflows → Converts overflows good (.error e, m)
  | taken {a : α} {m : Machine} :
      ¬ overflows → good m.heap a → Converts overflows good (.ok a, m)

theorem Converts.inPart {α : Type} {overflows : Prop} {good : Heap → α → Prop}
    {r : Conversion α} (h : Converts overflows good r) (part : String) :
    Converts overflows good (Machine.inPart part r) := by
  cases h with
  | refused hover => exact .refused hover
  | taken hover hgood => exact .taken hover hgood

theorem readsAs_int {n : Int} {i : IntType} (hholds : i.holds n = true)
    (hfits : i.isSigned = true ∨ n ≤ IntType.int64.greatest) :
    ReadsAs h (.int i) (.int (Int64.ofInt n)) (.int i n) where
  isPublic := rfl
  reads h' _ depth _ := by
    unfold toHost
    simp [Value.kind, Value.asInt, IntType.toInt_ofInt hholds hfits, hostInteger, hholds,
      Except.map]

theorem readsAs_bool (b : Bool) :
    ReadsAs h .bool (.int (if b then 1 else 0)) (.bool b) where
  isPublic := rfl
  reads h' _ depth _ := by
    unfold toHost
    cases b <;> simp [Value.kind, Value.asInt, hostInteger, Except.map]

/-- A tuple of public values is allocated when it is not too large. -/
theorem tupleOf_eq (hopen : m.closed = false) (hpublic : ∀ v ∈ vs, v.kind.isPublic = true)
    (hsize : vs.length ≤ maxObjectSlots) :
    ofHost.tupleOf vs m =
      (.ok (.ref .tuple m.heap.cells.size),
        { m with heap := (m.heap.alloc .tuple vs.toArray).2 }) := by
  have hfind : vs.find? (fun v => !v.kind.isPublic) = none := by
    simpa [List.find?_eq_none] using hpublic
  rw [ofHost.tupleOf, allocTuple, whenOpen, if_neg (by simp [hopen]), hfind]
  simp only [if_neg (Nat.not_lt.2 hsize), Heap.fst_alloc]
  rfl

/-- The fields of a tuple stay what it was made of. -/
theorem fieldsOf_alloc (hgrows : (h.alloc .tuple vs.toArray).2.Grows h') :
    h'.fieldsOf (.ref .tuple h.cells.size) = vs := by
  have hcell := hgrows.cell (Heap.cells_alloc_self h .tuple vs.toArray)
  simp [Heap.fieldsOf, Heap.fields, Value.address?, hcell]

theorem hostItems_of_reads {convert : Value → Except Failure (Option HostValue)}
    (hreads : List.Forall₂ (fun v x => convert v = .ok (some x)) vs items) (i : Nat) :
    hostItems convert i vs = .ok items := by
  induction hreads generalizing i with
  | nil => rfl
  | cons hv _ ih =>
      rw [hostItems, hv, ih]
      rfl

theorem mapM_stored (hhas : ∀ x ∈ items, elem.Has x) :
    items.mapM (stored · elem) = .ok items := by
  induction items with
  | nil => rfl
  | cons x rest ih =>
      rw [List.mapM_cons, stored_of_has (hhas x List.mem_cons_self),
        ih fun y hy => hhas y (List.mem_cons_of_mem _ hy)]
      rfl

/-- A tuple of values that read as the items of a slice reads as the slice. -/
theorem readsAs_slice (hitems : List.Forall₂ (ReadsAs h elem) vs items)
    (hhas : ∀ x ∈ items, elem.Has x) :
    ReadsAs (h.alloc .tuple vs.toArray).2 (.slice elem) (.ref .tuple h.cells.size)
      (.slice elem items) where
  isPublic := rfl
  reads h' hgrows depth hdepth := by
    rw [Heap.size_alloc] at hdepth
    obtain ⟨depth, rfl⟩ : ∃ d, depth = d + 1 := ⟨depth - 1, by omega⟩
    have hlater : h.Grows h' := (Heap.Grows.alloc _ _ (.refl h)).trans hgrows
    have hread := hostItems_of_reads
      (hitems.imp fun v x hv => hv.reads h' hlater depth (Nat.le_of_succ_le_succ hdepth)) 0
    unfold toHost
    simp only [Value.kind, fieldsOf_alloc hgrows, hread]
    change (do
      let kept ← items.mapM (stored · elem)
      pure (some (HostValue.slice elem kept)) : Except Failure _) = _
    rw [mapM_stored hhas]
    rfl

/-- A tuple of values that read as the fields of a record reads as the record. -/
theorem readsAs_struct (hfields : FieldsRead h fields vs values) :
    ReadsAs (h.alloc .tuple vs.toArray).2 (.struct fields) (.ref .tuple h.cells.size)
      (.struct fields values) where
  isPublic := rfl
  reads h' hgrows depth hdepth := by
    rw [Heap.size_alloc] at hdepth
    obtain ⟨depth, rfl⟩ : ∃ d, depth = d + 1 := ⟨depth - 1, by omega⟩
    have hlater : h.Grows h' := (Heap.Grows.alloc _ _ (.refl h)).trans hgrows
    unfold toHost
    simp only [Value.kind, fieldsOf_alloc hgrows, hostRecord,
      hfields.reads h' hlater depth (Nat.le_of_succ_le_succ hdepth)]
    rfl

/-- Converting items one after the other, if each item converts. -/
theorem converts_items
    (hitem : ∀ x, elem.Has x → x.Narrow → ∀ m : Machine, m.closed = false →
      Converts x.Overflows (fun h v => ReadsAs h elem v x) (ofHost x m))
    (hhas : ∀ x ∈ items, elem.Has x) (hnarrow : ∀ x ∈ items, x.Narrow) (i : Nat)
    (hopen : m.closed = false) :
    Converts (∃ x ∈ items, x.Overflows)
      (fun h vs => List.Forall₂ (ReadsAs h elem) vs items) (ofItems i items m) := by
  induction items generalizing i m with
  | nil =>
      rw [ofItems]
      exact .taken (by simp) .nil
  | cons x rest ih =>
      have hhead := (hitem x (hhas x List.mem_cons_self) (hnarrow x List.mem_cons_self) m
        hopen).inPart ("element " ++ toString i)
      have hopen' : (inPart ("element " ++ toString i) (ofHost x m)).2.closed = false :=
        (allocated_ofHost x m).closed.trans hopen
      rw [ofItems]
      generalize inPart ("element " ++ toString i) (ofHost x m) = r at hhead hopen' ⊢
      cases hhead with
      | refused hover => exact .refused ⟨x, List.mem_cons_self, hover⟩
      | @taken v m' hover hread =>
          have htail := ih (fun y hy => hhas y (List.mem_cons_of_mem _ hy))
            (fun y hy => hnarrow y (List.mem_cons_of_mem _ hy)) (i + 1) hopen'
          have hgrows : m'.Allocated (ofItems (i + 1) rest m').2 := allocated_ofItems _ rest m'
          dsimp only
          generalize ofItems (i + 1) rest m' = r at htail hgrows ⊢
          cases htail with
          | refused hlater =>
              obtain ⟨y, hy, hover⟩ := hlater
              exact .refused ⟨y, List.mem_cons_of_mem _ hy, hover⟩
          | taken hlater hreads =>
              obtain ⟨heap, hgrows⟩ := hgrows
              refine .taken ?_ (.cons (hread.grow hgrows) hreads)
              rw [List.exists_mem_cons_iff]
              exact not_or.2 ⟨hover, hlater⟩

mutual

/-- A value of a plain type is taken over, and reads as what it was, unless an unsigned
integer in it is too great. -/
theorem converts : (t : HostType) → t.isPlain = true → (x : HostValue) → t.Has x →
    x.Narrow → (m : Machine) → m.closed = false →
    Converts x.Overflows (fun h v => ReadsAs h t v x) (ofHost x m)
  | .int t, _, .int _ n, hhas, _, m, _ => by
      obtain ⟨rfl, hholds⟩ := hhas
      rw [ofHost]
      split
      · rename_i hfits
        refine .taken ?_ (readsAs_int hholds hfits)
        rw [HostValue.overflows_int]
        rintro ⟨hunsigned, hover⟩
        rcases hfits with hsigned | hle
        · exact Bool.noConfusion (hunsigned.symm.trans hsigned)
        · exact absurd hle (Int.not_le.2 hover)
      · rename_i hfits
        refine .refused (HostValue.overflows_int.2 ?_)
        rw [not_or, Bool.not_eq_true, Int.not_le] at hfits
        exact hfits
  | .bool, _, .bool b, _, _, m, _ => by
      rw [ofHost]
      exact .taken HostValue.overflows_bool (readsAs_bool b)
  | .slice elem, hplain, .slice _ items, hhas, hnarrow, m, hopen => by
      obtain ⟨hsame, hhas⟩ := hhas
      obtain ⟨hslots, hnarrow⟩ := HostValue.narrow_slice.1 hnarrow
      have hitems := converts_items (converts elem hplain) hhas hnarrow 0 hopen
      have hopen' : (ofItems 0 items m).2.closed = false :=
        (allocated_ofItems 0 items m).closed.trans hopen
      rw [ofHost, hsame]
      generalize ofItems 0 items m = r at hitems hopen' ⊢
      cases hitems with
      | refused hinside => exact .refused (HostValue.overflows_slice.2 hinside)
      | @taken vs m' hinside hreads =>
          have hpublic : ∀ v ∈ vs, v.kind.isPublic = true :=
            ((List.forall₂_and_left _ _).1
              (hreads.imp fun v x hread => ⟨hread.isPublic, hread⟩)).1
          have hsize : vs.length ≤ maxObjectSlots :=
            hreads.length_eq ▸ hslots
          dsimp only
          rw [tupleOf_eq hopen' hpublic hsize]
          exact .taken (HostValue.overflows_slice.not.2 hinside) (readsAs_slice hreads hhas)
  | .struct fields, hplain, .struct _ values, hhas, hnarrow, m, hopen => by
      obtain ⟨hsame, hhave⟩ := hhas
      obtain ⟨hslots, hnarrow⟩ := HostValue.narrow_struct.1 hnarrow
      have hfields := converts_fields fields hplain values hhave hnarrow m hopen
      have hopen' : (ofFields fields values m).2.closed = false :=
        (allocated_ofFields fields values m).closed.trans hopen
      rw [ofHost, hsame]
      generalize ofFields fields values m = r at hfields hopen' ⊢
      cases hfields with
      | refused hinside => exact .refused (HostValue.overflows_struct.2 hinside)
      | taken hinside hreads =>
          have hsize := hreads.length_eq ▸ hslots
          dsimp only
          rw [tupleOf_eq hopen' hreads.isPublic hsize]
          exact .taken (HostValue.overflows_struct.not.2 hinside) (readsAs_struct hreads)

theorem converts_fields : (fields : FieldTypes) → fields.isPlain = true →
    (values : List HostValue) → fields.Have values → (∀ x ∈ values, x.Narrow) →
    (m : Machine) → m.closed = false →
    Converts (∃ x ∈ values, x.Overflows) (fun h vs => FieldsRead h fields vs values)
      (ofFields fields values m)
  | .nil, _, [], _, _, m, _ => by
      rw [ofFields]
      · refine .taken (by simp) ⟨by simp, rfl, ?_⟩
        intro h' _ depth _ tooFew
        rfl
      · exact nofun
  | .cons name type fields, hplain, x :: rest, hhave, hnarrow, m, hopen => by
      simp only [FieldTypes.isPlain, Bool.and_eq_true] at hplain
      obtain ⟨⟨hname, htype⟩, hplain⟩ := hplain
      obtain ⟨hx, hhave⟩ := hhave
      have hhead := (converts type htype x hx (hnarrow x List.mem_cons_self) m
        hopen).inPart ("field " ++ name)
      have hopen' : (inPart ("field " ++ name) (ofHost x m)).2.closed = false :=
        (allocated_ofHost x m).closed.trans hopen
      rw [ofFields, if_pos hname]
      generalize inPart ("field " ++ name) (ofHost x m) = r at hhead hopen' ⊢
      cases hhead with
      | refused hover => exact .refused ⟨x, List.mem_cons_self, hover⟩
      | @taken v m' hover hread =>
          have htail := converts_fields fields hplain rest hhave
            (fun y hy => hnarrow y (List.mem_cons_of_mem _ hy)) m' hopen'
          have hgrows : m'.Allocated (ofFields fields rest m').2 := allocated_ofFields _ rest m'
          dsimp only
          generalize ofFields fields rest m' = r at htail hgrows ⊢
          cases htail with
          | refused hlater =>
              obtain ⟨y, hy, hover⟩ := hlater
              exact .refused ⟨y, List.mem_cons_of_mem _ hy, hover⟩
          | taken hlater hreads =>
              obtain ⟨heap, hgrows⟩ := hgrows
              refine .taken ?_ (hreads.cons hname (hread.grow hgrows) hx)
              rw [List.exists_mem_cons_iff]
              exact not_or.2 ⟨hover, hlater⟩

end

/-- Where a frame is open and not full, a public value gets a handle that has it. -/
theorem newHandle_of_room (hopen : m.closed = false) (hroom : m.handles.Room 1)
    (hpublic : v.kind.isPublic = true) :
    ∃ h handles, m.newHandle v = (.ok h, { m with handles := handles }) ∧
      Machine.value { m with handles := handles } h = .ok v := by
  obtain ⟨h, handles, hadd⟩ := hroom.exists_add hpublic
  refine ⟨h, handles, ?_, ?_⟩
  · rw [newHandle, whenOpen, if_neg (by simp [hopen]), addHandle, hadd]
  · rw [Machine.value, if_neg (by simp [hopen])]
    exact HandleStack.get_add hadd

end Machine

theorem HostType.Has.not_handle {t : HostType} {x : HostValue} (h : t.Has x) : t ≠ .handle := by
  rintro rfl
  cases x <;> exact h

/-- A value of a plain type is not a handle, and it is itself when it is passed on as a value
of any type. -/
theorem HostType.Has.dynamic {t : HostType} {x : HostValue} (h : t.Has x) :
    x.dynamic? = some x ∧ ∀ k, x ≠ .handle k := by
  cases t <;> cases x <;> simp_all [HostType.Has, HostValue.dynamic?]

namespace Session

variable {s : Session} {t : HostType} {x : HostValue}

theorem marshal_of_has (hx : t.Has x) :
    s.marshal x =
      match Machine.ofHost x s.machine with
      | (.error e, machine) => (.error e, { s with machine })
      | (.ok v, machine) => { s with machine }.onMachine (·.newHandle v) := by
  rw [marshal, hx.dynamic.1]
  cases x with
  | handle k => exact absurd rfl (hx.dynamic.2 k)
  | _ => rfl

/-- Reading a handle into a variable, unless that holds handles itself. -/
theorem unmarshalInto_eq {h : Handle} {v : Value} (hvalue : s.machine.value h = .ok v)
    (ht : t ≠ .handle) (old : HostValue) :
    s.unmarshalInto h (.ptr t (some old)) = .of old (do
      let heap := s.machine.heap
      let y ← Machine.toHost heap (heap.cells.size + 1) v (some t)
      Machine.stored (y.getD (.handle h)) t) := by
  have hother : some t ≠ some HostType.handle := fun heq => ht (Option.some.inj heq)
  change Stored.of old (do
    let y ← s.unmarshalAs h (some t)
    Machine.stored y t) = _
  rw [unmarshalAs, hvalue]
  simp only [Except.mapError, if_neg hother]
  change Stored.of old ((do
    let y ← Machine.toHost s.machine.heap (s.machine.heap.cells.size + 1) v (some t)
    pure (y.getD (.handle h))) >>= (Machine.stored · t)) = _
  cases Machine.toHost s.machine.heap (s.machine.heap.cells.size + 1) v (some t) <;> rfl

/-- A handle whose value reads as a host value of a plain type. -/
theorem unmarshalInto_of_reads {h : Handle} {v : Value} (hvalue : s.machine.value h = .ok v)
    (hread : Machine.ReadsAs s.machine.heap t v x) (hx : t.Has x) (old : HostValue) :
    s.unmarshalInto h (.ptr t (some old)) = ⟨.ok (), x⟩ := by
  rw [unmarshalInto_eq hvalue hx.not_handle]
  dsimp only
  rw [hread.reads _ (.refl _) _ (Nat.le_succ _)]
  exact congrArg (Stored.of old) (Machine.stored_of_has hx)

/-- An integer is stored in a variable of a type that has it, and in no other. -/
theorem unmarshalInto_int {h : Handle} {n : Int64} (hvalue : s.machine.value h = .ok (.int n))
    (t : IntType) (old : HostValue) :
    s.unmarshalInto h (.ptr (.int t) (some old)) =
      if t.holds n.toInt then ⟨.ok (), .int t n.toInt⟩
      else ⟨.error (.message (toString n.toInt ++ " overflows " ++ t.text)), old⟩ := by
  have hread : Machine.toHost s.machine.heap (s.machine.heap.cells.size + 1) (.int n)
      (some (.int t)) = (Machine.hostInteger n.toInt (some (.int t))).map some := by
    unfold Machine.toHost
    rfl
  rw [unmarshalInto_eq hvalue HostType.noConfusion]
  dsimp only
  rw [hread, Machine.hostInteger]
  split
  · rename_i hholds
    have hhas : (HostType.int t).Has (.int t n.toInt) := ⟨rfl, hholds⟩
    exact congrArg (Stored.of old) (Machine.stored_of_has hhas)
  · rfl

/-- A value of a plain type is refused where an unsigned integer in it is greater than the
machine's integers.  Otherwise it gets a handle, and the handle reads into a variable of the
type as the value.  An integer that is read into a variable of any integer type is stored
there if the type has it; if not, the answer is an error and the variable stays as it was.

A slice that was never made and one without items are the same here. -/
theorem marshal_round_trip :
    (∀ (s : Session) (t : HostType) (x : HostValue) (frame : HandleFrame),
      s.machine.closed = false → s.machine.handles.frames.back? = some frame →
      frame.slots.size < handlesPerFrame → t.isPlain = true → t.Has x → x.Narrow →
      ((∃ e, (s.marshal x).1 = .error e) ↔ x.Overflows) ∧
      (¬ x.Overflows → ∃ h, (s.marshal x).1 = .ok h ∧
        ∀ old, (s.marshal x).2.unmarshalInto h (.ptr t (some old)) = ⟨.ok (), x⟩)) ∧
    ∀ (s : Session) (h : Handle) (n : Int64) (t : IntType) (old : HostValue),
      s.machine.value h = .ok (.int n) →
      if t.holds n.toInt then
        s.unmarshalInto h (.ptr (.int t) (some old)) = ⟨.ok (), .int t n.toInt⟩
      else
        ∃ text, s.unmarshalInto h (.ptr (.int t) (some old)) =
          ⟨.error (.message text), old⟩ := by
  constructor
  · intro s t x frame hopen hframe hroom hplain hx hnarrow
    have hconverts := Machine.converts t hplain x hx hnarrow s.machine hopen
    have halloc := s.machine.allocated_ofHost x
    rw [marshal_of_has hx]
    generalize Machine.ofHost x s.machine = r at hconverts halloc ⊢
    cases hconverts with
    | refused hover => exact ⟨⟨fun _ => hover, fun _ => ⟨_, rfl⟩⟩, fun hfits => absurd hover hfits⟩
    | @taken v m hfits hread =>
        have hopen' : m.closed = false := halloc.closed.trans hopen
        have hframe' : m.handles.frames.back? = some frame := by
          rw [halloc.handles, hframe]
        obtain ⟨h, handles, hnew, hvalue⟩ :=
          Machine.newHandle_of_room hopen' ⟨frame, hframe', hroom⟩ hread.isPublic
        simp only [onMachine, hnew, Except.mapError]
        refine ⟨⟨?_, fun hover => absurd hover hfits⟩, fun _ => ⟨h, rfl, fun old => ?_⟩⟩
        · rintro ⟨_, herror⟩
          cases herror
        · exact unmarshalInto_of_reads
            (s := { s with machine := { m with handles := handles } }) hvalue hread hx old
  · intro s h n t old hvalue
    have hread := unmarshalInto_int hvalue t old
    split
    · rename_i hholds
      rwa [if_pos hholds] at hread
    · rename_i hholds
      rw [if_neg hholds] at hread
      exact ⟨_, hread⟩

/-- A record of a number and a list of records, one of whose fields starts with a capital
that is not ASCII; a list with a number that is too great; and an integer that is too great
for the variable. -/
theorem marshal_round_trip_nested :
    let entry : FieldTypes := .ofList [("Élan", .int .uint8), ("Set", .bool)]
    let table : FieldTypes := .ofList [("Total", .int .int64), ("Entries", .slice (.struct entry))]
    let x : HostValue := .struct table
      [.int .int64 (-7), .slice (.struct entry) [.struct entry [.int .uint8 255, .bool true]]]
    let large : HostValue := .slice (.int .uint64) [.int .uint64 3, .int .uint64 0x8000000000000000]
    let s : Session := create 1 Limits.standard none none
    (∃ h, (s.marshal x).1 = .ok h ∧ ∀ old,
      (s.marshal x).2.unmarshalInto h (.ptr (.struct table) (some old)) = ⟨.ok (), x⟩) ∧
    (∃ e, (s.marshal large).1 = .error e) ∧
    ((s.newInt 300).2.unmarshalInto ⟨1, 0, 0, 1⟩
      (.ptr (.int .int8) (some (.int .int8 5)))).target = .int .int8 5 := by
  intro entry table x large s
  have hround := marshal_round_trip.1 s
  refine ⟨?_, ?_, ?_⟩
  · have hx : (HostType.struct table).Has x := by
      simp [table, x, entry, HostType.Has, FieldTypes.ofList, FieldTypes.Have]
      decide
    exact (hround (.struct table) x { generation := 1 } rfl rfl
      (by decide) (by decide) hx (by simp [x, maxObjectSlots])).2
        (by simp [x, IntType.isSigned, IntType.greatest, IntType.half])
  · have hlarge : (HostType.slice (.int .uint64)).Has large := by
      simp [large, HostType.Has]
      decide
    refine (hround (.slice (.int .uint64)) large { generation := 1 } rfl rfl (by decide) rfl
      hlarge (by simp [large, maxObjectSlots])).1.2 ?_
    simp [large, IntType.isSigned, IntType.greatest, IntType.half]
  · have hsmall := marshal_round_trip.2 (s.newInt 300).2 ⟨1, 0, 0, 1⟩ 300 .int8 (.int .int8 5) rfl
    rw [if_neg (by decide)] at hsmall
    obtain ⟨text, hread⟩ := hsmall
    exact congrArg Stored.target hread

end Session

end Zinc
