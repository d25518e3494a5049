import Zinc.Heap.Collect

/-!
Which objects a heap keeps in use.  An object is in use when it can be reached from
some root through fields.  A heap is tidy when its live list names exactly the
objects that have not been released and every released object is empty; that is the
state of a heap between collections.
-/

namespace Zinc

/-- Every address in a value lies in `S`. -/
def Value.Within (S : Nat → Prop) (v : Value) : Prop :=
  ∀ a, v.address? = some a → S a

@[simp] theorem Value.within_ref {S : Nat → Prop} {k : Kind} {a : Nat} :
    (Value.ref k a).Within S ↔ S a := by
  simp [Value.Within, Value.address?]

theorem Value.Within.mono {S T : Nat → Prop} {v : Value} (hv : v.Within S)
    (hle : ∀ a, S a → T a) : v.Within T :=
  fun a ha => hle a (hv a ha)

namespace Heap

/-- The objects that can be reached from some values through fields. -/
inductive Reach (h : Heap) (roots : List Value) : Nat → Prop where
  | root {v : Value} {a : Nat} :
      v ∈ roots → v.address? = some a → Reach h roots a
  | field {a b : Nat} {v : Value} :
      Reach h roots a → v ∈ h.fields a → v.address? = some b → Reach h roots b

/-- A set of objects that no field leads out of. -/
def Closed (h : Heap) (S : Nat → Prop) : Prop :=
  ∀ a, S a → ∀ v ∈ h.fields a, v.Within S

theorem closed_reach (h : Heap) (roots : List Value) :
    h.Closed (h.Reach roots) :=
  fun _ ha _ hv _ hb => .field ha hv hb

theorem within_reach {h : Heap} {roots : List Value} {v : Value}
    (hv : v ∈ roots) : v.Within (h.Reach roots) :=
  fun _ ha => .root hv ha

/-- What can be reached lies in every closed set around the roots. -/
theorem Reach.least {h : Heap} {roots : List Value} {S : Nat → Prop}
    (hclosed : h.Closed S) (hroots : ∀ v ∈ roots, v.Within S) {a : Nat}
    (hreach : h.Reach roots a) : S a := by
  induction hreach with
  | root hv ha => exact hroots _ hv _ ha
  | field _ hv hb ih => exact hclosed _ ih _ hv _ hb

theorem Reach.mono {h : Heap} {few many : List Value}
    (hsub : ∀ v ∈ few, v ∈ many) {a : Nat} (hreach : h.Reach few a) :
    h.Reach many a :=
  hreach.least (closed_reach h many) fun _ hv => within_reach (hsub _ hv)

theorem fields_congr {h h' : Heap} {a : Nat}
    (heq : h'.cells[a]? = h.cells[a]?) : h'.fields a = h.fields a := by
  rw [fields, fields, heq]

theorem field_congr {h h' : Heap} {a i : Nat}
    (heq : h'.cells[a]? = h.cells[a]?) : h'.field a i = h.field a i := by
  rw [field, field, fields_congr heq]

theorem fields_of_cell {h : Heap} {a : Nat} {c : Cell} (hcell : h.cells[a]? = some c) :
    h.fields a = c.fields := by
  simp [fields, hcell]

theorem exists_cell_of_mem_fields {h : Heap} {a : Nat} {v : Value}
    (hv : v ∈ h.fields a) : ∃ c, h.cells[a]? = some c := by
  cases hcell : h.cells[a]? with
  | none => simp [fields, hcell] at hv
  | some c => exact ⟨c, rfl⟩

theorem field_mem_or_undefined (h : Heap) (a i : Nat) :
    h.field a i ∈ h.fields a ∨ h.field a i = .undefined := by
  rw [field]
  cases hi : (h.fields a)[i]? with
  | none => exact Or.inr rfl
  | some v => exact Or.inl (Array.mem_of_getElem? hi)

/-- A field of an object in a closed set stays in the set. -/
theorem Closed.field_within {h : Heap} {S : Nat → Prop} (hclosed : h.Closed S)
    {a : Nat} (ha : S a) (i : Nat) : (h.field a i).Within S := by
  rcases h.field_mem_or_undefined a i with hmem | hnone
  · exact hclosed a ha _ hmem
  · intro b hb
    rw [hnone] at hb
    simp [Value.address?] at hb

/-- Every object in use in the first heap is in the second one as it was. -/
def Keeps (roots : List Value) (h h' : Heap) : Prop :=
  ∀ (a : Nat) (c : Cell),
    h.Reach roots a → h.cells[a]? = some c → h'.cells[a]? = some c

theorem Keeps.refl (roots : List Value) (h : Heap) : Keeps roots h h :=
  fun _ _ _ hcell => hcell

/-- What was in use stays in use. -/
theorem Keeps.reach {roots : List Value} {h h' : Heap}
    (hkeeps : Keeps roots h h') {a : Nat} (hreach : h.Reach roots a) :
    h'.Reach roots a := by
  induction hreach with
  | root hv ha => exact .root hv ha
  | @field a b v hprev hv hb ih =>
      obtain ⟨c, hcell⟩ := exists_cell_of_mem_fields hv
      have hsame : h'.cells[a]? = h.cells[a]? :=
        (hkeeps a c hprev hcell).trans hcell.symm
      exact .field ih (fields_congr hsame ▸ hv) hb

theorem Keeps.trans {roots : List Value} {h h' h'' : Heap}
    (hfirst : Keeps roots h h') (hsecond : Keeps roots h' h'') :
    Keeps roots h h'' :=
  fun a c hreach hcell =>
    hsecond a c (hfirst.reach hreach) (hfirst a c hreach hcell)

theorem Keeps.mono {few many : List Value} {h h' : Heap}
    (hsub : ∀ v ∈ few, v ∈ many) (hkeeps : Keeps many h h') :
    Keeps few h h' :=
  fun a c hreach => hkeeps a c (hreach.mono hsub)

/-- The live list names each object that has not been released once, and nothing is
left of the others. -/
structure Tidy (h : Heap) : Prop where
  nodup : h.live.Nodup
  live_iff : ∀ a, a ∈ h.live ↔ ∃ c, h.cells[a]? = some c ∧ c.mark = .white
  dead : ∀ (a : Nat) (c : Cell),
    h.cells[a]? = some c → c.mark ≠ .white → c = Cell.poisoned

theorem tidy_empty : ({} : Heap).Tidy where
  nodup := by simp
  live_iff := by simp
  dead := by simp

@[simp] theorem fst_alloc (h : Heap) (tag : Kind) (fields : Array Value) :
    (h.alloc tag fields).1 = h.cells.size := rfl

theorem cells_alloc (h : Heap) (tag : Kind) (fields : Array Value) (a : Nat) :
    (h.alloc tag fields).2.cells[a]? =
      if a = h.cells.size then some { tag := tag, fields := fields }
      else h.cells[a]? := by
  simp [alloc, Array.getElem?_push]

theorem cells_alloc_self (h : Heap) (tag : Kind) (fields : Array Value) :
    (h.alloc tag fields).2.cells[h.cells.size]? =
      some { tag := tag, fields := fields } := by
  rw [cells_alloc, if_pos rfl]

theorem size_alloc (h : Heap) (tag : Kind) (fields : Array Value) :
    (h.alloc tag fields).2.cells.size = h.cells.size + 1 := by
  simp [alloc]

theorem fields_alloc_self (h : Heap) (tag : Kind) (fields : Array Value) :
    (h.alloc tag fields).2.fields h.cells.size = fields := by
  simp [Heap.fields, cells_alloc]

theorem lt_size_of_getElem? {cells : Array Cell} {a : Nat} {c : Cell}
    (hcell : cells[a]? = some c) : a < cells.size :=
  (Array.getElem?_eq_some_iff.1 hcell).1

theorem Tidy.lt_size {h : Heap} (htidy : h.Tidy) {a : Nat} (ha : a ∈ h.live) :
    a < h.cells.size := by
  obtain ⟨c, hcell, _⟩ := (htidy.live_iff a).1 ha
  exact lt_size_of_getElem? hcell

theorem Tidy.alloc {h : Heap} (htidy : h.Tidy) (tag : Kind)
    (fields : Array Value) : (h.alloc tag fields).2.Tidy where
  nodup := by
    refine List.nodup_cons.2 ⟨?_, htidy.nodup⟩
    intro hmem
    exact Nat.lt_irrefl _ (htidy.lt_size hmem)
  live_iff a := by
    change a ∈ h.cells.size :: h.live ↔ _
    rw [cells_alloc]
    by_cases ha : a = h.cells.size
    · simp [ha]
    · simp [ha, htidy.live_iff a]
  dead a c hcell hmark := by
    rw [cells_alloc] at hcell
    by_cases ha : a = h.cells.size
    · rw [if_pos ha] at hcell
      cases hcell
      exact absurd rfl hmark
    · rw [if_neg ha] at hcell
      exact htidy.dead a c hcell hmark

/-- The second heap comes from the first by allocations alone. -/
inductive Grows : Heap → Heap → Prop where
  | refl (h : Heap) : Grows h h
  | alloc {h h' : Heap} (tag : Kind) (fields : Array Value) :
      Grows h h' → Grows h (h'.alloc tag fields).2

theorem Grows.trans {h h' h'' : Heap} (hfirst : Grows h h')
    (hsecond : Grows h' h'') : Grows h h'' := by
  induction hsecond with
  | refl => exact hfirst
  | alloc tag fields _ ih => exact .alloc tag fields ih

theorem Grows.tidy {h h' : Heap} (hgrows : Grows h h') (htidy : h.Tidy) :
    h'.Tidy := by
  induction hgrows with
  | refl => exact htidy
  | alloc tag fields _ ih => exact ih.alloc tag fields

/-- Allocation leaves the older objects alone. -/
theorem Grows.cell {h h' : Heap} (hgrows : Grows h h') {a : Nat} {c : Cell}
    (hcell : h.cells[a]? = some c) : h'.cells[a]? = some c := by
  induction hgrows with
  | refl => exact hcell
  | alloc tag fields _ ih =>
      rw [cells_alloc, if_neg (Nat.ne_of_lt (lt_size_of_getElem? ih))]
      exact ih

theorem Grows.size_le {h h' : Heap} (hgrows : h.Grows h') :
    h.cells.size ≤ h'.cells.size := by
  induction hgrows with
  | refl => exact Nat.le_refl _
  | alloc tag fields _ ih =>
      rw [size_alloc]
      exact Nat.le_succ_of_le ih

theorem Grows.keeps {h h' : Heap} (hgrows : Grows h h') (roots : List Value) :
    Keeps roots h h' :=
  fun _ _ _ hcell => hgrows.cell hcell

end Heap

end Zinc
