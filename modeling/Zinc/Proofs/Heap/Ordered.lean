import Zinc.Heap.Inspect
import Zinc.Proofs.Heap.Retained

/-!
Heaps whose objects are in order: a field of an object refers to live objects only, all
of them older than the object.  Allocating over live objects keeps the order, and so do
collections.  In such a heap there is no way back from a field to its object, so whatever
recurses through fields comes to an end, without a record of what it has seen.  Showing a
value is such a recursion: a bound on its depth changes nothing as soon as it exceeds the
number of objects.
-/

namespace Zinc

theorem Value.eq_ref_of_tuple {v : Value} (hv : v.kind = .tuple) : ∃ a, v = .ref .tuple a := by
  cases v with
  | ref kind a =>
      obtain rfl : kind = .tuple := hv
      exact ⟨a, rfl⟩
  | _ => cases hv

/-- One more than the address in a value, and zero if there is none. -/
def Value.rank (v : Value) : Nat :=
  (v.address?.map (· + 1)).getD 0

theorem Value.kind_ne_of_rank_eq_zero {v : Value} (hv : v.rank = 0) : v.kind ≠ .tuple := by
  intro hkind
  obtain ⟨a, rfl⟩ := Value.eq_ref_of_tuple hkind
  simp [rank, address?] at hv

namespace Heap

/-- Every field refers to live objects that are older than the object it belongs to. -/
def Ordered (h : Heap) : Prop :=
  ∀ a, ∀ v ∈ h.fields a, v.Within fun b => b ∈ h.live ∧ b < a

theorem ordered_empty : ({} : Heap).Ordered := by
  intro a v hv
  simp [fields] at hv

variable {h : Heap}

/-- A new object may refer to any live one: all of them are older. -/
theorem Ordered.alloc (hordered : h.Ordered) (htidy : h.Tidy) (tag : Kind)
    {fields : Array Value} (hfields : ∀ v ∈ fields, v.Within (· ∈ h.live)) :
    (h.alloc tag fields).2.Ordered := by
  intro a v hv b hb
  by_cases hnew : a = h.cells.size
  · subst hnew
    rw [fields_alloc_self] at hv
    have hlive := hfields v hv b hb
    exact ⟨List.mem_cons_of_mem _ hlive, htidy.lt_size hlive⟩
  · have hold : (h.alloc tag fields).2.cells[a]? = h.cells[a]? := by
      rw [cells_alloc, if_neg hnew]
    rw [fields_congr hold] at hv
    obtain ⟨hlive, hlt⟩ := hordered a v hv b hb
    exact ⟨List.mem_cons_of_mem _ hlive, hlt⟩

/-- What a collection keeps refers to what it keeps. -/
theorem Ordered.collect (hordered : h.Ordered) (htidy : h.Tidy) (roots : List Value) :
    (h.collect roots).2.Ordered := by
  intro a v hv b hb
  have hkept : a ∈ (h.collect roots).2.live := by
    by_contra hgone
    obtain ⟨c, hcell⟩ := exists_cell_of_mem_fields hv
    rw [fields_of_cell hcell, htidy.released hcell hgone] at hv
    simp [Cell.poisoned] at hv
  have hreach := (htidy.mem_live_collect.1 hkept).2
  rw [fields_congr (htidy.collect_cell hreach)] at hv
  obtain ⟨hlive, hlt⟩ := hordered a v hv b hb
  exact ⟨htidy.mem_live_collect.2 ⟨hlive, hreach.field hv hb⟩, hlt⟩

theorem Tidy.ordered_destroyAll (htidy : h.Tidy) : h.destroyAll.Ordered := by
  intro a v hv
  rw [htidy.fields_destroyAll] at hv
  simp at hv

/-- A field of a value has a lower rank. -/
theorem Ordered.rank_lt (hordered : h.Ordered) {v w : Value} (hw : w ∈ h.fieldsOf v) :
    w.rank < v.rank := by
  rw [fieldsOf] at hw
  cases ha : v.address? with
  | none => simp [ha] at hw
  | some a =>
      have hw : w ∈ h.fields a := by simpa [ha] using hw
      simp only [Value.rank, ha, Option.map_some, Option.getD_some]
      cases hb : w.address? with
      | none => simp
      | some b => simpa using (hordered a w hw b hb).2

/-- Going from a value to a field of it, again and again, comes to an end. -/
theorem Ordered.wellFounded (hordered : h.Ordered) :
    WellFounded fun w v : Value => w ∈ h.fieldsOf v :=
  Subrelation.wf hordered.rank_lt (measure Value.rank).wf

/-- What is not a tuple is shown without a look at fields. -/
theorem inspectTo_of_not_tuple (h : Heap) (depth depth' : Nat) {v : Value}
    (hv : v.kind ≠ .tuple) : h.inspectTo depth v = h.inspectTo depth' v := by
  cases v with
  | ref kind a =>
      cases kind with
      | tuple => exact absurd rfl hv
      | _ => simp only [inspectTo]
  | _ => simp only [inspectTo]

/-- A depth of the rank is enough to show a value. -/
theorem Ordered.inspectTo_of_rank_le (hordered : h.Ordered) {depth more : Nat} {v : Value}
    (hv : v.rank ≤ depth) (hmore : depth ≤ more) :
    h.inspectTo more v = h.inspectTo depth v := by
  induction depth generalizing v more with
  | zero =>
      apply inspectTo_of_not_tuple
      exact Value.kind_ne_of_rank_eq_zero (Nat.le_zero.1 hv)
  | succ depth ih =>
      by_cases hkind : v.kind = .tuple
      · obtain ⟨a, rfl⟩ := Value.eq_ref_of_tuple hkind
        obtain ⟨more, rfl⟩ :=
          Nat.exists_eq_add_of_le' (Nat.lt_of_lt_of_le depth.succ_pos hmore)
        have hfields : (h.fields a).toList.map (h.inspectTo more) =
            (h.fields a).toList.map (h.inspectTo depth) := by
          apply List.map_congr_left
          intro w hw
          have hrank := hordered.rank_lt (v := .ref .tuple a) hw
          exact ih (by omega) (by omega)
        simp only [inspectTo, hfields]
      · exact inspectTo_of_not_tuple h _ _ hkind

theorem fields_eq_empty {a : Nat} (hout : h.cells.size ≤ a) : h.fields a = #[] := by
  simp [fields, hout]

/-- Whatever depth is allowed beyond the number of objects, any value is shown alike. -/
theorem Ordered.inspectTo_eq (hordered : h.Ordered) {depth : Nat}
    (hdepth : h.cells.size < depth) (v : Value) : h.inspectTo depth v = h.inspect v := by
  by_cases hv : v.rank ≤ h.cells.size + 1
  · exact hordered.inspectTo_of_rank_le hv hdepth
  · by_cases hkind : v.kind = .tuple
    · obtain ⟨a, rfl⟩ := Value.eq_ref_of_tuple hkind
      obtain ⟨depth, rfl⟩ := Nat.exists_eq_add_of_le' (Nat.lt_of_le_of_lt (Nat.zero_le _) hdepth)
      have hout : h.fields a = #[] := by
        apply fields_eq_empty
        simp only [Value.rank, Value.address?, Option.map_some, Option.getD_some] at hv
        omega
      simp only [inspect, inspectTo, hout, List.map_nil]
    · exact inspectTo_of_not_tuple h _ _ hkind

/-- A tuple is shown as its fields are, with no bound on how deep they go. -/
theorem Ordered.inspect_tuple (hordered : h.Ordered) (a : Nat) :
    h.inspect (.ref .tuple a) =
      "(" ++ ", ".intercalate ((h.fields a).toList.map h.inspect) ++ ")" := by
  rw [← hordered.inspectTo_eq (Nat.lt_succ_of_lt (Nat.lt_succ_self _))]
  rfl

end Heap

end Zinc
