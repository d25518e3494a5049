import Zinc.Proofs.Heap.Agree
import Zinc.Proofs.Heap.Ordered

/-!
The conversion of a machine value into a host value goes down the fields of tuples.  In a
heap whose objects are in order a bound on the depth changes nothing as soon as it exceeds
the number of objects: any value is converted as its fields are.
-/

namespace Zinc.Machine

variable {h : Heap}

/-- A depth of the rank is enough to convert a value. -/
theorem toHost_of_rank_le (hordered : h.Ordered) {depth more : Nat} {v : Value}
    (hv : v.rank ≤ depth) (hmore : depth ≤ more) (target : Option HostType) :
    toHost h more v target = toHost h depth v target := by
  induction depth generalizing v more target with
  | zero =>
      apply toHost_of_not_tuple
      exact Value.kind_ne_of_rank_eq_zero (Nat.le_zero.1 hv)
  | succ depth ih =>
      by_cases hkind : v.kind = .tuple
      · obtain ⟨more, rfl⟩ := Nat.exists_eq_add_of_le' (Nat.lt_of_lt_of_le depth.succ_pos hmore)
        apply toHost_tuple_congr hkind rfl
        intro w hw target
        have hrank := hordered.rank_lt hw
        exact ih (by omega) (by omega) target
      · exact toHost_of_not_tuple h h _ _ hkind target

/-- Whatever depth is allowed beyond the number of objects, any value is converted alike. -/
theorem toHost_eq (hordered : h.Ordered) {depth : Nat} (hdepth : h.cells.size < depth)
    (v : Value) (target : Option HostType) :
    toHost h depth v target = toHost h (h.cells.size + 1) v target := by
  by_cases hv : v.rank ≤ h.cells.size + 1
  · exact toHost_of_rank_le hordered hv hdepth target
  · by_cases hkind : v.kind = .tuple
    · obtain ⟨depth, rfl⟩ := Nat.exists_eq_add_of_le' (Nat.lt_of_le_of_lt (Nat.zero_le _) hdepth)
      apply toHost_tuple_congr hkind rfl
      obtain ⟨a, rfl⟩ := Value.eq_ref_of_tuple hkind
      have hout : h.fields a = #[] := by
        apply Heap.fields_eq_empty
        simp only [Value.rank, Value.address?, Option.map_some, Option.getD_some] at hv
        omega
      intro w hw
      simp [Heap.fieldsOf, Value.address?, hout] at hw
    · exact toHost_of_not_tuple h h _ _ hkind target

end Zinc.Machine
