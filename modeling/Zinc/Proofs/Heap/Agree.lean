import Zinc.Heap.Inspect
import Zinc.Host.Convert
import Zinc.Proofs.Heap.Collect

/-!
Two heaps that agree on the objects in use.  Both have handed out the same addresses,
and on some set of objects that no field leads out of they hold the same; outside of
that set one may have released what the other still keeps.  Allocating in both extends
the set, and collecting either one shrinks it to what the roots reach.
-/

namespace Zinc.Heap

/-- Two heaps hold the same objects on `S`, a closed set of existing objects. -/
structure Agree (S : Nat → Prop) (h h' : Heap) : Prop where
  size : h'.cells.size = h.cells.size
  cell : ∀ a, S a → h'.cells[a]? = h.cells[a]?
  bound : ∀ a, S a → a < h.cells.size
  closed : h.Closed S
  left : h.Tidy
  right : h'.Tidy

variable {S : Nat → Prop} {h h' : Heap}

theorem Agree.fields (hagree : Agree S h h') {a : Nat} (ha : S a) :
    h'.fields a = h.fields a :=
  fields_congr (hagree.cell a ha)

theorem Agree.field (hagree : Agree S h h') {a : Nat} (ha : S a) (i : Nat) :
    h'.field a i = h.field a i :=
  field_congr (hagree.cell a ha)

theorem Agree.fieldsOf (hagree : Agree S h h') {v : Value} (hv : v.Within S) :
    h'.fieldsOf v = h.fieldsOf v := by
  rw [Heap.fieldsOf, Heap.fieldsOf]
  cases haddr : v.address? with
  | none => rfl
  | some a => simp [hagree.fields (hv a haddr)]

theorem Closed.fieldsOf {v w : Value} (hclosed : h.Closed S) (hv : v.Within S)
    (hw : w ∈ h.fieldsOf v) : w.Within S := by
  rw [Heap.fieldsOf] at hw
  cases haddr : v.address? with
  | none => simp [haddr] at hw
  | some a =>
      rw [haddr] at hw
      exact hclosed a (hv a haddr) w (by simpa using hw)

theorem agree_self (htidy : h.Tidy) (hbound : ∀ a, S a → a < h.cells.size)
    (hclosed : h.Closed S) : Agree S h h :=
  ⟨rfl, fun _ _ => rfl, hbound, hclosed, htidy, htidy⟩

/-- Heaps that agree go on agreeing when the same object is allocated in both. -/
theorem Agree.alloc (hagree : Agree S h h') (tag : Kind) (fields : Array Value)
    (hfields : ∀ v ∈ fields, v.Within S) :
    Agree (fun a => S a ∨ a = h.cells.size) (h.alloc tag fields).2
      (h'.alloc tag fields).2 where
  size := by rw [size_alloc, size_alloc, hagree.size]
  cell a ha := by
    rw [cells_alloc, cells_alloc, hagree.size]
    by_cases hnew : a = h.cells.size
    · rw [if_pos hnew, if_pos hnew]
    · rw [if_neg hnew, if_neg hnew]
      exact hagree.cell a (ha.resolve_right hnew)
  bound a ha := by
    rw [size_alloc]
    rcases ha with ha | rfl
    · exact Nat.lt_succ_of_lt (hagree.bound a ha)
    · exact Nat.lt_succ_self _
  closed a ha v hv := by
    by_cases hnew : a = h.cells.size
    · subst hnew
      rw [fields_alloc_self] at hv
      exact (hfields v hv).mono fun _ => Or.inl
    · have hold : (h.alloc tag fields).2.cells[a]? = h.cells[a]? := by
        rw [cells_alloc, if_neg hnew]
      rw [fields_congr hold] at hv
      exact (hagree.closed a (ha.resolve_right hnew) v hv).mono fun _ => Or.inl
  left := hagree.left.alloc tag fields
  right := hagree.right.alloc tag fields

theorem Agree.reach_subset (hagree : Agree S h h') {roots : List Value}
    (hroots : ∀ v ∈ roots, v.Within S) {a : Nat} (hreach : h.Reach roots a) :
    S a :=
  hreach.least hagree.closed hroots

theorem Agree.reach (hagree : Agree S h h') {roots : List Value}
    (hroots : ∀ v ∈ roots, v.Within S) {a : Nat} (hreach : h.Reach roots a) :
    h'.Reach roots a := by
  induction hreach with
  | root hv ha => exact .root hv ha
  | @field a b v hprev hv hb ih =>
      refine .field ih ?_ hb
      rwa [hagree.fields (hagree.reach_subset hroots hprev)]

/-- Collecting the first heap keeps what the roots reach. -/
theorem Agree.collect_left (hagree : Agree S h h') {roots : List Value}
    (hroots : ∀ v ∈ roots, v.Within S) :
    Agree (h.Reach roots) (h.collect roots).2 h' where
  size := by rw [size_collect, hagree.size]
  cell a ha := by
    rw [hagree.left.collect_cell ha]
    exact hagree.cell a (hagree.reach_subset hroots ha)
  bound a ha := by
    rw [size_collect]
    exact hagree.bound a (hagree.reach_subset hroots ha)
  closed a ha v hv := by
    rw [fields_congr (hagree.left.collect_cell ha)] at hv
    exact closed_reach h roots a ha v hv
  left := hagree.left.collect roots
  right := hagree.right

/-- Collecting the second heap keeps what the roots reach. -/
theorem Agree.collect_right (hagree : Agree S h h') {roots : List Value}
    (hroots : ∀ v ∈ roots, v.Within S) :
    Agree (h.Reach roots) h (h'.collect roots).2 where
  size := by rw [size_collect, hagree.size]
  cell a ha := by
    rw [hagree.right.collect_cell (hagree.reach hroots ha)]
    exact hagree.cell a (hagree.reach_subset hroots ha)
  bound a ha := hagree.bound a (hagree.reach_subset hroots ha)
  closed := closed_reach h roots
  left := hagree.left
  right := hagree.right.collect roots

/-- Heaps that release everything agree as before. -/
theorem Agree.destroyAll (hagree : Agree S h h') :
    Agree S h.destroyAll h'.destroyAll where
  size := by rw [size_destroyAll, size_destroyAll, hagree.size]
  cell a ha := by
    have hcell := hagree.cell a ha
    rw [hagree.left.cell_destroyAll, hagree.right.cell_destroyAll, hcell]
  bound a ha := by
    rw [size_destroyAll]
    exact hagree.bound a ha
  closed a ha v hv := by
    rw [hagree.left.fields_destroyAll] at hv
    simp at hv
  left := hagree.left.destroyAll
  right := hagree.right.destroyAll

theorem Agree.inspectClosure (hagree : Agree S h h') {a : Nat} (ha : S a) :
    h'.inspectClosure a = h.inspectClosure a := by
  rw [Heap.inspectClosure, Heap.inspectClosure, hagree.fields ha,
    hagree.field ha]

theorem Agree.inspectTo (hagree : Agree S h h') (depth : Nat) {v : Value}
    (hv : v.Within S) : h'.inspectTo depth v = h.inspectTo depth v := by
  induction depth generalizing v with
  | zero =>
      cases v with
      | ref kind a =>
          cases kind <;> simp only [Heap.inspectTo]
          exact hagree.inspectClosure (Value.within_ref.1 hv)
      | _ => rfl
  | succ depth ih =>
      cases v with
      | ref kind a =>
          have ha := Value.within_ref.1 hv
          cases kind <;> simp only [Heap.inspectTo]
          · exact hagree.inspectClosure ha
          · have hmap : (h'.fields a).toList.map (h'.inspectTo depth) =
                (h.fields a).toList.map (h.inspectTo depth) := by
              rw [hagree.fields ha]
              refine List.map_congr_left fun w hw => ih ?_
              exact hagree.closed a ha w (Array.mem_toList_iff.1 hw)
            rw [hmap]
      | _ => rfl

/-- Values in use look the same in both heaps. -/
theorem Agree.inspect (hagree : Agree S h h') {v : Value} (hv : v.Within S) :
    h'.inspect v = h.inspect v := by
  rw [Heap.inspect, Heap.inspect, hagree.size, hagree.inspectTo _ hv]

end Zinc.Heap

namespace Zinc.Machine

theorem hostItems_congr {f g : Value → Except Failure (Option HostValue)}
    {items : List Value} (heq : ∀ v ∈ items, f v = g v) (i : Nat) :
    hostItems f i items = hostItems g i items := by
  induction items generalizing i with
  | nil => rfl
  | cons v rest ih =>
      rw [hostItems, hostItems, heq v List.mem_cons_self,
        ih fun w hw => heq w (List.mem_cons_of_mem v hw)]

theorem hostFields_congr
    {f g : Value → HostType → Except Failure (Option HostValue)}
    (tooFew : Failure) : (fields : FieldTypes) → (items : List Value) →
      (∀ v ∈ items, f v = g v) →
      hostFields f tooFew fields items = hostFields g tooFew fields items
  | .nil, items, _ => rfl
  | .cons name type fields, items, heq => by
      unfold hostFields
      split
      · cases items with
        | nil => rfl
        | cons v rest =>
            dsimp only
            rw [heq v List.mem_cons_self, hostFields_congr tooFew fields rest
              fun w hw => heq w (List.mem_cons_of_mem v hw)]
      · rw [hostFields_congr tooFew fields items heq]

theorem hostRecord_congr
    {f g : Value → HostType → Except Failure (Option HostValue)}
    (type : HostType) (fields : FieldTypes) {items : List Value}
    (heq : ∀ v ∈ items, f v = g v) :
    hostRecord f type fields items = hostRecord g type fields items := by
  rw [hostRecord, hostRecord, hostFields_congr _ _ _ heq]

/-- What is not a tuple is converted without a look at the heap. -/
theorem toHost_of_not_tuple (h h' : Heap) (depth depth' : Nat) {v : Value}
    (hv : v.kind ≠ .tuple) (target : Option HostType) :
    toHost h' depth' v target = toHost h depth v target := by
  unfold toHost
  cases hkind : v.kind with
  | tuple => exact absurd hkind hv
  | _ => rfl

/-- A tuple is converted alike where its fields are. -/
theorem toHost_tuple_congr {h h' : Heap} {depth depth' : Nat} {v : Value}
    (hv : v.kind = .tuple) (hsame : h'.fieldsOf v = h.fieldsOf v)
    (hfields : ∀ w ∈ h.fieldsOf v, ∀ target,
      toHost h' depth' w target = toHost h depth w target) (target : Option HostType) :
    toHost h' (depth' + 1) v target = toHost h (depth + 1) v target := by
  have hrecord : ∀ w ∈ h.fieldsOf v, (fun t => toHost h' depth' w (some t)) =
      fun t => toHost h depth w (some t) :=
    fun w hw => funext fun t => hfields w hw (some t)
  have hitems (target : Option HostType) := hostItems_congr fun w hw => hfields w hw target
  unfold toHost
  rw [hsame, hv]
  dsimp only
  split
  · rw [hostRecord_congr _ _ hrecord]
  · rw [hostRecord_congr _ _ hrecord]
  · rw [hitems]
  · rw [hitems]

/-- Values in use leave both heaps as the same host values. -/
theorem toHost_congr {S : Nat → Prop} {h h' : Heap} (hagree : Heap.Agree S h h')
    (depth : Nat) {v : Value} (hv : v.Within S) (target : Option HostType) :
    toHost h' depth v target = toHost h depth v target := by
  induction depth generalizing v target with
  | zero =>
      unfold toHost
      cases v.kind <;> rfl
  | succ depth ih =>
      by_cases hkind : v.kind = .tuple
      · apply toHost_tuple_congr hkind (hagree.fieldsOf hv)
        intro w hw target
        exact ih (hagree.closed.fieldsOf hv hw) target
      · exact toHost_of_not_tuple h h' _ _ hkind target

end Zinc.Machine
