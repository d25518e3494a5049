import Mathlib.Data.List.Forall2
import Zinc.Proofs.Heap.Reach

/-!
Values that are equal up to the identity of objects.  Integers, code places, marks and
the empty environment are equal as they stand; two references are equal when the objects
have the same tag, the same number of fields, and fields that are equal in the same
sense.  So tuples have the same shape, and closures the same code and, place by place,
the same environment.  Nothing of this changes when either heap grows or is collected.
-/

namespace Zinc.Heap

/-- The value in the first heap and the value in the second are equal up to the identity
of objects. -/
inductive Mirror (h h' : Heap) : Value → Value → Prop where
  | same {v : Value} : v.address? = none → Mirror h h' v v
  | ref {k : Kind} {a a' : Nat} {c c' : Cell} :
      h.cells[a]? = some c → h'.cells[a']? = some c' → c'.tag = c.tag →
      c'.fields.size = c.fields.size →
      (∀ i, Mirror h h' (h.field a i) (h'.field a' i)) →
      Mirror h h' (.ref k a) (.ref k a')

namespace Mirror

variable {h h' h₁ h₁' : Heap} {v v' : Value}

theorem undefined (h h' : Heap) : Mirror h h' .undefined .undefined :=
  .same rfl

theorem kind (hm : Mirror h h' v v') : v'.kind = v.kind := by
  cases hm with
  | same _ => rfl
  | ref _ _ _ _ _ => rfl

theorem isMark (hm : Mirror h h' v v') : v'.isMark = v.isMark := by
  rw [Value.isMark, Value.isMark, hm.kind]

theorem asOffset (hm : Mirror h h' v v') : v'.asOffset = v.asOffset := by
  cases hm with
  | same _ => rfl
  | ref _ _ _ _ _ => rfl

theorem exists_ref {k : Kind} {a : Nat} (hm : Mirror h h' (.ref k a) v') :
    ∃ a', v' = .ref k a' := by
  cases hm with
  | same hnone => cases hnone
  | ref _ _ _ _ _ => exact ⟨_, rfl⟩

theorem exists_ref_of_ref {k : Kind} {a' : Nat} (hm : Mirror h h' v (.ref k a')) :
    ∃ a, v = .ref k a := by
  cases hm with
  | same hnone => cases hnone
  | ref _ _ _ _ _ => exact ⟨_, rfl⟩

/-- Corresponding fields of corresponding objects correspond, also those that do not
exist. -/
theorem field {k k' : Kind} {a a' : Nat} (hm : Mirror h h' (.ref k a) (.ref k' a'))
    (i : Nat) : Mirror h h' (h.field a i) (h'.field a' i) := by
  cases hm with
  | same hnone => cases hnone
  | ref _ _ _ _ hfields => exact hfields i

theorem size_fields {k k' : Kind} {a a' : Nat}
    (hm : Mirror h h' (.ref k a) (.ref k' a')) :
    (h'.fields a').size = (h.fields a).size := by
  cases hm with
  | same hnone => cases hnone
  | ref hcell hcell' _ hsize _ =>
      rw [fields_of_cell hcell, fields_of_cell hcell', hsize]

/-- Corresponding values go on corresponding as long as the objects that they lead to
stay. -/
theorem keep {roots roots' : List Value} (hm : Mirror h h' v v')
    (hkeeps : Keeps roots h h₁) (hkeeps' : Keeps roots' h' h₁')
    (hv : v.Within (h.Reach roots)) (hv' : v'.Within (h'.Reach roots')) :
    Mirror h₁ h₁' v v' := by
  induction hm with
  | same hnone => exact .same hnone
  | @ref k a a' c c' hcell hcell' htag hsize _ ih =>
      have ha := Value.within_ref.1 hv
      have ha' := Value.within_ref.1 hv'
      have hkept := hkeeps a c ha hcell
      have hkept' := hkeeps' a' c' ha' hcell'
      refine .ref hkept hkept' htag hsize fun i => ?_
      rw [field_congr (hkept.trans hcell.symm), field_congr (hkept'.trans hcell'.symm)]
      exact ih i ((closed_reach h roots).field_within ha i)
        ((closed_reach h' roots').field_within ha' i)

theorem keep_all {roots roots' vs vs' : List Value}
    (hvs : List.Forall₂ (Mirror h h') vs vs') (hkeeps : Keeps roots h h₁)
    (hkeeps' : Keeps roots' h' h₁') (hin : ∀ v ∈ vs, v.Within (h.Reach roots))
    (hin' : ∀ v ∈ vs', v.Within (h'.Reach roots')) :
    List.Forall₂ (Mirror h₁ h₁') vs vs' := by
  induction hvs with
  | nil => exact .nil
  | cons hv _ ih =>
      obtain ⟨hhead, htail⟩ := List.forall_mem_cons.1 hin
      obtain ⟨hhead', htail'⟩ := List.forall_mem_cons.1 hin'
      exact .cons (hv.keep hkeeps hkeeps' hhead hhead') (ih htail htail')

/-- New objects change nothing. -/
theorem grow (hm : Mirror h h' v v') (hgrows : h.Grows h₁) (hgrows' : h'.Grows h₁') :
    Mirror h₁ h₁' v v' :=
  hm.keep (hgrows.keeps [v]) (hgrows'.keeps [v']) (within_reach List.mem_cons_self)
    (within_reach List.mem_cons_self)

theorem getD_of_forall₂ {vs vs' : List Value} (hvs : List.Forall₂ (Mirror h h') vs vs')
    (i : Nat) : Mirror h h' (vs[i]?.getD .undefined) (vs'[i]?.getD .undefined) := by
  induction hvs generalizing i with
  | nil => exact .undefined h h'
  | cons hv _ ih =>
      cases i with
      | zero => exact hv
      | succ i => simpa using ih i

/-- Objects of one tag with corresponding fields correspond. -/
theorem ofCells {k : Kind} {a a' : Nat} {c c' : Cell} (hcell : h.cells[a]? = some c)
    (hcell' : h'.cells[a']? = some c') (htag : c'.tag = c.tag)
    (hfields : List.Forall₂ (Mirror h h') c.fields.toList c'.fields.toList) :
    Mirror h h' (.ref k a) (.ref k a') := by
  refine .ref hcell hcell' htag ?_ fun i => ?_
  · simpa using hfields.length_eq.symm
  · have hi := getD_of_forall₂ hfields i
    rw [Array.getElem?_toList, Array.getElem?_toList] at hi
    rwa [Heap.field, Heap.field, fields_of_cell hcell, fields_of_cell hcell']

/-- Corresponding objects that are allocated in both heaps. -/
theorem alloc (k : Kind) {fields fields' : Array Value}
    (hfields : List.Forall₂ (Mirror h h') fields.toList fields'.toList) :
    Mirror (h.alloc k fields).2 (h'.alloc k fields').2 (.ref k h.cells.size)
      (.ref k h'.cells.size) := by
  refine ofCells (cells_alloc_self h k fields) (cells_alloc_self h' k fields') rfl ?_
  exact hfields.imp fun _ _ hv => hv.grow (.alloc _ _ (.refl _)) (.alloc _ _ (.refl _))

end Mirror

end Zinc.Heap
