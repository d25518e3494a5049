import Zinc.Proofs.Heap.Shows
import Zinc.Proofs.Session.Acyclic
import Zinc.Yaml.Parser

/-!
The text of data says what the data is.  Two values without closures, of one session or of
two, at whatever moments, are shown as the same text exactly when they are structurally
equal.
-/

namespace Zinc.Session

/-- Values made of integers and tuples are shown as the same text if and only if they are
the same integers, or tuples of the same length with fields that are equal in this sense. -/
theorem inspect_is_faithful [Yaml.Parser] {x x' : Machine} (hx : Arises x) (hx' : Arises x')
    {v v' : Value} (hv : x.heap.ClosureFree v) (hv' : x'.heap.ClosureFree v') :
    x.inspect v = x'.inspect v' ↔ x.heap.Alike x'.heap v v' :=
  Heap.inspect_eq_iff hx.ordered hx'.ordered hv hv'

/-- Two tuples of a pair and the empty tuple, and a tuple of three fields whose text has the
same numerals. -/
theorem inspect_is_faithful_nested :
    let code : Code := ⟨(Instr.encodeAll [
      .int64 1, .push, .int64 2, .push, .makeBlock 2, .push, .makeBlock 0, .push, .makeBlock 2,
      .int64 1, .push, .int64 2, .push, .makeBlock 0, .push, .makeBlock 3,
      .int64 1, .push, .int64 2, .push, .makeBlock 2, .push, .makeBlock 0, .push, .makeBlock 2,
      .ret]).toArray⟩
    ∃ x ∈ (fresh 0 {} none none 26).passes [.overwrite code, .runEntry 0],
      x.inspect (.ref .tuple 3) = "((1, 2), ())" ∧
      x.heap.Alike x.heap (.ref .tuple 3) (.ref .tuple 8) ∧
      ¬ x.heap.Alike x.heap (.ref .tuple 3) (.ref .tuple 5) := by
  intro code
  have hany : ((fresh 0 {} none none 26).passes [.overwrite code, .runEntry 0]).any (fun x =>
      x.heap.fields 1 = #[.int 1, .int 2] ∧ x.heap.fields 2 = #[] ∧
      x.heap.fields 3 = #[.ref .tuple 1, .ref .tuple 2] ∧
      x.heap.fields 4 = #[] ∧ x.heap.fields 5 = #[.int 1, .int 2, .ref .tuple 4] ∧
      x.heap.fields 6 = #[.int 1, .int 2] ∧ x.heap.fields 7 = #[] ∧
      x.heap.fields 8 = #[.ref .tuple 6, .ref .tuple 7] ∧
      x.inspect (.ref .tuple 3) = "((1, 2), ())" ∧
      x.inspect (.ref .tuple 5) = "(1, 2, ())" ∧
      x.inspect (.ref .tuple 8) = "((1, 2), ())") = true := by
    decide +kernel
  obtain ⟨x, hx, hfound⟩ := List.any_eq_true.1 hany
  obtain ⟨h1, h2, h3, h4, h5, h6, h7, h8, htext, hother, hsame⟩ := of_decide_eq_true hfound
  have harises : Arises x := ⟨0, {}, none, none, 26, _, hx⟩
  have hfree {a : Nat} {fields : Array Value} (heq : x.heap.fields a = fields)
      (hall : ∀ w ∈ fields, x.heap.ClosureFree w) : x.heap.ClosureFree (.ref .tuple a) :=
    Heap.closureFree_tuple fun w hw => hall w (heq ▸ hw)
  have hint := Heap.closureFree_int x.heap
  have hpair := hfree h3 (by simp [hfree h1 (by simp [hint]), hfree h2 (by simp)])
  have hthree := hfree h5 (by simp [hint, hfree h4 (by simp)])
  have hcopy := hfree h8 (by simp [hfree h6 (by simp [hint]), hfree h7 (by simp)])
  refine ⟨x, hx, htext, ?_, ?_⟩
  · exact (inspect_is_faithful harises harises hpair hcopy).1 (htext.trans hsame.symm)
  · rw [← inspect_is_faithful harises harises hpair hthree, htext, hother]
    decide

end Zinc.Session
