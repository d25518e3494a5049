import Zinc.Code.Listing
import Zinc.Proofs.Code.Format
import Zinc.Proofs.Code.Generate

/-!
How the bodies of closures lie in code.  Generated code is balanced: right after an
instruction that builds a closure stands code that is balanced again and as long as the
instruction says.  So any two bodies lie apart or one in the other, each of them ends where
an instruction ends, and a listing that keeps the ends of the open bodies on a stack indents
every line by the number of bodies around it.
-/

namespace Zinc

/-- An instruction that builds a closure. -/
def Instr.opensBody : Instr → Bool
  | .closure _ => true
  | _ => false

/-- Code in which every instruction that builds a closure is followed by a whole body. -/
inductive Balanced : List Instr → Prop where
  | nil : Balanced []
  | single {i : Instr} : i.opensBody = false → Balanced [i]
  | append {is js : List Instr} : Balanced is → Balanced js → Balanced (is ++ js)
  | closure {length : UInt16} {body : List Instr} :
      length.toNat = Instr.sizeAll body → Balanced body → Balanced (.closure length :: body)

theorem Balanced.cons {i : Instr} {is : List Instr} (hi : i.opensBody = false) (his : Balanced is) :
    Balanced (i :: is) :=
  .append (.single hi) his

theorem Balanced.snoc {i : Instr} {is : List Instr} (his : Balanced is) (hi : i.opensBody = false) :
    Balanced (is ++ [i]) :=
  .append his (.single hi)

namespace Lir

variable {slot : Symbol → Option Nat} {p : Position} {code : List Instr}

theorem balanced_settle (h : Balanced code) (p : Position) : Balanced (settle p code) := by
  cases p with
  | value => exact h
  | head => exact h
  | tail => exact h.snoc rfl

theorem balanced_closeCall (h : Balanced code) (p : Position) : Balanced (closeCall p code) := by
  cases p with
  | value => exact (h.cons rfl).snoc rfl
  | head => exact h
  | tail => exact h.snoc rfl

theorem balanced_closeOver {body : List Instr} (hbody : Balanced body)
    (hclose : closeOver p body = .ok code) : Balanced code := by
  have hvalue (hclose : closeOver .value body = .ok code) : Balanced code := by
    obtain ⟨length, hlength, rfl⟩ := closeOver_value hclose
    exact .closure hlength hbody
  cases p with
  | value => exact hvalue hclose
  | head => exact hvalue hclose
  | tail =>
      cases hclose
      exact hbody

mutual

/-- The code of an expression is balanced. -/
theorem balanced_generate : (e : Lir) → (scope : List Nat) → (p : Position) →
    (code : List Instr) → (generate slot scope p e).code = .ok code → Balanced code
  | .int value, scope, p, code, h => by
      rw [generate_int h]
      exact balanced_settle (.single rfl) p
  | .var origin depth, scope, p, code, h => by
      obtain ⟨index, hindex, hmax, rfl⟩ := generate_var h
      exact balanced_settle (.single rfl) p
  | .global symbol, scope, p, code, h => by
      obtain ⟨i, hi, rfl⟩ := generate_global h
      exact balanced_settle (.single rfl) p
  | .app fn arg, scope, p, code, h => by
      obtain ⟨argCode, fnCode, harg, hfn, rfl⟩ := generate_app h
      have hfn := balanced_generate fn scope .head fnCode hfn
      have harg := balanced_generate arg scope .value argCode harg
      exact balanced_closeCall (harg.append (hfn.cons rfl)) p
  | .lam id body, scope, p, code, h => by
      obtain ⟨bodyCode, hbody, hclose⟩ := generate_lam h
      have hbody := balanced_generate body (id :: scope) .tail bodyCode hbody
      exact balanced_closeOver (hbody.cons rfl) hclose
  | .letIn id value body, scope, p, code, h => by
      obtain ⟨valueCode, bodyCode, hvalue, hbody, rfl⟩ := generate_letIn h
      have hvalue := balanced_generate value scope .value valueCode hvalue
      have hbody := balanced_generate body (id :: scope) p.ofBody bodyCode hbody
      exact (hvalue.append (hbody.cons rfl)).snoc rfl
  | .block kind fields, scope, p, code, h => by
      obtain ⟨fieldsCode, hmax, hfields, rfl⟩ := generate_block h
      obtain ⟨new, rfl, hnew⟩ := balanced_generateFields fields scope [] [] fieldsCode hfields
      exact balanced_settle (hnew.snoc rfl) p
  | .missing, scope, p, code, h => absurd h generate_missing

theorem balanced_generateFields : (fields : List Lir) → (scope : List Nat) →
    (done : List Lir) → (before code : List Instr) →
      (generateFields slot scope fields done before).2 = .ok code →
        ∃ new, code = before.reverse ++ new ∧ Balanced new
  | [], scope, done, before, code, h => by
      rw [generateFields] at h
      cases h
      exact ⟨[], by simp, .nil⟩
  | field :: rest, scope, done, before, code, h => by
      obtain ⟨fieldCode, done', hfield, hrest⟩ := generateFields_cons h
      have hfield := balanced_generate field scope .value fieldCode hfield
      obtain ⟨new, rfl, hnew⟩ := balanced_generateFields rest scope done' _ code hrest
      exact ⟨fieldCode ++ .push :: new, by simp, hfield.append (hnew.cons rfl)⟩

end

theorem balanced_generateEntry {e : Lir} (h : (generateEntry slot e).code = .ok code) :
    Balanced code := by
  obtain ⟨valueCode, hvalue, rfl⟩ := generateEntry_eq_ok h
  exact (balanced_generate e [] .value valueCode hvalue).snoc rfl

theorem balanced_generateDefinition {s : Symbol} {e : Lir}
    (h : (generateDefinition slot s e).code = .ok code) : Balanced code := by
  obtain ⟨i, valueCode, hi, hvalue, rfl⟩ := generateDefinition_eq_ok h
  exact (balanced_generate e [] .value valueCode hvalue).append (.cons rfl (.single rfl))

end Lir

namespace Instr

variable {o k : Nat} {i : Instr} {is js : List Instr}

@[simp] theorem placed_nil (o : Nat) : placed o [] = [] := rfl

theorem placed_cons (o : Nat) (i : Instr) (is : List Instr) :
    placed o (i :: is) = (o, i) :: placed (o + i.size) is := by
  rw [placed, length_encode]

theorem placed_append (o : Nat) (is js : List Instr) :
    placed o (is ++ js) = placed o is ++ placed (o + sizeAll is) js := by
  induction is generalizing o with
  | nil => simp
  | cons i is ih =>
      rw [List.cons_append, placed_cons, placed_cons, ih, sizeAll_cons, Nat.add_assoc,
        List.cons_append]

/-- The code of a closure ends with its body, which stands behind its length. -/
theorem add_sizeAll_closure (o : Nat) (length : UInt16) (body : List Instr) :
    o + sizeAll (.closure length :: body) = o + 3 + sizeAll body := by
  rw [sizeAll_cons, ← Nat.add_assoc]
  rfl

/-- An instruction stands between the start and the end of the code. -/
theorem bounds_of_mem_placed (h : (k, i) ∈ placed o is) :
    o ≤ k ∧ k + i.size ≤ o + sizeAll is := by
  induction is generalizing o with
  | nil => exact absurd h List.not_mem_nil
  | cons j is ih =>
      rw [placed_cons] at h
      rw [sizeAll_cons]
      rcases List.mem_cons.1 h with heq | hmem
      · cases heq
        omega
      · have hbounds := ih hmem
        omega

/-- Where code starts there is an instruction, or the code ends. -/
theorem start_placed (o : Nat) (is : List Instr) :
    o = o + sizeAll is ∨ ∃ i, (o, i) ∈ placed o is := by
  cases is with
  | nil => exact Or.inl rfl
  | cons i is =>
      rw [placed_cons]
      exact Or.inr ⟨i, List.mem_cons_self⟩

/-- The instruction builds a closure, in the body of which there is the offset `k`. -/
def bodyHas (k : Nat) : Nat × Instr → Bool
  | (o, .closure length) => o + 3 ≤ k && k < o + 3 + length.toNat
  | _ => false

/-- In how many bodies of closures an offset is. -/
def depthAt (instrs : List (Nat × Instr)) (k : Nat) : Nat :=
  instrs.countP (bodyHas k)

theorem bodyHas_iff {p : Nat × Instr} : bodyHas k p = true ↔
    ∃ o length, p = (o, .closure length) ∧ o + 3 ≤ k ∧ k < o + 3 + length.toNat := by
  obtain ⟨o, i⟩ := p
  cases i with
  | closure length =>
      simp only [bodyHas, Bool.and_eq_true, decide_eq_true_eq]
      constructor
      · intro hin
        exact ⟨o, length, rfl, hin⟩
      · rintro ⟨_, _, heq, hin⟩
        cases heq
        exact hin
  | _ => simp [bodyHas]

end Instr

namespace Balanced

open Instr

variable {o k k' : Nat} {n n' : UInt16} {is : List Instr}

theorem not_mem_single {i : Instr} (hi : i.opensBody = false) :
    (k, Instr.closure n) ∉ placed o [i] := by
  intro hk
  rw [placed_cons, placed_nil, List.mem_singleton] at hk
  cases hk
  cases hi

/-- A body ends within the code, and an instruction starts there if it is not at the end. -/
theorem body_end (h : Balanced is) (hk : (k, .closure n) ∈ placed o is) :
    k + 3 + n.toNat ≤ o + sizeAll is ∧
      (k + 3 + n.toNat = o + sizeAll is ∨ ∃ i, (k + 3 + n.toNat, i) ∈ placed o is) := by
  induction h generalizing o with
  | nil => exact absurd hk List.not_mem_nil
  | single hi => exact absurd hk (not_mem_single hi)
  | @append is js _ _ ih ih' =>
      rw [placed_append] at hk ⊢
      rw [sizeAll_append]
      rcases List.mem_append.1 hk with hk | hk
      · obtain ⟨hle, hend⟩ := ih hk
        refine ⟨by omega, ?_⟩
        rcases hend with hend | ⟨i, hi⟩
        · -- a body that ends with the first part ends where the second one starts
          rw [hend, ← Nat.add_assoc]
          exact (start_placed (o + sizeAll is) js).imp_right fun ⟨i, hi⟩ =>
            ⟨i, List.mem_append_right _ hi⟩
        · exact Or.inr ⟨i, List.mem_append_left _ hi⟩
      · obtain ⟨hle, hend⟩ := ih' hk
        rw [← Nat.add_assoc]
        exact ⟨hle, hend.imp_right fun ⟨i, hi⟩ => ⟨i, List.mem_append_right _ hi⟩⟩
  | @closure length body hlength _ ih =>
      rw [add_sizeAll_closure]
      rw [placed_cons] at hk ⊢
      rcases List.mem_cons.1 hk with heq | hk
      · cases heq
        rw [hlength]
        exact ⟨Nat.le_refl _, Or.inl rfl⟩
      · obtain ⟨hle, hend⟩ := ih hk
        exact ⟨hle, hend.imp_right fun ⟨i, hi⟩ => ⟨i, List.mem_cons_of_mem _ hi⟩⟩

/-- Where an offset is in a body, it is in the code, and not at its start. -/
theorem bounds_of_bodyHas (h : Balanced is) {p : Nat × Instr} (hp : p ∈ placed o is)
    (hin : bodyHas k p = true) : o < k ∧ k < o + sizeAll is := by
  obtain ⟨q, length, rfl, hge, hlt⟩ := bodyHas_iff.1 hin
  have hbounds := bounds_of_mem_placed hp
  have hend := (h.body_end hp).1
  omega

theorem depthAt_eq_zero (h : Balanced is) (hout : k ≤ o ∨ o + sizeAll is ≤ k) :
    depthAt (placed o is) k = 0 := by
  rw [depthAt, List.countP_eq_zero]
  intro p hp hin
  have hbounds := h.bounds_of_bodyHas hp hin
  omega

/-- A body that starts inside another one ends inside it. -/
theorem body_nested (h : Balanced is) (hk : (k, .closure n) ∈ placed o is)
    (hk' : (k', .closure n') ∈ placed o is) (hin : bodyHas k (k', .closure n') = true) :
    k + 3 + n.toNat ≤ k' + 3 + n'.toNat := by
  induction h generalizing o with
  | nil => exact absurd hk List.not_mem_nil
  | single hi => exact absurd hk (not_mem_single hi)
  | append his hjs ih ih' =>
      rw [placed_append] at hk hk'
      rcases List.mem_append.1 hk with hk | hk
      · rcases List.mem_append.1 hk' with hk' | hk'
        · exact ih hk hk'
        · have hfirst := bounds_of_mem_placed hk
          have hsecond := hjs.bounds_of_bodyHas hk' hin
          have hpos := (Instr.closure n).size_pos
          omega
      · rcases List.mem_append.1 hk' with hk' | hk'
        · have hsecond := bounds_of_mem_placed hk
          have hfirst := his.bounds_of_bodyHas hk' hin
          omega
        · exact ih' hk hk'
  | @closure length body hlength hbody ih =>
      rw [placed_cons] at hk hk'
      rcases List.mem_cons.1 hk' with heq | hk'
      · cases heq
        rcases List.mem_cons.1 hk with heq | hk
        · cases heq
          exact Nat.le_refl _
        · have hend := (hbody.body_end hk).1
          rw [hlength]
          exact hend
      · rcases List.mem_cons.1 hk with heq | hk
        · cases heq
          have hinner := hbody.bounds_of_bodyHas hk' hin
          omega
        · exact ih hk hk'

end Balanced

end Zinc
