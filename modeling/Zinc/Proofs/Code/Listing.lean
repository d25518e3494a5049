import Zinc.Proofs.Code.Bodies
import Zinc.Proofs.Code.Line

/-!
The listing of balanced code.  It keeps the ends of the bodies that have been opened on a
stack and drops those that have been passed when it comes to the next instruction.  So what
it keeps while it goes through a body is what it has kept before and the end of the body,
and there are as many ends as bodies around an instruction.
-/

namespace Zinc

/-- The lines of instructions that have `outer` bodies around all of them at an offset. -/
def Instr.lines (nameOf : Nat → Option String) (outer : Nat → Nat)
    (instrs : List (Nat × Instr)) : List String :=
  instrs.map fun p => line nameOf (outer p.1 + depthAt instrs p.1) p

section

variable {o k e : Nat} {ends : List Nat}

/-- Ends that have been passed are not met again. -/
theorem stillOpen_stillOpen (hle : o ≤ k) (ends : List Nat) :
    stillOpen k (stillOpen o ends) = stillOpen k ends := by
  induction ends with
  | nil => rfl
  | cons e ends ih =>
      by_cases he : e ≤ o
      · have hk : e ≤ k := Nat.le_trans he hle
        simpa [stillOpen, he, hk] using ih
      · simp [stillOpen, he]

theorem stillOpen_eq_self (hlt : ∀ e ∈ ends, k < e) : stillOpen k ends = ends := by
  cases ends with
  | nil => rfl
  | cons e ends =>
      have he := hlt e List.mem_cons_self
      simp [stillOpen, Nat.not_le.2 he]

theorem stillOpen_cons_of_le (hle : e ≤ k) : stillOpen k (e :: ends) = stillOpen k ends := by
  simp [stillOpen, hle]

/-- The end of a body that is opened inside others counts once while it is not passed. -/
theorem length_stillOpen_cons (hopen : ∀ e' ∈ stillOpen o ends, e ≤ e') (hle : o ≤ k)
    (hlt : k < e) :
    (stillOpen k (e :: stillOpen o ends)).length = (stillOpen k ends).length + 1 := by
  have hlater : ∀ e' ∈ e :: stillOpen o ends, k < e' := by
    intro e' he
    rcases List.mem_cons.1 he with rfl | he
    · exact hlt
    · exact Nat.lt_of_lt_of_le hlt (hopen e' he)
  have hrest : stillOpen k ends = stillOpen o ends := by
    rw [← stillOpen_stillOpen hle]
    exact stillOpen_eq_self fun e' he => hlater e' (List.mem_cons_of_mem _ he)
  rw [stillOpen_eq_self hlater, hrest, List.length_cons]

theorem stillOpen_sublist (k : Nat) (ends : List Nat) : (stillOpen k ends).Sublist ends :=
  List.dropWhile_sublist _

/-- Where the ends are in order, none of those that are open has been passed. -/
theorem lt_of_mem_stillOpen (hsorted : ends.Pairwise (· ≤ ·)) (he : e ∈ stillOpen k ends) :
    k < e := by
  induction ends with
  | nil => exact absurd he List.not_mem_nil
  | cons e' ends ih =>
      obtain ⟨hfirst, hsorted⟩ := List.pairwise_cons.1 hsorted
      by_cases hpassed : e' ≤ k
      · rw [stillOpen_cons_of_le hpassed] at he
        exact ih hsorted he
      · have hlater : ∀ e ∈ e' :: ends, k < e := by
          intro e he
          rcases List.mem_cons.1 he with rfl | he
          · exact Nat.lt_of_not_le hpassed
          · exact Nat.lt_of_lt_of_le (Nat.lt_of_not_le hpassed) (hfirst e he)
        rw [stillOpen_eq_self hlater] at he
        exact hlater e he

/-- Ends of bodies around code from one offset to another, which are in order and none of
which is inside the code. -/
structure EndsAround (ends : List Nat) (start stop : Nat) : Prop where
  sorted : ends.Pairwise (· ≤ ·)
  outside : ∀ e ∈ ends, e ≤ start ∨ stop ≤ e

namespace EndsAround

variable {start stop start' stop' : Nat}

/-- The ends around code are around each part of it. -/
theorem part (h : EndsAround ends start stop) (hstart : start ≤ start') (hstop : stop' ≤ stop) :
    EndsAround ends start' stop' where
  sorted := h.sorted
  outside e he := by
    rcases h.outside e he with hbefore | hbehind
    · exact Or.inl (Nat.le_trans hbefore hstart)
    · exact Or.inr (Nat.le_trans hstop hbehind)

/-- The ends that are open where the code starts are those of bodies around all of it. -/
theorem le_of_mem_stillOpen (h : EndsAround ends start stop) (he : e ∈ stillOpen start ends) :
    stop ≤ e := by
  have hopen : start < e := lt_of_mem_stillOpen h.sorted he
  rcases h.outside e ((stillOpen_sublist start ends).subset he) with hbefore | hbehind
  · exact absurd hbefore (Nat.not_le.2 hopen)
  · exact hbehind

/-- The code of a closure is inside the bodies that are open and its own. -/
theorem push (h : EndsAround ends start stop) :
    EndsAround (stop :: stillOpen start ends) start stop where
  sorted := List.pairwise_cons.2
    ⟨fun e he => h.le_of_mem_stillOpen he, h.sorted.sublist (stillOpen_sublist start ends)⟩
  outside e he := by
    rcases List.mem_cons.1 he with rfl | he
    · exact Or.inr (Nat.le_refl _)
    · exact Or.inr (h.le_of_mem_stillOpen he)

end EndsAround

end

variable {nameOf : Nat → Option String}

/-- Only the ends that are still open matter to a listing. -/
theorem listingFrom_congr {o : Nat} {ends ends' : List Nat}
    (h : stillOpen o ends = stillOpen o ends') (out : String) (is : List Instr) :
    listingFrom nameOf out ends (Instr.placed o is) =
      listingFrom nameOf out ends' (Instr.placed o is) := by
  cases is with
  | nil => rfl
  | cons i is =>
      rw [Instr.placed_cons]
      unfold listingFrom
      rw [h]

open Instr

theorem listingFrom_single {i : Instr} (hi : i.opensBody = false) (o : Nat) (out : String)
    (ends : List Nat) (rest : List (Nat × Instr)) :
    listingFrom nameOf out ends ((o, i) :: rest) =
      listingFrom nameOf (out ++ line nameOf (stillOpen o ends).length (o, i))
        (stillOpen o ends) rest := by
  rw [← line_eq]
  cases i with
  | closure length => cases hi
  | _ => rfl

theorem listingFrom_closure (length : UInt16) (o : Nat) (out : String) (ends : List Nat)
    (rest : List (Nat × Instr)) :
    listingFrom nameOf out ends ((o, .closure length) :: rest) =
      listingFrom nameOf (out ++ line nameOf (stillOpen o ends).length (o, .closure length))
        ((o + 3 + length.toNat) :: stillOpen o ends) rest := by
  rw [← line_eq]
  rfl

/-- The lines of code are those of its first part and then those of its second part, in each
of which the bodies of the other part do not count. -/
theorem lines_append {is js : List Instr} (his : Balanced is) (hjs : Balanced js) (o : Nat)
    (outer : Nat → Nat) :
    lines nameOf outer (placed o (is ++ js)) =
      lines nameOf outer (placed o is) ++ lines nameOf outer (placed (o + sizeAll is) js) := by
  have hdepth (k : Nat) : depthAt (placed o (is ++ js)) k =
      depthAt (placed o is) k + depthAt (placed (o + sizeAll is) js) k := by
    rw [placed_append, depthAt, List.countP_append]
    rfl
  rw [lines, placed_append, List.map_append, ← placed_append, lines, lines]
  refine congr (congrArg _ (List.map_congr_left fun p hp => ?_))
    (List.map_congr_left fun p hp => ?_)
  · have hbounds := bounds_of_mem_placed hp
    rw [hdepth, hjs.depthAt_eq_zero (k := p.1) (by omega), Nat.add_zero]
  · have hbounds := bounds_of_mem_placed hp
    rw [hdepth, his.depthAt_eq_zero (k := p.1) (by omega), Nat.zero_add]

theorem lines_single {i : Instr} (hi : i.opensBody = false) (o : Nat) (outer : Nat → Nat) :
    lines nameOf outer (placed o [i]) = [line nameOf (outer o) (o, i)] := by
  have hdepth : depthAt (placed o [i]) o = 0 :=
    (Balanced.single hi).depthAt_eq_zero (Or.inl (Nat.le_refl o))
  rw [placed_cons, placed_nil] at hdepth ⊢
  rw [lines, List.map_singleton, hdepth, Nat.add_zero]

/-- The lines of a closure are one for it and those of its body, where there is one body more
around all instructions. -/
theorem lines_closure {length : UInt16} {body : List Instr}
    (hlength : length.toNat = sizeAll body) (hbody : Balanced body) (o : Nat)
    {outer inner : Nat → Nat} (hinner : ∀ k, o + 3 ≤ k → k < o + 3 + length.toNat →
      inner k = outer k + 1) :
    lines nameOf outer (placed o (.closure length :: body)) =
      line nameOf (outer o) (o, .closure length) :: lines nameOf inner (placed (o + 3) body) := by
  have hdepth : depthAt (placed o (.closure length :: body)) o = 0 :=
    (Balanced.closure hlength hbody).depthAt_eq_zero (Or.inl (Nat.le_refl o))
  rw [lines, placed_cons, List.map_cons, ← placed_cons, hdepth, Nat.add_zero]
  apply congrArg
  apply List.map_congr_left
  rintro ⟨k, i⟩ hp
  have hbounds := bounds_of_mem_placed hp
  have hstart : o + 3 ≤ k := hbounds.1
  have hend : k < o + 3 + length.toNat := by
    have hsize : (Instr.closure length).size = 3 := rfl
    have hi := i.size_pos
    omega
  have hin : bodyHas k (o, .closure length) = true := bodyHas_iff.2 ⟨o, length, rfl, hstart, hend⟩
  have hmore : depthAt (placed o (.closure length :: body)) k =
      depthAt (placed (o + 3) body) k + 1 := by
    rw [placed_cons, depthAt, List.countP_cons, if_pos hin]
    rfl
  rw [hmore, hinner k hstart hend, Nat.add_right_comm, Nat.add_assoc]

/-- A listing gives each instruction of balanced code a line, indented by the number of ends
that were open before and of bodies around it, and goes on with the ends from before. -/
theorem Balanced.listingFrom_eq {is : List Instr} (h : Balanced is) {o : Nat} {ends : List Nat}
    (hends : EndsAround ends o (o + sizeAll is)) (out : String) (js : List Instr) :
    listingFrom nameOf out ends (placed o (is ++ js)) =
      listingFrom nameOf (out ++ String.join (lines nameOf
        (fun k => (stillOpen k ends).length) (placed o is))) ends
        (placed (o + sizeAll is) js) := by
  induction h generalizing o ends out js with
  | nil => simp [lines]
  | @single i hi =>
      have hnext : stillOpen (o + i.size) (stillOpen o ends) = stillOpen (o + i.size) ends :=
        stillOpen_stillOpen (Nat.le_add_right o i.size) ends
      rw [List.singleton_append, placed_cons, listingFrom_single hi, lines_single hi,
        listingFrom_congr hnext]
      simp
  | @append is₁ is₂ h₁ h₂ ih₁ ih₂ =>
      rw [sizeAll_append, ← Nat.add_assoc] at hends
      have hends₁ : EndsAround ends o (o + sizeAll is₁) :=
        hends.part (Nat.le_refl o) (Nat.le_add_right _ _)
      have hends₂ : EndsAround ends (o + sizeAll is₁) (o + sizeAll is₁ + sizeAll is₂) :=
        hends.part (Nat.le_add_right _ _) (Nat.le_refl _)
      rw [List.append_assoc, ih₁ hends₁, ih₂ hends₂, String.append_assoc,
        ← String.join_append, ← lines_append h₁ h₂, sizeAll_append, Nat.add_assoc]
  | @closure length body hlength hbody ih =>
      rw [add_sizeAll_closure, ← hlength] at hends ⊢
      have hinner : ∀ k, o + 3 ≤ k → k < o + 3 + length.toNat →
          (stillOpen k ((o + 3 + length.toNat) :: stillOpen o ends)).length =
            (stillOpen k ends).length + 1 := by
        intro k hstart hend
        apply length_stillOpen_cons _ (Nat.le_of_add_right_le hstart) hend
        exact fun e he => hends.le_of_mem_stillOpen he
      -- behind the body its end has been passed, and so are those that the body has passed
      have hnext : stillOpen (o + 3 + length.toNat)
          ((o + 3 + length.toNat) :: stillOpen o ends) =
            stillOpen (o + 3 + length.toNat) ends := by
        rw [stillOpen_cons_of_le (Nat.le_refl _)]
        exact stillOpen_stillOpen (by omega) ends
      have hbodyEnds : EndsAround ((o + 3 + length.toNat) :: stillOpen o ends) (o + 3)
          (o + 3 + sizeAll body) := by
        rw [← hlength]
        exact hends.push.part (Nat.le_add_right o 3) (Nat.le_refl _)
      have hlist := ih hbodyEnds
        (out ++ line nameOf (stillOpen o ends).length (o, .closure length)) js
      rw [← hlength] at hlist
      have hfirst : o + (Instr.closure length).size = o + 3 := rfl
      rw [List.cons_append, placed_cons, listingFrom_closure, hfirst, hlist,
        lines_closure hlength hbody o hinner, String.join_cons, ← String.append_assoc,
        listingFrom_congr hnext]

/-- The listing of balanced code has one line for each instruction, in order, indented by the
number of bodies around it. -/
theorem Balanced.listing_eq {is : List Instr} (h : Balanced is) (o : Nat) (title : String) :
    Decoded.listing ⟨placed o is, none⟩ nameOf title =
      "== " ++ title ++ " ==\n" ++ String.join ((placed o is).map fun p =>
        line nameOf (depthAt (placed o is) p.1) p) := by
  have hends : EndsAround [] o (o + sizeAll is) := ⟨.nil, List.forall_mem_nil _⟩
  have hlist := @Balanced.listingFrom_eq nameOf is h o [] hends ("== " ++ title ++ " ==\n") []
  rw [List.append_nil, lines] at hlist
  rw [Decoded.listing, hlist]
  simp [stillOpen, listingFrom]

end Zinc
