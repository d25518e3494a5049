import Mathlib
import Zinc.Proofs.Heap.Collect

/-!
A collection keeps exactly what can be reached.  Marking takes up one pending value after
the other and comes to an end; it leaves alone whatever lies outside of a closed set around
the pending values, so nothing but the objects in use is marked.  The sweep counts what it
releases.  All of this holds for every heap that allocations, tags, writes to fields and
earlier collections can make, with cycles and with references to released objects.
-/

namespace Zinc.Heap

/-- One turn of the marking loop: a pending value is taken up, and if it leads to a white
cell, the cell is blackened and its fields are pending from then on. -/
def markStep : Array Cell × List Value → Array Cell × List Value
  | (cells, []) => (cells, [])
  | (cells, v :: rest) =>
    match v.address? with
    | none => (cells, rest)
    | some a =>
      if h : a < cells.size then
        if cells[a].mark = .white then
          (cells.set a { cells[a] with mark := .black }, cells[a].fields.toList ++ rest)
        else (cells, rest)
      else (cells, rest)

/-- The number of fields of white cells. -/
def unscanned (cells : List Cell) : Nat :=
  ((cells.filter fun c => c.mark == .white).map fun c => c.fields.size).sum

theorem unscanned_set_black {cells : List Cell} {a : Nat} {c : Cell}
    (hcell : cells[a]? = some c) (hwhite : c.mark = .white) :
    unscanned (cells.set a { c with mark := .black }) + c.fields.size =
      unscanned cells := by
  induction cells generalizing a with
  | nil => simp at hcell
  | cons first rest ih =>
      cases a with
      | zero =>
          obtain rfl : first = c := by simpa using hcell
          simp [unscanned, hwhite]
          omega
      | succ a =>
          have hrest := ih (a := a) (by simpa using hcell)
          simp only [unscanned, List.set_cons_succ, List.filter_cons] at hrest ⊢
          split
          · simp only [List.map_cons, List.sum_cons]
            omega
          · exact hrest

/-- Marking is over after as many turns as there are pending values and fields of white
cells, at most. -/
theorem exists_iterate_markStep (cells : Array Cell) (pending : List Value) :
    ∃ n ≤ pending.length + unscanned cells.toList,
      markStep^[n] (cells, pending) = (markFrom cells pending, []) := by
  -- one turn more in front of those that are known to do
  have turn {cells cells' : Array Cell} {v : Value} {rest rest' : List Value} {bound : Nat}
      (hstep : markStep (cells, v :: rest) = (cells', rest'))
      (hdone : ∃ n ≤ bound, markStep^[n] (cells', rest') = (markFrom cells' rest', [])) :
      ∃ n ≤ bound + 1, markStep^[n] (cells, v :: rest) = (markFrom cells' rest', []) := by
    obtain ⟨n, hle, hn⟩ := hdone
    exact ⟨n + 1, Nat.succ_le_succ hle, by rw [Function.iterate_succ_apply, hstep, hn]⟩
  fun_induction markFrom cells pending with
  | case1 cells => exact ⟨0, Nat.zero_le _, rfl⟩
  | case2 cells v rest hv ih =>
      have hstep : markStep (cells, v :: rest) = (cells, rest) := by simp [markStep, hv]
      obtain ⟨n, hle, hn⟩ := turn hstep ih
      exact ⟨n, by simp only [List.length_cons]; omega, hn⟩
  | case3 cells v rest a hv ha white ih =>
      have hcell : cells.toList[a]? = some cells[a] := by
        rw [Array.getElem?_toList, Array.getElem?_eq_getElem ha]
      have hunscanned := unscanned_set_black hcell white
      have hstep : markStep (cells, v :: rest) =
          (cells.set a { cells[a] with mark := .black },
            cells[a].fields.toList ++ rest) := by simp [markStep, hv, ha, white]
      rw [Array.toListAppend_eq] at ih ⊢
      obtain ⟨n, hle, hn⟩ := turn hstep ih
      refine ⟨n, ?_, hn⟩
      simp only [Array.toList_set, List.length_append, Array.length_toList,
        List.length_cons] at hle ⊢
      omega
  | case4 cells v rest a hv ha white ih =>
      have hstep : markStep (cells, v :: rest) = (cells, rest) := by
        simp [markStep, hv, ha, white]
      obtain ⟨n, hle, hn⟩ := turn hstep ih
      exact ⟨n, by simp only [List.length_cons]; omega, hn⟩
  | case5 cells v rest a hv ha ih =>
      have hstep : markStep (cells, v :: rest) = (cells, rest) := by
        simp [markStep, hv, ha]
      obtain ⟨n, hle, hn⟩ := turn hstep ih
      exact ⟨n, by simp only [List.length_cons]; omega, hn⟩

/-- Marking leaves alone what lies outside of a closed set around the pending values. -/
theorem markFrom_outside {S : Nat → Prop} (cells : Array Cell) (pending : List Value)
    (hclosed : ∀ (a : Nat) (c : Cell), S a → cells[a]? = some c →
      ∀ v ∈ c.fields, v.Within S)
    (hpending : ∀ v ∈ pending, v.Within S) {a : Nat} (ha : ¬ S a) :
    (markFrom cells pending)[a]? = cells[a]? := by
  fun_induction markFrom cells pending with
  | case1 cells => rfl
  | case2 cells v rest hv ih =>
      exact ih hclosed fun w hw => hpending w (List.mem_cons_of_mem v hw)
  | case3 cells v rest b hv hb white ih =>
      have hinside : S b := hpending v List.mem_cons_self b hv
      have hcell : cells[b]? = some cells[b] := Array.getElem?_eq_getElem hb
      have hne : b ≠ a := fun heq => ha (heq ▸ hinside)
      rw [ih ?_ ?_, Array.getElem?_set_ne hb hne]
      · intro d c hd hc
        by_cases hbd : b = d
        · subst hbd
          rw [Array.getElem?_set_self] at hc
          cases hc
          exact hclosed b cells[b] hinside hcell
        · rw [Array.getElem?_set_ne hb hbd] at hc
          exact hclosed d c hd hc
      · intro w hw
        rw [Array.toListAppend_eq] at hw
        rcases List.mem_append.1 hw with hw | hw
        · exact hclosed b _ hinside hcell w (Array.mem_toList_iff.1 hw)
        · exact hpending w (List.mem_cons_of_mem v hw)
  | case4 cells v rest b hv hb white ih =>
      exact ih hclosed fun w hw => hpending w (List.mem_cons_of_mem v hw)
  | case5 cells v rest b hv hb ih =>
      exact ih hclosed fun w hw => hpending w (List.mem_cons_of_mem v hw)

variable {h : Heap} {roots : List Value} {a : Nat}

/-- An object that cannot be reached is not marked. -/
theorem markFrom_of_not_reach (hout : ¬ h.Reach roots a) :
    (markFrom h.cells roots)[a]? = h.cells[a]? := by
  refine markFrom_outside h.cells roots (fun b c hb hc v hv => ?_)
    (fun v hv => within_reach hv) hout
  refine closed_reach h roots b hb v ?_
  rwa [fields_of_cell hc]

/-- Of the live objects, those that can be reached are marked. -/
theorem Tidy.isBlack_iff (htidy : h.Tidy) (ha : a ∈ h.live) :
    isBlack (markFrom h.cells roots) a = true ↔ h.Reach roots a := by
  obtain ⟨c, hcell, hwhite⟩ := (htidy.live_iff a).1 ha
  constructor
  · intro hblack
    by_contra hout
    rw [isBlack, markFrom_of_not_reach hout, hcell] at hblack
    simp [hwhite] at hblack
  · intro hreach
    rcases markFrom_cell h.cells roots a with heq | ⟨_, _, _, hblack⟩
    · exact absurd ⟨c, heq.trans hcell, hwhite⟩ (htidy.marked_of_reach hreach)
    · simp [isBlack, hblack]

theorem Tidy.mem_live_collect (htidy : h.Tidy) :
    a ∈ (h.collect roots).2.live ↔ a ∈ h.live ∧ h.Reach roots a := by
  rw [htidy.live_collect, List.mem_filter]
  exact and_congr_right htidy.isBlack_iff

theorem Sweep.freed_visit (s : Sweep) (a : Nat) :
    (s.visit a).freed = if isBlack s.cells a then s.freed else s.freed + 1 := by
  cases hmark : s.cells[a]?.map Cell.mark with
  | none => simp [Sweep.visit, isBlack, hmark]
  | some mark => cases mark <;> simp [Sweep.visit, isBlack, hmark]

/-- Each object that a sweep goes through is kept or counted as released. -/
theorem Sweep.freed_foldl (live : List Nat) (s : Sweep) :
    (live.foldl Sweep.visit s).freed + (live.foldl Sweep.visit s).kept.length =
      s.freed + s.kept.length + live.length := by
  induction live generalizing s with
  | nil => rfl
  | cons a rest ih =>
      rw [List.foldl_cons, ih, Sweep.freed_visit, Sweep.kept_visit]
      split
      · simp only [List.length_cons]
        omega
      · simp only [List.length_cons]
        omega

theorem freed_collect (h : Heap) (roots : List Value) :
    (h.collect roots).1 + (h.collect roots).2.live.length = h.live.length := by
  have hsweep := Sweep.freed_foldl h.live { cells := markFrom h.cells roots }
  rw [collect]
  simpa using hsweep

/-- The answer of a collection is the number of live objects that it has released. -/
theorem Tidy.freed_eq (htidy : h.Tidy) (roots : List Value) :
    (h.collect roots).1 =
      (h.live.filter fun a => a ∉ (h.collect roots).2.live).length := by
  have hsplit := List.length_eq_length_filter_add (l := h.live)
    (isBlack (markFrom h.cells roots))
  have hsame : (h.live.filter fun a => a ∉ (h.collect roots).2.live) =
      h.live.filter fun a => !isBlack (markFrom h.cells roots) a := by
    refine List.filter_congr fun a ha => ?_
    rw [htidy.live_collect]
    simp [ha]
  have hcount := freed_collect h roots
  rw [hsame]
  rw [htidy.live_collect] at hcount
  omega

/-- Whatever is not live after a collection has been released. -/
theorem Tidy.released (htidy : h.Tidy) {c : Cell}
    (hcell : (h.collect roots).2.cells[a]? = some c)
    (hnot : a ∉ (h.collect roots).2.live) : c = Cell.poisoned := by
  refine (htidy.collect roots).dead a c hcell fun hwhite => hnot ?_
  exact ((htidy.collect roots).live_iff a).2 ⟨c, hcell, hwhite⟩

/-- After a collection there is nothing left to release. -/
theorem Tidy.collect_again (htidy : h.Tidy) (roots : List Value) :
    ((h.collect roots).2.collect roots).1 = 0 := by
  have hagain := (htidy.collect roots).freed_eq roots
  rw [hagain, List.length_eq_zero_iff, List.filter_eq_nil_iff]
  intro a ha
  have hreach := (htidy.collect_keeps roots).reach (htidy.mem_live_collect.1 ha).2
  have hkept := (htidy.collect roots).mem_live_collect.2 ⟨ha, hreach⟩
  simpa using hkept

theorem Tidy.live_iff_not_freed (htidy : h.Tidy) :
    a ∈ h.live ↔ ∃ c, h.cells[a]? = some c ∧ c.mark ≠ .freed := by
  rw [htidy.live_iff]
  refine exists_congr fun c => and_congr_right fun hcell => ?_
  constructor
  · intro hwhite
    simp [hwhite]
  · intro hmark
    by_contra hdead
    rw [htidy.dead a c hcell hdead] at hmark
    exact hmark rfl

/-- A heap that allocations, tags and fields of live objects, collections and the release
of everything can make. -/
inductive Built : Heap → Prop where
  | empty : Built {}
  | allocate {h h' : Heap} {n : Int} {a : Nat} :
      Built h → h.allocate n = .ok (a, h') → Built h'
  | setTag {h h' : Heap} {a : Nat} {tag : Kind} :
      Built h → a ∈ h.live → h.setTag? a tag = some h' → Built h'
  | setField {h h' : Heap} {a i : Nat} {v : Value} :
      Built h → a ∈ h.live → h.setField? a i v = some h' → Built h'
  | collect {h : Heap} (roots : List Value) : Built h → Built (h.collect roots).2
  | destroyAll {h : Heap} : Built h → Built h.destroyAll

/-- A live object may be changed in any way but in its mark. -/
theorem Tidy.modify (htidy : h.Tidy) (ha : a ∈ h.live) {f : Cell → Cell}
    (hf : ∀ c, (f c).mark = c.mark) :
    Tidy { h with cells := h.cells.modify a f } where
  nodup := htidy.nodup
  live_iff b := by
    rw [htidy.live_iff, Array.getElem?_modify]
    split
    · simp [hf]
    · rfl
  dead b c hcell hmark := by
    rw [Array.getElem?_modify] at hcell
    split at hcell
    · rename_i hab
      subst hab
      obtain ⟨c', hc', hwhite⟩ := (htidy.live_iff a).1 ha
      rw [hc'] at hcell
      cases hcell
      rw [hf] at hmark
      exact absurd hwhite hmark
    · exact htidy.dead b c hcell hmark

theorem Built.tidy (hbuilt : h.Built) : h.Tidy := by
  induction hbuilt with
  | empty => exact tidy_empty
  | allocate _ hallocate ih =>
      rw [Heap.allocate] at hallocate
      split at hallocate
      · cases hallocate
      · cases hallocate
        exact ih.alloc _ _
  | setTag _ ha hset ih =>
      rw [setTag?] at hset
      split at hset
      · cases hset
        exact ih.modify ha fun _ => rfl
      · cases hset
  | setField _ ha hset ih =>
      rw [setField?] at hset
      split at hset
      · cases hset
        exact ih.modify ha fun _ => rfl
      · cases hset
  | collect roots _ ih => exact ih.collect roots
  | destroyAll _ ih => exact ih.destroyAll

end Zinc.Heap
