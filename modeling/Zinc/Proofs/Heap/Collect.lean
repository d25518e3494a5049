import Zinc.Proofs.Heap.Reach

/-!
What a collection keeps.  Marking never changes an object beyond its mark, and when
it is over no field of a marked object leads to an unmarked one; so every object in
use is marked.  The sweep then unmarks what is marked and empties the rest of the
live list.  Together: a collection of a tidy heap leaves every object in use exactly
as it was.
-/

namespace Zinc

/-- What a sweep makes of an object on the live list. -/
def Cell.swept (c : Cell) : Cell :=
  if c.mark = .black then { c with mark := .white } else .poisoned

theorem Cell.swept_mark (c : Cell) :
    c.swept.mark = .white ↔ c.mark = .black := by
  rw [Cell.swept]
  split <;> simp_all [Cell.poisoned]

theorem Cell.swept_dead {c : Cell} (h : c.swept.mark ≠ .white) :
    c.swept = .poisoned := by
  rw [Ne, Cell.swept_mark] at h
  rw [Cell.swept, if_neg h]

namespace Heap

/-- The object at `a` has not been reached yet. -/
def Unmarked (cells : Array Cell) (a : Nat) : Prop :=
  ∃ c, cells[a]? = some c ∧ c.mark = .white

/-- Every unmarked object that a marked one refers to is still pending. -/
def Traced (cells : Array Cell) (pending : List Value) : Prop :=
  ∀ (a : Nat) (c : Cell), cells[a]? = some c → c.mark ≠ .white →
    ∀ v ∈ c.fields, ∀ b, v.address? = some b → Unmarked cells b →
      ∃ w ∈ pending, w.address? = some b

/-- Marking may only blacken an object that was white. -/
theorem markFrom_cell (cells : Array Cell) (pending : List Value) (a : Nat) :
    (markFrom cells pending)[a]? = cells[a]? ∨
      ∃ c, cells[a]? = some c ∧ c.mark = .white ∧
        (markFrom cells pending)[a]? = some { c with mark := .black } := by
  fun_induction markFrom cells pending with
  | case1 cells => exact Or.inl rfl
  | case2 cells v rest hv ih => exact ih
  | case3 cells v rest b hv hb white ih =>
      have hcell : cells[b]? = some cells[b] := Array.getElem?_eq_getElem hb
      by_cases hab : a = b
      · subst hab
        refine Or.inr ⟨cells[a], hcell, white, ?_⟩
        -- once black, the object is not touched again
        rcases ih with heq | ⟨c, hc, hwhite, _⟩
        · rw [heq]
          simp
        · rw [Array.getElem?_set_self] at hc
          cases hc
          simp at hwhite
      · rw [Array.getElem?_set_ne hb (Ne.symm hab)] at ih
        exact ih
  | case4 cells v rest b hv hb white ih => exact ih
  | case5 cells v rest b hv hb ih => exact ih

theorem unmarked_of_markFrom {cells : Array Cell} {pending : List Value}
    {a : Nat} (h : Unmarked (markFrom cells pending) a) : Unmarked cells a := by
  obtain ⟨c, hc, hwhite⟩ := h
  rcases markFrom_cell cells pending a with heq | ⟨_, _, _, hblack⟩
  · exact ⟨c, heq ▸ hc, hwhite⟩
  · rw [hblack] at hc
    cases hc
    simp at hwhite

theorem not_unmarked_set_black {cells : Array Cell} {a : Nat}
    (ha : a < cells.size) :
    ¬ Unmarked (cells.set a { cells[a] with mark := .black }) a := by
  rintro ⟨c, hc, hwhite⟩
  rw [Array.getElem?_set_self] at hc
  cases hc
  simp at hwhite

theorem unmarked_of_set_black {cells : Array Cell} {a b : Nat}
    (ha : a < cells.size)
    (h : Unmarked (cells.set a { cells[a] with mark := .black }) b) :
    a ≠ b ∧ Unmarked cells b := by
  by_cases hab : a = b
  · exact absurd (hab ▸ h) (not_unmarked_set_black ha)
  · obtain ⟨c, hc, hwhite⟩ := h
    rw [Array.getElem?_set_ne ha hab] at hc
    exact ⟨hab, c, hc, hwhite⟩

/-- Blackening an object and making its fields pending keeps the marking traced. -/
theorem Traced.blacken {cells : Array Cell} {v : Value} {rest : List Value}
    {a : Nat} (hv : v.address? = some a) (ha : a < cells.size)
    (htraced : Traced cells (v :: rest)) :
    Traced (cells.set a { cells[a] with mark := .black })
      (cells[a].fields.toListAppend rest) := by
  intro b c hc hmark w hw d hd hunmarked
  obtain ⟨hne, hunmarked⟩ := unmarked_of_set_black ha hunmarked
  rw [Array.toListAppend_eq]
  by_cases hab : a = b
  · subst hab
    rw [Array.getElem?_set_self] at hc
    cases hc
    exact ⟨w, List.mem_append_left _ (Array.mem_toList_iff.2 hw), hd⟩
  · rw [Array.getElem?_set_ne ha hab] at hc
    obtain ⟨u, hu, hud⟩ := htraced b c hc hmark w hw d hd hunmarked
    rcases List.mem_cons.1 hu with rfl | hu
    · rw [hv] at hud
      exact absurd (Option.some.inj hud) hne
    · exact ⟨u, List.mem_append_right _ hu, hud⟩

/-- A pending value that leads to no unmarked object can be dropped. -/
theorem Traced.skip {cells : Array Cell} {v : Value} {rest : List Value}
    (hv : ∀ a, v.address? = some a → ¬ Unmarked cells a)
    (htraced : Traced cells (v :: rest)) : Traced cells rest := by
  intro b c hc hmark w hw d hd hunmarked
  obtain ⟨u, hu, hud⟩ := htraced b c hc hmark w hw d hd hunmarked
  rcases List.mem_cons.1 hu with rfl | hu
  · exact absurd hunmarked (hv d hud)
  · exact ⟨u, hu, hud⟩

/-- When marking is over, nothing is pending and every pending value was reached. -/
theorem markFrom_traced (cells : Array Cell) (pending : List Value)
    (htraced : Traced cells pending) :
    Traced (markFrom cells pending) [] ∧
      ∀ w ∈ pending, ∀ a, w.address? = some a →
        ¬ Unmarked (markFrom cells pending) a := by
  -- a skipped value leads to no unmarked object, now or later
  have skip : ∀ {cells : Array Cell} {v : Value} {rest : List Value},
      (∀ a, v.address? = some a → ¬ Unmarked cells a) →
      (∀ w ∈ rest, ∀ a, w.address? = some a →
        ¬ Unmarked (markFrom cells rest) a) →
      ∀ w ∈ v :: rest, ∀ a, w.address? = some a →
        ¬ Unmarked (markFrom cells rest) a := by
    intro cells v rest hv hrest w hw a ha hunmarked
    rcases List.mem_cons.1 hw with rfl | hw
    · exact hv a ha (unmarked_of_markFrom hunmarked)
    · exact hrest w hw a ha hunmarked
  fun_induction markFrom cells pending with
  | case1 cells => exact ⟨htraced, by simp⟩
  | case2 cells v rest hv ih =>
      have hnone : ∀ a, v.address? = some a → ¬ Unmarked cells a := by
        simp [hv]
      obtain ⟨hdone, hrest⟩ := ih (htraced.skip hnone)
      exact ⟨hdone, skip hnone hrest⟩
  | case3 cells v rest b hv hb white ih =>
      obtain ⟨hdone, hrest⟩ := ih (htraced.blacken hv hb)
      refine ⟨hdone, fun w hw a ha hunmarked => ?_⟩
      rcases List.mem_cons.1 hw with rfl | hw
      · rw [hv] at ha
        cases ha
        exact not_unmarked_set_black hb (unmarked_of_markFrom hunmarked)
      · refine hrest w ?_ a ha hunmarked
        rw [Array.toListAppend_eq]
        exact List.mem_append_right _ hw
  | case4 cells v rest b hv hb white ih =>
      have hnone : ∀ a, v.address? = some a → ¬ Unmarked cells a := by
        rintro a ha ⟨c, hc, hwhite⟩
        rw [hv] at ha
        cases ha
        rw [Array.getElem?_eq_getElem hb] at hc
        cases hc
        exact white hwhite
      obtain ⟨hdone, hrest⟩ := ih (htraced.skip hnone)
      exact ⟨hdone, skip hnone hrest⟩
  | case5 cells v rest b hv hb ih =>
      have hnone : ∀ a, v.address? = some a → ¬ Unmarked cells a := by
        rintro a ha ⟨c, hc, _⟩
        rw [hv] at ha
        cases ha
        exact hb (lt_size_of_getElem? hc)
      obtain ⟨hdone, hrest⟩ := ih (htraced.skip hnone)
      exact ⟨hdone, skip hnone hrest⟩

theorem Tidy.traced {h : Heap} (htidy : h.Tidy) (pending : List Value) :
    Traced h.cells pending := by
  intro a c hc hmark v hv
  rw [htidy.dead a c hc hmark] at hv
  simp [Cell.poisoned] at hv

/-- Every object in use is marked. -/
theorem Tidy.marked_of_reach {h : Heap} (htidy : h.Tidy) {roots : List Value}
    {a : Nat} (hreach : h.Reach roots a) :
    ¬ Unmarked (markFrom h.cells roots) a := by
  obtain ⟨hdone, hroots⟩ :=
    markFrom_traced h.cells roots (htidy.traced roots)
  induction hreach with
  | root hv ha => exact hroots _ hv _ ha
  | @field a b v hprev hv hb ih =>
      intro hunmarked
      -- the object whose field leads here is marked and has the fields it had
      obtain ⟨c, hc⟩ := exists_cell_of_mem_fields hv
      have hfields : v ∈ c.fields := by simpa [fields, hc] using hv
      rcases markFrom_cell h.cells roots a with heq | ⟨c', hc', _, hblack⟩
      · have hmark : c.mark ≠ .white := fun hwhite =>
          ih ⟨c, heq.trans hc, hwhite⟩
        have hpending := hdone a c (heq.trans hc) hmark v hfields b hb hunmarked
        simp at hpending
      · rw [hc] at hc'
        cases hc'
        have hpending := hdone a _ hblack (by simp) v hfields b hb hunmarked
        simp at hpending

theorem Sweep.cells_visit (s : Sweep) (a b : Nat) :
    (s.visit a).cells[b]? =
      if b = a then s.cells[b]?.map Cell.swept else s.cells[b]? := by
  by_cases hab : b = a
  · subst hab
    rw [if_pos rfl]
    cases hcell : s.cells[b]? with
    | none =>
        have hsize := Array.getElem?_eq_none_iff.1 hcell
        simp [Sweep.visit, hsize]
    | some c =>
        have hb := lt_size_of_getElem? hcell
        have hmark : s.cells[b]?.map Cell.mark = some c.mark := by rw [hcell]; rfl
        obtain ⟨_, rfl⟩ := Array.getElem?_eq_some_iff.1 hcell
        rw [Sweep.visit, hmark]
        cases hc : s.cells[b].mark <;>
          simp [hc, hb, Cell.swept, Array.getElem_modify]
  · rw [if_neg hab]
    have hba : a ≠ b := Ne.symm hab
    rw [Sweep.visit]
    split
    · simp [Array.getElem?_modify, hba]
    · simp [hba]

/-- Whether marking has reached the object at `a`. -/
def isBlack (cells : Array Cell) (a : Nat) : Bool :=
  cells[a]?.map Cell.mark == some .black

theorem Sweep.kept_visit (s : Sweep) (a : Nat) :
    (s.visit a).kept = if isBlack s.cells a then a :: s.kept else s.kept := by
  cases hmark : s.cells[a]?.map Cell.mark with
  | none => simp [Sweep.visit, isBlack, hmark]
  | some mark => cases mark <;> simp [Sweep.visit, isBlack, hmark]

/-- A sweep changes the objects of the list it goes through and no others. -/
theorem Sweep.cells_foldl (live : List Nat) (hnodup : live.Nodup) (s : Sweep)
    (b : Nat) :
    (live.foldl Sweep.visit s).cells[b]? =
      if b ∈ live then s.cells[b]?.map Cell.swept else s.cells[b]? := by
  induction live generalizing s with
  | nil => simp
  | cons a rest ih =>
      obtain ⟨hnot, hrest⟩ := List.nodup_cons.1 hnodup
      rw [List.foldl_cons, ih hrest, Sweep.cells_visit]
      by_cases hba : b = a
      · subst hba
        simp [hnot]
      · simp [hba]

theorem Sweep.kept_foldl (live : List Nat) (hnodup : live.Nodup) (s : Sweep) :
    (live.foldl Sweep.visit s).kept =
      (live.filter (isBlack s.cells)).reverse ++ s.kept := by
  induction live generalizing s with
  | nil => simp
  | cons a rest ih =>
      obtain ⟨hnot, hrest⟩ := List.nodup_cons.1 hnodup
      -- sweeping `a` does not change the marks of the objects after it
      have hsame : rest.filter (isBlack (s.visit a).cells) =
          rest.filter (isBlack s.cells) := by
        apply List.filter_congr
        intro b hb
        have hba : b ≠ a := fun heq => hnot (heq ▸ hb)
        rw [isBlack, isBlack, Sweep.cells_visit, if_neg hba]
      rw [List.foldl_cons, ih hrest, hsame, Sweep.kept_visit, List.filter_cons]
      split <;> simp

theorem size_markFrom (cells : Array Cell) (pending : List Value) :
    (markFrom cells pending).size = cells.size := by
  fun_induction markFrom cells pending with
  | case1 => rfl
  | case2 _ _ _ _ ih => exact ih
  | case3 _ _ _ _ _ _ _ ih => rw [ih, Array.size_set]
  | case4 _ _ _ _ _ _ _ ih => exact ih
  | case5 _ _ _ _ _ _ ih => exact ih

theorem Sweep.size_foldl (live : List Nat) (s : Sweep) :
    (live.foldl Sweep.visit s).cells.size = s.cells.size := by
  induction live generalizing s with
  | nil => rfl
  | cons a rest ih =>
      rw [List.foldl_cons, ih, Sweep.visit]
      split <;> simp

theorem size_collect (h : Heap) (roots : List Value) :
    (h.collect roots).2.cells.size = h.cells.size := by
  simp [collect, Sweep.size_foldl, size_markFrom]

theorem Tidy.cells_collect {h : Heap} (htidy : h.Tidy) (roots : List Value)
    (a : Nat) :
    (h.collect roots).2.cells[a]? =
      if a ∈ h.live then (markFrom h.cells roots)[a]?.map Cell.swept
      else (markFrom h.cells roots)[a]? :=
  Sweep.cells_foldl h.live htidy.nodup _ a

theorem Tidy.live_collect {h : Heap} (htidy : h.Tidy) (roots : List Value) :
    (h.collect roots).2.live =
      h.live.filter (isBlack (markFrom h.cells roots)) := by
  simp [collect, Sweep.kept_foldl h.live htidy.nodup]

/-- An object that is not live is not touched by marking. -/
theorem Tidy.markFrom_dead {h : Heap} (htidy : h.Tidy) (roots : List Value)
    {a : Nat} (ha : a ∉ h.live) :
    (markFrom h.cells roots)[a]? = h.cells[a]? := by
  rcases markFrom_cell h.cells roots a with heq | ⟨c, hc, hwhite, _⟩
  · exact heq
  · exact absurd ((htidy.live_iff a).2 ⟨c, hc, hwhite⟩) ha

/-- A collection leaves every object in use exactly as it was. -/
theorem Tidy.collect_cell {h : Heap} (htidy : h.Tidy) {roots : List Value}
    {a : Nat} (hreach : h.Reach roots a) :
    (h.collect roots).2.cells[a]? = h.cells[a]? := by
  have hmarked := htidy.marked_of_reach hreach
  rw [htidy.cells_collect]
  by_cases ha : a ∈ h.live
  · obtain ⟨c, hc, hwhite⟩ := (htidy.live_iff a).1 ha
    rw [if_pos ha]
    rcases markFrom_cell h.cells roots a with heq | ⟨c', hc', _, hblack⟩
    · exact absurd ⟨c, heq.trans hc, hwhite⟩ hmarked
    · rw [hc] at hc'
      cases hc'
      obtain ⟨tag, mark, fields⟩ := c
      subst hwhite
      simp [hblack, hc, Cell.swept]
  · rw [if_neg ha]
    exact htidy.markFrom_dead roots ha

/-- A collection leaves a tidy heap tidy. -/
theorem Tidy.collect {h : Heap} (htidy : h.Tidy) (roots : List Value) :
    (h.collect roots).2.Tidy where
  nodup := by
    rw [htidy.live_collect]
    exact htidy.nodup.filter _
  live_iff a := by
    rw [htidy.live_collect, htidy.cells_collect, List.mem_filter]
    by_cases ha : a ∈ h.live
    · rw [if_pos ha, isBlack]
      cases (markFrom h.cells roots)[a]? with
      | none => simp
      | some c => simp [ha, Cell.swept_mark]
    · rw [if_neg ha, htidy.markFrom_dead roots ha, ← htidy.live_iff]
      simp [ha]
  dead a c hcell hmark := by
    rw [htidy.cells_collect] at hcell
    by_cases ha : a ∈ h.live
    · rw [if_pos ha] at hcell
      obtain ⟨c', _, rfl⟩ := Option.map_eq_some_iff.1 hcell
      exact Cell.swept_dead hmark
    · rw [if_neg ha, htidy.markFrom_dead roots ha] at hcell
      exact htidy.dead a c hcell hmark

theorem Tidy.collect_keeps {h : Heap} (htidy : h.Tidy) (roots : List Value) :
    Keeps roots h (h.collect roots).2 :=
  fun _ _ hreach hcell => (htidy.collect_cell hreach).trans hcell

theorem cells_poison (live : List Nat) (cells : Array Cell) (a : Nat) :
    (live.foldl (fun cells a => cells.setIfInBounds a Cell.poisoned) cells)[a]? =
      if a ∈ live then cells[a]?.map (fun _ => Cell.poisoned) else cells[a]? := by
  induction live generalizing cells with
  | nil => simp
  | cons b rest ih =>
      rw [List.foldl_cons, ih, Array.getElem?_setIfInBounds]
      by_cases hab : b = a
      · subst hab
        by_cases hb : b < cells.size
        · simp [hb]
        · simp [hb]
      · simp [hab, Ne.symm hab]

/-- Releasing everything leaves nothing of any object. -/
theorem Tidy.cell_destroyAll {h : Heap} (htidy : h.Tidy) (a : Nat) :
    h.destroyAll.cells[a]? = h.cells[a]?.map fun _ => Cell.poisoned := by
  rw [destroyAll, cells_poison]
  by_cases ha : a ∈ h.live
  · rw [if_pos ha]
  · rw [if_neg ha]
    cases hcell : h.cells[a]? with
    | none => rfl
    | some c =>
        have hdead : c.mark ≠ .white := fun hwhite =>
          ha ((htidy.live_iff a).2 ⟨c, hcell, hwhite⟩)
        simp [htidy.dead a c hcell hdead]

theorem size_destroyAll (h : Heap) :
    h.destroyAll.cells.size = h.cells.size := by
  rw [destroyAll]
  induction h.live generalizing h with
  | nil => rfl
  | cons a rest ih =>
      rw [List.foldl_cons]
      simpa using ih { h with cells := h.cells.setIfInBounds a Cell.poisoned }

theorem Tidy.fields_destroyAll {h : Heap} (htidy : h.Tidy) (a : Nat) :
    h.destroyAll.fields a = #[] := by
  rw [fields, htidy.cell_destroyAll]
  cases h.cells[a]? <;> rfl

theorem Tidy.destroyAll {h : Heap} (htidy : h.Tidy) : h.destroyAll.Tidy where
  nodup := List.nodup_nil
  live_iff a := by
    refine ⟨fun ha => absurd ha List.not_mem_nil, ?_⟩
    rintro ⟨c, hcell, hwhite⟩
    rw [htidy.cell_destroyAll] at hcell
    obtain ⟨_, _, rfl⟩ := Option.map_eq_some_iff.1 hcell
    simp [Cell.poisoned] at hwhite
  dead a c hcell _ := by
    rw [htidy.cell_destroyAll] at hcell
    obtain ⟨_, _, rfl⟩ := Option.map_eq_some_iff.1 hcell
    rfl

end Heap

end Zinc
