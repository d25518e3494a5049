import Zinc.Proofs.Heap.Layout

/-!
Marking with a work list.  The blocks that are marked are in use, and each link out of a
marked block leads to a marked one, unless the block is still on the work list or the link is
one of those being looked at.  When the work list is empty, just the blocks in use are marked,
which is what marking in depth comes to.
-/

namespace Zinc

namespace Heap

/-- The value leads to no unmarked object, except to such as one of the pending values leads
to. -/
def Covered (cells : Array Cell) (pending : List Value) (v : Value) : Prop :=
  ∀ b, v.address? = some b → Unmarked cells b → ∃ w ∈ pending, w.address? = some b

variable {cells : Array Cell} {v w : Value} {rest : List Value} {a : Nat}

/-- A pending value that leads to no unmarked object can be dropped. -/
theorem Covered.skip (hcovered : Covered cells (v :: rest) w)
    (hv : ∀ b, v.address? = some b → ¬ Unmarked cells b) : Covered cells rest w := by
  intro b hb hunmarked
  obtain ⟨u, hu, hub⟩ := hcovered b hb hunmarked
  rcases List.mem_cons.1 hu with rfl | hu
  · exact absurd hunmarked (hv b hub)
  · exact ⟨u, hu, hub⟩

/-- So can one whose object is marked now. -/
theorem Covered.blacken (hcovered : Covered cells (v :: rest) w) (hv : v.address? = some a)
    (ha : a < cells.size) :
    Covered (cells.set a { cells[a] with mark := .black }) rest w := by
  intro b hb hunmarked
  obtain ⟨hab, hunmarked⟩ := unmarked_of_set_black ha hunmarked
  obtain ⟨u, hu, hub⟩ := hcovered b hb hunmarked
  rcases List.mem_cons.1 hu with rfl | hu
  · exact absurd (Option.some.inj (hv.symm.trans hub)) hab
  · exact ⟨u, hu, hub⟩

/-- A value that leads to no unmarked object at all. -/
theorem Covered.of_nil (hcovered : Covered cells [] w) (pending : List Value) :
    Covered cells pending w := by
  intro b hb hunmarked
  obtain ⟨u, hu, _⟩ := hcovered b hb hunmarked
  exact absurd hu List.not_mem_nil

end Heap

namespace Memory.Marking

open Heap (Reach Covered Unmarked markFrom)

/-- Marking is on its way: the blocks hold objects of the heap, of which just some that are in
use have been marked, and what is not marked is left to the values ahead and the work
list.  No link has changed. -/
structure Tracing (s : Marking) (m : Memory) (h : Heap) (roots ahead : List Value)
    (cells : Array Cell) : Prop where
  shown : Shown s.blocks cells
  next : ∀ a : Nat, s.blocks[a]?.bind (·.next) = m.blocks[a]?.bind (·.next)
  cell : ∀ a, cells[a]? = h.cells[a]? ∨ ∃ c, h.cells[a]? = some c ∧ c.mark = .white ∧
    h.Reach roots a ∧ cells[a]? = some { c with mark := .black }
  work : ∀ a ∈ s.work, h.Reach roots a
  within : ∀ v ∈ ahead, v.Within (h.Reach roots)
  fields : ∀ a c, cells[a]? = some c → c.mark ≠ .white → a ∉ s.work →
    ∀ v ∈ c.fields, Covered cells ahead v
  roots : ∀ v ∈ roots, Covered cells ahead v

variable {s : Marking} {m : Memory} {h : Heap} {roots ahead : List Value} {v : Value}
  {cells : Array Cell}

/-- A value ahead that leads to no unmarked object can be dropped. -/
theorem Tracing.skip (htracing : s.Tracing m h roots (v :: ahead) cells)
    (hv : ∀ a, v.address? = some a → ¬ Unmarked cells a) :
    s.Tracing m h roots ahead cells where
  shown := htracing.shown
  next := htracing.next
  cell := htracing.cell
  work := htracing.work
  within w hw := htracing.within w (List.mem_cons_of_mem v hw)
  fields a c hc hmark ha w hw := (htracing.fields a c hc hmark ha w hw).skip hv
  roots w hw := (htracing.roots w hw).skip hv

/-- An unmarked object is what it was before. -/
theorem Tracing.unmarked (htracing : s.Tracing m h roots ahead cells) {a : Nat} {c : Cell}
    (hcell : cells[a]? = some c) (hwhite : c.mark = .white) : h.cells[a]? = some c := by
  rcases htracing.cell a with hsame | ⟨c', _, _, _, hblack⟩
  · exact hsame ▸ hcell
  · rw [hcell] at hblack
    cases hblack
    cases hwhite

/-- A value ahead whose object is unmarked: the object is marked and goes on the work list. -/
theorem Tracing.blacken (htracing : s.Tracing m h roots (v :: ahead) cells) {a : Nat}
    (hv : v.address? = some a) (hblock : a < s.blocks.size) (ha : a < cells.size)
    (hwhite : cells[a].mark = .white) :
    Tracing { blocks := s.blocks.set a (s.blocks[a].setMark .black), work := a :: s.work }
      m h roots ahead (cells.set a { cells[a] with mark := .black }) := by
  have hcell : cells[a]? = some cells[a] := Array.getElem?_eq_getElem ha
  have hreach : h.Reach roots a := htracing.within v List.mem_cons_self a hv
  have hshows : s.blocks[a].Shows cells[a] :=
    htracing.shown.shows a _ _ (Array.getElem?_eq_getElem hblock) hcell
  constructor
  · exact htracing.shown.set hblock ha (hshows.setMark .black)
  · intro i
    rw [← htracing.next i, Array.getElem?_set]
    split
    · rename_i hai
      subst hai
      simp [Array.getElem?_eq_getElem hblock, Block.setMark]
    · rfl
  · intro i
    by_cases hai : a = i
    · subst hai
      exact Or.inr ⟨cells[a], htracing.unmarked hcell hwhite, hwhite, hreach,
        Array.getElem?_set_self ha⟩
    · rw [Array.getElem?_set_ne ha hai]
      exact htracing.cell i
  · intro i hi
    rcases List.mem_cons.1 hi with rfl | hi
    · exact hreach
    · exact htracing.work i hi
  · exact fun w hw => htracing.within w (List.mem_cons_of_mem v hw)
  · intro i c hc hmark hi w hw
    rw [List.mem_cons, not_or] at hi
    rw [Array.getElem?_set_ne ha (Ne.symm hi.1)] at hc
    exact (htracing.fields i c hc hmark hi.2 w hw).blacken hv ha
  · exact fun w hw => (htracing.roots w hw).blacken hv ha

/-- A value ahead has been looked at. -/
theorem Tracing.grey (htracing : s.Tracing m h roots (v :: ahead) cells) :
    ∃ cells', (s.grey v).Tracing m h roots ahead cells' := by
  rw [Marking.grey]
  cases hv : v.address? with
  | none =>
      refine ⟨cells, htracing.skip fun a ha => ?_⟩
      cases hv.symm.trans ha
  | some a =>
      dsimp only
      have hsame {b : Nat} (hb : v.address? = some b) : b = a :=
        Option.some.inj (hb.symm.trans hv)
      split
      · rename_i hblock
        have ha : a < cells.size := htracing.shown.size ▸ hblock
        have hcell : cells[a]? = some cells[a] := Array.getElem?_eq_getElem ha
        have hmark : s.blocks[a].hasMark .white = (cells[a].mark == .white) :=
          (htracing.shown.shows a _ _ (Array.getElem?_eq_getElem hblock) hcell).hasMark .white
        rw [hmark]
        split
        · rename_i hwhite
          exact ⟨_, htracing.blacken hv hblock ha (beq_iff_eq.1 hwhite)⟩
        · rename_i hnot
          refine ⟨cells, htracing.skip fun b hb => ?_⟩
          rintro ⟨c, hc, hwhite⟩
          rw [hsame hb, hcell] at hc
          cases hc
          exact hnot (beq_iff_eq.2 hwhite)
      · rename_i hblock
        refine ⟨cells, htracing.skip fun b hb => ?_⟩
        rintro ⟨c, hc, _⟩
        rw [hsame hb] at hc
        exact hblock (htracing.shown.size ▸ Heap.lt_size_of_getElem? hc)

theorem Tracing.greyAll (htracing : s.Tracing m h roots ahead cells) :
    ∃ cells', (ahead.foldl Marking.grey s).Tracing m h roots [] cells' := by
  induction ahead generalizing s cells with
  | nil => exact ⟨cells, htracing⟩
  | cons v rest ih =>
      obtain ⟨cells', hnext⟩ := htracing.grey
      exact ih hnext

theorem slots_of_cell (hshown : Shown s.blocks cells) {a : Nat} {c : Cell}
    (hcell : cells[a]? = some c) : s.slots a = c.fields.toList := by
  obtain ⟨b, hb, hshows⟩ := hshown.block hcell
  rw [slots, hb]
  exact congrArg Array.toList hshows.fields

/-- An object has the fields it had. -/
theorem Tracing.fields_eq (htracing : s.Tracing m h roots ahead cells) {a : Nat} {c : Cell}
    (hcell : cells[a]? = some c) : c.fields = h.fields a := by
  rcases htracing.cell a with hsame | ⟨c', hc', _, _, hblack⟩
  · rw [Heap.fields_of_cell (hsame ▸ hcell)]
  · rw [hcell] at hblack
    cases hblack
    rw [Heap.fields_of_cell hc']

/-- A block is taken from the work list and its slots are ahead. -/
theorem Tracing.take (htracing : s.Tracing m h roots [] cells) {a : Nat} {rest : List Nat}
    (hwork : s.work = a :: rest) :
    Tracing { s with work := rest } m h roots (s.slots a) cells where
  shown := htracing.shown
  next := htracing.next
  cell := htracing.cell
  work b hb := htracing.work b (hwork ▸ List.mem_cons_of_mem a hb)
  within v hv := by
    have hreach : h.Reach roots a := htracing.work a (hwork ▸ List.mem_cons_self)
    cases hcell : cells[a]? with
    | none =>
        have hblock : s.blocks[a]? = none := by
          rw [Array.getElem?_eq_none_iff, htracing.shown.size]
          exact Array.getElem?_eq_none_iff.1 hcell
        simp [slots, hblock] at hv
    | some c =>
        rw [slots_of_cell htracing.shown hcell, htracing.fields_eq hcell] at hv
        exact Heap.closed_reach h roots a hreach v (Array.mem_toList_iff.1 hv)
  fields b c hc hmark hb v hv := by
    by_cases hba : b = a
    · subst hba
      intro d hd _
      rw [slots_of_cell htracing.shown hc]
      exact ⟨v, Array.mem_toList_iff.2 hv, hd⟩
    · refine (htracing.fields b c hc hmark ?_ v hv).of_nil _
      rw [hwork, List.mem_cons, not_or]
      exact ⟨hba, hb⟩
  roots v hv := (htracing.roots v hv).of_nil _

/-- The work list comes to an end. -/
theorem Tracing.scan (htracing : s.Tracing m h roots [] cells) :
    ∃ cells', Tracing { blocks := s.scan } m h roots [] cells' := by
  fun_induction Marking.scan s generalizing cells with
  | case1 s hwork =>
      obtain ⟨blocks, work⟩ := s
      obtain rfl : work = [] := hwork
      exact ⟨cells, htracing⟩
  | case2 s a rest hwork ih =>
      obtain ⟨cells', hnext⟩ := (htracing.take hwork).greyAll
      exact ih hnext

/-- With nothing left to do, every object in use is marked. -/
theorem Tracing.marked_of_reach (htracing : s.Tracing m h roots [] cells)
    (hwork : s.work = []) {a : Nat} (hreach : h.Reach roots a) : ¬ Unmarked cells a := by
  induction hreach with
  | root hv ha =>
      intro hunmarked
      obtain ⟨w, hw, _⟩ := htracing.roots _ hv _ ha hunmarked
      exact absurd hw List.not_mem_nil
  | @field a b v hprev hv hb ih =>
      intro hunmarked
      obtain ⟨c, hc⟩ := Heap.exists_cell_of_mem_fields hv
      have hfields : v ∈ c.fields := by simpa [Heap.fields, hc] using hv
      -- the object whose field leads here is marked and has the fields it had
      obtain ⟨c', hcell, hmark, hsame⟩ :
          ∃ c', cells[a]? = some c' ∧ c'.mark ≠ .white ∧ c'.fields = c.fields := by
        rcases htracing.cell a with heq | ⟨c', hc', _, _, hblack⟩
        · exact ⟨c, heq.trans hc, fun hwhite => ih ⟨c, heq.trans hc, hwhite⟩, rfl⟩
        · rw [hc] at hc'
          cases hc'
          exact ⟨_, hblack, by simp, rfl⟩
      obtain ⟨w, hw, _⟩ := htracing.fields a c' hcell hmark (by simp [hwork]) v
        (hsame ▸ hfields) b hb hunmarked
      exact absurd hw List.not_mem_nil

/-- Marking with a work list and marking in depth come to the same. -/
theorem Tracing.cells_eq (htracing : s.Tracing m h roots [] cells) (hwork : s.work = [])
    (htidy : h.Tidy) : cells = markFrom h.cells roots := by
  apply Array.ext_getElem?
  intro a
  rcases htracing.cell a with hsame | ⟨c, hc, hwhite, hreach, hblack⟩
  · rcases Heap.markFrom_cell h.cells roots a with hsame' | ⟨c, hc, hwhite, hblack⟩
    · rw [hsame, hsame']
    · -- an object that only the other way of marking reaches is in use all the same
      have hlive : a ∈ h.live := (htidy.live_iff a).2 ⟨c, hc, hwhite⟩
      have hreach : h.Reach roots a :=
        (htidy.isBlack_iff hlive).1 (by simp [Heap.isBlack, hblack])
      exact absurd ⟨c, hsame.trans hc, hwhite⟩ (htracing.marked_of_reach hwork hreach)
  · rcases Heap.markFrom_cell h.cells roots a with hsame | ⟨c', hc', _, hblack'⟩
    · exact absurd ⟨c, hsame.trans hc, hwhite⟩ (htidy.marked_of_reach hreach)
    · rw [hc] at hc'
      cases hc'
      rw [hblack, hblack']

end Memory.Marking

namespace Memory

variable {m : Memory} {h : Heap}

/-- Before anything is marked. -/
theorem Lays.tracing (hlays : m.Lays h) (htidy : h.Tidy) (roots : List Value) :
    Marking.Tracing { blocks := m.blocks } m h roots roots h.cells where
  shown := hlays.shown
  next _ := rfl
  cell _ := Or.inl rfl
  work a ha := absurd ha List.not_mem_nil
  within v hv := Heap.within_reach hv
  fields a c hc hmark _ v hv := by
    rw [htidy.dead a c hc hmark] at hv
    simp [Cell.poisoned] at hv
  roots v hv b hb _ := ⟨v, hv, hb⟩

/-- After marking the blocks hold what the objects of the heap are marked to, and their links
are what they were. -/
theorem Lays.marked (hlays : m.Lays h) (htidy : h.Tidy) (roots : List Value) :
    let blocks := (roots.foldl Marking.grey { blocks := m.blocks }).scan
    Shown blocks (Heap.markFrom h.cells roots) ∧
      ∀ a, follow { m with blocks } a = m.follow a := by
  obtain ⟨_, hgreyed⟩ := (hlays.tracing htidy roots).greyAll
  obtain ⟨cells, hscanned⟩ := hgreyed.scan
  have hcells := hscanned.cells_eq rfl htidy
  refine ⟨hcells ▸ hscanned.shown, fun link => ?_⟩
  cases link with
  | none => rfl
  | some a => exact hscanned.next a

end Memory

end Zinc
