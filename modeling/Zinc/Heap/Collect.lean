import Zinc.Heap.Basic

/-!
Garbage collection.  The objects that can be reached from the roots through
fields are marked; the live objects that were not marked are released and the
others are unmarked again.
-/

namespace Zinc.Heap

/-- The number of cells that a marking phase may still reach. -/
def whites (cells : Array Cell) : Nat :=
  cells.countP fun c => c.mark == .white

theorem whites_set_black (cells : Array Cell) {a : Nat} (h : a < cells.size)
    (white : cells[a].mark = .white) :
    whites (cells.set a { cells[a] with mark := .black }) < whites cells := by
  have one : 0 < whites cells :=
    Array.countP_pos_iff.2 ⟨cells[a], Array.getElem_mem h, by simp [white]⟩
  simp only [whites, Array.countP_set, white] at one ⊢
  simp only [beq_self_eq_true, if_true]
  have black : ((Mark.black == Mark.white) = true) = False := by decide
  simp only [black, if_false]
  omega

/-- Marks every white cell that can be reached from the pending values. -/
def markFrom (cells : Array Cell) (pending : List Value) : Array Cell :=
  match pending with
  | [] => cells
  | v :: rest =>
    match v.address? with
    | none => markFrom cells rest
    | some a =>
      if h : a < cells.size then
        if white : cells[a].mark = .white then
          markFrom (cells.set a { cells[a] with mark := .black })
            (cells[a].fields.toListAppend rest)
        else markFrom cells rest
      else markFrom cells rest
termination_by (whites cells, pending.length)
decreasing_by
  · exact Prod.Lex.right _ (by simp)
  · exact Prod.Lex.left _ _ (whites_set_black cells h white)
  · exact Prod.Lex.right _ (by simp)
  · exact Prod.Lex.right _ (by simp)

/-- What a sweep has done so far: the cells, the objects kept, the last one
first, and the number of objects released. -/
structure Sweep where
  cells : Array Cell
  kept : List Nat := []
  freed : Nat := 0

/-- Sweeps one live object. -/
def Sweep.visit (s : Sweep) (a : Nat) : Sweep :=
  match s.cells[a]?.map Cell.mark with
  | some .black =>
    { s with
      cells := s.cells.modify a fun c => { c with mark := .white }
      kept := a :: s.kept }
  | _ =>
    { s with
      cells := s.cells.setIfInBounds a Cell.poisoned
      freed := s.freed + 1 }

/-- Releases every live object that cannot be reached from the roots; the result
starts with the number of objects released. -/
def collect (h : Heap) (roots : List Value) : Nat × Heap :=
  let s := h.live.foldl Sweep.visit { cells := markFrom h.cells roots }
  (s.freed,
    { cells := s.cells
      live := s.kept.reverse
      stats := { h.stats with
        live := h.stats.live - s.freed
        freed := h.stats.freed + s.freed
        collections := h.stats.collections + 1 } })

/-- Releases every live object. -/
def destroyAll (h : Heap) : Heap where
  cells := h.live.foldl (fun cells a => cells.setIfInBounds a Cell.poisoned) h.cells
  live := []
  stats := { h.stats with live := 0, freed := h.stats.freed + h.stats.live }

end Zinc.Heap
