import Zinc.Fault
import Zinc.Limits
import Zinc.Value

/-!
The heap.  Objects are numbered in the order of their allocation and a number is
never used twice, so an address names one object for good.  The live objects are
kept in a list of their own, newest first.
-/

namespace Zinc

/-- The state of a cell as the collector sees it. -/
inductive Mark where
  /-- Not reached, or not collected yet. -/
  | white
  /-- Reached by the collection that is going on. -/
  | black
  /-- Released. -/
  | freed
deriving DecidableEq, Repr, Inhabited

/-- A heap object. -/
structure Cell where
  tag : Kind := .undefined
  mark : Mark := .white
  fields : Array Value := #[]
deriving DecidableEq, Repr, Inhabited

/-- What is left of an object once it is released. -/
def Cell.poisoned : Cell :=
  { mark := .freed }

/-- Counters of a heap. -/
structure HeapStats where
  live : Nat := 0
  allocated : Nat := 0
  freed : Nat := 0
  collections : Nat := 0
deriving DecidableEq, Repr, Inhabited

/-- A heap: all the cells ever allocated, by address, and the addresses of those
that have not been released, newest first. -/
structure Heap where
  cells : Array Cell := #[]
  live : List Nat := []
  stats : HeapStats := {}
deriving DecidableEq, Repr, Inhabited

namespace Heap

/-- The tag of an object. -/
def tag (h : Heap) (a : Nat) : Kind :=
  (h.cells[a]?.map (·.tag)).getD .undefined

/-- The fields of an object. -/
def fields (h : Heap) (a : Nat) : Array Value :=
  (h.cells[a]?.map (·.fields)).getD #[]

/-- One field of an object, undefined if it does not exist. -/
def field (h : Heap) (a i : Nat) : Value :=
  ((h.fields a)[i]?).getD .undefined

/-- The fields of the object that a value refers to. -/
def fieldsOf (h : Heap) (v : Value) : List Value :=
  (v.address?.map fun a => (h.fields a).toList).getD []

/-- A reference to an object, with the tag the object has now. -/
def reference (h : Heap) (a : Nat) : Value :=
  .ref (h.tag a) a

/-- Allocates an object with the given tag and fields. -/
def alloc (h : Heap) (tag : Kind) (fields : Array Value) : Nat × Heap :=
  (h.cells.size,
    { cells := h.cells.push { tag := tag, fields := fields }
      live := h.cells.size :: h.live
      stats := { h.stats with
        live := h.stats.live + 1
        allocated := h.stats.allocated + 1 } })

/-- An object of more slots than a header can count. -/
def tooLarge (n : Int) : Fault where
  kind := .capacity
  op := "allocate"
  cause := .objectTooLarge
  detail := some (toString n ++ " slots, limit " ++ toString maxObjectSlots)

/-- Allocates an untagged object of `n` undefined slots. -/
def allocate (h : Heap) (n : Int) : Except Fault (Nat × Heap) :=
  if n < 0 ∨ maxObjectSlots < n then .error (tooLarge n)
  else .ok (h.alloc .undefined (Array.replicate n.toNat .undefined))

/-- Changes the tag of an object that exists. -/
def setTag? (h : Heap) (a : Nat) (tag : Kind) : Option Heap :=
  if a < h.cells.size then
    some { h with cells := h.cells.modify a fun c => { c with tag := tag } }
  else none

/-- Writes a slot that exists. -/
def setField? (h : Heap) (a i : Nat) (v : Value) : Option Heap :=
  if i < (h.fields a).size then
    some { h with
      cells := h.cells.modify a fun c => { c with fields := c.fields.setIfInBounds i v } }
  else none

end Heap

end Zinc
