import Zinc.Heap.Header

/-!
The heap as it lies in memory.  A block has a header word, the slots of an object and the
link to the block that was allocated before it; a word in front of them links to the newest
one.  The collector keeps a work list of blocks whose slots it has yet to look at, and its
sweep goes along the links and takes out the blocks that it releases.
-/

namespace Zinc

/-- A block of memory. -/
structure Block where
  header : Header
  next : Option Nat := none
  fields : Array Value := #[]
deriving DecidableEq, Repr, Inhabited

namespace Block

/-- What is left of a block once it is released. -/
def released : Block where
  header := .pack Mark.freed.bits Kind.undefined.byte 0

/-- Whether a block has the given mark. -/
def hasMark (b : Block) (mark : Mark) : Bool :=
  b.header.mark == mark.bits

/-- The block with another mark. -/
def setMark (b : Block) (mark : Mark) : Block :=
  { b with header := b.header.setMark mark.bits }

end Block

/-- All blocks by address, and the one that was allocated last and is not released. -/
structure Memory where
  blocks : Array Block := #[]
  first : Option Nat := none
  stats : HeapStats := {}
deriving DecidableEq, Repr, Inhabited

namespace Memory

/-- Allocates a block of `n` undefined slots. -/
def allocate (m : Memory) (n : Int) : Except Fault (Nat × Memory) :=
  if n < 0 ∨ maxObjectSlots < n then .error (Heap.tooLarge n)
  else
    .ok (m.blocks.size,
      { blocks := m.blocks.push {
          header := .pack Mark.white.bits Kind.undefined.byte n.toNat
          next := m.first
          fields := Array.replicate n.toNat .undefined }
        first := some m.blocks.size
        stats := { m.stats with
          live := m.stats.live + 1
          allocated := m.stats.allocated + 1 } })

/-- Changes the tag of a block. -/
def setTag? (m : Memory) (a : Nat) (tag : UInt8) : Option Memory :=
  if a < m.blocks.size then
    some { m with
      blocks := m.blocks.modify a fun b => { b with header := b.header.setTag tag } }
  else none

/-- The slots of a block. -/
def fields (m : Memory) (a : Nat) : Array Value :=
  (m.blocks[a]?.map (·.fields)).getD #[]

/-- Writes a slot that exists. -/
def setField? (m : Memory) (a i : Nat) (v : Value) : Option Memory :=
  if i < (m.fields a).size then
    some { m with
      blocks := m.blocks.modify a fun b => { b with fields := b.fields.setIfInBounds i v } }
  else none

/-- Where a link leads: the one in front of all blocks, or the one in a block. -/
def follow (m : Memory) : Option Nat → Option Nat
  | none => m.first
  | some a => m.blocks[a]?.bind (·.next)

/-- Changes where a link leads. -/
def redirect (m : Memory) (target : Option Nat) : Option Nat → Memory
  | none => { m with first := target }
  | some a => { m with blocks := m.blocks.modify a fun b => { b with next := target } }

/-- Releases a block. -/
def release (m : Memory) (a : Nat) : Memory :=
  { m with blocks := m.blocks.modify a fun _ => .released }

/-- Blocks that are being marked, and the work list: those that are marked and whose slots
are still to be looked at. -/
structure Marking where
  blocks : Array Block
  work : List Nat := []

namespace Marking

/-- Marks the block that a value refers to and puts it on the work list, unless it is marked
already. -/
def grey (s : Marking) (v : Value) : Marking :=
  match v.address? with
  | none => s
  | some a =>
    if h : a < s.blocks.size then
      if s.blocks[a].hasMark .white then
        { blocks := s.blocks.set a (s.blocks[a].setMark .black), work := a :: s.work }
      else s
    else s

/-- How often a block can still be put on the work list or taken from it. -/
def pending (s : Marking) : Nat :=
  s.blocks.countP (·.hasMark .white) + s.work.length

theorem pending_grey (s : Marking) (v : Value) : (s.grey v).pending ≤ s.pending := by
  rw [grey]
  split
  · exact Nat.le_refl _
  · split
    · split
      · rename_i a _ ha hwhite
        have hone : 0 < s.blocks.countP (·.hasMark .white) :=
          Array.countP_pos_iff.2 ⟨s.blocks[a], Array.getElem_mem ha, hwhite⟩
        have hblack : (s.blocks[a].setMark .black).hasMark .white = false := by
          rw [Block.hasMark, Block.setMark, Header.setMark, Header.mark_pack (by decide)]
          rfl
        simp only [pending, Array.countP_set, hwhite, hblack, List.length_cons, if_true]
        simp
        omega
      · exact Nat.le_refl _
    · exact Nat.le_refl _

theorem pending_foldl (s : Marking) (vs : List Value) :
    (vs.foldl grey s).pending ≤ s.pending := by
  induction vs generalizing s with
  | nil => exact Nat.le_refl _
  | cons v rest ih => exact Nat.le_trans (ih _) (s.pending_grey v)

/-- The slots of a block on the work list. -/
def slots (s : Marking) (a : Nat) : List Value :=
  ((s.blocks[a]?.map (·.fields)).getD #[]).toList

/-- Goes through the work list, from its newest block on. -/
def scan (s : Marking) : Array Block :=
  match _ : s.work with
  | [] => s.blocks
  | a :: rest => ((s.slots a).foldl grey { s with work := rest }).scan
termination_by s.pending
decreasing_by
  rename_i hwork
  refine Nat.lt_of_le_of_lt (pending_foldl _ _) ?_
  simp [pending, hwork]

end Marking

/-- A sweep: the memory as it is so far, the link that is looked at, and the number of blocks
released. -/
structure Sweeping where
  memory : Memory
  link : Option Nat := none
  freed : Nat := 0

namespace Sweeping

/-- Unmarks a block and goes on to its link. -/
def pass (s : Sweeping) (a : Nat) : Sweeping :=
  { s with
    memory := { s.memory with blocks := s.memory.blocks.modify a (·.setMark .white) }
    link := some a }

/-- Takes a block out of the list and releases it. -/
def takeOut (s : Sweeping) (a : Nat) : Sweeping :=
  { s with
    memory := (s.memory.redirect (s.memory.follow (some a)) s.link).release a
    freed := s.freed + 1 }

/-- One turn of a sweep, unless it has come to the end of the list. -/
def turn? (s : Sweeping) : Option Sweeping :=
  (s.memory.follow s.link).map fun a =>
    if s.memory.blocks[a]?.any (·.hasMark .black) then s.pass a else s.takeOut a

/-- At most so many turns of a sweep. -/
def turns : Nat → Sweeping → Sweeping
  | 0, s => s
  | n + 1, s =>
    match s.turn? with
    | none => s
    | some s => turns n s

end Sweeping

/-- Releases the blocks that cannot be reached from the roots; the result starts with the
number of blocks released.  A sweep comes past no block twice, so it has no more turns than
there are blocks. -/
def collect (m : Memory) (roots : List Value) : Nat × Memory :=
  let blocks := (roots.foldl Marking.grey { blocks := m.blocks }).scan
  let s := Sweeping.turns blocks.size { memory := { m with blocks } }
  (s.freed,
    { s.memory with
      stats := { m.stats with
        live := m.stats.live - s.freed
        freed := m.stats.freed + s.freed
        collections := m.stats.collections + 1 } })

/-- Releases the block that a link leads to and those behind it, at most so many. -/
def releaseFrom : Nat → Option Nat → Memory → Memory
  | n + 1, some a, m => releaseFrom n (m.follow (some a)) (m.release a)
  | _, _, m => m

/-- Releases every block. -/
def destroyAll (m : Memory) : Memory :=
  { releaseFrom m.blocks.size m.first m with
    first := none
    stats := { m.stats with live := 0, freed := m.stats.freed + m.stats.live } }

/-- The addresses of the blocks that a link and those behind it lead to, at most so many. -/
def listFrom (m : Memory) : Nat → Option Nat → List Nat
  | n + 1, some a => a :: m.listFrom n (m.follow (some a))
  | _, _ => []

/-- The blocks that have not been released, newest first. -/
def objects (m : Memory) : List Nat :=
  m.listFrom m.blocks.size m.first

end Memory

end Zinc
