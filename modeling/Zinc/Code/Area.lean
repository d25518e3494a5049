import Zinc.Code.Instr

/-!
The code area: bytes that grow at the end.  Closures hold offsets into it, so a
body is shared by all the closures built from it.
-/

namespace Zinc

/-- A code area. -/
structure Code where
  bytes : Array UInt8 := #[]
deriving DecidableEq, Repr, Inhabited

namespace Code

/-- The number of bytes. -/
def size (c : Code) : Nat :=
  c.bytes.size

/-- Appends bytes. -/
def append (c : Code) (bs : List UInt8) : Code :=
  ⟨c.bytes.appendList bs⟩

/-- Drops everything from offset `n` on; a negative offset is refused. -/
def truncate? (c : Code) (n : Int) : Option Code :=
  if n < 0 then none else some ⟨c.bytes.take n.toNat⟩

/-- Overwrites the two bytes at `offset`, which must exist. -/
def patch16? (c : Code) (offset : Int) (n : UInt16) : Option Code :=
  if offset < 0 ∨ c.size < offset.toNat + 2 then none
  else
    match Word.bytes16 n with
    | [a, b] =>
      some ⟨(c.bytes.setIfInBounds offset.toNat a).setIfInBounds (offset.toNat + 1) b⟩
    | _ => none

/-- The byte at an offset. -/
def byte? (c : Code) (offset : Int) : Option UInt8 :=
  if offset < 0 then none else c.bytes[offset.toNat]?

/-- The 16-bit word at an offset. -/
def read16? (c : Code) (offset : Int) : Option UInt16 :=
  match c.byte? offset, c.byte? (offset + 1) with
  | some a, some b => some (Word.of16 a b)
  | _, _ => none

/-- The 64-bit integer at an offset. -/
def read64? (c : Code) (offset : Int) : Option Int64 :=
  if offset < 0 ∨ c.size < offset.toNat + 8 then none
  else
    some (Word.of64 (c.bytes.extract offset.toNat (offset.toNat + 8)).toList).toInt64

end Code

end Zinc
