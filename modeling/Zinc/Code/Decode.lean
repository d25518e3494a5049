import Zinc.Code.Area
import Zinc.Text.Padding

/-!
Decoding: reading a range of the code area instruction by instruction.  Closure
bodies are read in line, right after the instruction that skips them.
-/

namespace Zinc

/-- Why decoding stopped early, and at which byte. -/
inductive DecodeError where
  | unknownOpcode (offset : Nat) (byte : UInt8)
  | truncated (offset : Nat) (byte : UInt8)
deriving DecidableEq, Repr

/-- The wording of a decoding error. -/
def DecodeError.text : DecodeError → String
  | unknownOpcode offset byte =>
    Text.zeroPadded 4 offset ++ ": unknown opcode " ++ toString byte.toNat
  | truncated offset byte =>
    Text.zeroPadded 4 offset ++ ": truncated " ++ Opcode.byteName byte

/-- The instructions of a range with their offsets, and the error that ended it. -/
structure Decoded where
  instrs : List (Nat × Instr) := []
  error : Option DecodeError := none
deriving DecidableEq, Repr

/-- The instruction that an opcode makes with an operand. -/
def Opcode.withOperand (operand : Int64) : Opcode → Instr
  | int64 => .int64 operand
  | ret => .ret
  | closure => .closure operand.toUInt64.toUInt16
  | push => .push
  | pushMark => .pushMark
  | access => .access operand.toUInt64.toUInt8
  | apply => .apply
  | appTerm => .appTerm
  | makeBlock => .makeBlock operand.toUInt64.toUInt16
  | grab => .grab
  | bind => .bind
  | unbind => .unbind
  | setGlobal => .setGlobal operand.toUInt64.toUInt16
  | getGlobal => .getGlobal operand.toUInt64.toUInt16

namespace Code

/-- The operand of `width` bytes at an offset. -/
def operandAt (c : Code) (offset : Nat) (width : Nat) : Int64 :=
  match width with
  | 1 => ((c.byte? offset).getD 0).toUInt64.toInt64
  | 2 => ((c.read16? offset).getD 0).toUInt64.toInt64
  | 8 => (c.read64? offset).getD 0
  | _ => 0

/-- Decodes from `offset` up to `stop`; `done` holds the instructions before it,
the last one first. -/
def decodeFrom (c : Code) (stop offset : Nat) (done : List (Nat × Instr)) : Decoded :=
  if _h : offset < stop then
    match c.byte? offset with
    | none => ⟨done.reverse, none⟩
    | some b =>
      let width := Opcode.operandWidth b
      if ¬ Opcode.valid b then ⟨done.reverse, some (.unknownOpcode offset b)⟩
      else if c.size < offset + 1 + width then ⟨done.reverse, some (.truncated offset b)⟩
      else
        let op := (Opcode.ofByte? b).getD default
        let i := op.withOperand (c.operandAt (offset + 1) width)
        decodeFrom c stop (offset + (1 + width)) ((offset, i) :: done)
  else ⟨done.reverse, none⟩
termination_by stop - offset

/-- Decodes the range from `start` up to `stop`, cut at the end of the code.  A
nonempty range must not start before the code does. -/
def decode? (c : Code) (start stop : Int) : Option Decoded :=
  let stop := min stop c.size
  if stop ≤ start then some {}
  else if start < 0 then none
  else some (c.decodeFrom stop.toNat start.toNat [])

/-- Decodes the whole code area. -/
def decodeAll (c : Code) : Decoded :=
  c.decodeFrom c.size 0 []

end Code

end Zinc
