import Zinc.Code.Opcode
import Zinc.Code.Word

/-!
Instructions: opcodes together with their operands, and their bytes.
-/

namespace Zinc

/-- One instruction. -/
inductive Instr where
  | int64 (value : Int64)
  | ret
  | closure (length : UInt16)
  | push
  | pushMark
  | access (index : UInt8)
  | apply
  | appTerm
  | makeBlock (size : UInt16)
  | grab
  | bind
  | unbind
  | setGlobal (slot : UInt16)
  | getGlobal (slot : UInt16)
deriving DecidableEq, Repr, Inhabited

namespace Instr

/-- The opcode of an instruction. -/
def opcode : Instr → Opcode
  | int64 _ => .int64
  | ret => .ret
  | closure _ => .closure
  | push => .push
  | pushMark => .pushMark
  | access _ => .access
  | apply => .apply
  | appTerm => .appTerm
  | makeBlock _ => .makeBlock
  | grab => .grab
  | bind => .bind
  | unbind => .unbind
  | setGlobal _ => .setGlobal
  | getGlobal _ => .getGlobal

/-- The operand of an instruction, zero if it has none. -/
def operand : Instr → Int
  | int64 value => value.toInt
  | access index => index.toNat
  | closure n | makeBlock n | setGlobal n | getGlobal n => n.toNat
  | _ => 0

/-- The operand bytes of an instruction. -/
def operandBytes : Instr → List UInt8
  | int64 value => Word.bytes64 value.toUInt64
  | access index => [index]
  | closure n | makeBlock n | setGlobal n | getGlobal n => Word.bytes16 n
  | _ => []

/-- The bytes of an instruction. -/
def encode (i : Instr) : List UInt8 :=
  i.opcode.byte :: i.operandBytes

/-- The number of bytes an instruction takes. -/
def size (i : Instr) : Nat :=
  1 + i.opcode.width

theorem size_pos (i : Instr) : 0 < i.size :=
  Nat.add_pos_left Nat.one_pos _

@[simp] theorem length_encode (i : Instr) : i.encode.length = i.size := by
  cases i <;> rfl

/-- The bytes of a sequence of instructions. -/
def encodeAll (is : List Instr) : List UInt8 :=
  is.flatMap encode

/-- The number of bytes that a sequence of instructions takes. -/
def sizeAll (is : List Instr) : Nat :=
  is.foldl (fun n i => n + i.size) 0

end Instr

end Zinc
