/-!
The instruction set: fourteen opcodes, each a byte, with the number of operand
bytes that follow it.
-/

namespace Zinc

/-- The opcodes, in the order of their bytes. -/
inductive Opcode where
  /-- Load a literal into the accumulator. -/
  | int64
  /-- Leave the current call, or hand a waiting argument to the result. -/
  | ret
  /-- Build a closure over the following body and skip it. -/
  | closure
  /-- Push the accumulator as an argument. -/
  | push
  /-- Push a mark that delimits the arguments of one call. -/
  | pushMark
  /-- Load a local by index. -/
  | access
  /-- Call, keeping the current frame. -/
  | apply
  /-- Call in tail position, giving up the current frame. -/
  | appTerm
  /-- Build a tuple from the top arguments. -/
  | makeBlock
  /-- Take one more argument, or build a partial application. -/
  | grab
  /-- Bind the accumulator as a new local. -/
  | bind
  /-- Drop the innermost local. -/
  | unbind
  /-- Store the accumulator into a global. -/
  | setGlobal
  /-- Load a global. -/
  | getGlobal
deriving DecidableEq, Repr, Inhabited

namespace Opcode

/-- The byte of an opcode. -/
def byte : Opcode → UInt8
  | int64 => 0
  | ret => 1
  | closure => 2
  | push => 3
  | pushMark => 4
  | access => 5
  | apply => 6
  | appTerm => 7
  | makeBlock => 8
  | grab => 9
  | bind => 10
  | unbind => 11
  | setGlobal => 12
  | getGlobal => 13

/-- The opcode of a byte, if it is one. -/
def ofByte? (b : UInt8) : Option Opcode :=
  match b.toNat with
  | 0 => some int64
  | 1 => some ret
  | 2 => some closure
  | 3 => some push
  | 4 => some pushMark
  | 5 => some access
  | 6 => some apply
  | 7 => some appTerm
  | 8 => some makeBlock
  | 9 => some grab
  | 10 => some bind
  | 11 => some unbind
  | 12 => some setGlobal
  | 13 => some getGlobal
  | _ => none

/-- The name of an opcode in listings and faults. -/
def name : Opcode → String
  | int64 => "INT64"
  | ret => "RETURN"
  | closure => "CLOSURE"
  | push => "PUSH"
  | pushMark => "PUSHMARK"
  | access => "ACCESS"
  | apply => "APPLY"
  | appTerm => "APPTERM"
  | makeBlock => "MKB"
  | grab => "GRAB"
  | bind => "LET"
  | unbind => "ENDLET"
  | setGlobal => "SETGLOBAL"
  | getGlobal => "GETGLOBAL"

/-- The name shown for any byte. -/
def byteName (b : UInt8) : String :=
  ((ofByte? b).map name).getD "UNKNOWN"

/-- The number of operand bytes. -/
def width : Opcode → Nat
  | int64 => 8
  | access => 1
  | closure | makeBlock | setGlobal | getGlobal => 2
  | _ => 0

/-- The number of opcodes. -/
def count : Nat :=
  14

/-- Whether a byte is an opcode. -/
def valid (b : UInt8) : Bool :=
  b.toNat < count

/-- The numbers of operand bytes that a decoder goes by, in the order of the
opcodes. -/
def operandWidths : Array Nat :=
  #[8, 0, 2, 0, 0, 1, 0, 0, 2, 0, 0, 0, 2, 2]

/-- The number of operand bytes after a byte, none after a byte that is no
opcode. -/
def operandWidth (b : UInt8) : Nat :=
  if valid b then operandWidths.getD b.toNat 0 else 0

@[simp] theorem ofByte?_byte (op : Opcode) : ofByte? op.byte = some op := by
  cases op <;> rfl

end Opcode

end Zinc
