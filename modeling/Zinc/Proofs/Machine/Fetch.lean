import Zinc.Machine.Step
import Zinc.Proofs.Code.Fetch

/-!
What a step does, from what stands at the program counter.  The machine reads opcode and
operand one after the other; the step executes the instruction that they make, with the
program counter behind it, or fails where the reading stops.
-/

namespace Zinc

namespace Machine

variable {m : Machine} {i : Instr}

/-- The machine that has read the opcode `b` at its program counter. -/
def opened (m : Machine) (b : UInt8) : Machine :=
  { m with
    started := { offset := m.regs.pc, byte := b }
    regs := { m.regs with pc := m.regs.pc + 1 } }

/-- The machine that is about to execute the instruction that it has fetched. -/
def fetched (m : Machine) (i : Instr) : Machine :=
  { m with
    started := { offset := m.regs.pc, byte := i.opcode.byte }
    regs := { m.regs with pc := m.regs.pc + i.size } }

/-- An instruction with an operand is executed once the operand has been read. -/
theorem execute_behind (i : Instr) {n : Nat} (hwidth : i.opcode.width = n) :
    execute { m.opened i.opcode.byte with
      regs := { m.regs with pc := m.regs.pc + 1 + n } } i = (m.fetched i).execute i := by
  rw [fetched, Instr.size, hwidth, Int.natCast_add, Int.natCast_one, Int.add_assoc]
  rfl

/-- A step executes the instruction at the program counter. -/
theorem step_eq (m : Machine) :
    m.step =
      match m.code.fetch m.regs.pc with
      | .outside =>
        { m with started := { m.started with offset := m.regs.pc } }.fail
          .internal .truncated none
      | .unknown b => (m.opened b).fail .unsupported .badOpcode none
      | .cut op => (m.opened op.byte).fail .internal .truncated none
      | .instr i => (m.fetched i).execute i := by
  rw [step, readByte, Code.fetch]
  dsimp only
  cases m.code.byte? m.regs.pc with
  | none => rfl
  | some b =>
      dsimp only
      cases hop : Opcode.ofByte? b with
      | none => rfl
      | some op =>
          obtain rfl := Opcode.byte_of_ofByte? hop
          cases op with
          | int64 =>
              dsimp only [Code.operandOf, readInt64]
              cases m.code.read64? (m.regs.pc + 1) with
              | none => rfl
              | some value => exact execute_behind (.int64 value) rfl
          | access =>
              dsimp only [Code.operandOf, readByte]
              cases m.code.byte? (m.regs.pc + 1) with
              | none => rfl
              | some index => exact execute_behind (.access index) rfl
          | closure =>
              dsimp only [Code.operandOf, readUInt16]
              cases m.code.read16? (m.regs.pc + 1) with
              | none => rfl
              | some length => exact execute_behind (.closure length) rfl
          | makeBlock =>
              dsimp only [Code.operandOf, readUInt16]
              cases m.code.read16? (m.regs.pc + 1) with
              | none => rfl
              | some size => exact execute_behind (.makeBlock size) rfl
          | setGlobal =>
              dsimp only [Code.operandOf, readUInt16]
              cases m.code.read16? (m.regs.pc + 1) with
              | none => rfl
              | some slot => exact execute_behind (.setGlobal slot) rfl
          | getGlobal =>
              dsimp only [Code.operandOf, readUInt16]
              cases m.code.read16? (m.regs.pc + 1) with
              | none => rfl
              | some slot => exact execute_behind (.getGlobal slot) rfl
          | _ => rfl

theorem step_of_fetch (hfetch : m.code.fetch m.regs.pc = .instr i) :
    m.step = (m.fetched i).execute i := by
  rw [step_eq, hfetch]

end Machine

end Zinc
