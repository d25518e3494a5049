import Zinc.Code.Decode

/-!
What stands at an offset of the code.  It is found from the opcode and the operand that
belongs to it, apart from the decoder, which goes by a table of widths, and from the
machine, which reads each operand on its own; the decoder lists what is found here.
-/

namespace Zinc

/-- What is found when an instruction is read. -/
inductive Fetch where
  /-- The offset lies outside the code. -/
  | outside
  /-- The byte is no opcode. -/
  | unknown (byte : UInt8)
  /-- The code ends before the operand does. -/
  | cut (op : Opcode)
  | instr (i : Instr)
deriving DecidableEq, Repr

namespace Opcode

theorem byte_of_ofByte? {b : UInt8} {op : Opcode} (h : ofByte? b = some op) :
    op.byte = b := by
  apply UInt8.toNat_inj.1
  unfold ofByte? at h
  split at h <;> cases h <;> simp_all [byte]

/-- The bytes that are opcodes are those below the number of opcodes. -/
theorem valid_iff (b : UInt8) : valid b ↔ ∃ op, ofByte? b = some op := by
  constructor
  · intro h
    have hlt : b.toNat < 14 := of_decide_eq_true h
    rw [ofByte?]
    split
    case h_15 =>
        exfalso
        simp_all
        omega
    all_goals exact ⟨_, rfl⟩
  · rintro ⟨op, hop⟩
    rw [← byte_of_ofByte? hop]
    cases op <;> rfl

/-- The table of widths has the width of each opcode. -/
theorem operandWidth_byte (op : Opcode) : operandWidth op.byte = op.width := by
  cases op <;> rfl

@[simp] theorem opcode_withOperand (op : Opcode) (operand : Int64) :
    (op.withOperand operand).opcode = op := by
  cases op <;> rfl

end Opcode

namespace Code

variable {c : Code} {i : Instr}

/-- The instruction with opcode `op` whose operand starts at `offset`. -/
def operandOf (c : Code) (op : Opcode) (offset : Int) : Option Instr :=
  match op with
  | .int64 => (c.read64? offset).map .int64
  | .ret => some .ret
  | .closure => (c.read16? offset).map .closure
  | .push => some .push
  | .pushMark => some .pushMark
  | .access => (c.byte? offset).map .access
  | .apply => some .apply
  | .appTerm => some .appTerm
  | .makeBlock => (c.read16? offset).map .makeBlock
  | .grab => some .grab
  | .bind => some .bind
  | .unbind => some .unbind
  | .setGlobal => (c.read16? offset).map .setGlobal
  | .getGlobal => (c.read16? offset).map .getGlobal

/-- Reads the instruction at offset `pc`. -/
def fetch (c : Code) (pc : Int) : Fetch :=
  match c.byte? pc with
  | none => .outside
  | some b =>
    match Opcode.ofByte? b with
    | none => .unknown b
    | some op =>
      match c.operandOf op (pc + 1) with
      | none => .cut op
      | some i => .instr i

theorem opcode_operandOf {op : Opcode} {offset : Int} (h : c.operandOf op offset = some i) :
    i.opcode = op := by
  cases op with
  | int64 | access | closure | makeBlock | setGlobal | getGlobal =>
      obtain ⟨_, _, rfl⟩ := Option.map_eq_some_iff.1 h
      rfl
  | _ =>
      cases h
      rfl

theorem byte?_eq_none_iff (c : Code) (n : Nat) : c.byte? n = none ↔ c.size < n + 1 := by
  rw [byte?, if_neg (by omega), Int.toNat_natCast, Array.getElem?_eq_none_iff, Code.size]
  omega

theorem read16?_eq_none_iff (c : Code) (n : Nat) : c.read16? n = none ↔ c.size < n + 2 := by
  have hlow := c.byte?_eq_none_iff n
  have hhigh := c.byte?_eq_none_iff (n + 1)
  rw [Int.natCast_add, Int.natCast_one] at hhigh
  rw [read16?]
  cases hfirst : c.byte? n with
  | none =>
      have hsize := hlow.1 hfirst
      exact ⟨fun _ => by omega, fun _ => rfl⟩
  | some a =>
      cases hsecond : c.byte? (n + 1) with
      | none => exact ⟨fun _ => hhigh.1 hsecond, fun _ => rfl⟩
      | some b =>
          constructor
          · intro h
            cases h
          · intro h
            cases hsecond.symm.trans (hhigh.2 h)

theorem read64?_eq_none_iff (c : Code) (n : Nat) : c.read64? n = none ↔ c.size < n + 8 := by
  simp [read64?]

/-- An operand stands in the code if the code goes on for its width, and the decoder finds
it by its width. -/
theorem operandOf_eq (c : Code) (op : Opcode) {n : Nat} (hn : n ≤ c.size) :
    c.operandOf op n =
      if c.size < n + op.width then none
      else some (op.withOperand (c.operandAt n op.width)) := by
  -- `α` is the type of the operand, which `build` makes an instruction of
  have reads {α : Type} {build : α → Instr} {word : Option α} {width : Nat} {i : Instr}
      (hnone : word = none ↔ c.size < n + width)
      (hsome : ∀ a, word = some a → build a = i) :
      word.map build = if c.size < n + width then none else some i := by
    cases word with
    | none => exact (if_pos (hnone.1 rfl)).symm
    | some a =>
        have hfits : ¬ c.size < n + width := fun h => by cases hnone.2 h
        rw [if_neg hfits, Option.map_some, hsome a rfl]
  have alone : ¬ c.size < n + 0 := by omega
  cases op with
  | int64 =>
      refine reads (c.read64?_eq_none_iff n) fun a ha => ?_
      simp [Opcode.withOperand, operandAt, Opcode.width, ha]
  | access =>
      refine reads (c.byte?_eq_none_iff n) fun a ha => ?_
      simp [Opcode.withOperand, operandAt, Opcode.width, ha]
  | closure | makeBlock | setGlobal | getGlobal =>
      refine reads (c.read16?_eq_none_iff n) fun a ha => ?_
      simp [Opcode.withOperand, operandAt, Opcode.width, ha]
  | _ => exact (if_neg alone).symm

/-- The decoder lists what stands at the offset and goes on behind it. -/
theorem decodeFrom_eq (c : Code) (stop offset : Nat) (done : List (Nat × Instr)) :
    c.decodeFrom stop offset done =
      if offset < stop then
        match c.fetch offset with
        | .outside => ⟨done.reverse, none⟩
        | .unknown b => ⟨done.reverse, some (.unknownOpcode offset b)⟩
        | .cut op => ⟨done.reverse, some (.truncated offset op.byte)⟩
        | .instr i => c.decodeFrom stop (offset + i.size) ((offset, i) :: done)
      else ⟨done.reverse, none⟩ := by
  rw [decodeFrom, fetch]
  by_cases hgo : offset < stop
  · rw [dif_pos hgo, if_pos hgo]
    cases hbyte : c.byte? offset with
    | none => rfl
    | some b =>
        dsimp only
        cases hop : Opcode.ofByte? b with
        | none =>
            have hinvalid : ¬ Opcode.valid b := by
              rw [Opcode.valid_iff, hop]
              rintro ⟨op, h⟩
              cases h
            rw [if_pos hinvalid]
        | some op =>
            obtain rfl := Opcode.byte_of_ofByte? hop
            have hinside : offset + 1 ≤ c.size := by
              apply Nat.le_of_not_lt
              intro hout
              cases hbyte.symm.trans ((c.byte?_eq_none_iff offset).2 hout)
            have hoperand := c.operandOf_eq op hinside
            rw [Int.natCast_add, Int.natCast_one] at hoperand
            rw [if_neg (Decidable.not_not.2 ((Opcode.valid_iff _).2 ⟨op, hop⟩)),
              Opcode.operandWidth_byte]
            dsimp only
            rw [hoperand]
            by_cases hcut : c.size < offset + 1 + op.width
            · rw [if_pos hcut, if_pos hcut]
            · rw [if_neg hcut, if_neg hcut]
              dsimp only
              rw [Option.getD_some, Instr.size, Opcode.opcode_withOperand]
  · rw [dif_neg hgo, if_neg hgo]

end Code

end Zinc
