import Zinc.Code.Listing
import Zinc.Proofs.Lir.Layout

/-!
The lines of a listing.  A line gives the offset of an instruction, two spaces for each body
of a closure around it, and its name with its operand.  All of this can be read off the line
again, so two lines that are equal are about the same instruction at the same place.
-/

namespace Zinc.Instr

/-- The digits of an offset, in four places at least. -/
def offsetDigits (offset : Nat) : List Char :=
  List.replicate (4 - (Nat.toDigits 10 offset).length) '0' ++ Nat.toDigits 10 offset

/-- The operand of an instruction, at the end of four places at least, which begin seventeen
places to the right of where its name does. -/
def operandColumn (i : Instr) : List Char :=
  List.replicate (17 - i.opcode.name.length) ' ' ++
    (List.replicate (4 - (toString i.operand).length) ' ' ++ (toString i.operand).toList)

/-- What a line says about an instruction after its name: its operand, if it has one, and then
where the body of a closure ends or what the name of a global is. -/
def details (nameOf : Nat → Option String) (offset : Nat) (i : Instr) : List Char :=
  match i with
  | int64 _ | access _ | makeBlock _ => i.operandColumn
  | closure n => i.operandColumn ++ " -> ".toList ++ offsetDigits (offset + 3 + n.toNat)
  | setGlobal n | getGlobal n =>
    i.operandColumn ++ " '".toList ++ ((nameOf n.toNat).getD "?").toList ++ "'".toList
  | _ => []

/-- The line of an instruction that is inside `depth` bodies. -/
def line (nameOf : Nat → Option String) (depth : Nat) (p : Nat × Instr) : String :=
  String.ofList (offsetDigits p.1 ++ ' ' :: (List.replicate (2 * depth) ' ' ++
    (p.2.opcode.name.toList ++ (p.2.details nameOf p.1 ++ ['\n']))))

variable {nameOf nameOf' : Nat → Option String}

/-! ### The lines of the listing -/

theorem zeroPadded_eq (offset : Nat) :
    Text.zeroPadded 4 offset = String.ofList (offsetDigits offset) := by
  apply String.toList_injective
  have hsign : ¬ (offset : Int) < 0 := Int.not_lt.2 (Int.natCast_nonneg offset)
  simp [Text.zeroPadded, Text.run, offsetDigits, Nat.toString_eq_repr, Nat.toList_repr,
    ← String.length_toList, hsign]

/-- The names of instructions fit into their column. -/
theorem length_name_le (op : Opcode) : op.name.length ≤ 16 := by
  cases op <;> decide

theorem withOperand_eq (i : Instr) :
    Text.padRight 16 i.opcode.name ++ " " ++ Text.padLeft 4 (toString i.operand) =
      String.ofList (i.opcode.name.toList ++ i.operandColumn) := by
  apply String.toList_injective
  have hcolumn : 17 - i.opcode.name.length = (16 - i.opcode.name.length) + 1 :=
    Nat.succ_sub (length_name_le i.opcode)
  simp [Text.padRight, Text.padLeft, Text.run, operandColumn, hcolumn, List.replicate_succ']

theorem listed_eq (offset : Nat) (i : Instr) :
    i.listed nameOf offset =
      String.ofList (i.opcode.name.toList ++ i.details nameOf offset) := by
  apply String.toList_injective
  have htarget (n : UInt16) : Text.zeroPadded 4 ((offset + 3 + n.toNat : Nat) : Int) =
      String.ofList (offsetDigits (offset + 3 + n.toNat)) := zeroPadded_eq _
  cases i <;> simp only [listed, details, withOperand_eq, htarget, String.toList_append,
    String.toList_ofList, List.append_assoc, List.append_nil]

/-- The listing writes these lines. -/
theorem line_eq (depth : Nat) (p : Nat × Instr) :
    Text.zeroPadded 4 p.1 ++ " " ++ Text.run ' ' (2 * depth) ++ p.2.listed nameOf p.1 ++ "\n" =
      line nameOf depth p := by
  apply String.toList_injective
  simp [line, zeroPadded_eq, listed_eq, Text.run]

/-! ### What can be read off a line -/

theorem offsetDigits_inj {o o' : Nat} (heq : offsetDigits o = offsetDigits o') : o = o' := by
  have hzeros (k : Nat) : Nat.ofDigitChars 10 (List.replicate k '0') 0 = 0 := by
    induction k with
    | zero => rfl
    | succ k ih => rwa [List.replicate_succ, Nat.ofDigitChars_cons]
  have hvalue (n : Nat) : Nat.ofDigitChars 10 (offsetDigits n) 0 = n := by
    rw [offsetDigits, Nat.ofDigitChars_append, hzeros,
      Nat.ofDigitChars_toDigits (by decide) (by decide)]
  rw [← hvalue o, heq, hvalue]

theorem not_mem_offsetDigits (o : Nat) : ' ' ∉ offsetDigits o := by
  intro hmem
  rcases List.mem_append.1 hmem with hzero | hdigit
  · cases List.eq_of_mem_replicate hzero
  · have hspace := Nat.isDigit_of_mem_toDigits (by decide) (by decide) hdigit
    cases hspace

/-- Spaces can be told from a text that does not begin with one. -/
theorem replicate_append_inj {k k' : Nat} {rest rest' : List Char}
    (hrest : rest.head? ≠ some ' ') (hrest' : rest'.head? ≠ some ' ')
    (heq : List.replicate k ' ' ++ rest = List.replicate k' ' ' ++ rest') :
    k = k' ∧ rest = rest' := by
  induction k generalizing k' with
  | zero =>
      cases k' with
      | zero => exact ⟨rfl, heq⟩
      | succ k' =>
          refine absurd ?_ hrest
          rw [show rest = _ from heq]
          rfl
  | succ k ih =>
      cases k' with
      | zero =>
          refine absurd ?_ hrest'
          rw [show rest' = _ from heq.symm]
          rfl
      | succ k' =>
          obtain ⟨hk, hsame⟩ := ih (List.cons.inj heq).2
          exact ⟨congrArg _ hk, hsame⟩

open ValueTree (Stops takeWhile_append numeral_append_inj)

/-- The characters that end a name: a space, or the end of the line. -/
def endsName (c : Char) : Bool :=
  c == ' ' || c == '\n'

theorem endsName_of_mem (op : Opcode) : ∀ c ∈ op.name.toList, (!endsName c) = true := by
  cases op <;> simp [Opcode.name, endsName]

/-- The name of an instruction can be told from what follows it. -/
theorem name_append_inj {op op' : Opcode} {rest rest' : List Char}
    (hrest : ∀ c ∈ rest.head?, (!endsName c) = false)
    (hrest' : ∀ c ∈ rest'.head?, (!endsName c) = false)
    (heq : op.name.toList ++ rest = op'.name.toList ++ rest') : op = op' ∧ rest = rest' := by
  have hname : op.name.toList = op'.name.toList := by
    rw [← takeWhile_append (endsName_of_mem op) hrest, heq,
      takeWhile_append (endsName_of_mem op') hrest']
  have hsame : op = op' := by
    revert hname
    cases op <;> cases op' <;> decide
  subst hsame
  exact ⟨rfl, List.append_cancel_left heq⟩

/-- An instruction is an opcode and an operand. -/
theorem eq_of_operand {i i' : Instr} (hopcode : i.opcode = i'.opcode)
    (hoperand : i.operand = i'.operand) : i = i' := by
  cases i <;> cases i' <;> cases hopcode
  all_goals first
    | rfl
    | simpa [operand, Int64.toInt_inj, UInt16.toNat_inj, UInt8.toNat_inj] using hoperand

/-- There is a space between the name and the operand. -/
theorem head?_operandColumn (i : Instr) (rest : List Char) :
    (i.operandColumn ++ rest).head? = some ' ' := by
  have hcolumn : 17 - i.opcode.name.length = (16 - i.opcode.name.length) + 1 :=
    Nat.succ_sub (length_name_le i.opcode)
  rw [operandColumn, hcolumn, List.replicate_succ]
  rfl

theorem numeral_ne_nil (n : Int) : (toString n).toList ≠ [] := by
  rw [Int.toString_eq_repr, Int.repr_eq_if]
  split
  · rw [Nat.toList_repr]
    exact List.ne_nil_of_length_pos Nat.length_toDigits_pos
  · simp

/-- The operand of an instruction can be told from what follows it. -/
theorem operandColumn_append_inj {i i' : Instr} {rest rest' : List Char} (hrest : Stops rest)
    (hrest' : Stops rest') (heq : i.operandColumn ++ rest = i'.operandColumn ++ rest') :
    i.operand = i'.operand := by
  have hcolumn (i : Instr) (rest : List Char) : i.operandColumn ++ rest =
      List.replicate (17 - i.opcode.name.length + (4 - (toString i.operand).length)) ' ' ++
        ((toString i.operand).toList ++ rest) := by
    rw [operandColumn, ← List.append_assoc, List.replicate_append_replicate, List.append_assoc]
  have hfirst (n : Int) (rest : List Char) :
      ((toString n).toList ++ rest).head? ≠ some ' ' := by
    obtain ⟨c, cs, hdigits⟩ := List.exists_cons_of_ne_nil (numeral_ne_nil n)
    have hc : ValueTree.isNumeral c = true :=
      ValueTree.isNumeral_of_mem (hdigits ▸ List.mem_cons_self)
    rw [hdigits]
    rintro ⟨⟩
    cases hc
  rw [hcolumn, hcolumn] at heq
  obtain ⟨_, hsame⟩ := replicate_append_inj (hfirst _ _) (hfirst _ _) heq
  exact (numeral_append_inj hrest hrest' hsame).1

/-- A line has an operand, with something that is no digit behind it, or ends with the name
of an instruction that needs none. -/
theorem details_cases (nameOf : Nat → Option String) (o : Nat) (i : Instr) :
    i.operand = 0 ∧ i.details nameOf o ++ ['\n'] = ['\n'] ∨
      ∃ rest, Stops rest ∧ i.details nameOf o ++ ['\n'] = i.operandColumn ++ rest := by
  have hstops {c : Char} (rest : List Char) (hc : ValueTree.isNumeral c = false) :
      Stops (c :: rest) := by
    rintro _ ⟨⟩
    exact hc
  cases i with
  | int64 | access | makeBlock => exact Or.inr ⟨['\n'], hstops _ (by decide), rfl⟩
  | closure n =>
      refine Or.inr ⟨" -> ".toList ++ (offsetDigits (o + 3 + n.toNat) ++ ['\n']),
        hstops _ (by decide), ?_⟩
      rw [details, List.append_assoc, List.append_assoc]
  | setGlobal n | getGlobal n =>
      refine Or.inr ⟨" '".toList ++ (((nameOf n.toNat).getD "?").toList ++
        ("'".toList ++ ['\n'])), hstops _ (by decide), ?_⟩
      rw [details, List.append_assoc, List.append_assoc, List.append_assoc]
  | _ => exact Or.inl ⟨rfl, rfl⟩

/-- Two instructions with the same name and the same details are the same. -/
theorem details_append_inj {o o' : Nat} {i i' : Instr} (hopcode : i.opcode = i'.opcode)
    (heq : i.details nameOf o ++ ['\n'] = i'.details nameOf' o' ++ ['\n']) : i = i' := by
  apply eq_of_operand hopcode
  rcases details_cases nameOf o i with ⟨hzero, hend⟩ | ⟨rest, hstops, hcolumn⟩ <;>
    rcases details_cases nameOf' o' i' with ⟨hzero', hend'⟩ | ⟨rest', hstops', hcolumn'⟩
  · rw [hzero, hzero']
  · have hspace := i'.head?_operandColumn rest'
    rw [← hcolumn', ← heq, hend] at hspace
    cases hspace
  · have hspace := i.head?_operandColumn rest
    rw [← hcolumn, heq, hend'] at hspace
    cases hspace
  · rw [hcolumn, hcolumn'] at heq
    exact operandColumn_append_inj hstops hstops' heq

/-- A line says which instruction it is about, where that is, and in how many bodies. -/
theorem line_inj {depth depth' : Nat} {p p' : Nat × Instr}
    (heq : line nameOf depth p = line nameOf' depth' p') : depth = depth' ∧ p = p' := by
  obtain ⟨o, i⟩ := p
  obtain ⟨o', i'⟩ := p'
  obtain ⟨hdigits, hrest⟩ := Lir.append_cons_inj (not_mem_offsetDigits o)
    (not_mem_offsetDigits o') (String.ofList_injective heq)
  obtain rfl := offsetDigits_inj hdigits
  have hname (i : Instr) (rest : List Char) :
      (i.opcode.name.toList ++ rest).head? ≠ some ' ' := by
    cases i <;> simp [opcode, Opcode.name]
  obtain ⟨hdepth, hrest⟩ := replicate_append_inj (hname _ _) (hname _ _) hrest
  have hbreak (nameOf : Nat → Option String) (i : Instr) :
      ∀ c ∈ (i.details nameOf o ++ ['\n']).head?, (!endsName c) = false := by
    rcases details_cases nameOf o i with ⟨_, hend⟩ | ⟨rest, _, hcolumn⟩
    · rw [hend]
      rintro _ ⟨⟩
      decide
    · rw [hcolumn, head?_operandColumn]
      rintro _ ⟨⟩
      decide
  obtain ⟨hopcode, hdetails⟩ := name_append_inj (hbreak _ _) (hbreak _ _) hrest
  obtain rfl := details_append_inj hopcode hdetails
  exact ⟨by omega, rfl⟩

end Zinc.Instr
