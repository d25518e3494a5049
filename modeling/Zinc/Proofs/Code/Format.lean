import Zinc.Proofs.Code.Layout
import Zinc.Proofs.Heap.Reach
import Zinc.Proofs.Machine.Fetch

/-!
The format of instructions.  The writer puts an opcode and then its operand, most
significant byte first; the decoder and the machine read them back.  Decoding what was
written lists the instructions where they were put, bytes that decode without an error
are those of the instructions that they decode to, and the machine takes the same
operand and goes on at the same offset as the decoder.
-/

namespace Zinc

namespace Word

/-- A number with a byte put behind it. -/
theorem join_byte (n : Nat) (b : UInt8) : n * 256 ||| b.toNat = n * 256 + b.toNat := by
  have hb : b.toNat < 2 ^ 8 := b.toNat_lt
  have hor := Nat.shiftLeft_add_eq_or_of_lt hb n
  rw [Nat.shiftLeft_eq] at hor
  exact hor.symm

/-- A byte put behind a word that leaves room for it. -/
theorem toNat_join (n : UInt64) (b : UInt8) (hroom : n.toNat < 0x100000000000000) :
    (n <<< 8 ||| b.toUInt64).toNat = n.toNat * 256 + b.toNat := by
  have hshift : (n <<< 8).toNat = n.toNat * 256 % 2 ^ 64 := by
    simp [Nat.shiftLeft_eq]
  rw [Nat.mod_eq_of_lt (by omega)] at hshift
  rw [UInt64.toNat_or, hshift, UInt8.toNat_toUInt64, join_byte]

/-- Two bytes are those of the word that they make. -/
theorem bytes16_of16 (a b : UInt8) : bytes16 (of16 a b) = [a, b] := by
  have ha := a.toNat_lt
  have hb := b.toNat_lt
  have hword : (of16 a b).toNat = a.toNat * 256 + b.toNat := by
    have hshift : (a.toUInt16 <<< 8).toNat = a.toNat * 256 % 2 ^ 16 := by
      simp [Nat.shiftLeft_eq]
    rw [Nat.mod_eq_of_lt (by omega)] at hshift
    rw [of16, UInt16.toNat_or, hshift, UInt8.toNat_toUInt16, join_byte]
  have hhigh : ((of16 a b) >>> 8).toUInt8 = a := by
    apply UInt8.toNat_inj.1
    simp [hword, Nat.shiftRight_eq_div_pow]
    omega
  have hlow : (of16 a b).toUInt8 = b := by
    apply UInt8.toNat_inj.1
    simp [hword]
  rw [bytes16, hhigh, hlow]

/-- Eight bytes are those of the word that they make. -/
theorem bytes64_of64 {bs : List UInt8} (hlength : bs.length = 8) :
    bytes64 (of64 bs) = bs := by
  obtain ⟨b₀, b₁, b₂, b₃, b₄, b₅, b₆, b₇, rfl⟩ :
      ∃ b₀ b₁ b₂ b₃ b₄ b₅ b₆ b₇, bs = [b₀, b₁, b₂, b₃, b₄, b₅, b₆, b₇] := by
    match bs, hlength with
    | [b₀, b₁, b₂, b₃, b₄, b₅, b₆, b₇], _ => exact ⟨_, _, _, _, _, _, _, _, rfl⟩
  have h₀ := b₀.toNat_lt
  have h₁ := b₁.toNat_lt
  have h₂ := b₂.toNat_lt
  have h₃ := b₃.toNat_lt
  have h₄ := b₄.toNat_lt
  have h₅ := b₅.toNat_lt
  have h₆ := b₆.toNat_lt
  have h₇ := b₇.toNat_lt
  -- the bytes are the digits of the word to the base 256
  have hword : (of64 [b₀, b₁, b₂, b₃, b₄, b₅, b₆, b₇]).toNat =
      ((((((b₀.toNat * 256 + b₁.toNat) * 256 + b₂.toNat) * 256 + b₃.toNat) * 256 +
        b₄.toNat) * 256 + b₅.toNat) * 256 + b₆.toNat) * 256 + b₇.toNat := by
    have e₀ := toNat_join 0 b₀ (by decide)
    rw [UInt64.toNat_zero, Nat.zero_mul, Nat.zero_add] at e₀
    have e₁ := toNat_join _ b₁ (by rw [e₀]; omega)
    have e₂ := toNat_join _ b₂ (by rw [e₁, e₀]; omega)
    have e₃ := toNat_join _ b₃ (by rw [e₂, e₁, e₀]; omega)
    have e₄ := toNat_join _ b₄ (by rw [e₃, e₂, e₁, e₀]; omega)
    have e₅ := toNat_join _ b₅ (by rw [e₄, e₃, e₂, e₁, e₀]; omega)
    have e₆ := toNat_join _ b₆ (by rw [e₅, e₄, e₃, e₂, e₁, e₀]; omega)
    have e₇ := toNat_join _ b₇ (by rw [e₆, e₅, e₄, e₃, e₂, e₁, e₀]; omega)
    simp only [of64, List.foldl_cons, List.foldl_nil]
    rw [e₇, e₆, e₅, e₄, e₃, e₂, e₁, e₀]
  generalize of64 [b₀, b₁, b₂, b₃, b₄, b₅, b₆, b₇] = n at hword
  have hdigit {k : UInt64} {b : UInt8}
      (h : n.toNat / 2 ^ (k.toNat % 64) % 256 = b.toNat) : (n >>> k).toUInt8 = b := by
    apply UInt8.toNat_inj.1
    simpa [Nat.shiftRight_eq_div_pow] using h
  have hlast : n.toUInt8 = b₇ := by
    apply UInt8.toNat_inj.1
    simp only [UInt64.toNat_toUInt8]
    omega
  rw [bytes64, @hdigit 56 b₀ (by simp; omega), @hdigit 48 b₁ (by simp; omega),
    @hdigit 40 b₂ (by simp; omega), @hdigit 32 b₃ (by simp; omega),
    @hdigit 24 b₄ (by simp; omega), @hdigit 16 b₅ (by simp; omega),
    @hdigit 8 b₆ (by simp; omega), hlast]

end Word

/-- Instructions with their offsets, the first of which stands at `offset`. -/
def Instr.placed (offset : Nat) : List Instr → List (Nat × Instr)
  | [] => []
  | i :: rest => (offset, i) :: placed (offset + i.encode.length) rest

namespace Code

/-- Writes an instruction at the end of the code: its opcode and then its operand. -/
def write (c : Code) (i : Instr) : Code :=
  (c.append [i.opcode.byte]).append i.operandBytes

/-- Writes instructions one after the other. -/
def writeAll (c : Code) (is : List Instr) : Code :=
  is.foldl write c

variable {c : Code} {n : Nat} {i : Instr}

theorem bytes_writeAll (c : Code) (is : List Instr) :
    (c.writeAll is).bytes.toList = c.bytes.toList ++ Instr.encodeAll is := by
  induction is generalizing c with
  | nil => simp [writeAll]
  | cons i rest ih =>
      rw [writeAll, List.foldl_cons, ← writeAll, ih]
      simp [write, append, Instr.encode]

/-- Decoding as far as instructions go lists them in their order. -/
theorem decodeFrom_range {stop offset : Nat} {is : List Instr} {more : List UInt8}
    (hdrop : c.bytes.toList.drop offset = Instr.encodeAll is ++ more)
    (hstop : stop - offset = Instr.sizeAll is) (done : List (Nat × Instr)) :
    c.decodeFrom stop offset done = ⟨done.reverse ++ Instr.placed offset is, none⟩ := by
  induction is generalizing offset done with
  | nil =>
      rw [Instr.sizeAll_nil] at hstop
      have hend : ¬ offset < stop := by omega
      rw [decodeFrom_eq, if_neg hend, Instr.placed, List.append_nil]
  | cons i rest ih =>
      rw [Instr.encodeAll_cons, List.append_assoc] at hdrop
      rw [Instr.sizeAll_cons] at hstop
      have hgo : offset < stop := by
        have hi := i.size_pos
        omega
      have hnext : c.bytes.toList.drop (offset + i.size) = Instr.encodeAll rest ++ more := by
        rw [← List.drop_drop, hdrop, ← Instr.length_encode, List.drop_left]
      rw [decodeFrom_eq, if_pos hgo, fetch_of_drop hdrop]
      dsimp only
      rw [ih hnext (by omega), Instr.placed, Instr.length_encode, List.reverse_cons,
        List.append_assoc, List.singleton_append]

/-- Decoding what stands from `offset` to the end of the code lists it in its order. -/
theorem decodeFrom_encodeAll {offset : Nat} {is : List Instr}
    (hdrop : c.bytes.toList.drop offset = Instr.encodeAll is)
    (done : List (Nat × Instr)) :
    c.decodeFrom c.size offset done =
      ⟨done.reverse ++ Instr.placed offset is, none⟩ := by
  have hlength := congrArg List.length hdrop
  rw [List.length_drop, Array.length_toList, Instr.length_encodeAll] at hlength
  apply decodeFrom_range
  · rw [hdrop, List.append_nil]
  · exact hlength

/-- What is listed before does not matter to the rest. -/
theorem decodeFrom_done (c : Code) (stop offset : Nat) (done : List (Nat × Instr)) :
    c.decodeFrom stop offset done =
      ⟨done.reverse ++ (c.decodeFrom stop offset []).instrs,
        (c.decodeFrom stop offset []).error⟩ := by
  generalize hleft : stop - offset = left
  induction left using Nat.strongRecOn generalizing offset done with
  | ind left ih =>
      rw [decodeFrom_eq, decodeFrom_eq c stop offset []]
      split
      · cases hfetch : c.fetch offset with
        | instr i =>
            have hless : stop - (offset + i.size) < left := by
              have hi := i.size_pos
              omega
            dsimp only
            rw [ih _ hless _ ((offset, i) :: done) rfl, ih _ hless _ [(offset, i)] rfl]
            simp
        | _ => simp
      · simp

theorem offset_of_byte? {offset : Int} {b : UInt8} (h : c.byte? offset = some b) :
    ∃ n : Nat, offset = n := by
  apply Int.eq_ofNat_of_zero_le
  apply Int.not_lt.1
  intro hneg
  rw [byte?, if_pos hneg] at h
  cases h

theorem drop_of_byte? {b : UInt8} (h : c.byte? n = some b) :
    c.bytes.toList.drop n = b :: c.bytes.toList.drop (n + 1) := by
  have hindex : c.bytes.toList[n]? = some b := by simpa [byte?] using h
  obtain ⟨hlt, rfl⟩ := List.getElem?_eq_some_iff.1 hindex
  exact List.drop_eq_getElem_cons hlt

theorem drop_of_read16? {word : UInt16} (h : c.read16? n = some word) :
    c.bytes.toList.drop n = Word.bytes16 word ++ c.bytes.toList.drop (n + 2) := by
  unfold read16? at h
  split at h
  · rename_i a b ha hb
    cases h
    rw [drop_of_byte? ha, drop_of_byte? (n := n + 1) hb, Word.bytes16_of16]
    rfl
  · cases h

theorem drop_of_read64? {word : Int64} (h : c.read64? n = some word) :
    c.bytes.toList.drop n =
      Word.bytes64 word.toUInt64 ++ c.bytes.toList.drop (n + 8) := by
  unfold read64? at h
  split at h
  · cases h
  · rename_i hinside
    rw [Int.toNat_natCast, Code.size] at hinside
    have hbytes : (c.bytes.extract n (n + 8)).toList =
        (c.bytes.toList.drop n).take 8 := by
      rw [Array.toList_extract, List.extract_eq_take_drop, Nat.add_sub_cancel_left]
    have hlength : (c.bytes.extract n (n + 8)).toList.length = 8 := by
      simp
      omega
    rw [← Option.some.inj h, Int.toNat_natCast, UInt64.toUInt64_toInt64,
      Word.bytes64_of64 hlength, hbytes, ← List.drop_drop, List.take_append_drop]

/-- An instruction that is read stands there with all its bytes. -/
theorem drop_of_fetch (h : c.fetch n = .instr i) :
    c.bytes.toList.drop n = i.encode ++ c.bytes.toList.drop (n + i.size) := by
  unfold fetch at h
  split at h
  · cases h
  rename_i b hbyte
  split at h
  · cases h
  rename_i op hop
  split at h
  · cases h
  rename_i j hoperand
  cases h
  have hfirst := drop_of_byte? hbyte
  rw [← Opcode.byte_of_ofByte? hop] at hfirst
  have hnext : (n : Int) + 1 = (n + 1 : Nat) := rfl
  rw [hnext] at hoperand
  have hrest : c.bytes.toList.drop (n + 1) =
      i.operandBytes ++ c.bytes.toList.drop (n + i.size) := by
    cases op with
    | int64 =>
        obtain ⟨word, hword, rfl⟩ := Option.map_eq_some_iff.1 hoperand
        exact drop_of_read64? hword
    | access =>
        obtain ⟨index, hindex, rfl⟩ := Option.map_eq_some_iff.1 hoperand
        exact drop_of_byte? hindex
    | closure | makeBlock | setGlobal | getGlobal =>
        obtain ⟨word, hword, rfl⟩ := Option.map_eq_some_iff.1 hoperand
        exact drop_of_read16? hword
    | _ =>
        cases hoperand
        rfl
  rw [hfirst, hrest, ← opcode_operandOf hoperand, Instr.encode, List.cons_append]

theorem fetch_inside (h : n < c.size) : c.fetch n ≠ .outside := by
  intro hfetch
  have hnonneg : ¬ (n : Int) < 0 := by omega
  rw [fetch, byte?, if_neg hnonneg, Int.toNat_natCast,
    Array.getElem?_eq_getElem h] at hfetch
  dsimp only at hfetch
  repeat' split at hfetch
  all_goals cases hfetch

/-- The instructions listed without an error are all that stands there. -/
theorem encodeAll_decodeFrom {offset : Nat} (hoffset : offset ≤ c.size)
    (hdone : (c.decodeFrom c.size offset []).error = none) :
    Instr.encodeAll ((c.decodeFrom c.size offset []).instrs.map (·.2)) =
      c.bytes.toList.drop offset := by
  generalize hleft : c.size - offset = left
  induction left using Nat.strongRecOn generalizing offset with
  | ind left ih =>
      rw [decodeFrom_eq] at hdone ⊢
      split at hdone
      · rename_i hgo
        rw [if_pos hgo]
        cases hfetch : c.fetch offset with
        | instr i =>
            have hstands := drop_of_fetch hfetch
            have hfits : offset + i.size ≤ c.size := by
              have hlength := congrArg List.length hstands
              rw [List.length_append, Instr.length_encode, List.length_drop,
                Array.length_toList] at hlength
              rw [Code.size] at hgo ⊢
              omega
            have hless : c.size - (offset + i.size) < left := by
              have hi := i.size_pos
              omega
            rw [hfetch] at hdone
            dsimp only at hdone ⊢
            rw [decodeFrom_done] at hdone ⊢
            rw [hstands, ← ih _ hless hfits hdone rfl]
            rfl
        | outside => exact absurd hfetch (fetch_inside hgo)
        | unknown b =>
            rw [hfetch] at hdone
            cases hdone
        | cut op =>
            rw [hfetch] at hdone
            cases hdone
      · rename_i hend
        rw [if_neg hend, List.drop_eq_nil_of_le]
        · rfl
        · rw [Array.length_toList]
          exact Nat.le_of_not_lt hend

/-- Decoding a range that holds whole instructions. -/
theorem decode?_range {offset : Nat} {is : List Instr} {more : List UInt8}
    (hdrop : c.bytes.toList.drop offset = Instr.encodeAll is ++ more) :
    c.decode? offset (offset + Instr.sizeAll is : Nat) = some ⟨Instr.placed offset is, none⟩ := by
  have hlength := congrArg List.length hdrop
  rw [List.length_drop, Array.length_toList, List.length_append, Instr.length_encodeAll]
    at hlength
  rw [decode?]
  cases is with
  | nil =>
      rw [Instr.sizeAll_nil, Nat.add_zero]
      exact if_pos (Int.min_le_left _ _)
  | cons i rest =>
      have hsize : 0 < Instr.sizeAll (i :: rest) := by
        rw [Instr.sizeAll_cons, Instr.size]
        omega
      have hstop : min ((offset + Instr.sizeAll (i :: rest) : Nat) : Int) c.size =
          (offset + Instr.sizeAll (i :: rest) : Nat) := by
        rw [Code.size]
        omega
      rw [hstop, if_neg (by omega), if_neg (by omega), Int.toNat_natCast, Int.toNat_natCast,
        decodeFrom_range hdrop (Nat.add_sub_cancel_left _ _)]
      rfl

/-- Decoding from an offset to the end of the code. -/
theorem decode?_size (c : Code) (n : Nat) :
    c.decode? n c.size = some (c.decodeFrom c.size n []) := by
  simp only [decode?, Int.min_self]
  split
  · rename_i hend
    have hstay : ¬ n < c.size := by omega
    rw [decodeFrom_eq, if_neg hstay]
    rfl
  · have hnonneg : ¬ (n : Int) < 0 := by omega
    rw [if_neg hnonneg, Int.toNat_natCast, Int.toNat_natCast]

/-- Decoding from an instruction on lists it and then what comes after it. -/
theorem decode?_of_fetch (hfetch : c.fetch n = .instr i) :
    ∃ rest error, c.decode? n c.size = some ⟨(n, i) :: rest, error⟩ ∧
      c.decode? (n + i.size : Nat) c.size = some ⟨rest, error⟩ := by
  have hgo : n < c.size := by
    have hlength := congrArg List.length (drop_of_fetch hfetch)
    rw [List.length_append, Instr.length_encode, List.length_drop,
      Array.length_toList] at hlength
    have hi := i.size_pos
    rw [Code.size]
    omega
  refine ⟨_, _, ?_, decode?_size c (n + i.size)⟩
  rw [decode?_size, decodeFrom_eq, if_pos hgo, hfetch]
  dsimp only
  rw [decodeFrom_done]
  rfl

end Code

/-- Whether an instruction may leave the current code for that of a closure or of the
caller. -/
def Opcode.jumps : Opcode → Bool
  | .apply | .appTerm | .grab | .ret => true
  | _ => false

/-- The number of bytes that an instruction skips after itself. -/
def Instr.skips : Instr → Nat
  | .closure length => length.toNat
  | _ => 0

/-- What an instruction does with its operand between `m` and `m'`. -/
def Instr.Used (m m' : Machine) : Instr → Prop
  | .int64 value => m'.regs.acc = .int value
  | .access index => m.local? index.toNat = some m'.regs.acc
  | .closure length =>
      ∃ a, m'.regs.acc = .ref .closure a ∧
        m'.heap.field a 1 = .code (m'.regs.pc - length.toNat)
  | .makeBlock n =>
      ∃ a, m'.regs.acc = .ref .tuple a ∧
        (m'.heap.fields a).toList = (m.regs.args.items.take n.toNat).reverse ∧
        m.regs.args.items.length = n.toNat + m'.regs.args.items.length
  | .setGlobal slot => m.globals.set? slot.toNat m.regs.acc = some m'.globals
  | .getGlobal slot =>
      ∃ g, m.globals.entries[slot.toNat]? = some g ∧ g.defined ∧ m'.regs.acc = g.value
  | _ => True

/-- A step either faults or goes on with a machine of which something holds. -/
def Progress.Onward (P : Machine → Prop) : Progress → Prop
  | .running m => P m
  | .finished _ => False
  | .faulted _ _ => True

theorem Progress.Onward.running {P : Machine → Prop} {p : Progress} (h : p.Onward P)
    (hfine : ∀ f m, p ≠ .faulted f m) : ∃ m, p = .running m ∧ P m := by
  cases p with
  | running m => exact ⟨m, rfl, h⟩
  | finished m => exact h.elim
  | faulted f m => exact absurd rfl (hfine f m)

namespace Machine

/-- The machine `m'` stands after the instruction `i` of `m`, past the bytes that it
skips, and has used its operand. -/
def Past (m : Machine) (i : Instr) (m' : Machine) : Prop :=
  m'.regs.pc = m.regs.pc + i.skips ∧ i.Used m m'

theorem onward_pushArg {m : Machine} {i : Instr} (v : Value) (hskips : i.skips = 0)
    (hused : ∀ m', i.Used m m') : (m.pushArg v).Onward (m.Past i) := by
  rw [pushArg]
  split
  · trivial
  · exact ⟨by simp [hskips], hused _⟩

/-- A new closure holds the offset of its code. -/
theorem field_loadClosure (m : Machine) (code : Int) :
    (m.loadClosure code).heap.field m.captureEnv.2.cells.size 1 = .code code := by
  simp [loadClosure, Heap.field, Heap.fields_alloc_self]

/-- An instruction that does not jump goes on after itself. -/
theorem onward_execute (m : Machine) {i : Instr} (hop : i.opcode.jumps = false) :
    (m.execute i).Onward (m.Past i) := by
  have level {x : Machine} (hpc : x.regs.pc = m.regs.pc) (hskips : i.skips = 0)
      (hused : i.Used m x) : m.Past i x := by
    refine ⟨?_, hused⟩
    rw [hpc, hskips, Int.natCast_zero, Int.add_zero]
  cases i with
  | int64 value => exact level rfl rfl rfl
  | push => exact onward_pushArg _ rfl fun _ => trivial
  | pushMark => exact onward_pushArg _ rfl fun _ => trivial
  | access index =>
      rw [execute]
      split
      · rename_i v hlocal
        exact level rfl rfl hlocal
      · trivial
  | closure length =>
      rw [execute]
      dsimp only
      split
      · trivial
      · refine ⟨rfl, _, rfl, ?_⟩
        have hbody : m.regs.pc + length.toNat - length.toNat = m.regs.pc := by omega
        refine Eq.trans ?_ (congrArg Value.code hbody).symm
        exact field_loadClosure _ _
  | makeBlock n =>
      rw [execute, makeTuple]
      dsimp only
      split
      · trivial
      · rename_i hdeep
        have hlength := m.regs.args.depth_eq
        refine level rfl rfl ⟨_, rfl, ?_, ?_⟩
        · rw [Heap.fst_alloc, Heap.fields_alloc_self, popFields_of_deep hdeep]
        · rw [Stack.items_drop, List.length_drop]
          omega
  | bind =>
      rw [execute, pushReturn]
      split
      · trivial
      · exact level rfl rfl trivial
  | unbind =>
      rw [execute]
      split
      · trivial
      · exact level rfl rfl trivial
  | setGlobal slot =>
      rw [execute]
      split
      · rename_i globals hset
        exact level rfl rfl hset
      · trivial
  | getGlobal slot =>
      rw [execute]
      split
      · trivial
      · rename_i g hentry
        split
        · rename_i hdefined
          exact level rfl rfl ⟨g, hentry, hdefined, rfl⟩
        · trivial
  | apply | appTerm | grab | ret => cases hop

/-- The instruction that a step reads, goes on after and uses. -/
theorem onward_step {m : Machine} {op : Opcode}
    (hbyte : m.code.byte? m.regs.pc = some op.byte) (hop : op.jumps = false)
    (hfine : ∀ f m', m.step ≠ .faulted f m') :
    ∃ i m', m.code.fetch m.regs.pc = .instr i ∧ i.opcode = op ∧
      m.step = .running m' ∧ m'.regs.pc = m.regs.pc + i.size + i.skips ∧ i.Used m m' := by
  cases hoperand : m.code.operandOf op (m.regs.pc + 1) with
  | none =>
      have hfetch : m.code.fetch m.regs.pc = .cut op := by
        simp [Code.fetch, hbyte, hoperand]
      rw [step_eq, hfetch] at hfine
      exact absurd rfl (hfine _ _)
  | some i =>
      have hfetch : m.code.fetch m.regs.pc = .instr i := by
        simp [Code.fetch, hbyte, hoperand]
      have hopcode : i.opcode = op := Code.opcode_operandOf hoperand
      subst hopcode
      have hstep := step_of_fetch hfetch
      rw [hstep] at hfine
      obtain ⟨m', hrun, hpc, hused⟩ := (onward_execute _ hop).running hfine
      refine ⟨i, m', hfetch, rfl, hstep.trans hrun, hpc, ?_⟩
      cases i <;> exact hused

end Machine

/-- Writing, decoding and executing agree on the format of instructions: what was written
is decoded, what was decoded without an error is what was written, and a step that does
not fault uses the operand and goes on at the offset that decoding reports. -/
theorem format_agrees :
    (∀ is : List Instr,
      (Code.writeAll {} is).decode? 0 (Code.writeAll {} is).size =
        some ⟨Instr.placed 0 is, none⟩) ∧
    (∀ (c : Code) (d : Decoded), c.decode? 0 c.size = some d → d.error = none →
      Code.writeAll {} (d.instrs.map (·.2)) = c) ∧
    (∀ (m : Machine) (op : Opcode), m.code.byte? m.regs.pc = some op.byte →
      op.jumps = false → (∀ f m', m.step ≠ .faulted f m') →
      ∃ (n : Nat) (i : Instr) (rest : List (Nat × Instr)) (error : Option DecodeError)
        (m' : Machine),
        m.regs.pc = n ∧ i.opcode = op ∧
        m.code.decode? n m.code.size = some ⟨(n, i) :: rest, error⟩ ∧
        m.code.decode? (n + i.size : Nat) m.code.size = some ⟨rest, error⟩ ∧
        m.step = .running m' ∧ m'.regs.pc = (n + i.size + i.skips : Nat) ∧
        i.Used m m') := by
  refine ⟨?_, ?_, ?_⟩
  · intro is
    have hbytes : (Code.writeAll {} is).bytes.toList.drop 0 = Instr.encodeAll is :=
      Code.bytes_writeAll {} is
    exact (Code.decode?_size _ 0).trans (congrArg some (Code.decodeFrom_encodeAll hbytes []))
  · intro c d hdecode hdone
    have hd : some (c.decodeFrom c.size 0 []) = some d := (c.decode?_size 0).symm.trans hdecode
    cases hd
    have hbytes := Code.encodeAll_decodeFrom (Nat.zero_le _) hdone
    exact Code.ext_bytes ((Code.bytes_writeAll {} _).trans hbytes)
  · intro m op hbyte hop hfine
    obtain ⟨i, m', hfetch, hopcode, hstep, hpc, hused⟩ := Machine.onward_step hbyte hop hfine
    obtain ⟨n, hn⟩ := Code.offset_of_byte? hbyte
    rw [hn] at hfetch hpc
    obtain ⟨rest, error, hhere, hafter⟩ := Code.decode?_of_fetch hfetch
    exact ⟨n, i, rest, error, m', hn, hopcode, hhere, hafter, hstep, by simpa using hpc,
      hused⟩

/-- Code that builds the identity function and returns it. -/
def Code.identity : Code :=
  writeAll {} [.closure 4, .grab, .access 0, .ret, .ret]

/-- The identity function is built by an instruction that skips its four bytes. -/
theorem format_agrees_identity :
    Code.writeAll {} [.closure 4, .grab, .access 0, .ret, .ret] = Code.identity ∧
      ∃ m', { Machine.create 1 {} with code := Code.identity }.step = .running m' ∧
        m'.regs.pc = 7 := by
  refine ⟨format_agrees.2.1 Code.identity
    ⟨[(0, .closure 4), (3, .grab), (4, .access 0), (6, .ret), (7, .ret)], none⟩
    (by decide +kernel) rfl, ?_⟩
  obtain ⟨n, i, rest, error, m', hn, _, hhere, _, hstep, hpc, _⟩ :=
    format_agrees.2.2 { Machine.create 1 {} with code := Code.identity } .closure
      (by decide +kernel) rfl (by intro f m' h; cases h)
  refine ⟨m', hstep, ?_⟩
  obtain rfl : n = 0 := by
    have hzero : (0 : Int) = n := hn
    omega
  have hi : i = .closure 4 := by
    have hlist : Code.identity.decode? 0 Code.identity.size =
        some ⟨[(0, .closure 4), (3, .grab), (4, .access 0), (6, .ret), (7, .ret)], none⟩ := by
      decide +kernel
    cases hhere.symm.trans hlist
    rfl
  subst hi
  exact hpc

end Zinc
