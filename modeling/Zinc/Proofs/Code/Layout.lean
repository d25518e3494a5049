import Zinc.Proofs.Code.Fetch

/-!
Where instructions stand in a code area.  The bytes of an instruction can be read back,
so instructions that were written one after the other are found again at the offsets
where they were put, by the machine as by a decoder that starts at the beginning.
-/

namespace Zinc

namespace Word

theorem join_bytes (n : Nat) : n / 256 * 256 ||| n % 256 = n := by
  have hor : n / 256 * 256 ||| n % 256 = n / 256 * 256 + n % 256 := by
    have hlt : n % 256 < 2 ^ 8 := by omega
    have hshift := Nat.shiftLeft_add_eq_or_of_lt hlt (n / 256)
    rw [Nat.shiftLeft_eq] at hshift
    exact hshift.symm
  omega

/-- A 16-bit word is made of its two bytes. -/
theorem of16_bytes16 (n : UInt16) : of16 (n >>> 8).toUInt8 n.toUInt8 = n := by
  apply UInt16.toNat_inj.1
  have hn := n.toNat_lt
  have hhigh : n.toNat / 256 * 256 % 65536 = n.toNat / 256 * 256 := by omega
  have hbyte : n.toNat / 256 % 256 = n.toNat / 256 := by omega
  simp [of16, Nat.shiftRight_eq_div_pow, Nat.shiftLeft_eq, hhigh, hbyte, join_bytes]

theorem join_last_byte (n : UInt64) :
    (n >>> 8) <<< 8 ||| n.toUInt8.toUInt64 = n := by
  apply UInt64.toNat_inj.1
  have hn := n.toNat_lt
  have hhigh : n.toNat / 256 * 256 % 18446744073709551616 = n.toNat / 256 * 256 := by
    omega
  simp [Nat.shiftRight_eq_div_pow, Nat.shiftLeft_eq, hhigh, join_bytes]

/-- A 64-bit word is made of its eight bytes. -/
theorem of64_bytes64 (n : UInt64) : of64 (bytes64 n) = n := by
  have htop : (0 : UInt64) <<< 8 ||| (n >>> 56).toUInt8.toUInt64 = n >>> 56 := by
    apply UInt64.toNat_inj.1
    have hn := n.toNat_lt
    simp [Nat.shiftRight_eq_div_pow]
    omega
  -- one byte less on the right is one shift more
  have hstep {i j : UInt64} (hij : j.toNat % 64 + 8 = i.toNat % 64) :
      n >>> i = n >>> j >>> 8 := by
    apply UInt64.toNat_inj.1
    simp [← Nat.shiftRight_add, hij]
  simp only [of64, bytes64, List.foldl_cons, List.foldl_nil, htop]
  rw [@hstep 56 48 rfl, join_last_byte, @hstep 48 40 rfl, join_last_byte,
    @hstep 40 32 rfl, join_last_byte, @hstep 32 24 rfl, join_last_byte,
    @hstep 24 16 rfl, join_last_byte, @hstep 16 8 rfl, join_last_byte,
    join_last_byte]

end Word

namespace Instr

@[simp] theorem encodeAll_nil : encodeAll [] = [] := rfl

@[simp] theorem encodeAll_cons (i : Instr) (is : List Instr) :
    encodeAll (i :: is) = i.encode ++ encodeAll is := by
  simp [encodeAll]

@[simp] theorem encodeAll_append (is js : List Instr) :
    encodeAll (is ++ js) = encodeAll is ++ encodeAll js := by
  simp [encodeAll]

theorem length_encodeAll (is : List Instr) :
    (encodeAll is).length = sizeAll is := by
  have hfrom (n : Nat) :
      is.foldl (fun n i => n + i.size) n = n + (encodeAll is).length := by
    induction is generalizing n with
    | nil => rfl
    | cons i rest ih =>
        rw [List.foldl_cons, ih]
        simp
        omega
  rw [sizeAll, hfrom]
  omega

@[simp] theorem sizeAll_nil : sizeAll [] = 0 := rfl

@[simp] theorem sizeAll_cons (i : Instr) (is : List Instr) :
    sizeAll (i :: is) = i.size + sizeAll is := by
  simp [← length_encodeAll]

@[simp] theorem sizeAll_append (is js : List Instr) :
    sizeAll (is ++ js) = sizeAll is + sizeAll js := by
  simp [← length_encodeAll]

end Instr

namespace Code

variable {c : Code} {n : Nat} {i : Instr} {more : List UInt8}

theorem ext_bytes {c c' : Code} (h : c.bytes.toList = c'.bytes.toList) : c = c' := by
  obtain ⟨⟨bytes⟩⟩ := c
  obtain ⟨⟨bytes'⟩⟩ := c'
  cases h
  rfl

theorem toList_append : (c.append more).bytes.toList = c.bytes.toList ++ more := by
  simp [append]

theorem size_append : (c.append more).size = c.size + more.length := by
  rw [size, size, ← Array.length_toList, ← Array.length_toList, toList_append,
    List.length_append]

theorem append_nil : c.append [] = c := by
  simp [append]

theorem append_append (c : Code) (first second : List UInt8) :
    (c.append first).append second = c.append (first ++ second) := by
  have hlist : ((c.append first).append second).bytes.toList =
      (c.append (first ++ second)).bytes.toList := by
    rw [toList_append, toList_append, toList_append, List.append_assoc]
  exact ext_bytes hlist

/-- Cutting longer code to the length of the older code gives the older code. -/
theorem take_size_eq {before after : Code}
    (hpre : before.bytes.toList <+: after.bytes.toList) :
    (⟨after.bytes.take before.size⟩ : Code) = before := by
  apply ext_bytes
  rw [Array.take_eq_extract, Array.toList_extract]
  simpa [Code.size] using (List.prefix_iff_eq_take.1 hpre).symm

theorem byte?_of_drop {bytes : List UInt8} (h : c.bytes.toList.drop n = bytes)
    (k : Nat) {offset : Int} (hoffset : offset = n + k) :
    c.byte? offset = bytes[k]? := by
  have hnonneg : ¬ offset < 0 := by omega
  have hindex : offset.toNat = n + k := by omega
  rw [byte?, if_neg hnonneg, hindex, ← h, List.getElem?_drop,
    Array.getElem?_toList]

theorem read16?_of_drop {word : UInt16}
    (h : c.bytes.toList.drop n = i.encode ++ more)
    (hoperand : i.operandBytes = Word.bytes16 word) :
    c.read16? ((n : Int) + 1) = some word := by
  have hfirst : c.byte? ((n : Int) + 1) = _ := byte?_of_drop h 1 rfl
  have hsecond : c.byte? ((n : Int) + 1 + 1) = _ :=
    byte?_of_drop h 2 (by omega)
  simp only [Instr.encode, hoperand, Word.bytes16, List.cons_append,
    List.nil_append, List.getElem?_cons_succ, List.getElem?_cons_zero] at hfirst hsecond
  rw [read16?, hfirst, hsecond]
  simp [Word.of16_bytes16]

theorem read64?_of_drop {word : Int64}
    (h : c.bytes.toList.drop n = i.encode ++ more)
    (hoperand : i.operandBytes = Word.bytes64 word.toUInt64) :
    c.read64? ((n : Int) + 1) = some word := by
  have hlength := congrArg List.length h
  simp only [List.length_drop, Array.length_toList, List.length_append,
    Instr.encode, hoperand, Word.bytes64, List.length_cons, List.length_nil] at hlength
  have hinside : ¬ ((n : Int) + 1 < 0 ∨ c.size < ((n : Int) + 1).toNat + 8) := by
    simp only [Code.size]
    omega
  have hindex : ((n : Int) + 1).toNat = n + 1 := by omega
  have hbytes : (c.bytes.extract (n + 1) (n + 1 + 8)).toList =
      Word.bytes64 word.toUInt64 := by
    rw [Array.toList_extract, List.extract_eq_take_drop, ← List.drop_drop, h]
    simp [Instr.encode, hoperand, Word.bytes64]
  rw [read64?, if_neg hinside, hindex, hbytes, Word.of64_bytes64]
  simp

/-- An instruction is read back from its bytes. -/
theorem fetch_of_drop (h : c.bytes.toList.drop n = i.encode ++ more) :
    c.fetch n = .instr i := by
  have hopcode : c.byte? n = some i.opcode.byte := by
    have hfirst : c.byte? n = _ := byte?_of_drop h 0 (by omega)
    simpa [Instr.encode] using hfirst
  rw [fetch, hopcode]
  simp only [Opcode.ofByte?_byte]
  have hoperand : c.operandOf i.opcode ((n : Int) + 1) = some i := by
    cases i with
    | int64 value => simp [Instr.opcode, operandOf, read64?_of_drop h rfl]
    | closure k => simp [Instr.opcode, operandOf, read16?_of_drop h rfl]
    | makeBlock k => simp [Instr.opcode, operandOf, read16?_of_drop h rfl]
    | setGlobal k => simp [Instr.opcode, operandOf, read16?_of_drop h rfl]
    | getGlobal k => simp [Instr.opcode, operandOf, read16?_of_drop h rfl]
    | access k =>
        have hbyte : c.byte? ((n : Int) + 1) = _ := byte?_of_drop h 1 rfl
        simp only [Instr.encode, Instr.operandBytes, List.cons_append,
          List.getElem?_cons_succ, List.getElem?_cons_zero] at hbyte
        simp [Instr.opcode, operandOf, hbyte]
    | _ => rfl
  rw [hoperand]

/-- The instructions `is` stand at offset `pc`, after other instructions. -/
def At (c : Code) (pc : Int) (is : List Instr) : Prop :=
  ∃ before, Instr.encodeAll (before ++ is) <+: c.bytes.toList ∧
    pc = Instr.sizeAll before

theorem At.mono {c c' : Code} {pc : Int} {is : List Instr} (h : c.At pc is)
    (hpre : c.bytes.toList <+: c'.bytes.toList) : c'.At pc is := by
  obtain ⟨before, hbytes, hpc⟩ := h
  exact ⟨before, hbytes.trans hpre, hpc⟩

/-- The instructions that are appended stand at the end of the older code. -/
theorem at_append {c : Code} {is : List Instr} {older : List Instr}
    (holder : c.bytes.toList = Instr.encodeAll older) :
    (c.append (Instr.encodeAll is)).At c.size is := by
  refine ⟨older, ?_, ?_⟩
  · simp [Code.append, holder]
  · rw [Code.size, ← Array.length_toList, holder, Instr.length_encodeAll]

theorem At.drop {pc : Int} {is : List Instr} (h : c.At pc is) :
    ∃ (n : Nat) (more : List UInt8), pc = n ∧
      c.bytes.toList.drop n = Instr.encodeAll is ++ more := by
  obtain ⟨before, ⟨more, hbytes⟩, hpc⟩ := h
  refine ⟨Instr.sizeAll before, more, hpc, ?_⟩
  rw [← hbytes, Instr.encodeAll_append, List.append_assoc, ← Instr.length_encodeAll,
    List.drop_left]

/-- The machine reads the instruction that stands at its program counter. -/
theorem At.fetch {pc : Int} {is : List Instr} (h : c.At pc (i :: is)) :
    c.fetch pc = .instr i := by
  obtain ⟨n, more, rfl, hdrop⟩ := h.drop
  rw [Instr.encodeAll_cons, List.append_assoc] at hdrop
  exact fetch_of_drop hdrop

/-- After some instructions stand the others. -/
theorem At.skip {pc : Int} {is js : List Instr} (h : c.At pc (is ++ js)) :
    c.At (pc + Instr.sizeAll is) js := by
  obtain ⟨before, hbytes, rfl⟩ := h
  refine ⟨before ++ is, by simpa using hbytes, ?_⟩
  simp

theorem At.left {pc : Int} {is js : List Instr} (h : c.At pc (is ++ js)) :
    c.At pc is := by
  obtain ⟨before, hbytes, hpc⟩ := h
  refine ⟨before, List.IsPrefix.trans ?_ hbytes, hpc⟩
  rw [← List.append_assoc, Instr.encodeAll_append (before ++ is)]
  exact List.prefix_append _ _

theorem At.next {pc : Int} {is : List Instr} (h : c.At pc (i :: is)) :
    c.At (pc + i.size) is := by
  have hsplit : c.At pc ([i] ++ is) := h
  simpa using hsplit.skip

theorem At.fits {pc : Int} {is : List Instr} (h : c.At pc is) :
    pc + Instr.sizeAll is ≤ c.size := by
  obtain ⟨before, hbytes, rfl⟩ := h
  have hlength := hbytes.length_le
  rw [Instr.length_encodeAll, Instr.sizeAll_append, Array.length_toList] at hlength
  rw [Code.size]
  omega

theorem mem_decodeFrom (c : Code) (stop offset : Nat) (done : List (Nat × Instr))
    {entry : Nat × Instr} (hentry : entry ∈ done) :
    entry ∈ (c.decodeFrom stop offset done).instrs := by
  fun_induction Code.decodeFrom c stop offset done with
  | case1 => simpa using hentry
  | case2 => simpa using hentry
  | case3 => simpa using hentry
  | case4 offset done _ b _ width _ _ op i ih => exact ih (List.mem_cons_of_mem _ hentry)
  | case5 => simpa using hentry

/-- A decoder that starts before some instructions lists the one after them. -/
theorem mem_decodeFrom_of_drop {stop offset : Nat} {before : List Instr}
    {more : List UInt8} (done : List (Nat × Instr))
    (hdrop : c.bytes.toList.drop offset =
      Instr.encodeAll (before ++ [i]) ++ more)
    (hstop : offset + Instr.sizeAll before < stop) :
    (offset + Instr.sizeAll before, i) ∈
      (c.decodeFrom stop offset done).instrs := by
  induction before generalizing offset done with
  | nil =>
      have hfetch : c.fetch offset = .instr i := fetch_of_drop (by simpa using hdrop)
      rw [decodeFrom_eq]
      simp only [Instr.sizeAll_nil, Nat.add_zero] at hstop ⊢
      rw [if_pos hstop, hfetch]
      exact mem_decodeFrom _ _ _ _ List.mem_cons_self
  | cons j rest ih =>
      have hfetch : c.fetch offset = .instr j := by
        apply fetch_of_drop
        rw [hdrop, List.cons_append, Instr.encodeAll_cons, List.append_assoc]
      have hnext : c.bytes.toList.drop (offset + j.size) =
          Instr.encodeAll (rest ++ [i]) ++ more := by
        rw [← List.drop_drop, hdrop, List.cons_append, Instr.encodeAll_cons,
          List.append_assoc, ← Instr.length_encode, List.drop_left]
      rw [Instr.sizeAll_cons] at hstop ⊢
      have hgo : offset < stop := by omega
      rw [decodeFrom_eq, if_pos hgo, hfetch]
      have hrest := ih ((offset, j) :: done) hnext (by omega)
      rwa [Nat.add_assoc] at hrest

/-- Every instruction that stands somewhere is listed when the code is decoded. -/
theorem At.listed {pc : Int} {is : List Instr} (h : c.At pc (i :: is)) :
    ∃ n : Nat, pc = n ∧ (n, i) ∈ c.decodeAll.instrs := by
  have hfits := h.fits
  obtain ⟨before, ⟨more, hbytes⟩, rfl⟩ := h
  refine ⟨Instr.sizeAll before, rfl, ?_⟩
  have hdrop : c.bytes.toList.drop 0 =
      Instr.encodeAll (before ++ [i]) ++ (Instr.encodeAll is ++ more) := by
    simp [← hbytes]
  have hinside : 0 + Instr.sizeAll before < c.size := by
    rw [Instr.sizeAll_cons, Instr.size] at hfits
    omega
  have hmem := mem_decodeFrom_of_drop [] hdrop hinside
  rwa [Nat.zero_add] at hmem

/-- Only instructions that begin a list have bytes that begin those of the list. -/
theorem prefix_of_encodeAll {is js : List Instr}
    (h : Instr.encodeAll is <+: Instr.encodeAll js) : is <+: js := by
  induction is generalizing js with
  | nil => exact List.nil_prefix
  | cons i rest ih =>
      cases js with
      | nil => simp [Instr.encode] at h
      | cons j others =>
          obtain ⟨more, hmore⟩ := h
          let c : Code := ⟨⟨Instr.encodeAll (j :: others)⟩⟩
          have hj : c.fetch (0 : Nat) = .instr j := fetch_of_drop (Instr.encodeAll_cons j others)
          have hi : c.fetch (0 : Nat) = .instr i := by
            have hdrop : c.bytes.toList.drop 0 = i.encode ++ (Instr.encodeAll rest ++ more) := by
              rw [← List.append_assoc, ← Instr.encodeAll_cons]
              exact hmore.symm
            exact fetch_of_drop hdrop
          obtain rfl : i = j := by
            rw [hi] at hj
            cases hj
            rfl
          have hrest : Instr.encodeAll rest <+: Instr.encodeAll others := by
            rw [Instr.encodeAll_cons, Instr.encodeAll_cons, List.append_assoc] at hmore
            exact ⟨more, List.append_cancel_left hmore⟩
          exact (List.cons_prefix_cons).2 ⟨rfl, ih hrest⟩

/-- The instructions `is` are all those from offset `pc` on. -/
def Rest (c : Code) (pc : Int) (is : List Instr) : Prop :=
  ∃ before, c.bytes.toList = Instr.encodeAll (before ++ is) ∧ pc = Instr.sizeAll before

namespace Rest

variable {pc : Int} {is js : List Instr}

theorem at_rest (h : c.Rest pc is) : c.At pc is := by
  obtain ⟨before, hbytes, hpc⟩ := h
  exact ⟨before, hbytes ▸ List.prefix_refl _, hpc⟩

theorem skip (h : c.Rest pc (is ++ js)) : c.Rest (pc + Instr.sizeAll is) js := by
  obtain ⟨before, hbytes, rfl⟩ := h
  refine ⟨before ++ is, by rwa [List.append_assoc], ?_⟩
  simp

theorem next (h : c.Rest pc (i :: is)) : c.Rest (pc + i.size) is := by
  have hsplit : c.Rest pc ([i] ++ is) := h
  simpa using hsplit.skip

/-- The instruction that the machine reads is the first one. -/
theorem exists_cons (h : c.Rest pc is) (hfetch : c.fetch pc = .instr i) :
    ∃ rest, is = i :: rest := by
  cases is with
  | nil =>
      obtain ⟨before, hbytes, rfl⟩ := h
      have hnone : c.byte? (Instr.sizeAll before : Nat) = none := by
        have hsize : c.bytes.size = Instr.sizeAll before := by
          rw [← Array.length_toList, hbytes, List.append_nil, Instr.length_encodeAll]
        rw [byte?, if_neg (by omega), Int.toNat_natCast]
        exact Array.getElem?_eq_none (Nat.le_of_eq hsize)
      rw [fetch, hnone] at hfetch
      cases hfetch
  | cons j rest =>
      rw [h.at_rest.fetch] at hfetch
      cases hfetch
      exact ⟨rest, rfl⟩

end Rest

/-- Instructions that stand in code begin what is left of the code there. -/
theorem At.rest {pc : Int} {is all : List Instr} (h : c.At pc is)
    (hall : c.bytes.toList = Instr.encodeAll all) :
    ∃ more, c.Rest pc (is ++ more) ∧ is ++ more <:+ all := by
  obtain ⟨before, hbytes, hpc⟩ := h
  obtain ⟨more, rfl⟩ := prefix_of_encodeAll (hall ▸ hbytes)
  rw [List.append_assoc] at hall ⊢
  exact ⟨more, ⟨before, hall, hpc⟩, List.suffix_append _ _⟩

end Code

end Zinc
