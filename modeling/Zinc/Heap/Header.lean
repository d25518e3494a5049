import Zinc.Heap.Basic

/-!
Headers of heap objects.  One word holds the mark of an object in its upper two bits, then
the tag in eight and the number of slots in the lower 22.  Each change to one of them packs
the word anew from what the others are.
-/

namespace Zinc

/-- The bits that stand for a mark. -/
def Mark.bits : Mark → UInt32
  | white => 0
  | black => 1
  | freed => 2

/-- The number of a kind. -/
def Kind.byte : Kind → UInt8
  | undefined => 0
  | int => 1
  | closure => 2
  | tuple => 3
  | env => 4
  | mark => 5
  | other code => code

theorem Kind.byte_ofByte (b : UInt8) : (Kind.ofByte b).byte = b := by
  rw [Kind.ofByte, ← UInt8.toNat_inj]
  split <;> simp_all [Kind.byte]

theorem Mark.bits_lt (mark : Mark) : mark.bits.toNat < 4 := by
  cases mark <;> decide

theorem Mark.bits_injective {mark mark' : Mark} (h : mark.bits = mark'.bits) :
    mark = mark' := by
  revert h
  cases mark <;> cases mark' <;> decide

/-- The header word of an object. -/
structure Header where
  word : UInt32
deriving DecidableEq, Repr, Inhabited

namespace Header

/-- Packs a mark, a tag and a number of slots. -/
def pack (mark : UInt32) (tag : UInt8) (count : Nat) : Header where
  word := mark <<< 30 ||| tag.toUInt32 <<< 22 ||| (UInt32.ofNat count &&& 0x3fffff)

def mark (h : Header) : UInt32 :=
  h.word >>> 30

def tag (h : Header) : UInt8 :=
  (h.word >>> 22 &&& 0xff).toUInt8

def count (h : Header) : Nat :=
  (h.word &&& 0x3fffff).toNat

/-- The header with another mark. -/
def setMark (h : Header) (mark : UInt32) : Header :=
  pack mark h.tag h.count

/-- The header with another tag. -/
def setTag (h : Header) (tag : UInt8) : Header :=
  pack h.mark tag h.count

variable {mark : UInt32} {tag : UInt8} {count : Nat}

/-- The parts of a packed word do not overlap. -/
theorem toNat_pack (hmark : mark.toNat < 4) :
    (pack mark tag count).word.toNat =
      mark.toNat * 0x40000000 + (tag.toNat * 0x400000 + count % 0x400000) := by
  change _ = mark.toNat * 2 ^ 30 + (tag.toNat * 2 ^ 22 + count % 2 ^ 22)
  have htag : tag.toNat < 2 ^ 8 := tag.toNat_lt
  have hcount : count % 2 ^ 22 < 2 ^ 22 := Nat.mod_lt _ (by decide)
  have hmarkBits : (mark <<< 30).toNat = mark.toNat <<< 30 := by
    have hshift : (30 : UInt32).toNat % 32 = 30 := rfl
    rw [UInt32.toNat_shiftLeft, hshift, Nat.shiftLeft_eq, Nat.mod_eq_of_lt (by omega)]
  have htagBits : (tag.toUInt32 <<< 22).toNat = tag.toNat <<< 22 := by
    have hshift : (22 : UInt32).toNat % 32 = 22 := rfl
    rw [UInt32.toNat_shiftLeft, hshift, UInt8.toNat_toUInt32, Nat.shiftLeft_eq,
      Nat.mod_eq_of_lt (by omega)]
  have hcountBits : (UInt32.ofNat count &&& 0x3fffff).toNat = count % 2 ^ 22 := by
    rw [UInt32.toNat_and, UInt32.toNat_ofNat']
    change count % 2 ^ 32 &&& (2 ^ 22 - 1) = _
    rw [Nat.and_two_pow_sub_one_eq_mod]
    omega
  have hlow : tag.toNat <<< 22 ||| count % 2 ^ 22 = tag.toNat * 2 ^ 22 + count % 2 ^ 22 := by
    rw [← Nat.shiftLeft_add_eq_or_of_lt hcount, Nat.shiftLeft_eq]
  rw [pack, UInt32.toNat_or, UInt32.toNat_or, hmarkBits, htagBits, hcountBits, Nat.or_assoc, hlow,
    ← Nat.shiftLeft_add_eq_or_of_lt (by omega), Nat.shiftLeft_eq]

@[simp] theorem mark_pack (hmark : mark.toNat < 4) : (pack mark tag count).mark = mark := by
  have htag : tag.toNat < 2 ^ 8 := tag.toNat_lt
  rw [Header.mark, ← UInt32.toNat_inj, UInt32.toNat_shiftRight, toNat_pack hmark,
    Nat.shiftRight_eq_div_pow]
  simp
  omega

@[simp] theorem tag_pack (hmark : mark.toNat < 4) : (pack mark tag count).tag = tag := by
  have htag : tag.toNat < 2 ^ 8 := tag.toNat_lt
  have hshift : ((pack mark tag count).word >>> 22).toNat = mark.toNat * 2 ^ 8 + tag.toNat := by
    rw [UInt32.toNat_shiftRight, toNat_pack hmark, Nat.shiftRight_eq_div_pow]
    simp
    omega
  rw [Header.tag, ← UInt8.toNat_inj, UInt32.toNat_toUInt8, UInt32.toNat_and, hshift]
  change (_ &&& (2 ^ 8 - 1)) % 2 ^ 8 = _
  rw [Nat.and_two_pow_sub_one_eq_mod]
  omega

theorem count_pack (hmark : mark.toNat < 4) (hcount : count ≤ maxObjectSlots) :
    (pack mark tag count).count = count := by
  have hsmall : count < 2 ^ 22 := Nat.lt_succ_of_le hcount
  rw [Header.count, UInt32.toNat_and, toNat_pack hmark]
  change _ &&& (2 ^ 22 - 1) = _
  rw [Nat.and_two_pow_sub_one_eq_mod]
  omega

end Header

end Zinc
