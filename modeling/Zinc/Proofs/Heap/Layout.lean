import Zinc.Heap.Memory
import Zinc.Proofs.Heap.Retained

/-!
How a heap lies in memory.  Every object is a block whose header packs its mark, its tag and
the number of its slots, and the links lead from one live object to the next.  Allocating an
object, changing its tag and writing its slots give the same answers on both sides and keep
the memory laid out like the heap.
-/

namespace Zinc

/-- The block holds the object: its header is packed from the mark, the tag and the number of
slots that the object has. -/
structure Block.Shows (b : Block) (c : Cell) : Prop where
  header : b.header = .pack c.mark.bits c.tag.byte c.fields.size
  kind : Kind.ofByte c.tag.byte = c.tag
  fields : b.fields = c.fields
  size_le : c.fields.size ≤ maxObjectSlots

namespace Block.Shows

variable {b : Block} {c : Cell}

theorem mark (h : b.Shows c) : b.header.mark = c.mark.bits := by
  rw [h.header, Header.mark_pack c.mark.bits_lt]

theorem tag (h : b.Shows c) : b.header.tag = c.tag.byte := by
  rw [h.header, Header.tag_pack c.mark.bits_lt]

theorem count (h : b.Shows c) : b.header.count = c.fields.size := by
  rw [h.header, Header.count_pack c.mark.bits_lt h.size_le]

theorem hasMark (h : b.Shows c) (mark : Mark) : b.hasMark mark = (c.mark == mark) := by
  rw [Block.hasMark, h.mark, Bool.eq_iff_iff, beq_iff_eq, beq_iff_eq]
  exact ⟨Mark.bits_injective, congrArg Mark.bits⟩

theorem setMark (h : b.Shows c) (mark : Mark) :
    (b.setMark mark).Shows { c with mark := mark } where
  header := by rw [Block.setMark, Header.setMark, h.tag, h.count]
  kind := h.kind
  fields := h.fields
  size_le := h.size_le

theorem setTag (h : b.Shows c) (tag : UInt8) :
    { b with header := b.header.setTag tag }.Shows { c with tag := .ofByte tag } where
  header := by rw [Header.setTag, h.mark, h.count, Kind.byte_ofByte]
  kind := by rw [Kind.byte_ofByte]
  fields := h.fields
  size_le := h.size_le

theorem setField (h : b.Shows c) (i : Nat) (v : Value) :
    { b with fields := b.fields.setIfInBounds i v }.Shows
      { c with fields := c.fields.setIfInBounds i v } where
  header := by simpa using h.header
  kind := h.kind
  fields := by rw [h.fields]
  size_le := by simpa using h.size_le

theorem setNext (h : b.Shows c) (next : Option Nat) : { b with next := next }.Shows c :=
  ⟨h.header, h.kind, h.fields, h.size_le⟩

theorem released : Block.released.Shows .poisoned :=
  ⟨rfl, rfl, rfl, Nat.zero_le _⟩

/-- A new object of undefined slots. -/
theorem fresh {n : Nat} (hn : n ≤ maxObjectSlots) (next : Option Nat) :
    Block.Shows {
        header := .pack Mark.white.bits Kind.undefined.byte n
        next := next
        fields := Array.replicate n .undefined }
      { fields := Array.replicate n .undefined } :=
  ⟨by simp, rfl, rfl, by simpa using hn⟩

end Block.Shows

/-- The blocks hold the objects, address by address. -/
structure Shown (blocks : Array Block) (cells : Array Cell) : Prop where
  size : blocks.size = cells.size
  shows : ∀ (a : Nat) (b : Block) (c : Cell),
    blocks[a]? = some b → cells[a]? = some c → b.Shows c

namespace Shown

variable {blocks : Array Block} {cells : Array Cell} {a : Nat} {b : Block} {c : Cell}

theorem block (h : Shown blocks cells) (hcell : cells[a]? = some c) :
    ∃ b, blocks[a]? = some b ∧ b.Shows c := by
  have ha : a < blocks.size := h.size ▸ Heap.lt_size_of_getElem? hcell
  exact ⟨blocks[a], Array.getElem?_eq_getElem ha,
    h.shows a _ c (Array.getElem?_eq_getElem ha) hcell⟩

theorem cell (h : Shown blocks cells) (hblock : blocks[a]? = some b) :
    ∃ c, cells[a]? = some c ∧ b.Shows c := by
  have ha : a < cells.size := h.size ▸ (Array.getElem?_eq_some_iff.1 hblock).1
  exact ⟨cells[a], Array.getElem?_eq_getElem ha,
    h.shows a b _ hblock (Array.getElem?_eq_getElem ha)⟩

/-- Changing a block and its object alike. -/
theorem modify (h : Shown blocks cells) (a : Nat) {f : Block → Block} {g : Cell → Cell}
    (hfg : ∀ b c, cells[a]? = some c → b.Shows c → (f b).Shows (g c)) :
    Shown (blocks.modify a f) (cells.modify a g) where
  size := by simpa using h.size
  shows i b c hb hc := by
    rw [Array.getElem?_modify] at hb hc
    split at hb
    · rename_i hai
      subst hai
      rw [if_pos rfl] at hc
      obtain ⟨b', hb', rfl⟩ := Option.map_eq_some_iff.1 hb
      obtain ⟨c', hc', rfl⟩ := Option.map_eq_some_iff.1 hc
      exact hfg b' c' hc' (h.shows a b' c' hb' hc')
    · rename_i hai
      rw [if_neg hai] at hc
      exact h.shows i b c hb hc

theorem set (h : Shown blocks cells) (hblock : a < blocks.size) (hcell : a < cells.size)
    (hshows : b.Shows c) : Shown (blocks.set a b) (cells.set a c) where
  size := by simpa using h.size
  shows i b' c' hb hc := by
    rw [Array.getElem?_set] at hb hc
    split at hb
    · rename_i hai
      rw [if_pos hai] at hc
      cases hb
      cases hc
      exact hshows
    · rename_i hai
      rw [if_neg hai] at hc
      exact h.shows i b' c' hb hc

theorem push (h : Shown blocks cells) (hshows : b.Shows c) :
    Shown (blocks.push b) (cells.push c) where
  size := by simpa using h.size
  shows i b' c' hb hc := by
    rw [Array.getElem?_push] at hb hc
    rw [h.size] at hb
    split at hb
    · rename_i hi
      rw [if_pos hi] at hc
      cases hb
      cases hc
      exact hshows
    · rename_i hi
      rw [if_neg hi] at hc
      exact h.shows i b' c' hb hc

end Shown

namespace Memory

/-- The links from a target on lead through exactly these blocks, and end there. -/
def Threads (follow : Option Nat → Option Nat) : Option Nat → List Nat → Prop
  | none, [] => True
  | some a, b :: rest => a = b ∧ Threads follow (follow (some a)) rest
  | _, _ => False

/-- Only the links of the blocks on the way matter. -/
theorem Threads.congr {follow follow' : Option Nat → Option Nat} {target : Option Nat}
    {list : List Nat} (h : Threads follow target list)
    (hsame : ∀ a ∈ list, follow' (some a) = follow (some a)) :
    Threads follow' target list := by
  induction list generalizing target with
  | nil => cases target <;> exact h
  | cons b rest ih =>
      cases target with
      | none => exact h
      | some a =>
          obtain ⟨rfl, hrest⟩ := h
          refine ⟨rfl, ?_⟩
          rw [hsame a List.mem_cons_self]
          exact ih hrest fun c hc => hsame c (List.mem_cons_of_mem a hc)

/-- The memory is laid out like the heap. -/
structure Lays (m : Memory) (h : Heap) : Prop where
  shown : Shown m.blocks h.cells
  threads : Threads m.follow m.first h.live
  stats : m.stats = h.stats

variable {m : Memory} {h : Heap}

theorem lays_empty : Lays {} {} :=
  ⟨⟨rfl, by simp⟩, trivial, rfl⟩

/-- Following the links gives the live objects. -/
theorem listFrom_of_threads {target : Option Nat} {list : List Nat}
    (hthreads : Threads m.follow target list) {n : Nat} (hn : list.length ≤ n) :
    m.listFrom n target = list := by
  induction list generalizing target n with
  | nil =>
      cases target with
      | none => cases n <;> rfl
      | some a => exact hthreads.elim
  | cons b rest ih =>
      cases target with
      | none => exact hthreads.elim
      | some a =>
          obtain ⟨rfl, hrest⟩ := hthreads
          cases n with
          | zero => exact absurd hn (Nat.not_succ_le_zero _)
          | succ n => rw [listFrom, ih hrest (Nat.le_of_succ_le_succ hn)]

/-- Addresses that are all different are no more than there are below their bound. -/
theorem length_le_of_nodup {list : List Nat} {n : Nat} (hnodup : list.Nodup)
    (hlt : ∀ a ∈ list, a < n) : list.length ≤ n := by
  have hsub : list ⊆ List.range n := fun a ha => List.mem_range.2 (hlt a ha)
  simpa using (List.subperm_of_subset hnodup hsub).length_le

theorem Lays.live_le (hlays : m.Lays h) (htidy : h.Tidy) :
    h.live.length ≤ m.blocks.size := by
  rw [hlays.shown.size]
  exact length_le_of_nodup htidy.nodup fun a => htidy.lt_size

theorem Lays.objects (hlays : m.Lays h) (htidy : h.Tidy) : m.objects = h.live :=
  listFrom_of_threads hlays.threads (hlays.live_le htidy)

/-- Allocating gives the same answer. -/
theorem Lays.allocate (hlays : m.Lays h) (htidy : h.Tidy) (n : Int) :
    (∃ f, m.allocate n = .error f ∧ h.allocate n = .error f) ∨
      ∃ a m' h', m.allocate n = .ok (a, m') ∧ h.allocate n = .ok (a, h') ∧ m'.Lays h' := by
  rw [Memory.allocate, Heap.allocate]
  by_cases hn : n < 0 ∨ maxObjectSlots < n
  · rw [if_pos hn, if_pos hn]
    exact Or.inl ⟨_, rfl, rfl⟩
  · rw [if_neg hn, if_neg hn]
    refine Or.inr ⟨m.blocks.size, _, _, rfl, by rw [hlays.shown.size]; rfl, ?_⟩
    have hsize : n.toNat ≤ maxObjectSlots := by omega
    constructor
    · exact hlays.shown.push (.fresh hsize m.first)
    · refine ⟨hlays.shown.size, ?_⟩
      change Threads _ ((m.blocks.push _)[m.blocks.size]?.bind (·.next)) _
      rw [Array.getElem?_push_size]
      refine hlays.threads.congr fun a ha => ?_
      have hold : a ≠ m.blocks.size := by
        rw [hlays.shown.size]
        exact Nat.ne_of_lt (htidy.lt_size ha)
      simp [follow, Array.getElem?_push, hold]
    · simp [hlays.stats]

/-- The memory stays laid out when a block and its object change alike and the link of the
block stays. -/
theorem Lays.modify (hlays : m.Lays h) (a : Nat) {f : Block → Block} {g : Cell → Cell}
    (hnext : ∀ b, (f b).next = b.next)
    (hfg : ∀ b c, h.cells[a]? = some c → b.Shows c → (f b).Shows (g c)) :
    Lays { m with blocks := m.blocks.modify a f } { h with cells := h.cells.modify a g } where
  shown := hlays.shown.modify a hfg
  threads := by
    refine hlays.threads.congr fun b _ => ?_
    simp only [follow, Array.getElem?_modify]
    split
    · cases m.blocks[b]? <;> simp [hnext]
    · rfl
  stats := hlays.stats

/-- Changing a tag gives the same answer. -/
theorem Lays.setTag (hlays : m.Lays h) (a : Nat) (tag : UInt8) :
    (m.setTag? a tag = none ∧ h.setTag? a (.ofByte tag) = none) ∨
      ∃ m' h', m.setTag? a tag = some m' ∧ h.setTag? a (.ofByte tag) = some h' ∧ m'.Lays h' := by
  rw [Memory.setTag?, Heap.setTag?, hlays.shown.size]
  by_cases ha : a < h.cells.size
  · rw [if_pos ha, if_pos ha]
    exact Or.inr ⟨_, _, rfl, rfl,
      hlays.modify a (fun _ => rfl) fun _ _ _ hshows => hshows.setTag tag⟩
  · rw [if_neg ha, if_neg ha]
    exact Or.inl ⟨rfl, rfl⟩

theorem Lays.fields (hlays : m.Lays h) (a : Nat) : m.fields a = h.fields a := by
  rw [Memory.fields, Heap.fields]
  cases hcell : h.cells[a]? with
  | none =>
      have ha : m.blocks[a]? = none := by
        rw [Array.getElem?_eq_none_iff, hlays.shown.size]
        exact Array.getElem?_eq_none_iff.1 hcell
      rw [ha]
      rfl
  | some c =>
      obtain ⟨b, hb, hshows⟩ := hlays.shown.block hcell
      rw [hb]
      exact hshows.fields

/-- Writing a slot gives the same answer. -/
theorem Lays.setField (hlays : m.Lays h) (a i : Nat) (v : Value) :
    (m.setField? a i v = none ∧ h.setField? a i v = none) ∨
      ∃ m' h', m.setField? a i v = some m' ∧ h.setField? a i v = some h' ∧ m'.Lays h' := by
  rw [Memory.setField?, Heap.setField?, hlays.fields]
  by_cases hi : i < (h.fields a).size
  · rw [if_pos hi, if_pos hi]
    exact Or.inr ⟨_, _, rfl, rfl,
      hlays.modify a (fun _ => rfl) fun _ _ _ hshows => hshows.setField i v⟩
  · rw [if_neg hi, if_neg hi]
    exact Or.inl ⟨rfl, rfl⟩

end Memory

end Zinc
