import Zinc.Proofs.Heap.Sweeping

/-!
The books of a heap.  Whatever is done to a heap and to the memory that it lies in, the
counters, the links and the headers keep telling the same: how many objects there are, which
they are, and of what mark, tag and size.
-/

namespace Zinc

namespace Heap

/-- What is done to a heap. -/
inductive Action where
  | allocate (n : Int)
  | setTag (a : Nat) (tag : UInt8)
  | setField (a i : Nat) (v : Value)
  | collect (roots : List Value)
  | destroyAll

/-- Whether an action is one on the heap as a whole or on a live object. -/
def Action.Allowed (live : List Nat) : Action → Prop
  | setTag a _ | setField a _ _ => a ∈ live
  | _ => True

/-- The tags that objects have been given, after one more action. -/
def Action.record (tags : Nat → UInt8) : Action → Nat → UInt8
  | setTag a tag => fun b => if b = a then tag else tags b
  | _ => tags

/-- The tag that each object was given last; at first it is undefined. -/
def lastTags (actions : List Action) : Nat → UInt8 :=
  actions.foldl Action.record fun _ => Kind.undefined.byte

/-- The heap after an action.  One that is refused changes nothing. -/
def perform (h : Heap) : Action → Heap
  | .allocate n => ((h.allocate n).toOption.map (·.2)).getD h
  | .setTag a tag => (h.setTag? a (.ofByte tag)).getD h
  | .setField a i v => (h.setField? a i v).getD h
  | .collect roots => (h.collect roots).2
  | .destroyAll => h.destroyAll

/-- The heap after some actions. -/
def after (h : Heap) (actions : List Action) : Heap :=
  actions.foldl perform h

/-- The books are right: the counters count the live objects and all that there ever were, and
every live object has the tag that it was given last. -/
structure Booked (h : Heap) (tags : Nat → UInt8) : Prop where
  tidy : h.Tidy
  live_eq : h.stats.live = h.live.length
  balance : h.stats.live + h.stats.freed = h.stats.allocated
  allocated : h.stats.allocated = h.cells.size
  tag : ∀ a ∈ h.live, ∀ c, h.cells[a]? = some c → c.tag.byte = tags a
  beyond : ∀ a, h.cells.size ≤ a → tags a = Kind.undefined.byte

variable {h : Heap} {tags tags' : Nat → UInt8} {a : Nat} {action : Action}

theorem booked_empty : Booked {} fun _ => Kind.undefined.byte where
  tidy := tidy_empty
  live_eq := rfl
  balance := rfl
  allocated := rfl
  tag _ ha := absurd ha List.not_mem_nil
  beyond _ _ := rfl

theorem Booked.alloc (hbooked : h.Booked tags) (fields : Array Value) :
    (h.alloc .undefined fields).2.Booked tags where
  tidy := hbooked.tidy.alloc _ _
  live_eq := by simp [Heap.alloc, hbooked.live_eq]
  balance := by
    have hbalance := hbooked.balance
    simp only [Heap.alloc]
    omega
  allocated := by simp [Heap.alloc, hbooked.allocated]
  tag b hb c hc := by
    rw [cells_alloc] at hc
    split at hc
    · rename_i hnew
      cases hc
      exact (hbooked.beyond b (Nat.le_of_eq hnew.symm)).symm
    · rename_i hold
      exact hbooked.tag b ((List.mem_cons.1 hb).resolve_left hold) c hc
  beyond b hb := by
    rw [size_alloc] at hb
    exact hbooked.beyond b (Nat.le_of_succ_le hb)

/-- A live object is changed, and its tag goes down in the books. -/
theorem Booked.modify (hbooked : h.Booked tags) (ha : a ∈ h.live) {f : Cell → Cell}
    (hmark : ∀ c, (f c).mark = c.mark)
    (htag : ∀ c, h.cells[a]? = some c → (f c).tag.byte = tags' a)
    (hother : ∀ b, b ≠ a → tags' b = tags b) :
    Booked { h with cells := h.cells.modify a f } tags' where
  tidy := hbooked.tidy.modify ha hmark
  live_eq := hbooked.live_eq
  balance := hbooked.balance
  allocated := by simpa using hbooked.allocated
  tag b hb c hc := by
    rw [Array.getElem?_modify] at hc
    split at hc
    · rename_i hab
      subst hab
      obtain ⟨c', hc', rfl⟩ := Option.map_eq_some_iff.1 hc
      exact htag c' hc'
    · rename_i hab
      rw [hother b (Ne.symm hab)]
      exact hbooked.tag b hb c hc
  beyond b hb := by
    rw [Array.size_modify] at hb
    have hba : b ≠ a := fun heq => Nat.not_le.2 (hbooked.tidy.lt_size ha) (heq ▸ hb)
    rw [hother b hba]
    exact hbooked.beyond b hb

theorem Booked.collect (hbooked : h.Booked tags) (roots : List Value) :
    (h.collect roots).2.Booked tags := by
  have hfreed := freed_collect h roots
  have hlive := hbooked.live_eq
  have hbalance := hbooked.balance
  have hcount : (h.collect roots).2.stats.live = h.stats.live - (h.collect roots).1 := rfl
  have hreleased : (h.collect roots).2.stats.freed = h.stats.freed + (h.collect roots).1 := rfl
  constructor
  · exact hbooked.tidy.collect roots
  · omega
  · change _ = h.stats.allocated
    omega
  · rw [size_collect]
    exact hbooked.allocated
  · intro b hb c hc
    obtain ⟨hold, hreach⟩ := hbooked.tidy.mem_live_collect.1 hb
    rw [hbooked.tidy.collect_cell hreach] at hc
    exact hbooked.tag b hold c hc
  · intro b hb
    rw [size_collect] at hb
    exact hbooked.beyond b hb

theorem Booked.destroyAll (hbooked : h.Booked tags) : h.destroyAll.Booked tags where
  tidy := hbooked.tidy.destroyAll
  live_eq := rfl
  balance := by
    have hbalance := hbooked.balance
    simp only [Heap.destroyAll]
    omega
  allocated := by
    rw [size_destroyAll]
    exact hbooked.allocated
  tag b hb := absurd hb List.not_mem_nil
  beyond b hb := by
    rw [size_destroyAll] at hb
    exact hbooked.beyond b hb

/-- One action keeps the books right. -/
theorem Booked.perform (hbooked : h.Booked tags) (hallowed : action.Allowed h.live) :
    (h.perform action).Booked (action.record tags) := by
  cases action with
  | allocate n =>
      rw [Heap.perform, allocate]
      split
      · exact hbooked
      · exact hbooked.alloc _
  | setTag a tag =>
      rw [Heap.perform, setTag?, if_pos (hbooked.tidy.lt_size hallowed)]
      refine hbooked.modify hallowed (fun _ => rfl) (fun c _ => ?_) fun b hb => ?_
      · simp [Action.record, Kind.byte_ofByte]
      · simp [Action.record, hb]
  | setField a i v =>
      rw [Heap.perform, setField?]
      split
      · exact hbooked.modify hallowed (fun _ => rfl) (hbooked.tag a hallowed) fun _ _ => rfl
      · exact hbooked
  | collect roots => exact hbooked.collect roots
  | destroyAll => exact hbooked.destroyAll

/-- The object at an address has been released. -/
def Gone (h : Heap) (a : Nat) : Prop :=
  a < h.cells.size ∧ a ∉ h.live

/-- One action does not bring a released object back. -/
theorem Gone.perform (hgone : h.Gone a) (htidy : h.Tidy) (action : Action) :
    (h.perform action).Gone a := by
  obtain ⟨hsize, hnot⟩ := hgone
  cases action with
  | allocate n =>
      rw [Heap.perform, allocate]
      split
      · exact ⟨hsize, hnot⟩
      · refine ⟨Nat.lt_of_lt_of_eq (Nat.lt_succ_of_lt hsize) (size_alloc h _ _).symm, ?_⟩
        change a ∉ h.cells.size :: h.live
        rw [List.mem_cons, not_or]
        exact ⟨Nat.ne_of_lt hsize, hnot⟩
  | setTag b tag =>
      rw [Heap.perform, setTag?]
      split
      · exact ⟨by simpa using hsize, hnot⟩
      · exact ⟨hsize, hnot⟩
  | setField b i v =>
      rw [Heap.perform, setField?]
      split
      · exact ⟨by simpa using hsize, hnot⟩
      · exact ⟨hsize, hnot⟩
  | collect roots =>
      refine ⟨Nat.lt_of_lt_of_eq hsize (size_collect h roots).symm, fun hlive => hnot ?_⟩
      exact (htidy.mem_live_collect.1 hlive).1
  | destroyAll =>
      exact ⟨Nat.lt_of_lt_of_eq hsize (size_destroyAll h).symm, List.not_mem_nil⟩

end Heap

namespace Memory

open Heap (Action lastTags)

/-- The memory after an action.  One that is refused changes nothing. -/
def perform (m : Memory) : Action → Memory
  | .allocate n => ((m.allocate n).toOption.map (·.2)).getD m
  | .setTag a tag => (m.setTag? a tag).getD m
  | .setField a i v => (m.setField? a i v).getD m
  | .collect roots => (m.collect roots).2
  | .destroyAll => m.destroyAll

/-- The memory after some actions. -/
def after (m : Memory) (actions : List Action) : Memory :=
  actions.foldl perform m

/-- Tags and slots are changed of such blocks only as are listed at that time. -/
def Allows (m : Memory) : List Action → Prop
  | [] => True
  | action :: rest => action.Allowed m.objects ∧ (m.perform action).Allows rest

variable {m : Memory} {h : Heap} {tags : Nat → UInt8} {a : Nat}

/-- One action keeps the memory laid out like the heap. -/
theorem Lays.perform (hlays : m.Lays h) (htidy : h.Tidy) (action : Action) :
    (m.perform action).Lays (h.perform action) := by
  cases action with
  | allocate n =>
      rw [Memory.perform, Heap.perform]
      rcases hlays.allocate htidy n with ⟨f, hm, hh⟩ | ⟨a, m', h', hm, hh, hlays'⟩
      · rw [hm, hh]
        exact hlays
      · rw [hm, hh]
        exact hlays'
  | setTag a tag =>
      rw [Memory.perform, Heap.perform]
      rcases hlays.setTag a tag with ⟨hm, hh⟩ | ⟨m', h', hm, hh, hlays'⟩
      · rw [hm, hh]
        exact hlays
      · rw [hm, hh]
        exact hlays'
  | setField a i v =>
      rw [Memory.perform, Heap.perform]
      rcases hlays.setField a i v with ⟨hm, hh⟩ | ⟨m', h', hm, hh, hlays'⟩
      · rw [hm, hh]
        exact hlays
      · rw [hm, hh]
        exact hlays'
  | collect roots => exact (hlays.collect htidy roots).2
  | destroyAll => exact hlays.destroyAll htidy

/-- Any actions keep the books right and the memory laid out like the heap. -/
theorem booked_after (actions : List Action) (hlays : m.Lays h) (hbooked : h.Booked tags)
    (hallowed : m.Allows actions) :
    (m.after actions).Lays (h.after actions) ∧
      (h.after actions).Booked (actions.foldl Action.record tags) := by
  induction actions generalizing m h tags with
  | nil => exact ⟨hlays, hbooked⟩
  | cons action rest ih =>
      obtain ⟨hfirst, hrest⟩ := hallowed
      rw [hlays.objects hbooked.tidy] at hfirst
      exact ih (hlays.perform hbooked.tidy action) (hbooked.perform hfirst) hrest

/-- No actions bring a released object back. -/
theorem gone_after (actions : List Action) (hlays : m.Lays h) (hbooked : h.Booked tags)
    (hallowed : m.Allows actions) (hgone : h.Gone a) : (h.after actions).Gone a := by
  induction actions generalizing m h tags with
  | nil => exact hgone
  | cons action rest ih =>
      obtain ⟨hfirst, hrest⟩ := hallowed
      rw [hlays.objects hbooked.tidy] at hfirst
      exact ih (hlays.perform hbooked.tidy action) (hbooked.perform hfirst) hrest
        (hgone.perform hbooked.tidy action)

/-- The header of a listed block. -/
theorem Lays.header (hlays : m.Lays h) (hbooked : h.Booked tags) (ha : a ∈ h.live) :
    ∃ b, m.blocks[a]? = some b ∧ b.header.mark = Mark.white.bits ∧
      b.header.count = b.fields.size ∧ b.fields.size ≤ maxObjectSlots ∧
      b.header.tag = tags a := by
  obtain ⟨c, hcell, hwhite⟩ := (hbooked.tidy.live_iff a).1 ha
  obtain ⟨b, hb, hshows⟩ := hlays.shown.block hcell
  refine ⟨b, hb, ?_, ?_, ?_, ?_⟩
  · rw [hshows.mark, hwhite]
  · rw [hshows.count, hshows.fields]
  · rw [hshows.fields]
    exact hshows.size_le
  · rw [hshows.tag, hbooked.tag a ha c hcell]

/-- The header of a block that has been released. -/
theorem Lays.poisoned (hlays : m.Lays h) (htidy : h.Tidy) {b : Block}
    (hb : m.blocks[a]? = some b) (ha : a ∉ h.live) :
    b.header.mark = Mark.freed.bits ∧ b.header.tag = Kind.undefined.byte ∧
      b.header.count = 0 ∧ b.fields = #[] := by
  obtain ⟨c, hcell, hshows⟩ := hlays.shown.cell hb
  have hdead : c = .poisoned := htidy.dead a c hcell fun hwhite =>
    ha ((htidy.live_iff a).2 ⟨c, hcell, hwhite⟩)
  subst hdead
  exact ⟨hshows.mark, hshows.tag, hshows.count, hshows.fields⟩

/-- Whatever has been done, the books are right.  The memory is laid out like the heap.  The
live counter is the length of the list, and the number of blocks allocated less those that
have been released; no block is listed twice.  A listed block is white, and its header has
the number of its slots and the tag that it was given last.  Any other block is poisoned and
will never be listed again.  An allocation that is refused changes nothing. -/
theorem books_balance (actions : List Action) (hallowed : Memory.Allows {} actions) :
    let m := Memory.after {} actions
    let h := Heap.after {} actions
    m.Lays h ∧ m.objects = h.live ∧
      m.stats.live = m.objects.length ∧ m.stats.freed ≤ m.stats.allocated ∧
      m.stats.live = m.stats.allocated - m.stats.freed ∧
      m.stats.allocated = m.blocks.size ∧ m.objects.Nodup ∧
      (∀ a ∈ m.objects, ∃ b, m.blocks[a]? = some b ∧ b.header.mark = Mark.white.bits ∧
        b.header.count = b.fields.size ∧ b.fields.size ≤ 2 ^ 22 - 1 ∧
        b.header.tag = lastTags actions a) ∧
      (∀ a b, m.blocks[a]? = some b → a ∉ m.objects →
        (b.header.mark = Mark.freed.bits ∧ b.header.tag = Kind.undefined.byte ∧
          b.header.count = 0 ∧ b.fields = #[]) ∧
        ∀ later, m.Allows later → a ∉ (m.after later).objects) ∧
      ∀ n : Int, n < 0 ∨ 2 ^ 22 - 1 < n →
        (∃ f, m.allocate n = .error f) ∧ m.perform (.allocate n) = m ∧
          h.perform (.allocate n) = h := by
  intro m h
  obtain ⟨hlays, hbooked⟩ := booked_after actions lays_empty Heap.booked_empty hallowed
  have hobjects : m.objects = h.live := hlays.objects hbooked.tidy
  have hlive := hbooked.live_eq
  have hbalance := hbooked.balance
  refine ⟨hlays, hobjects, ?_, ?_, ?_, ?_, ?_, ?_, ?_, ?_⟩
  · rw [hobjects, hlays.stats, hlive]
  · rw [hlays.stats]
    omega
  · rw [hlays.stats]
    omega
  · rw [hlays.stats, hlays.shown.size, hbooked.allocated]
  · rw [hobjects]
    exact hbooked.tidy.nodup
  · intro a ha
    rw [hobjects] at ha
    exact hlays.header hbooked ha
  · intro a b hb ha
    rw [hobjects] at ha
    refine ⟨hlays.poisoned hbooked.tidy hb ha, fun later hlater => ?_⟩
    have hgone : h.Gone a := by
      refine ⟨?_, ha⟩
      rw [← hlays.shown.size]
      exact (Array.getElem?_eq_some_iff.1 hb).1
    obtain ⟨hlays', hbooked'⟩ := booked_after later hlays hbooked hlater
    rw [hlays'.objects hbooked'.tidy]
    exact (gone_after later hlays hbooked hlater hgone).2
  · intro n hn
    have hrefused : n < 0 ∨ (maxObjectSlots : Int) < n := hn
    refine ⟨⟨Heap.tooLarge n, ?_⟩, ?_, ?_⟩
    · rw [allocate, if_pos hrefused]
    · rw [perform, allocate, if_pos hrefused]
      rfl
    · rw [Heap.perform, Heap.allocate, if_pos hrefused]
      rfl

/-- Three objects, of which two refer to each other, and a request that is refused.  The
third is released; then a tag is changed, and the memory is emptied in the end. -/
theorem books_balance_cycle :
    let before : List Action := [.allocate 2, .setTag 0 3, .allocate 1, .allocate 0x400000,
      .setField 0 1 (.ref .undefined 1), .setField 1 0 (.ref .tuple 0), .allocate 0,
      .collect [.ref .tuple 0], .setTag 1 2]
    let m := Memory.after {} before
    Memory.Allows {} before ∧ m.objects = [1, 0] ∧ m.stats = ⟨2, 3, 1, 1⟩ ∧
      m.blocks.toList.map (·.header.word) = [0x00c00002, 0x00800001, 0x80000000] ∧
      lastTags before 1 = 2 ∧ (m.perform .destroyAll).objects = [] ∧
      ∀ a ∈ m.objects, ∃ b, m.blocks[a]? = some b ∧ b.header.mark = Mark.white.bits ∧
        b.header.count = b.fields.size ∧ b.fields.size ≤ 2 ^ 22 - 1 ∧
        b.header.tag = lastTags before a := by
  intro before m
  have hallowed : Memory.Allows {} before := by
    refine ⟨trivial, ?_, trivial, trivial, ?_, ?_, trivial, trivial, ?_, trivial⟩
    · change 0 ∈ objects _
      cbv
      exact List.mem_cons_self
    · change 0 ∈ objects _
      cbv
      exact List.mem_cons_of_mem 1 List.mem_cons_self
    · change 1 ∈ objects _
      cbv
      exact List.mem_cons_self
    · change 1 ∈ objects _
      cbv
      exact List.mem_cons_self
  have hm : m = {
      blocks := #[⟨⟨0x00c00002⟩, none, #[.undefined, .ref .undefined 1]⟩,
        ⟨⟨0x00800001⟩, some 0, #[.ref .tuple 0]⟩, ⟨⟨0x80000000⟩, none, #[]⟩]
      first := some 1
      stats := ⟨2, 3, 1, 1⟩ } := by
    simp only [m, before]
    cbv
  obtain ⟨_, _, _, _, _, _, _, hlisted, _⟩ := books_balance before hallowed
  refine ⟨hallowed, ?_, ?_, ?_, rfl, ?_, hlisted⟩
  · rw [hm]
    decide
  · rw [hm]
  · rw [hm]
    decide
  · rw [hm]
    decide

end Memory

end Zinc
