import Zinc.Proofs.Heap.Marking

/-!
Going along the links.  A sweep looks at each listed block once.  It unmarks the marked ones
and takes the others out of the list, so the links lead through the marked blocks in their
old order afterwards.  Collecting and releasing everything thereby do the same to the memory
as to the heap that it is laid out like.
-/

namespace Zinc

namespace Memory

variable {m : Memory} {h : Heap} {link target : Option Nat} {a : Nat}

/-- Whether a link exists: it is in front of all blocks or in a block. -/
def HasLink (m : Memory) (link : Option Nat) : Prop :=
  ∀ a, link = some a → a < m.blocks.size

theorem follow_redirect (hlink : m.HasLink link) (x : Option Nat) :
    (m.redirect target link).follow x = if x = link then target else m.follow x := by
  cases link with
  | none => cases x <;> simp [redirect, follow]
  | some l =>
      have hl := hlink l rfl
      cases x with
      | none => simp [redirect, follow]
      | some a =>
          by_cases hal : l = a
          · subst hal
            simp only [redirect, follow, Array.getElem?_modify, if_true]
            rw [Array.getElem?_eq_getElem hl]
            rfl
          · simp [redirect, follow, Array.getElem?_modify, hal, Ne.symm hal]

theorem follow_release (m : Memory) (a : Nat) (x : Option Nat) :
    (m.release a).follow x = if x = some a then none else m.follow x := by
  cases x with
  | none => simp [release, follow]
  | some b =>
      by_cases hab : a = b
      · subst hab
        simp only [release, follow, Array.getElem?_modify, if_true]
        cases m.blocks[a]? <;> rfl
      · simp [release, follow, Array.getElem?_modify, hab, Ne.symm hab]

variable {cells : Array Cell}

theorem shown_redirect (hshown : Shown m.blocks cells) (target link : Option Nat) :
    Shown (m.redirect target link).blocks cells := by
  cases link with
  | none => exact hshown
  | some a =>
      have hsame : cells.modify a id = cells := by
        apply Array.ext_getElem?
        intro i
        simp [Array.getElem?_modify]
      rw [← hsame]
      exact hshown.modify a fun b c _ hshows => hshows.setNext target

theorem shown_release (hshown : Shown m.blocks cells) (a : Nat) :
    Shown (m.release a).blocks (cells.modify a fun _ => .poisoned) :=
  hshown.modify a fun _ _ _ _ => .released

namespace Sweeping

variable {s s' s'' : Sweeping} {rest : List Nat}

/-- A sweep has these blocks ahead of it: the link that it looks at leads through them. -/
structure Ahead (s : Sweeping) (cells : Array Cell) (rest : List Nat) : Prop where
  shown : Shown s.memory.blocks cells
  hasLink : s.memory.HasLink s.link
  threads : Threads s.memory.follow (s.memory.follow s.link) rest
  nodup : rest.Nodup
  apart : ∀ a ∈ rest, s.link ≠ some a
  inside : ∀ a ∈ rest, a < cells.size

theorem Ahead.follow (h : s.Ahead cells (a :: rest)) : s.memory.follow s.link = some a := by
  have hthreads := h.threads
  cases htarget : s.memory.follow s.link with
  | none =>
      rw [htarget] at hthreads
      exact hthreads.elim
  | some b =>
      rw [htarget] at hthreads
      rw [hthreads.1]

theorem Ahead.behind (h : s.Ahead cells (a :: rest)) :
    Threads s.memory.follow (s.memory.follow (some a)) rest := by
  have hthreads := h.threads
  rw [h.follow] at hthreads
  exact hthreads.2

theorem Ahead.any_hasMark (h : s.Ahead cells (a :: rest)) :
    s.memory.blocks[a]?.any (·.hasMark .black) = Heap.isBlack cells a := by
  have ha := h.inside a List.mem_cons_self
  have hcell : cells[a]? = some cells[a] := Array.getElem?_eq_getElem ha
  obtain ⟨b, hb, hshows⟩ := h.shown.block hcell
  rw [hb, Heap.isBlack, hcell]
  exact hshows.hasMark .black

theorem Ahead.swept_eq (h : s.Ahead cells (a :: rest)) :
    cells.modify a Cell.swept =
      if Heap.isBlack cells a then cells.modify a fun c => { c with mark := .white }
      else cells.modify a fun _ => .poisoned := by
  have ha := h.inside a List.mem_cons_self
  have hblack : Heap.isBlack cells a = (cells[a].mark == .black) := by
    rw [Heap.isBlack, Array.getElem?_eq_getElem ha]
    rfl
  rw [hblack]
  apply Array.ext_getElem?
  intro i
  split
  · rename_i hmark
    simp only [Array.getElem?_modify]
    split
    · rename_i hai
      subst hai
      simp [Array.getElem?_eq_getElem ha, Cell.swept, beq_iff_eq.1 hmark]
    · rfl
  · rename_i hmark
    simp only [Array.getElem?_modify]
    split
    · rename_i hai
      subst hai
      have hne : cells[a].mark ≠ .black := fun heq => hmark (beq_iff_eq.2 heq)
      simp [Array.getElem?_eq_getElem ha, Cell.swept, hne]
    · rfl

theorem Ahead.turn (h : s.Ahead cells (a :: rest)) :
    s.turn? = some (if Heap.isBlack cells a then s.pass a else s.takeOut a) := by
  rw [turn?, h.follow, Option.map_some, h.any_hasMark]

/-- Passing a block changes no link. -/
theorem follow_pass (s : Sweeping) (a : Nat) (x : Option Nat) :
    (s.pass a).memory.follow x = s.memory.follow x := by
  cases x with
  | none => rfl
  | some b =>
      simp only [pass, Memory.follow, Array.getElem?_modify]
      split
      · cases s.memory.blocks[b]? <;> rfl
      · rfl

theorem follow_takeOut (hlink : s.memory.HasLink s.link) (a : Nat) (x : Option Nat) :
    (s.takeOut a).memory.follow x =
      if x = some a then none
      else if x = s.link then s.memory.follow (some a) else s.memory.follow x := by
  rw [takeOut, follow_release, follow_redirect hlink]

/-- A marked block is passed. -/
theorem Ahead.pass (h : s.Ahead cells (a :: rest)) (hblack : Heap.isBlack cells a = true) :
    (s.pass a).Ahead (cells.modify a Cell.swept) rest := by
  have hnodup := List.nodup_cons.1 h.nodup
  have hshown : Shown (s.pass a).memory.blocks (cells.modify a Cell.swept) := by
    rw [h.swept_eq, if_pos hblack]
    exact h.shown.modify a fun _ _ _ hshows => hshows.setMark .white
  constructor
  · exact hshown
  · intro b hb
    obtain rfl := Option.some.inj hb
    rw [hshown.size, Array.size_modify]
    exact h.inside a List.mem_cons_self
  · rw [follow_pass]
    exact h.behind.congr fun b _ => s.follow_pass a (some b)
  · exact hnodup.2
  · intro b hb heq
    exact hnodup.1 (Option.some.inj heq ▸ hb)
  · intro b hb
    rw [Array.size_modify]
    exact h.inside b (List.mem_cons_of_mem a hb)

/-- Any other block is taken out. -/
theorem Ahead.takeOut (h : s.Ahead cells (a :: rest)) (hblack : Heap.isBlack cells a = false) :
    (s.takeOut a).Ahead (cells.modify a Cell.swept) rest := by
  have hnodup := List.nodup_cons.1 h.nodup
  have hlink : s.link ≠ some a := h.apart a List.mem_cons_self
  have hshown : Shown (s.takeOut a).memory.blocks (cells.modify a Cell.swept) := by
    rw [h.swept_eq, if_neg (by simp [hblack])]
    exact shown_release (shown_redirect h.shown _ _) a
  constructor
  · exact hshown
  · intro b hb
    rw [hshown.size, Array.size_modify, ← h.shown.size]
    exact h.hasLink b hb
  · change Threads _ ((s.takeOut a).memory.follow s.link) rest
    rw [follow_takeOut h.hasLink, if_neg hlink, if_pos rfl]
    refine h.behind.congr fun b hb => ?_
    have hba : some b ≠ some a := fun heq => hnodup.1 (Option.some.inj heq ▸ hb)
    rw [follow_takeOut h.hasLink, if_neg hba,
      if_neg (h.apart b (List.mem_cons_of_mem a hb)).symm]
  · exact hnodup.2
  · exact fun b hb => h.apart b (List.mem_cons_of_mem a hb)
  · intro b hb
    rw [Array.size_modify]
    exact h.inside b (List.mem_cons_of_mem a hb)

/-- What a sweep has done to the blocks that were ahead of it. -/
structure Swept (s s' : Sweeping) (cells : Array Cell) (rest : List Nat) : Prop where
  shown : ∃ cells', Shown s'.memory.blocks cells' ∧
    ∀ a : Nat, cells'[a]? = if a ∈ rest then cells[a]?.map Cell.swept else cells[a]?
  threads : Threads s'.memory.follow (s'.memory.follow s.link)
    (rest.filter (Heap.isBlack cells))
  elsewhere : ∀ x, x ≠ s.link → (∀ a ∈ rest, x ≠ some a) →
    s'.memory.follow x = s.memory.follow x
  freed : s'.freed + (rest.filter (Heap.isBlack cells)).length = s.freed + rest.length

/-- What a sweep leaves of the blocks ahead, once the first of them is swept. -/
theorem swept_cons (hnot : a ∉ rest) (b : Nat) :
    (if b ∈ rest then (cells.modify a Cell.swept)[b]?.map Cell.swept
      else (cells.modify a Cell.swept)[b]?) =
      if b ∈ a :: rest then cells[b]?.map Cell.swept else cells[b]? := by
  rw [Array.getElem?_modify]
  by_cases hab : a = b
  · subst hab
    simp [hnot]
  · simp [hab, Ne.symm hab]

theorem filter_swept (hnot : a ∉ rest) :
    rest.filter (Heap.isBlack (cells.modify a Cell.swept)) =
      rest.filter (Heap.isBlack cells) := by
  refine List.filter_congr fun b hb => ?_
  have hab : a ≠ b := fun heq => hnot (heq ▸ hb)
  rw [Heap.isBlack, Heap.isBlack, Array.getElem?_modify, if_neg hab]

/-- A sweep of a marked block and of those behind it. -/
theorem Swept.pass (h : (s.pass a).Swept s' (cells.modify a Cell.swept) rest)
    (hahead : s.Ahead cells (a :: rest)) (hblack : Heap.isBlack cells a = true) :
    s.Swept s' cells (a :: rest) := by
  have hnot := (List.nodup_cons.1 hahead.nodup).1
  obtain ⟨cells', hshown, hcells⟩ := h.shown
  constructor
  · exact ⟨cells', hshown, fun b => (hcells b).trans (swept_cons hnot b)⟩
  · have hlink : s'.memory.follow s.link = some a := by
      rw [h.elsewhere s.link (hahead.apart a List.mem_cons_self)
        fun b hb => hahead.apart b (List.mem_cons_of_mem a hb), follow_pass, hahead.follow]
    rw [hlink, List.filter_cons_of_pos hblack, ← filter_swept hnot]
    exact ⟨rfl, h.threads⟩
  · intro x hx hrest
    rw [h.elsewhere x (hrest a List.mem_cons_self)
      fun b hb => hrest b (List.mem_cons_of_mem a hb), follow_pass]
  · have hfreed := h.freed
    rw [filter_swept hnot] at hfreed
    rw [List.filter_cons_of_pos hblack]
    simp only [Sweeping.pass, List.length_cons] at hfreed ⊢
    omega

/-- A sweep of a block that is not marked and of those behind it. -/
theorem Swept.takeOut (h : (s.takeOut a).Swept s' (cells.modify a Cell.swept) rest)
    (hahead : s.Ahead cells (a :: rest)) (hblack : Heap.isBlack cells a = false) :
    s.Swept s' cells (a :: rest) := by
  have hnot := (List.nodup_cons.1 hahead.nodup).1
  have hblack' : ¬ Heap.isBlack cells a = true := by simp [hblack]
  obtain ⟨cells', hshown, hcells⟩ := h.shown
  constructor
  · exact ⟨cells', hshown, fun b => (hcells b).trans (swept_cons hnot b)⟩
  · rw [List.filter_cons_of_neg hblack', ← filter_swept hnot]
    exact h.threads
  · intro x hx hrest
    rw [h.elsewhere x hx fun b hb => hrest b (List.mem_cons_of_mem a hb),
      follow_takeOut hahead.hasLink, if_neg (hrest a List.mem_cons_self), if_neg hx]
  · have hfreed := h.freed
    rw [filter_swept hnot] at hfreed
    rw [List.filter_cons_of_neg hblack']
    simp only [Sweeping.takeOut, List.length_cons] at hfreed ⊢
    omega

/-- A sweep with no blocks ahead has come to an end. -/
theorem Ahead.turn_nil (h : s.Ahead cells []) : s.turn? = none := by
  have hthreads := h.threads
  cases htarget : s.memory.follow s.link with
  | none => rw [turn?, htarget, Option.map_none]
  | some a =>
      rw [htarget] at hthreads
      exact hthreads.elim

theorem turns_of_end (hend : s.turn? = none) (n : Nat) : turns n s = s := by
  cases n with
  | zero => rfl
  | succ n => rw [Sweeping.turns, hend]

/-- A sweep deals with all the blocks ahead and comes to an end, and there are enough turns if
there are as many as blocks. -/
theorem Ahead.turns (h : s.Ahead cells rest) {n : Nat} (hn : rest.length ≤ n) :
    s.Swept (turns n s) cells rest ∧ (Sweeping.turns n s).turn? = none := by
  induction rest generalizing s cells n with
  | nil =>
      rw [turns_of_end h.turn_nil]
      exact ⟨⟨⟨cells, h.shown, by simp⟩, h.threads, fun _ _ _ => rfl, rfl⟩, h.turn_nil⟩
  | cons a rest ih =>
      cases n with
      | zero => exact absurd hn (Nat.not_succ_le_zero _)
      | succ n =>
          have hn := Nat.le_of_succ_le_succ hn
          rw [Sweeping.turns, h.turn]
          dsimp only
          cases hblack : Heap.isBlack cells a with
          | true =>
              obtain ⟨hswept, hend⟩ := ih (h.pass hblack) hn
              exact ⟨hswept.pass h hblack, hend⟩
          | false =>
              obtain ⟨hswept, hend⟩ := ih (h.takeOut hblack) hn
              exact ⟨hswept.takeOut h hblack, hend⟩

end Sweeping

/-- The blocks of a memory that is collected, once the marking has come to an end. -/
def marked (m : Memory) (roots : List Value) : Array Block :=
  (roots.foldl Marking.grey { blocks := m.blocks }).scan

/-- The sweep of a memory that is collected, with a turn for each block. -/
def sweep (m : Memory) (roots : List Value) : Sweeping :=
  Sweeping.turns (m.marked roots).size { memory := { m with blocks := m.marked roots } }

/-- A sweep deals with all live objects and comes to an end. -/
theorem Lays.sweep (hlays : m.Lays h) (htidy : h.Tidy) (roots : List Value) :
    Sweeping.Swept { memory := { m with blocks := m.marked roots } } (m.sweep roots)
        (Heap.markFrom h.cells roots) h.live ∧
      (m.sweep roots).turn? = none := by
  obtain ⟨hshown, hfollow⟩ := hlays.marked htidy roots
  change Shown (m.marked roots) _ at hshown
  have hahead : Sweeping.Ahead { memory := { m with blocks := m.marked roots } }
      (Heap.markFrom h.cells roots) h.live := by
    constructor
    · exact hshown
    · exact nofun
    · change Threads (Memory.follow { m with blocks := m.marked roots }) m.first h.live
      exact hlays.threads.congr fun a _ => hfollow (some a)
    · exact htidy.nodup
    · exact fun a _ => nofun
    · intro a ha
      rw [Heap.size_markFrom]
      exact htidy.lt_size ha
  refine hahead.turns ?_
  rw [hshown.size, Heap.size_markFrom]
  exact length_le_of_nodup htidy.nodup fun a => htidy.lt_size

/-- Collecting releases as many objects and keeps the memory laid out like the heap. -/
theorem Lays.collect (hlays : m.Lays h) (htidy : h.Tidy) (roots : List Value) :
    (m.collect roots).1 = (h.collect roots).1 ∧
      (m.collect roots).2.Lays (h.collect roots).2 := by
  have hswept := (hlays.sweep htidy roots).1
  obtain ⟨cells', hshown', hcells⟩ := hswept.shown
  have hsame : cells' = (h.collect roots).2.cells := by
    apply Array.ext_getElem?
    intro a
    rw [hcells, htidy.cells_collect]
  have hfreed : (m.sweep roots).freed = (h.collect roots).1 := by
    have hcount := hswept.freed
    have hcount' := Heap.freed_collect h roots
    rw [htidy.live_collect] at hcount'
    simp only [Nat.zero_add] at hcount
    omega
  refine ⟨hfreed, hsame ▸ hshown', ?_, ?_⟩
  · rw [htidy.live_collect]
    exact hswept.threads
  · change { m.stats with
      live := m.stats.live - (m.sweep roots).freed
      freed := m.stats.freed + (m.sweep roots).freed
      collections := m.stats.collections + 1 } = _
    rw [hfreed, hlays.stats]
    rfl

/-- Releasing the blocks that a link leads through. -/
theorem shown_releaseFrom {list : List Nat} {n : Nat} (hshown : Shown m.blocks cells)
    (hthreads : Threads m.follow target list) (hnodup : list.Nodup) (hn : list.length ≤ n) :
    ∃ cells', Shown (releaseFrom n target m).blocks cells' ∧
      ∀ a : Nat, cells'[a]? =
        if a ∈ list then cells[a]?.map (fun _ => .poisoned) else cells[a]? := by
  induction list generalizing target m cells n with
  | nil =>
      cases target with
      | some a => exact hthreads.elim
      | none =>
          have hnone : releaseFrom n none m = m := by cases n <;> rfl
          rw [hnone]
          exact ⟨cells, hshown, by simp⟩
  | cons a rest ih =>
      cases target with
      | none => exact hthreads.elim
      | some b =>
          obtain ⟨rfl, hrest⟩ := hthreads
          obtain ⟨hnot, hnodup⟩ := List.nodup_cons.1 hnodup
          cases n with
          | zero => exact absurd hn (Nat.not_succ_le_zero _)
          | succ n =>
              have hbehind : Threads (m.release b).follow (m.follow (some b)) rest := by
                refine hrest.congr fun c hc => ?_
                have hcb : some c ≠ some b := fun heq => hnot (Option.some.inj heq ▸ hc)
                rw [follow_release, if_neg hcb]
              obtain ⟨cells', hshown', hcells⟩ := ih (shown_release hshown b) hbehind hnodup
                (Nat.le_of_succ_le_succ hn)
              refine ⟨cells', hshown', fun c => ?_⟩
              rw [hcells, Array.getElem?_modify]
              by_cases hbc : b = c
              · subst hbc
                simp [hnot]
              · simp [hbc, Ne.symm hbc]

/-- Releasing everything keeps the memory laid out like the heap. -/
theorem Lays.destroyAll (hlays : m.Lays h) (htidy : h.Tidy) : m.destroyAll.Lays h.destroyAll := by
  obtain ⟨cells', hshown, hcells⟩ := shown_releaseFrom hlays.shown hlays.threads htidy.nodup
    (hlays.live_le htidy)
  have hsame : cells' = h.destroyAll.cells := by
    apply Array.ext_getElem?
    intro a
    rw [hcells, Heap.destroyAll, Heap.cells_poison]
  constructor
  · exact hsame ▸ hshown
  · trivial
  · rw [Memory.destroyAll, Heap.destroyAll, hlays.stats]

end Memory

namespace Heap

/-- A collection comes to an end and keeps exactly the objects in use: those that have not
been released and can be reached from the roots.  They are what they were, with clear
marks; every other object is released, the answer is the number of those that were live,
and a second collection finds nothing to release.  So does the collection of a memory that is
laid out like the heap, with its work list and its sweep along the links: the sweep comes to
the end of the list, which leads through just the blocks in use, with their old headers and
slots, and every other block is left as a released one is. -/
theorem collect_keeps_reachable {h : Heap} (hbuilt : h.Built) (roots : List Value) :
    let after := (h.collect roots).2
    (∃ n ≤ roots.length + unscanned h.cells.toList,
        markStep^[n] (h.cells, roots) = (markFrom h.cells roots, [])) ∧
      (∀ a, a ∈ h.live ↔ ∃ c, h.cells[a]? = some c ∧ c.mark ≠ .freed) ∧
      (∀ a, a ∈ after.live ↔ a ∈ h.live ∧ h.Reach roots a) ∧
      (∀ a ∈ after.live, ∃ c, h.cells[a]? = some c ∧ after.cells[a]? = some c ∧
        c.mark = .white) ∧
      (∀ a c, after.cells[a]? = some c → a ∉ after.live → c = Cell.poisoned) ∧
      (h.collect roots).1 = (h.live.filter fun a => a ∉ after.live).length ∧
      (after.collect roots).1 = 0 ∧
      ∀ m : Memory, m.Lays h →
        let swept := (m.collect roots).2
        (m.sweep roots).turn? = none ∧ m.objects = h.live ∧ swept.objects = after.live ∧
          (m.collect roots).1 = (h.collect roots).1 ∧ (swept.collect roots).1 = 0 ∧
          (∀ a ∈ swept.objects, ∃ b b', m.blocks[a]? = some b ∧ swept.blocks[a]? = some b' ∧
            b'.header = b.header ∧ b'.fields = b.fields ∧ b.header.mark = Mark.white.bits) ∧
          ∀ a b, swept.blocks[a]? = some b → a ∉ swept.objects →
            b.header = Block.released.header ∧ b.fields = #[] := by
  intro after
  have htidy := hbuilt.tidy
  have hkept : ∀ a ∈ after.live, ∃ c, h.cells[a]? = some c ∧ after.cells[a]? = some c ∧
      c.mark = .white := by
    intro a ha
    obtain ⟨hlive, hreach⟩ := htidy.mem_live_collect.1 ha
    obtain ⟨c, hcell, hwhite⟩ := (htidy.live_iff a).1 hlive
    exact ⟨c, hcell, (htidy.collect_cell hreach).trans hcell, hwhite⟩
  have hagain : (after.collect roots).1 = 0 := htidy.collect_again roots
  refine ⟨exists_iterate_markStep h.cells roots, fun a => htidy.live_iff_not_freed,
    fun a => htidy.mem_live_collect, hkept, fun a c => htidy.released, htidy.freed_eq roots,
    hagain, fun m hlays => ?_⟩
  obtain ⟨hfreed, hlays'⟩ := hlays.collect htidy roots
  have htidy' : after.Tidy := htidy.collect roots
  have hobjects : (m.collect roots).2.objects = after.live := hlays'.objects htidy'
  dsimp only
  rw [hobjects]
  refine ⟨(hlays.sweep htidy roots).2, hlays.objects htidy, rfl, hfreed, ?_, ?_, ?_⟩
  · exact (hlays'.collect htidy' roots).1.trans hagain
  · intro a ha
    obtain ⟨c, hcell, hcell', hwhite⟩ := hkept a ha
    obtain ⟨b, hb, hshows⟩ := hlays.shown.block hcell
    obtain ⟨b', hb', hshows'⟩ := hlays'.shown.block hcell'
    refine ⟨b, b', hb, hb', ?_, ?_, ?_⟩
    · rw [hshows'.header, hshows.header]
    · rw [hshows'.fields, hshows.fields]
    · rw [hshows.mark, hwhite]
  · intro a b hb ha
    obtain ⟨c, hcell, hshows⟩ := hlays'.shown.cell hb
    obtain rfl := htidy.released hcell ha
    exact ⟨hshows.header, hshows.fields⟩

/-- Two objects refer to each other, the first of them also to an object that an earlier
collection released; a third one, which only refers to the first, goes. -/
theorem collect_keeps_reachable_cycle :
    let h : Heap := {
      cells := #[⟨.tuple, .white, #[.ref .tuple 1, .ref .undefined 2]⟩,
        ⟨.undefined, .white, #[.ref .tuple 0]⟩, .poisoned,
        ⟨.undefined, .white, #[.ref .tuple 0]⟩]
      live := [3, 1, 0]
      stats := ⟨3, 4, 1, 1⟩ }
    let roots : List Value := [.ref .undefined 1]
    let block (c : Cell) (next : Option Nat) : Block :=
      { header := .pack c.mark.bits c.tag.byte c.fields.size, next, fields := c.fields }
    let m : Memory := {
      blocks := #[block h.cells[0] none, block h.cells[1] (some 0), .released,
        block h.cells[3] (some 1)]
      first := some 3
      stats := h.stats }
    h.Built ∧ (∀ a, a ∈ (h.collect roots).2.live ↔ a ∈ h.live ∧ h.Reach roots a) ∧
      (h.collect roots).2.live = [1, 0] ∧ (h.collect roots).1 = 1 ∧
      ((h.collect roots).2.collect roots).1 = 0 ∧
      m.Lays h ∧ m.objects = [3, 1, 0] ∧ (m.collect roots).2.objects = [1, 0] ∧
      (m.collect roots).1 = 1 ∧ ((m.collect roots).2.collect roots).1 = 0 := by
  intro h roots block m
  have hpair : Built _ := .allocate (n := 1) (.allocate (n := 2) .empty rfl) rfl
  have hthird : Built _ := .allocate (n := 0) hpair rfl
  have htagged : Built _ := @Built.setTag _ _ 0 .tuple hthird (by decide) rfl
  have hthere : Built _ :=
    .setField (a := 0) (i := 0) (v := .ref .tuple 1) htagged (by decide) rfl
  have hback : Built {
      cells := #[⟨.tuple, .white, #[.ref .tuple 1, .undefined]⟩,
        ⟨.undefined, .white, #[.ref .tuple 0]⟩, {}]
      live := [2, 1, 0]
      stats := ⟨3, 3, 0, 0⟩ } :=
    .setField (a := 1) (i := 0) (v := .ref .tuple 0) hthere (by decide) rfl
  have hswept : Built {
      cells := #[⟨.tuple, .white, #[.ref .tuple 1, .undefined]⟩,
        ⟨.undefined, .white, #[.ref .tuple 0]⟩, .poisoned]
      live := [1, 0]
      stats := ⟨2, 3, 1, 1⟩ } := by
    refine (congrArg Built ?_).mpr (.collect [.ref .tuple 0] hback)
    cbv
  have hdangling : Built _ :=
    .setField (a := 0) (i := 1) (v := .ref .undefined 2) hswept (by decide) rfl
  have hfourth : Built _ := .allocate (n := 1) hdangling rfl
  have hbuilt : h.Built :=
    .setField (a := 3) (i := 0) (v := .ref .tuple 0) hfourth (by decide) rfl
  have hlays : m.Lays h := by
    refine ⟨⟨rfl, fun a b c hb hc => ?_⟩, ⟨rfl, rfl, rfl, trivial⟩, rfl⟩
    rcases a with _ | _ | _ | _ | a
    all_goals cases hb
    all_goals cases hc
    all_goals exact ⟨rfl, rfl, rfl, by decide⟩
  obtain ⟨_, _, hlive, _, _, _, hagain, hmemory⟩ := collect_keeps_reachable hbuilt roots
  obtain ⟨_, hobjects, hswept, hfreed, hagain', _⟩ := hmemory m hlays
  have hlive' : (h.collect roots).2.live = [1, 0] := by cbv
  have hone : (h.collect roots).1 = 1 := by cbv
  exact ⟨hbuilt, hlive, hlive', hone, hagain, hlays, hobjects, hswept.trans hlive',
    hfreed.trans hone, hagain'⟩

end Heap

end Zinc
