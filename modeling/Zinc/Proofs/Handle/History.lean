import Mathlib.Data.List.Induction
import Zinc.Proofs.Machine.Moved

/-!
When a handle has a value.  A host opens frames, closes them and roots values in any order,
and a move that fails changes nothing.  The value of a handle can be read off the moves
alone: it is the one that the handle was issued for, until the frame that was innermost at
that time is closed.  No handle is issued twice, although places of frames and slots in
them are used again and again.
-/

namespace Zinc

/-- A frame holds no more values than it may, and only such as a host may see. -/
structure HandleFrame.Lawful (f : HandleFrame) : Prop where
  size : f.slots.size ≤ handlesPerFrame
  isPublic : ∀ v ∈ f.slots, v.kind.isPublic = true

namespace HandleStack

/-- What a host does with a stack of handle frames. -/
inductive Move where
  | push
  | pop
  | add (v : Value)
deriving DecidableEq

/-- The answer to a move, with the handle that it issues, and the stack after it. -/
def perform (s : HandleStack) : Move → Except Fault (Option Handle) × HandleStack
  | .push =>
    match s.pushFrame with
    | .error f => (.error f, s)
    | .ok t => (.ok none, t)
  | .pop =>
    match s.popFrame with
    | .error f => (.error f, s)
    | .ok t => (.ok none, t)
  | .add v =>
    match s.add v with
    | .error f => (.error f, s)
    | .ok (h, t) => (.ok (some h), t)

/-- The stack after some moves. -/
def after (s : HandleStack) (moves : List Move) : HandleStack :=
  moves.foldl (fun s m => (s.perform m).2) s

/-- The handles that some moves issue, in their order. -/
def issued (s : HandleStack) : List Move → List Handle
  | [] => []
  | m :: rest =>
    match (s.perform m).1 with
    | .ok (some h) => h :: (s.perform m).2.issued rest
    | _ => (s.perform m).2.issued rest

/-- A stack without frames. -/
def fresh (owner : Nat) : HandleStack where
  owner := owner

/-- How many frames are open after a move, if so many were before. -/
def Move.count (depth : Nat) : Move → Nat
  | .push => min (depth + 1) maxHandleFrames
  | .pop => depth - 1
  | .add _ => depth

/-- How many frames some moves leave open. -/
def openAfter (moves : List Move) : Nat :=
  moves.foldl Move.count 0

/-- The frame that was innermost after the first moves is open all through the later ones:
there are never fewer frames. -/
def StaysOpen (before later : List Move) : Prop :=
  ∀ part, part <+: later → openAfter before ≤ openAfter (before ++ part)

/-- One of the moves has rooted the value and issued the handle for it, and the frame that it
was rooted in has not been closed since. -/
def Rooted (owner : Nat) (moves : List Move) (h : Handle) (v : Value) : Prop :=
  ∃ before later, moves = before ++ .add v :: later ∧
    (((fresh owner).after before).perform (.add v)).1 = .ok (some h) ∧
    StaysOpen before (.add v :: later)

variable {s t : HandleStack} {h k : Handle} {v w : Value}

theorem after_concat (s : HandleStack) (moves : List Move) (m : Move) :
    s.after (moves ++ [m]) = ((s.after moves).perform m).2 := by
  simp [after]

theorem openAfter_concat (moves : List Move) (m : Move) :
    openAfter (moves ++ [m]) = m.count (openAfter moves) := by
  simp [openAfter]

/-- Either a move goes through, or it fails and the stack is what it was. -/
theorem perform_cases (s : HandleStack) (m : Move) :
    (∃ f, s.perform m = (.error f, s)) ∨
      (m = .push ∧ ∃ t, s.pushFrame = .ok t ∧ s.perform m = (.ok none, t)) ∨
      (m = .pop ∧ ∃ t, s.popFrame = .ok t ∧ s.perform m = (.ok none, t)) ∨
      ∃ v h t, m = .add v ∧ s.add v = .ok (h, t) ∧ s.perform m = (.ok (some h), t) := by
  cases m with
  | push =>
      cases hpush : s.pushFrame with
      | error f => exact Or.inl ⟨f, by simp [perform, hpush]⟩
      | ok t => exact Or.inr (Or.inl ⟨rfl, t, rfl, by simp [perform, hpush]⟩)
  | pop =>
      cases hpop : s.popFrame with
      | error f => exact Or.inl ⟨f, by simp [perform, hpop]⟩
      | ok t => exact Or.inr (Or.inr (Or.inl ⟨rfl, t, rfl, by simp [perform, hpop]⟩))
  | add v =>
      cases hadd : s.add v with
      | error f => exact Or.inl ⟨f, by simp [perform, hadd]⟩
      | ok r =>
          obtain ⟨h, t⟩ := r
          exact Or.inr (Or.inr (Or.inr ⟨v, h, t, rfl, hadd, by simp [perform, hadd]⟩))

theorem add_of_perform (hissued : (s.perform (.add v)).1 = .ok (some h)) :
    ∃ t, s.add v = .ok (h, t) := by
  rcases s.perform_cases (.add v) with ⟨f, hfail⟩ | ⟨hpush, _⟩ | ⟨hpop, _⟩ |
    ⟨w, k, t, hmove, hadd, hdone⟩
  · rw [hfail] at hissued
    cases hissued
  · cases hpush
  · cases hpop
  · cases hmove
    rw [hdone] at hissued
    cases hissued
    exact ⟨t, hadd⟩

theorem moved_perform (s : HandleStack) (m : Move) : s.Moved (s.perform m).2 := by
  rcases s.perform_cases m with ⟨f, hfail⟩ | ⟨_, t, hpush, hdone⟩ |
    ⟨_, t, hpop, hdone⟩ | ⟨v, h, t, _, hadd, hdone⟩
  · rw [hfail]
    exact .refl
  · rw [hdone]
    exact .push .refl hpush
  · rw [hdone]
    exact .pop .refl hpop
  · rw [hdone]
    exact .add .refl hadd

theorem moved_after (s : HandleStack) (moves : List Move) : s.Moved (s.after moves) := by
  induction moves generalizing s with
  | nil => exact .refl
  | cons m rest ih => exact (s.moved_perform m).trans (ih _)

/-- The frame of a new handle is the innermost one. -/
theorem frame_of_add (hadd : s.add v = .ok (h, t)) : h.frame + 1 = s.depth := by
  obtain ⟨f, hback, rfl, _⟩ := add_eq_ok hadd
  have hopen : s.frames ≠ #[] := by
    intro hnone
    simp [hnone] at hback
  have hpos := Array.size_pos_iff.2 hopen
  simp only [depth]
  omega

theorem room_of_push (hpush : s.pushFrame = .ok t) : s.depth < maxHandleFrames := by
  rw [pushFrame] at hpush
  split at hpush
  · cases hpush
  · exact Nat.lt_of_not_le ‹_›

theorem depth_perform (hle : s.depth ≤ maxHandleFrames) (m : Move) :
    (s.perform m).2.depth = m.count s.depth := by
  cases m with
  | push =>
      rw [perform, pushFrame, Move.count]
      by_cases hfull : maxHandleFrames ≤ s.depth
      · rw [if_pos hfull]
        dsimp only
        omega
      · rw [if_neg hfull]
        simp only [depth, Array.size_push] at hfull ⊢
        omega
  | pop =>
      rw [perform, popFrame, Move.count]
      by_cases hempty : s.frames.isEmpty
      · rw [if_pos hempty, depth, Array.isEmpty_iff_size_eq_zero.1 hempty]
      · rw [if_neg hempty, depth, Array.size_pop, depth]
  | add v =>
      rcases s.perform_cases (.add v) with ⟨f, hfail⟩ | ⟨hpush, _⟩ | ⟨hpop, _⟩ |
        ⟨w, k, t, _, hadd, hdone⟩
      · rw [hfail, Move.count]
      · cases hpush
      · cases hpop
      · have hpos := frame_of_add hadd
        obtain ⟨f, _, _, rfl⟩ := add_eq_ok hadd
        rw [hdone, Move.count]
        simp only [depth, Array.size_push, Array.size_pop] at hpos ⊢
        omega

/-- A value is rooted only if a host may see it and there is room for it. -/
theorem lawful_of_add (hadd : s.add v = .ok (h, t)) {f : HandleFrame}
    (hback : s.frames.back? = some f) (hlawful : f.Lawful) :
    HandleFrame.Lawful { f with slots := f.slots.push v } := by
  rw [add] at hadd
  split at hadd
  · cases hadd
  · rename_i hpublic
    rw [hback] at hadd
    dsimp only at hadd
    split at hadd
    · cases hadd
    · rename_i hroom
      constructor
      · rw [Array.size_push]
        exact Nat.lt_of_not_le hroom
      · intro w hw
        rcases Array.mem_push.1 hw with hw | rfl
        · exact hlawful.isPublic w hw
        · simpa using hpublic

/-- No more frames are open than there may be, and each of them is lawful. -/
structure Within (s : HandleStack) : Prop where
  depth_le : s.depth ≤ maxHandleFrames
  lawful : ∀ (i : Nat) (f : HandleFrame), s.frames[i]? = some f → f.Lawful

theorem within_fresh (owner : Nat) : (fresh owner).Within where
  depth_le := Nat.zero_le _
  lawful := by simp [fresh]

theorem Within.moved (hwithin : s.Within) (hmoved : s.Moved t) : t.Within := by
  induction hmoved with
  | refl => exact hwithin
  | @add t u v h _ hadd ih =>
      obtain ⟨last, hback, _, rfl⟩ := add_eq_ok hadd
      have htop : t.frames[t.frames.size - 1]? = some last := by
        rwa [← Array.back?_eq_getElem?]
      constructor
      · have hdepth := frame_of_add hadd
        have hle := ih.depth_le
        simp only [depth, Array.size_push, Array.size_pop] at hdepth hle ⊢
        omega
      · intro i f hf
        rw [getElem?_pop_push hback] at hf
        split at hf
        · cases hf
          exact lawful_of_add hadd hback (ih.lawful _ last htop)
        · exact ih.lawful i f hf
  | push _ hpush ih =>
      have hroom := room_of_push hpush
      rw [pushFrame_eq_ok hpush]
      constructor
      · rw [depth, Array.size_push]
        exact hroom
      · intro i f hf
        rw [Array.getElem?_push] at hf
        split at hf
        · cases hf
          exact ⟨Nat.zero_le _, by simp⟩
        · exact ih.lawful i f hf
  | pop _ hpop ih =>
      rw [popFrame_eq_ok hpop]
      constructor
      · rw [depth, Array.size_pop]
        exact Nat.le_trans (Nat.sub_le _ _) ih.depth_le
      · intro i f hf
        rw [Array.getElem?_pop] at hf
        split at hf
        · exact ih.lawful i f hf
        · cases hf

/-- The frames that are open can be counted from the moves. -/
theorem depth_after (owner : Nat) (moves : List Move) :
    ((fresh owner).after moves).depth = openAfter moves := by
  induction moves using List.reverseRecOn with
  | nil => rfl
  | append_singleton moves m ih =>
      have hle := ((within_fresh owner).moved (moved_after _ moves)).depth_le
      rw [after_concat, depth_perform hle, ih, openAfter_concat]

/-- Opening a frame gives no handle a value. -/
theorem get_push_iff (hpush : s.pushFrame = .ok t) : t.get h = .ok v ↔ s.get h = .ok v := by
  constructor
  · intro hget
    obtain ⟨howner, f, hframe, hgeneration, hslot⟩ := get_eq_ok_iff.1 hget
    rw [pushFrame_eq_ok hpush] at howner hframe
    dsimp only at howner hframe
    rw [Array.getElem?_push] at hframe
    split at hframe
    · -- the new frame is empty
      cases hframe
      simp at hslot
    · exact get_eq_ok_iff.2 ⟨howner, f, hframe, hgeneration, hslot⟩
  · exact (extends_pushFrame hpush).get

/-- Closing a frame takes their values from the handles of that frame. -/
theorem get_pop_iff (hpop : s.popFrame = .ok t) :
    t.get h = .ok v ↔ s.get h = .ok v ∧ h.frame < t.depth := by
  constructor
  · intro hget
    obtain ⟨howner, f, hframe, hgeneration, hslot⟩ := get_eq_ok_iff.1 hget
    rw [popFrame_eq_ok hpop] at howner hframe ⊢
    dsimp only at howner hframe
    rw [Array.getElem?_pop] at hframe
    split at hframe
    · rename_i hlt
      rw [depth, Array.size_pop]
      exact ⟨get_eq_ok_iff.2 ⟨howner, f, hframe, hgeneration, hslot⟩, hlt⟩
    · cases hframe
  · intro hget
    exact get_popFrame hpop hget.2 hget.1

/-- Rooting a value gives a value to the new handle and to no other one. -/
theorem get_add_iff (hadd : s.add w = .ok (k, t)) :
    t.get h = .ok v ↔ s.get h = .ok v ∨ h = k ∧ v = w := by
  constructor
  · intro hget
    obtain ⟨howner, f, hframe, hgeneration, hslot⟩ := get_eq_ok_iff.1 hget
    obtain ⟨last, hback, rfl, rfl⟩ := add_eq_ok hadd
    dsimp only at howner hframe
    rw [getElem?_pop_push hback] at hframe
    split at hframe
    · rename_i htop
      cases hframe
      dsimp only at hgeneration hslot
      rw [Array.getElem?_push] at hslot
      split at hslot
      · rename_i hnew
        cases hslot
        right
        obtain ⟨owner, frame, slot, generation⟩ := h
        exact ⟨by simp_all, rfl⟩
      · left
        rw [Array.back?_eq_getElem?, ← htop] at hback
        exact get_eq_ok_iff.2 ⟨howner, last, hback, hgeneration, hslot⟩
    · left
      exact get_eq_ok_iff.2 ⟨howner, f, hframe, hgeneration, hslot⟩
  · intro hget
    rcases hget with hold | ⟨rfl, rfl⟩
    · exact (extends_add hadd).get hold
    · exact get_add hadd

theorem StaysOpen.concat {before later : List Move} {m : Move} :
    StaysOpen before (later ++ [m]) ↔ StaysOpen before later ∧
      openAfter before ≤ openAfter (before ++ (later ++ [m])) := by
  constructor
  · intro hstays
    constructor
    · intro part hpart
      exact hstays part (hpart.trans (List.prefix_append later [m]))
    · exact hstays _ (List.prefix_refl _)
  · rintro ⟨hstays, hnow⟩ part hpart
    rcases List.prefix_concat_iff.1 hpart with rfl | hpart
    · exact hnow
    · exact hstays part hpart

/-- One move more: a handle keeps its value if the frame is still open, and a handle may be
new. -/
theorem rooted_concat {owner : Nat} {moves : List Move} {m : Move} :
    Rooted owner (moves ++ [m]) h v ↔
      (∃ before later, moves = before ++ .add v :: later ∧
        (((fresh owner).after before).perform (.add v)).1 = .ok (some h) ∧
        StaysOpen before (.add v :: later) ∧
        openAfter before ≤ openAfter (moves ++ [m])) ∨
      m = .add v ∧ (((fresh owner).after moves).perform m).1 = .ok (some h) := by
  constructor
  · rintro ⟨before, later, hmoves, hissued, hstays⟩
    rcases List.eq_nil_or_concat later with rfl | ⟨later, last, rfl⟩
    · right
      obtain ⟨rfl, hlast⟩ := List.append_inj' hmoves rfl
      cases hlast
      exact ⟨rfl, hissued⟩
    · left
      have hsplit : moves ++ [m] = (before ++ .add v :: later) ++ [last] := by
        simpa using hmoves
      obtain ⟨rfl, hlast⟩ := List.append_inj' hsplit rfl
      cases hlast
      rw [List.concat_eq_append, ← List.cons_append, StaysOpen.concat] at hstays
      refine ⟨before, later, rfl, hissued, hstays.1, ?_⟩
      simpa using hstays.2
  · rintro (⟨before, later, rfl, hissued, hstays, hnow⟩ | ⟨rfl, hissued⟩)
    · refine ⟨before, later ++ [m], by simp, hissued, ?_⟩
      rw [← List.cons_append, StaysOpen.concat]
      exact ⟨hstays, by simpa using hnow⟩
    · refine ⟨moves, [], rfl, hissued, ?_⟩
      intro part hpart
      rcases List.prefix_concat_iff.1 (show part <+: [] ++ [_] from hpart) with rfl | hpart
      · rw [List.nil_append, openAfter_concat]
        exact Nat.le_refl _
      · exact Nat.le_of_eq (by rw [List.prefix_nil.1 hpart, List.append_nil])

theorem frame_lt_of_get (hget : s.get h = .ok v) : h.frame < s.depth := by
  obtain ⟨_, f, hframe, _⟩ := get_eq_ok_iff.1 hget
  exact (Array.getElem?_eq_some_iff.1 hframe).1

/-- After a move the handles of the frames that are still open have their values, and a new
handle has the value that was rooted. -/
theorem get_perform_iff (s : HandleStack) (m : Move) :
    (s.perform m).2.get h = .ok v ↔
      (s.get h = .ok v ∧ h.frame < (s.perform m).2.depth) ∨
        m = .add v ∧ (s.perform m).1 = .ok (some h) := by
  constructor
  · intro hget
    have hopen := frame_lt_of_get hget
    rcases s.perform_cases m with ⟨f, hfail⟩ | ⟨_, t, hpush, hdone⟩ |
      ⟨_, t, hpop, hdone⟩ | ⟨w, k, t, hmove, hadd, hdone⟩
    · rw [hfail] at hget hopen ⊢
      exact Or.inl ⟨hget, hopen⟩
    · rw [hdone] at hget hopen ⊢
      exact Or.inl ⟨(get_push_iff hpush).1 hget, hopen⟩
    · rw [hdone] at hget hopen ⊢
      exact Or.inl ⟨((get_pop_iff hpop).1 hget).1, hopen⟩
    · rw [hdone] at hget hopen ⊢
      rcases (get_add_iff hadd).1 hget with hold | ⟨rfl, rfl⟩
      · exact Or.inl ⟨hold, hopen⟩
      · exact Or.inr ⟨hmove, rfl⟩
  · rintro (⟨hget, hopen⟩ | ⟨rfl, hissued⟩)
    · rcases s.perform_cases m with ⟨f, hfail⟩ | ⟨_, t, hpush, hdone⟩ |
        ⟨_, t, hpop, hdone⟩ | ⟨w, k, t, _, hadd, hdone⟩
      · rw [hfail]
        exact hget
      · rw [hdone]
        exact (get_push_iff hpush).2 hget
      · rw [hdone] at hopen ⊢
        exact (get_pop_iff hpop).2 ⟨hget, hopen⟩
      · rw [hdone]
        exact (get_add_iff hadd).2 (Or.inl hget)
    · obtain ⟨t, hadd⟩ := add_of_perform hissued
      rw [perform, hadd]
      exact get_add hadd

/-- A handle has a value exactly as long as the moves say so. -/
theorem get_after_iff (owner : Nat) (moves : List Move) :
    ((fresh owner).after moves).get h = .ok v ↔ Rooted owner moves h v := by
  induction moves using List.reverseRecOn generalizing v with
  | nil =>
      constructor
      · intro hget
        exact absurd (frame_lt_of_get hget) (Nat.not_lt_zero _)
      · rintro ⟨before, later, hmoves, _⟩
        simp at hmoves
  | append_singleton moves m ih =>
      have hdepth := depth_after owner (moves ++ [m])
      rw [after_concat] at hdepth
      rw [after_concat, rooted_concat, get_perform_iff, ih, hdepth]
      refine or_congr_left ?_
      -- the frame of the handle is the one that was innermost when it was issued
      have hframe {before : List Move}
          (hissued : (((fresh owner).after before).perform (.add v)).1 = .ok (some h)) :
          h.frame + 1 = openAfter before := by
        obtain ⟨t, hadd⟩ := add_of_perform hissued
        rw [frame_of_add hadd, depth_after]
      constructor
      · rintro ⟨⟨before, later, hmoves, hissued, hstays⟩, hopen⟩
        have hbefore := hframe hissued
        exact ⟨before, later, hmoves, hissued, hstays, by omega⟩
      · rintro ⟨before, later, hmoves, hissued, hstays, hopen⟩
        have hbefore := hframe hissued
        exact ⟨⟨before, later, hmoves, hissued, hstays⟩, by omega⟩

/-- A handle that was issued: its generation has begun, and if its frame is open, its slot
is in use. -/
def Spent (s : HandleStack) (h : Handle) : Prop :=
  h.generation < s.nextGeneration ∧ ∀ f, s.frames[h.frame]? = some f →
    f.generation = h.generation → h.slot < f.slots.size

theorem spent_of_add (hdated : s.Dated) (hadd : s.add v = .ok (h, t)) : t.Spent h := by
  obtain ⟨last, hback, rfl, rfl⟩ := add_eq_ok hadd
  constructor
  · rw [Array.back?_eq_getElem?] at hback
    exact hdated _ last hback
  · intro f hf _
    rw [getElem?_pop_push hback, if_pos rfl] at hf
    cases hf
    simp

theorem not_spent_of_add (hadd : s.add v = .ok (h, t)) : ¬ s.Spent h := by
  obtain ⟨last, hback, rfl, _⟩ := add_eq_ok hadd
  rintro ⟨_, hslot⟩
  rw [Array.back?_eq_getElem?] at hback
  exact Nat.lt_irrefl _ (hslot last hback rfl)

/-- A handle that was issued stays so. -/
theorem Spent.moved (hspent : s.Spent h) (hmoved : s.Moved t) : t.Spent h := by
  induction hmoved with
  | refl => exact hspent
  | @add t u v k _ hadd ih =>
      obtain ⟨hgeneration, hslot⟩ := ih
      obtain ⟨last, hback, _, rfl⟩ := add_eq_ok hadd
      refine ⟨hgeneration, fun f hf heq => ?_⟩
      rw [getElem?_pop_push hback] at hf
      split at hf
      · rename_i htop
        cases hf
        rw [Array.back?_eq_getElem?, ← htop] at hback
        rw [Array.size_push]
        exact Nat.lt_succ_of_lt (hslot last hback heq)
      · exact hslot f hf heq
  | push _ hpush ih =>
      obtain ⟨hgeneration, hslot⟩ := ih
      rw [pushFrame_eq_ok hpush]
      refine ⟨Nat.lt_succ_of_lt hgeneration, fun f hf heq => ?_⟩
      rw [Array.getElem?_push] at hf
      split at hf
      · -- the new frame has a generation of its own
        cases hf
        exact absurd heq.symm (Nat.ne_of_lt hgeneration)
      · exact hslot f hf heq
  | pop _ hpop ih =>
      obtain ⟨hgeneration, hslot⟩ := ih
      rw [popFrame_eq_ok hpop]
      refine ⟨hgeneration, fun f hf heq => ?_⟩
      rw [Array.getElem?_pop] at hf
      split at hf
      · exact hslot f hf heq
      · cases hf

/-- The handles that the moves from some stack on issue: nothing, or one and those of the
other moves. -/
theorem issued_cons (s : HandleStack) (m : Move) (rest : List Move) :
    (s.issued (m :: rest) = (s.perform m).2.issued rest) ∨
      ∃ v h t, s.add v = .ok (h, t) ∧ (s.perform m).2 = t ∧
        s.issued (m :: rest) = h :: t.issued rest := by
  rcases s.perform_cases m with ⟨f, hfail⟩ | ⟨_, t, _, hdone⟩ |
    ⟨_, t, _, hdone⟩ | ⟨v, h, t, _, hadd, hdone⟩
  · exact Or.inl (by simp [issued, hfail])
  · exact Or.inl (by simp [issued, hdone])
  · exact Or.inl (by simp [issued, hdone])
  · exact Or.inr ⟨v, h, t, hadd, by rw [hdone], by simp [issued, hdone]⟩

/-- A handle that was issued is not issued again. -/
theorem Spent.not_mem_issued (hspent : s.Spent h) (moves : List Move) :
    h ∉ s.issued moves := by
  induction moves generalizing s with
  | nil => exact List.not_mem_nil
  | cons m rest ih =>
      have hrest := ih (hspent.moved (s.moved_perform m))
      rcases s.issued_cons m rest with hissued | ⟨v, k, t, hadd, hafter, hissued⟩
      · rwa [hissued]
      · rw [hissued, List.mem_cons, ← hafter]
        rintro (rfl | hmem)
        · exact not_spent_of_add hadd hspent
        · exact hrest hmem

theorem nodup_issued (hdated : s.Dated) (moves : List Move) : (s.issued moves).Nodup := by
  induction moves generalizing s with
  | nil => exact List.nodup_nil
  | cons m rest ih =>
      have hrest := ih (hdated.moved (s.moved_perform m))
      rcases s.issued_cons m rest with hissued | ⟨v, h, t, hadd, hafter, hissued⟩
      · rwa [hissued]
      · rw [hissued, List.nodup_cons]
        rw [hafter] at hrest
        exact ⟨(spent_of_add hdated hadd).not_mem_issued rest, hrest⟩

theorem owner_of_mem_issued {moves : List Move} (hissued : h ∈ s.issued moves) :
    h.owner = s.owner := by
  induction moves generalizing s with
  | nil => exact absurd hissued List.not_mem_nil
  | cons m rest ih =>
      have howner := (s.moved_perform m).owner
      rcases s.issued_cons m rest with hcons | ⟨v, k, t, hadd, hafter, hcons⟩
      · rw [hcons] at hissued
        exact (ih hissued).trans howner
      · rw [hcons, ← hafter] at hissued
        rcases List.mem_cons.1 hissued with rfl | hissued
        · obtain ⟨_, _, rfl, _⟩ := add_eq_ok hadd
          rfl
        · exact (ih hissued).trans howner

/-- Each frame takes one generation. -/
theorem nextGeneration_after_le (s : HandleStack) (moves : List Move) :
    (s.after moves).nextGeneration ≤ s.nextGeneration + moves.count .push := by
  induction moves generalizing s with
  | nil => exact Nat.le_refl _
  | cons m rest ih =>
      refine Nat.le_trans (ih (s.perform m).2) ?_
      rw [List.count_cons]
      rcases s.perform_cases m with ⟨_, hfail⟩ | ⟨rfl, t, hpush, hdone⟩ |
        ⟨_, t, hpop, hdone⟩ | ⟨v, k, t, _, hadd, hdone⟩
      · rw [hfail]
        dsimp only
        omega
      · rw [hdone, pushFrame_eq_ok hpush]
        simp only [beq_self_eq_true, if_true]
        omega
      · rw [hdone, popFrame_eq_ok hpop]
        dsimp only
        omega
      · obtain ⟨_, _, _, rfl⟩ := add_eq_ok hadd
        rw [hdone]
        dsimp only
        omega

theorem get_of_foreign (howner : h.owner ≠ s.owner) : s.get h = .error foreign := by
  rw [get, if_pos howner]

/-- A handle of the stack that has no value is stale. -/
theorem get_of_no_value (howner : h.owner = s.owner) (hnone : ∀ v, s.get h ≠ .ok v) :
    s.get h = .error stale := by
  have hown : ¬ h.owner ≠ s.owner := not_not_intro howner
  rw [get, if_neg hown] at hnone ⊢
  split
  · rfl
  · rename_i f hframe
    by_cases hgeneration : f.generation ≠ h.generation
    · rw [if_pos hgeneration]
    · rw [if_neg hgeneration]
      split
      · rfl
      · rename_i v hslot
        simp [hframe, hgeneration, hslot] at hnone

/-- A handle resolves exactly while its frame is open.  Whatever was done with a stack, a
handle has a value just when one of the moves issued it for that value and the frame of that
move has not been closed since; a handle of another stack is foreign and any other one is
stale.  No two handles that were issued are the same, no more frames and values are held than
may be, a move that fails leaves the stack as it is, and the generations are counted by the
frames that were opened. -/
theorem resolves_while_open (owner : Nat) (moves : List Move) :
    let s := (fresh owner).after moves
    (∀ h v, s.get h = .ok v ↔ Rooted owner moves h v) ∧
      (∀ h, h.owner ≠ owner → s.get h = .error foreign) ∧
      (∀ h, h.owner = owner → (∀ v, ¬ Rooted owner moves h v) → s.get h = .error stale) ∧
      (∀ other theirs h, h ∈ (fresh other).issued theirs → h.owner = other) ∧
      ((fresh owner).issued moves).Nodup ∧
      s.depth = openAfter moves ∧ s.depth ≤ maxHandleFrames ∧
      (∀ (i : Nat) (f : HandleFrame), s.frames[i]? = some f → f.Lawful) ∧
      s.nextGeneration ≤ moves.count .push + 1 ∧
      ∀ m f, (s.perform m).1 = .error f → (s.perform m).2 = s := by
  intro s
  have howner : s.owner = owner := (moved_after (fresh owner) moves).owner
  have hwithin := (within_fresh owner).moved (moved_after (fresh owner) moves)
  have hdated : (fresh owner).Dated := by
    intro i f hf
    simp [fresh] at hf
  refine ⟨fun h v => get_after_iff owner moves, ?_, ?_, ?_, nodup_issued hdated moves,
    depth_after owner moves, hwithin.depth_le, hwithin.lawful, ?_, ?_⟩
  · intro h hforeign
    exact get_of_foreign (howner.symm ▸ hforeign)
  · intro h hown hnone
    refine get_of_no_value (hown.trans howner.symm) fun v hget => ?_
    exact hnone v ((get_after_iff owner moves).1 hget)
  · intro other theirs h hissued
    exact owner_of_mem_issued hissued
  · have hcount := nextGeneration_after_le (fresh owner) moves
    rw [Nat.add_comm]
    exact hcount
  · intro m f herror
    rcases s.perform_cases m with ⟨_, hfail⟩ | ⟨_, t, _, hdone⟩ | ⟨_, t, _, hdone⟩ |
      ⟨_, _, t, _, _, hdone⟩
    · rw [hfail]
    all_goals
      rw [hdone] at herror
      cases herror

/-- A frame takes the place of another one, with as many values: the handle of the old frame
is stale, the one of the new frame has its value, and both are foreign elsewhere. -/
theorem resolves_while_open_reused :
    let moves := [.push, .add (.int 1), .pop, .push, .add (.int 2)]
    let s := (fresh 7).after moves
    (fresh 7).issued moves = [⟨7, 0, 0, 1⟩, ⟨7, 0, 0, 2⟩] ∧
      s.get ⟨7, 0, 0, 1⟩ = .error stale ∧ Rooted 7 moves ⟨7, 0, 0, 2⟩ (.int 2) ∧
      (fresh 8).get ⟨7, 0, 0, 2⟩ = .error foreign := by
  intro moves s
  obtain ⟨hget, _, hstale, _⟩ := resolves_while_open 7 moves
  obtain ⟨_, hforeign, _⟩ := resolves_while_open 8 []
  have hnone : s.get ⟨7, 0, 0, 1⟩ = .error stale := by decide
  have hvalue : s.get ⟨7, 0, 0, 2⟩ = .ok (.int 2) := by decide
  refine ⟨by decide, hstale _ rfl fun v hrooted => ?_, (hget _ _).1 hvalue,
    hforeign _ (by decide)⟩
  have hsome := (hget _ v).2 hrooted
  rw [hnone] at hsome
  cases hsome

end HandleStack

end Zinc
