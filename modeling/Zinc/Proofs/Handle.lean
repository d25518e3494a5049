import Zinc.Handle

/-!
How a stack of handle frames changes.  Rooting a value and opening a frame leave every
frame that is there where it is, with at most more values at its end; closing a frame
takes away the innermost one only.  So a handle keeps its value for as long as its frame
is open.
-/

namespace Zinc.HandleStack

/-- Every frame of the first stack is in the second, with its values and perhaps more. -/
structure Extends (s s' : HandleStack) : Prop where
  owner : s'.owner = s.owner
  frame : ∀ (i : Nat) (f : HandleFrame), s.frames[i]? = some f →
    ∃ more, s'.frames[i]? = some { f with slots := f.slots ++ more }

variable {s s' s'' : HandleStack} {h : Handle} {v : Value}

theorem Extends.refl (s : HandleStack) : s.Extends s :=
  ⟨rfl, fun _ f hf => ⟨#[], by simpa using hf⟩⟩

theorem Extends.trans (hfirst : s.Extends s') (hsecond : s'.Extends s'') :
    s.Extends s'' where
  owner := hsecond.owner.trans hfirst.owner
  frame i f hf := by
    obtain ⟨more, hmore⟩ := hfirst.frame i f hf
    obtain ⟨most, hmost⟩ := hsecond.frame i _ hmore
    exact ⟨more ++ most, by simpa using hmost⟩

/-- What a handle needs to have a value. -/
theorem get_eq_ok_iff : s.get h = .ok v ↔ h.owner = s.owner ∧
    ∃ f, s.frames[h.frame]? = some f ∧ f.generation = h.generation ∧
      f.slots[h.slot]? = some v := by
  rw [get]
  by_cases howner : h.owner = s.owner
  · rw [if_neg (not_not_intro howner)]
    cases hframe : s.frames[h.frame]? with
    | none => simp
    | some f =>
        by_cases hgeneration : f.generation = h.generation
        · cases hslot : f.slots[h.slot]? with
          | none => simp [hgeneration, hslot]
          | some u => simp [hgeneration, hslot, howner]
        · simp [hgeneration]
  · simp [howner]

/-- A handle has the same value in a larger stack. -/
theorem Extends.get (hext : s.Extends s') (hget : s.get h = .ok v) :
    s'.get h = .ok v := by
  obtain ⟨howner, f, hframe, hgeneration, hslot⟩ := get_eq_ok_iff.1 hget
  obtain ⟨more, hmore⟩ := hext.frame _ f hframe
  refine get_eq_ok_iff.2 ⟨howner.trans hext.owner.symm, _, hmore, hgeneration, ?_⟩
  have hlt : h.slot < f.slots.size := (Array.getElem?_eq_some_iff.1 hslot).1
  rwa [Array.getElem?_append_left hlt]

theorem Extends.mem_values (hext : s.Extends s') (hv : v ∈ s.values) :
    v ∈ s'.values := by
  simp only [values, List.mem_flatMap, Array.mem_toList_iff] at hv ⊢
  obtain ⟨f, hf, hslot⟩ := hv
  obtain ⟨i, hi⟩ := Array.mem_iff_getElem?.1 hf
  obtain ⟨more, hmore⟩ := hext.frame i f hi
  exact ⟨_, Array.mem_of_getElem? hmore, Array.mem_append.2 (Or.inl hslot)⟩

/-- Rooting a value extends the innermost frame by it. -/
theorem add_eq_ok (hadd : s.add v = .ok (h, s')) : ∃ f,
    s.frames.back? = some f ∧
    h = ⟨s.owner, s.frames.size - 1, f.slots.size, f.generation⟩ ∧
    s' = { s with frames := s.frames.pop.push { f with slots := f.slots.push v } } := by
  rw [add] at hadd
  split at hadd
  · cases hadd
  · split at hadd
    · cases hadd
    · rename_i f hback
      split at hadd
      · cases hadd
      · cases hadd
        exact ⟨f, hback, rfl, rfl⟩

theorem getElem?_pop_push {frames : Array HandleFrame} {f : HandleFrame}
    (hback : frames.back? = some f) (g : HandleFrame) (i : Nat) :
    (frames.pop.push g)[i]? = if i = frames.size - 1 then some g else frames[i]? := by
  have hpos : 0 < frames.size := by
    rw [Array.back?_eq_getElem?] at hback
    have := (Array.getElem?_eq_some_iff.1 hback).1
    omega
  rw [Array.getElem?_push, Array.size_pop, Array.getElem?_pop]
  split
  · rfl
  · rename_i hne
    by_cases hlt : i < frames.size - 1
    · rw [if_pos hlt]
    · rw [if_neg hlt, Array.getElem?_eq_none (by omega)]

/-- The new handle has the value that was rooted. -/
theorem get_add (hadd : s.add v = .ok (h, s')) : s'.get h = .ok v := by
  obtain ⟨f, hback, rfl, rfl⟩ := add_eq_ok hadd
  refine get_eq_ok_iff.2 ⟨rfl, { f with slots := f.slots.push v }, ?_, rfl, ?_⟩
  · rw [getElem?_pop_push hback, if_pos rfl]
  · exact Array.getElem?_push_size

theorem extends_add (hadd : s.add v = .ok (h, s')) : s.Extends s' := by
  obtain ⟨f, hback, rfl, rfl⟩ := add_eq_ok hadd
  refine ⟨rfl, fun i g hg => ?_⟩
  dsimp only
  rw [getElem?_pop_push hback]
  split
  · rename_i hi
    rw [Array.back?_eq_getElem?, ← hi, hg] at hback
    cases hback
    exact ⟨#[v], by simp⟩
  · exact ⟨#[], by simpa using hg⟩

/-- The innermost frame has room for `n` more handles. -/
def Room (n : Nat) (s : HandleStack) : Prop :=
  ∃ f, s.frames.back? = some f ∧ f.slots.size + n ≤ handlesPerFrame

theorem Room.mono {n n' : Nat} (hroom : s.Room n') (hle : n ≤ n') : s.Room n := by
  obtain ⟨f, hframe, hsize⟩ := hroom
  exact ⟨f, hframe, by omega⟩

/-- Where there is room, a value that a host may see gets a handle. -/
theorem Room.exists_add {n : Nat} (hroom : s.Room (n + 1))
    (hpublic : v.kind.isPublic = true) : ∃ h s', s.add v = .ok (h, s') := by
  obtain ⟨f, hframe, hsize⟩ := hroom
  rw [add, hpublic, hframe]
  dsimp only
  rw [if_neg (by simp), if_neg (by omega)]
  exact ⟨_, _, rfl⟩

/-- Rooting a value takes up the room of one handle. -/
theorem Room.add {n : Nat} (hroom : s.Room (n + 1)) (hadd : s.add v = .ok (h, s')) :
    s'.Room n := by
  obtain ⟨f, hback, hsize⟩ := hroom
  obtain ⟨g, hback', _, rfl⟩ := add_eq_ok hadd
  obtain rfl := Option.some.inj (hback.symm.trans hback')
  refine ⟨_, Array.back?_push, ?_⟩
  rw [Array.size_push]
  omega

theorem extends_pushFrame (hpush : s.pushFrame = .ok s') : s.Extends s' := by
  rw [pushFrame] at hpush
  split at hpush
  · cases hpush
  · cases hpush
    refine ⟨rfl, fun i f hf => ⟨#[], ?_⟩⟩
    have hlt : i < s.frames.size := (Array.getElem?_eq_some_iff.1 hf).1
    rw [Array.getElem?_push, if_neg (Nat.ne_of_lt hlt)]
    simpa using hf

/-- Closing the innermost frame leaves the handles of the other frames alone. -/
theorem get_popFrame (hpop : s.popFrame = .ok s') (hopen : h.frame < s'.depth)
    (hget : s.get h = .ok v) : s'.get h = .ok v := by
  obtain ⟨howner, f, hframe, hgeneration, hslot⟩ := get_eq_ok_iff.1 hget
  rw [popFrame] at hpop
  split at hpop
  · cases hpop
  · cases hpop
    rw [depth, Array.size_pop] at hopen
    refine get_eq_ok_iff.2 ⟨howner, f, ?_, hgeneration, hslot⟩
    rw [Array.getElem?_pop, if_pos hopen, hframe]

end Zinc.HandleStack
