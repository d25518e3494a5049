import Zinc.Globals

/-!
How the table of globals changes.  Declarations add slots at the end and assignments
keep every symbol in its slot, so a table that has been extended by them can be cut
back to exactly what it was: the slots from a record, the index by forgetting the
symbols of the slots that are dropped.
-/

namespace Zinc.Globals

theorem isDeclared_iff {g : Globals} {s : Symbol} :
    g.isDeclared s = true ↔ ∃ i, g.slot? s = some i := by
  rw [isDeclared, slot?, ← Std.ExtHashMap.isSome_getElem?_eq_contains,
    Option.isSome_iff_exists]

/-- The table after declarations and assignments.  The symbols of the new slots were
unknown before, and the index has changed for them alone. -/
structure Extends (before after : Globals) : Prop where
  size_le : before.size ≤ after.size
  fresh : ∀ e ∈ after.entries.toList.drop before.size,
    before.index[e.symbol]? = none
  index : ∀ s, (∀ e ∈ after.entries.toList.drop before.size, e.symbol ≠ s) →
    after.index[s]? = before.index[s]?

theorem Extends.refl (g : Globals) : Extends g g where
  size_le := Nat.le_refl _
  fresh := by
    intro e he
    rw [size, List.drop_of_length_le (by simp)] at he
    exact absurd he List.not_mem_nil
  index := fun _ _ => rfl

theorem drop_toList_push {before : Nat} (entries : Array Global)
    (hsize : before ≤ entries.size) (e : Global) :
    (entries.push e).toList.drop before = entries.toList.drop before ++ [e] := by
  rw [Array.toList_push, List.drop_append_of_le_length (by simpa using hsize)]

theorem Extends.declare {before after : Globals} (hext : Extends before after)
    (s : Symbol) : Extends before (after.declare s).2 := by
  rw [Globals.declare]
  cases hslot : after.slot? s with
  | some i => exact hext
  | none =>
      dsimp only
      split
      · exact hext
      · have hdrop := drop_toList_push after.entries hext.size_le
          { symbol := s }
        refine ⟨?_, ?_, ?_⟩
        · simpa [size] using Nat.le_succ_of_le hext.size_le
        · intro e he
          rw [hdrop] at he
          rcases List.mem_append.1 he with hold | hnew
          · exact hext.fresh e hold
          · -- the symbol is new to the table now, so it was before
            obtain rfl := List.mem_singleton.1 hnew
            by_cases hknown : ∃ e ∈ after.entries.toList.drop before.size,
                e.symbol = s
            · obtain ⟨old, hold, rfl⟩ := hknown
              exact hext.fresh old hold
            · exact (hext.index s fun e he heq => hknown ⟨e, he, heq⟩).symm.trans
                hslot
        · intro t ht
          rw [hdrop] at ht
          have hne : s ≠ t := ht { symbol := s } (by simp)
          have hold := hext.index t fun e he => ht e (List.mem_append_left _ he)
          simpa [Std.ExtHashMap.getElem?_insert, hne] using hold

theorem symbols_modify (entries : Array Global) (i : Nat) (v : Value) :
    (entries.modify i fun e => { e with value := v, defined := true }).toList.map
        Global.symbol = entries.toList.map Global.symbol := by
  apply List.ext_getElem?
  intro j
  simp only [List.getElem?_map, Array.getElem?_toList, Array.getElem?_modify]
  split <;> simp [Function.comp_def]

/-- Two tables with the same symbols in their slots and the same index extend the same
tables. -/
theorem Extends.congr {before after after' : Globals}
    (hext : Extends before after)
    (hsymbols : after'.entries.toList.map Global.symbol =
      after.entries.toList.map Global.symbol)
    (hindex : after'.index = after.index) : Extends before after' := by
  have hsize : after'.size = after.size := by
    simpa [size] using congrArg List.length hsymbols
  have hdrop : (after'.entries.toList.drop before.size).map Global.symbol =
      (after.entries.toList.drop before.size).map Global.symbol := by
    rw [List.map_drop, List.map_drop, hsymbols]
  refine ⟨hsize ▸ hext.size_le, ?_, ?_⟩
  · intro e he
    have hmem := List.mem_map_of_mem (f := Global.symbol) he
    rw [hdrop] at hmem
    obtain ⟨e', he', heq⟩ := List.mem_map.1 hmem
    rw [← heq]
    exact hext.fresh e' he'
  · intro s hs
    rw [hindex]
    refine hext.index s fun e he heq => ?_
    have hmem := List.mem_map_of_mem (f := Global.symbol) he
    rw [← hdrop] at hmem
    obtain ⟨e', he', heq'⟩ := List.mem_map.1 hmem
    exact hs e' he' (heq'.trans heq)

theorem set?_eq_some {g g' : Globals} {i : Nat} {v : Value}
    (h : g.set? i v = some g') :
    i < g.size ∧ g' =
      { g with
        entries := g.entries.modify i fun e => { e with value := v, defined := true } } := by
  rw [set?] at h
  split at h
  · exact ⟨‹_›, (Option.some.inj h).symm⟩
  · cases h

theorem Extends.set {before after after' : Globals}
    (hext : Extends before after) {i : Nat} {v : Value}
    (h : after.set? i v = some after') : Extends before after' := by
  obtain ⟨_, rfl⟩ := set?_eq_some h
  exact hext.congr (symbols_modify after.entries i v) rfl

theorem getElem?_foldl_erase (dropped : List Global)
    (index : Std.ExtHashMap Symbol Nat) (s : Symbol) :
    (dropped.foldl (fun index e => index.erase e.symbol) index)[s]? =
      if ∃ e ∈ dropped, e.symbol = s then none else index[s]? := by
  induction dropped generalizing index with
  | nil => simp
  | cons e rest ih =>
      rw [List.foldl_cons, ih, Std.ExtHashMap.getElem?_erase]
      by_cases heq : e.symbol = s
      · simp [heq]
      · simp [heq]

/-- A symbol keeps its slot. -/
theorem Extends.slot? {before after : Globals} (hext : Extends before after) {s : Symbol}
    {i : Nat} (hslot : before.slot? s = some i) : after.slot? s = some i := by
  have hold : before.index[s]? = some i := hslot
  refine (hext.index s fun e he heq => ?_).trans hslot
  have hnew := hext.fresh e he
  rw [heq, hold] at hnew
  cases hnew

/-- The table after assignments. -/
inductive Assigned (before : Globals) : Globals → Prop where
  | refl : Assigned before before
  | set {g after : Globals} {i : Nat} {v : Value} :
      Assigned before g → g.set? i v = some after → Assigned before after

/-- Assignments change neither which symbols are in the table nor their order. -/
theorem Assigned.names {before after : Globals} (h : Assigned before after) :
    after.entries.toList.map Global.symbol = before.entries.toList.map Global.symbol ∧
      after.index = before.index := by
  induction h with
  | refl => exact ⟨rfl, rfl⟩
  | set _ hset ih =>
      obtain ⟨_, rfl⟩ := set?_eq_some hset
      exact ⟨(symbols_modify _ _ _).trans ih.1, ih.2⟩

/-- Going back to the slots of an earlier table gives that table. -/
theorem Extends.restore {before after : Globals} (hext : Extends before after) :
    after.restore before.entries = before := by
  have hsize : ¬ after.size < before.entries.size :=
    Nat.not_lt.2 hext.size_le
  rw [Globals.restore, if_neg hsize]
  have hindex : (after.entries.toList.drop before.entries.size).foldl
      (fun index e => index.erase e.symbol) after.index = before.index := by
    apply Std.ExtHashMap.ext_getElem?
    intro s
    rw [getElem?_foldl_erase]
    split
    · rename_i hdropped
      obtain ⟨e, he, rfl⟩ := hdropped
      exact (hext.fresh e he).symm
    · rename_i hkept
      refine hext.index s fun e he heq => hkept ⟨e, he, heq⟩
  rw [hindex]

/-- Giving up a slot right after it was reserved gives the table back. -/
theorem undeclare_declare {g g' : Globals} {s : Symbol} {i : Nat}
    (h : g.declare s = (.ok ⟨i, true⟩, g')) : g'.undeclare s = g := by
  rw [declare] at h
  cases hslot : g.slot? s with
  | some j => simp [hslot] at h
  | none =>
      rw [hslot] at h
      dsimp only at h
      split at h
      · simp at h
      · obtain ⟨_, rfl⟩ := Prod.mk.inj h
        have hindex : (g.index.insert s g.size).erase s = g.index := by
          apply Std.ExtHashMap.ext_getElem?
          intro t
          rw [Std.ExtHashMap.getElem?_erase, Std.ExtHashMap.getElem?_insert]
          by_cases hst : s = t
          · subst hst
            simpa [slot?] using hslot.symm
          · simp [hst]
        simp [undeclare, hindex]

/-- A new slot makes the table longer. -/
theorem size_declare {g g' : Globals} {s : Symbol} {declared : Declared}
    (h : g.declare s = (.ok declared, g')) (hfresh : declared.fresh = true) :
    g'.size = g.size + 1 := by
  rw [declare] at h
  split at h
  · cases h
    cases hfresh
  · dsimp only at h
    split at h
    · cases h
    · cases h
      exact Array.size_push _

/-- The table after a slot beyond the older table is given up. -/
theorem Extends.undeclare {before after : Globals} (hext : Extends before after)
    (hsize : before.size < after.size) (s : Symbol) :
    Extends before (after.undeclare s) := by
  rw [Globals.undeclare]
  split
  · rename_i last hlast
    split
    · rename_i hgone
      obtain ⟨older, hentries⟩ := Array.back?_eq_some_iff.1 hlast
      have hle : before.size ≤ older.size := by
        rw [size, size, hentries, Array.size_push] at hsize
        exact Nat.le_of_lt_succ hsize
      have hdrop := drop_toList_push older hle last
      rw [← hentries] at hdrop
      have hs : last.symbol = s := hgone.1
      rw [hentries, Array.pop_push]
      refine ⟨hle, ?_, ?_⟩
      · intro e he
        refine hext.fresh e ?_
        rw [hdrop]
        exact List.mem_append_left _ he
      · intro t ht
        rw [Std.ExtHashMap.getElem?_erase]
        by_cases hst : s = t
        · -- the symbol given up was unknown to the older table
          subst hst
          have hfresh := hext.fresh last (by simp [hdrop])
          rw [hs] at hfresh
          simp [hfresh]
        · rw [if_neg (by simpa using hst)]
          refine hext.index t fun e he => ?_
          rw [hdrop] at he
          rcases List.mem_append.1 he with hold | hnew
          · exact ht e hold
          · obtain rfl := List.mem_singleton.1 hnew
            exact hs ▸ hst
    · exact hext
  · exact hext

/-- A table that the operations on tables can make. -/
inductive Built : Globals → Prop where
  | empty : Built {}
  | declare {g : Globals} (s : Symbol) : Built g → Built (g.declare s).2
  | undeclare {g : Globals} (s : Symbol) : Built g → Built (g.undeclare s)
  | assign {g g' : Globals} {i : Nat} {v : Value} :
      Built g → g.set? i v = some g' → Built g'
  | restore {g : Globals} (recorded : Array Global) : Built g → Built (g.restore recorded)

/-- Every slot of a table that can be made has a number that an operand can hold. -/
theorem Built.slot_le {g : Globals} (h : Built g) {s : Symbol} {i : Nat}
    (hslot : g.slot? s = some i) : i ≤ maxGlobalSlot := by
  induction h generalizing s i with
  | empty => simp [slot?] at hslot
  | @declare g t _ ih =>
      rw [Globals.declare] at hslot
      cases ht : g.slot? t with
      | some j =>
          rw [ht] at hslot
          exact ih hslot
      | none =>
          rw [ht] at hslot
          dsimp only at hslot
          split at hslot
          · exact ih hslot
          · rename_i hroom
            rw [slot?, Std.ExtHashMap.getElem?_insert] at hslot
            split at hslot
            · cases hslot
              exact Nat.le_of_not_lt hroom
            · exact ih hslot
  | @undeclare g t _ ih =>
      rw [Globals.undeclare] at hslot
      split at hslot
      · split at hslot
        · rw [slot?, Std.ExtHashMap.getElem?_erase] at hslot
          split at hslot
          · cases hslot
          · exact ih hslot
        · exact ih hslot
      · exact ih hslot
  | assign _ hset ih =>
      obtain ⟨_, rfl⟩ := set?_eq_some hset
      exact ih hslot
  | @restore g recorded _ ih =>
      rw [Globals.restore] at hslot
      split at hslot
      · exact ih hslot
      · rw [slot?, getElem?_foldl_erase] at hslot
        split at hslot
        · cases hslot
        · exact ih hslot

end Zinc.Globals
