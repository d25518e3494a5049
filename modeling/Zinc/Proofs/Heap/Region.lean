import Zinc.Proofs.Heap.Collect

/-!
Regions of a heap: sets of objects which no field leads out of and whose closures all have
code of some kind.  Objects are never written to after they have been allocated, and a
collection empties them or leaves them alone; so a region stays one, whatever is allocated
elsewhere, and it grows by objects whose fields lie in it.
-/

namespace Zinc

/-- A value that calls pass to each other, neither a mark nor a place in the code, whose
address lies in `S` if it has one. -/
structure Value.In (S : Nat → Prop) (v : Value) : Prop where
  isMark : v.isMark = false
  ne_code : ∀ pc, v ≠ .code pc
  within : v.Within S

theorem Value.In.mono {S T : Nat → Prop} {v : Value} (h : v.In S) (hle : ∀ a, S a → T a) :
    v.In T :=
  { h with within := h.within.mono hle }

theorem Value.in_int (S : Nat → Prop) (n : Int64) : (Value.int n).In S :=
  ⟨rfl, nofun, nofun⟩

theorem Value.in_emptyEnv (S : Nat → Prop) : Value.emptyEnv.In S :=
  ⟨rfl, nofun, nofun⟩

theorem Value.in_ref {S : Nat → Prop} {k : Kind} {a : Nat} (hk : k ≠ .mark) (ha : S a) :
    (Value.ref k a).In S := by
  refine ⟨?_, nofun, Value.within_ref.2 ha⟩
  cases k with
  | mark => exact absurd rfl hk
  | _ => rfl

namespace Heap

/-- The objects of the first heap are in the second one, as they were or empty. -/
structure Fades (h h' : Heap) : Prop where
  size_le : h.cells.size ≤ h'.cells.size
  fields : ∀ a, a < h.cells.size → h'.fields a = h.fields a ∨ h'.fields a = #[]

theorem Fades.refl (h : Heap) : h.Fades h :=
  ⟨Nat.le_refl _, fun _ _ => .inl rfl⟩

theorem Fades.trans {h h' h'' : Heap} (hfirst : h.Fades h') (hsecond : h'.Fades h'') :
    h.Fades h'' := by
  refine ⟨Nat.le_trans hfirst.size_le hsecond.size_le, fun a ha => ?_⟩
  rcases hsecond.fields a (Nat.lt_of_lt_of_le ha hfirst.size_le) with heq | hempty
  · rw [heq]
    exact hfirst.fields a ha
  · exact .inr hempty

theorem Grows.fades {h h' : Heap} (hgrows : h.Grows h') : h.Fades h' := by
  have hcells {a : Nat} (ha : a < h.cells.size) : h'.cells[a]? = some h.cells[a] :=
    hgrows.cell (Array.getElem?_eq_getElem ha)
  refine ⟨?_, fun a ha => .inl ?_⟩
  · refine Nat.le_of_not_lt fun hlast => ?_
    exact Nat.lt_irrefl _ (lt_size_of_getElem? (hcells hlast))
  · rw [fields_of_cell (hcells ha), fields_of_cell (Array.getElem?_eq_getElem ha)]

theorem Tidy.collect_fades {h : Heap} (htidy : h.Tidy) (roots : List Value) :
    h.Fades (h.collect roots).2 := by
  refine ⟨Nat.le_of_eq (size_collect h roots).symm, fun a ha => ?_⟩
  have hcell := Array.getElem?_eq_getElem ha
  by_cases hlive : a ∈ h.live
  · have hswept := htidy.cells_collect roots a
    rw [if_pos hlive] at hswept
    obtain ⟨c, hmarked, hfields⟩ : ∃ c, (markFrom h.cells roots)[a]? = some c ∧
        c.fields = h.cells[a].fields := by
      rcases markFrom_cell h.cells roots a with heq | ⟨c, hc, _, hblack⟩
      · exact ⟨_, heq.trans hcell, rfl⟩
      · rw [hcell] at hc
        cases hc
        exact ⟨_, hblack, rfl⟩
    rw [hmarked] at hswept
    rw [fields_of_cell hswept, fields_of_cell hcell, ← hfields, Cell.swept]
    split
    · exact .inl rfl
    · exact .inr rfl
  · have hswept := htidy.cells_collect roots a
    rw [if_neg hlive, htidy.markFrom_dead roots hlive] at hswept
    exact .inl (fields_congr hswept)

/-- A set of objects which no field leads out of.  The closures in it, given by address,
environment and place of their code, are all as `ok` says. -/
structure Region (h : Heap) (ok : Nat → Value → Int → Prop) (S : Nat → Prop) : Prop where
  lt_size : ∀ a, S a → a < h.cells.size
  closed : h.Closed S
  closures : ∀ a env pc, S a → h.fields a = #[env, .code pc] → ok a env pc

namespace Region

variable {h h' : Heap} {ok ok' : Nat → Value → Int → Prop} {S T : Nat → Prop}

theorem mono (hS : h.Region ok S) (hok : ∀ a env pc, S a → ok a env pc → ok' a env pc) :
    h.Region ok' S :=
  ⟨hS.lt_size, hS.closed,
    fun a env pc ha hfields => hok a env pc ha (hS.closures a env pc ha hfields)⟩

theorem fade (hS : h.Region ok S) (hfades : h.Fades h') : h'.Region ok S := by
  refine ⟨fun a ha => Nat.lt_of_lt_of_le (hS.lt_size a ha) hfades.size_le, fun a ha v hv => ?_,
    fun a env pc ha hfields => ?_⟩
  · rcases hfades.fields a (hS.lt_size a ha) with heq | hempty
    · exact hS.closed a ha v (heq ▸ hv)
    · rw [hempty] at hv
      exact absurd hv (Array.not_mem_empty v)
  · rcases hfades.fields a (hS.lt_size a ha) with heq | hempty
    · exact hS.closures a env pc ha (heq ▸ hfields)
    · rw [hempty] at hfields
      cases hfields

theorem union (hS : h.Region ok S) (hT : h.Region ok T) :
    h.Region ok fun a => S a ∨ T a where
  lt_size a ha := ha.elim (hS.lt_size a) (hT.lt_size a)
  closed a ha v hv := by
    rcases ha with ha | ha
    · exact (hS.closed a ha v hv).mono fun _ => .inl
    · exact (hT.closed a ha v hv).mono fun _ => .inr
  closures a env pc ha hfields :=
    ha.elim (hS.closures a env pc · hfields) (hT.closures a env pc · hfields)

/-- A new object whose fields lie in the region belongs to it. -/
theorem alloc (hS : h.Region ok S) (tag : Kind) {fields : Array Value}
    (hfields : ∀ v ∈ fields, v.Within S)
    (hclosure : ∀ env pc, fields = #[env, .code pc] → ok h.cells.size env pc) :
    (h.alloc tag fields).2.Region ok fun a => S a ∨ a = h.cells.size := by
  have hgrows : h.Grows (h.alloc tag fields).2 := .alloc _ _ (.refl _)
  have hkept := hS.fade hgrows.fades
  refine ⟨fun a ha => ?_, fun a ha v hv => ?_, fun a env pc ha heq => ?_⟩
  · rcases ha with ha | rfl
    · exact hkept.lt_size a ha
    · rw [size_alloc]
      exact Nat.lt_succ_self _
  · rcases ha with ha | rfl
    · exact (hkept.closed a ha v hv).mono fun _ => .inl
    · rw [fields_alloc_self] at hv
      exact (hfields v hv).mono fun _ => .inl
  · rcases ha with ha | rfl
    · exact hkept.closures a env pc ha heq
    · rw [fields_alloc_self] at heq
      exact hclosure env pc heq

/-- What some values in the region lead to is a region of its own. -/
theorem reach (hS : h.Region ok S) {roots : List Value} (hroots : ∀ v ∈ roots, v.Within S) :
    h.Region ok (h.Reach roots) := by
  have hsub {a : Nat} (ha : h.Reach roots a) : S a := ha.least hS.closed hroots
  exact ⟨fun a ha => hS.lt_size a (hsub ha), closed_reach h roots,
    fun a env pc ha => hS.closures a env pc (hsub ha)⟩

/-- A region in use outlives what keeps the objects in use. -/
theorem keep (hS : h.Region ok S) {roots : List Value} (hkeeps : Keeps roots h h')
    (hsub : ∀ a, S a → h.Reach roots a) : h'.Region ok S := by
  have hcell {a : Nat} (ha : S a) : h'.cells[a]? = h.cells[a]? := by
    have hold := Array.getElem?_eq_getElem (hS.lt_size a ha)
    rw [hold]
    exact hkeeps a _ (hsub a ha) hold
  refine ⟨fun a ha => ?_, fun a ha v hv => ?_, fun a env pc ha hfields => ?_⟩
  · have hold := Array.getElem?_eq_getElem (hS.lt_size a ha)
    exact lt_size_of_getElem? ((hcell ha).trans hold)
  · rw [fields_congr (hcell ha)] at hv
    exact hS.closed a ha v hv
  · rw [fields_congr (hcell ha)] at hfields
    exact hS.closures a env pc ha hfields

end Region

end Heap

end Zinc
