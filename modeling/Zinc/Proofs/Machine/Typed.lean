import Zinc.Machine.Step
import Zinc.Proofs.Code.Discipline
import Zinc.Proofs.Heap.Reach

/-!
The shapes of values.  A value that a program can get hold of is an integer, a tuple of
such values, or a closure whose code keeps to the discipline in the environment that it
has captured.  Shapes outlive new objects, new code, new globals, and a collection that
keeps the value.
-/

namespace Zinc

/-- What values refer to: the code, the number of globals and the heap. -/
structure World where
  code : Code
  slots : Nat
  heap : Heap

/-- The shapes of values: those that a program computes with, and environments of some
length. -/
inductive Shape where
  | data
  | env (length : Nat)
deriving DecidableEq, Repr

/-- A value has a shape. -/
inductive Typed (w : World) : Shape → Value → Prop where
  | int (n : Int64) : Typed w .data (.int n)
  | tuple {a : Nat} {c : Cell} :
      w.heap.cells[a]? = some c → c.tag = .tuple →
      (∀ v ∈ c.fields, Typed w .data v) →
      Typed w .data (.ref .tuple a)
  | closure {a captured : Nat} {c : Cell} {env : Value} {offset : Int}
      {is : List Instr} :
      w.heap.cells[a]? = some c → c.tag = .closure →
      c.fields = #[env, .code offset] → Typed w (.env captured) env →
      w.code.At offset is →
      Disciplined w.slots captured 0 false [] is →
      Typed w .data (.ref .closure a)
  | nil : Typed w (.env 0) .emptyEnv
  | cons {a length : Nat} {c : Cell} {v env : Value} :
      w.heap.cells[a]? = some c → c.tag = .env → c.fields = #[v, env] →
      Typed w .data v → Typed w (.env length) env →
      Typed w (.env (length + 1)) (.ref .env a)

namespace Typed

variable {w : World} {shape : Shape} {v : Value}

theorem isPublic (h : Typed w .data v) : v.kind.isPublic = true := by
  cases h with
  | int n => rfl
  | tuple _ _ _ => rfl
  | closure _ _ _ _ _ _ => rfl

theorem isMark (h : Typed w .data v) : v.isMark = false := by
  cases h with
  | int n => rfl
  | tuple _ _ _ => rfl
  | closure _ _ _ _ _ _ => rfl

/-- A value keeps its shape as long as the objects that it leads to stay. -/
theorem keep {roots : List Value} {heap : Heap} (h : Typed w shape v)
    (hkeeps : Heap.Keeps roots w.heap heap) (hv : v.Within (w.heap.Reach roots)) :
    Typed { w with heap := heap } shape v := by
  -- a field of an object in use is in use
  have hfield {a : Nat} {c : Cell} {u : Value} (hcell : w.heap.cells[a]? = some c)
      (ha : w.heap.Reach roots a) (hu : u ∈ c.fields) :
      u.Within (w.heap.Reach roots) := by
    apply Heap.closed_reach w.heap roots a ha
    rwa [Heap.fields_of_cell hcell]
  induction h with
  | int n => exact .int n
  | tuple hcell htag _ ih =>
      have ha := Value.within_ref.1 hv
      refine .tuple (hkeeps _ _ ha hcell) htag fun u hu => ?_
      exact ih u hu (hfield hcell ha hu)
  | closure hcell htag hfields _ hcode hdisciplined ih =>
      have ha := Value.within_ref.1 hv
      refine .closure (hkeeps _ _ ha hcell) htag hfields (ih ?_) hcode hdisciplined
      exact hfield hcell ha (by simp [hfields])
  | nil => exact .nil
  | cons hcell htag hfields _ _ ihv ihenv =>
      have ha := Value.within_ref.1 hv
      refine .cons (hkeeps _ _ ha hcell) htag hfields (ihv ?_) (ihenv ?_)
      · exact hfield hcell ha (by simp [hfields])
      · exact hfield hcell ha (by simp [hfields])

/-- New objects change nothing. -/
theorem grow {heap : Heap} (h : Typed w shape v) (hgrows : w.heap.Grows heap) :
    Typed { w with heap := heap } shape v :=
  h.keep (hgrows.keeps [v]) (Heap.within_reach List.mem_cons_self)

/-- New code and new globals change nothing. -/
theorem extend {code : Code} {slots : Nat} (h : Typed w shape v)
    (hcode : w.code.bytes.toList <+: code.bytes.toList) (hslots : w.slots ≤ slots) :
    Typed { w with code := code, slots := slots } shape v := by
  induction h with
  | int n => exact .int n
  | tuple hcell htag _ ih => exact .tuple hcell htag ih
  | closure hcell htag hfields _ hat hdisciplined ih =>
      exact .closure hcell htag hfields ih (hat.mono hcode) (hdisciplined.mono hslots)
  | nil => exact .nil
  | cons hcell htag hfields _ _ ihv ihenv => exact .cons hcell htag hfields ihv ihenv

/-- What a value refers to is of the kind that the value says, and its fields have
shapes again. -/
theorem fields (h : Typed w shape v) {a : Nat} (ha : v.address? = some a) :
    ∃ c, w.heap.cells[a]? = some c ∧ v.kind = c.tag ∧
      (c.tag = .tuple → ∀ u ∈ c.fields, Typed w .data u) ∧
      ∀ u ∈ c.fields, ∀ b, u.address? = some b → ∃ shape, Typed w shape u := by
  cases h with
  | int n => cases ha
  | tuple hcell htag hfields =>
      cases ha
      exact ⟨_, hcell, htag.symm, fun _ => hfields, fun u hu _ _ => ⟨_, hfields u hu⟩⟩
  | closure hcell htag hfields henv _ _ =>
      cases ha
      refine ⟨_, hcell, htag.symm, by simp [htag], fun u hu b hb => ?_⟩
      simp only [hfields, List.mem_toArray, List.mem_cons, List.not_mem_nil,
        or_false] at hu
      rcases hu with rfl | rfl
      · exact ⟨_, henv⟩
      · cases hb
  | nil => cases ha
  | cons hcell htag hfields hv henv =>
      cases ha
      refine ⟨_, hcell, htag.symm, by simp [htag], fun u hu b hb => ?_⟩
      simp only [hfields, List.mem_toArray, List.mem_cons, List.not_mem_nil,
        or_false] at hu
      rcases hu with rfl | rfl
      · exact ⟨_, hv⟩
      · exact ⟨_, henv⟩

/-- Whatever can be reached from values that have shapes is referred to by a value that
has a shape. -/
theorem of_reach {roots : List Value} {a : Nat}
    (hroots : ∀ u ∈ roots, ∀ b, u.address? = some b → ∃ shape, Typed w shape u)
    (hreach : w.heap.Reach roots a) :
    ∃ shape u, Typed w shape u ∧ u.address? = some a := by
  induction hreach with
  | root hu ha =>
      obtain ⟨shape, htyped⟩ := hroots _ hu _ ha
      exact ⟨shape, _, htyped, ha⟩
  | field _ hu hb ih =>
      obtain ⟨shape, u', htyped, ha⟩ := ih
      obtain ⟨c, hcell, _, _, hfields⟩ := htyped.fields ha
      rw [Heap.fields_of_cell hcell] at hu
      obtain ⟨shape', htyped'⟩ := hfields _ hu _ hb
      exact ⟨shape', _, htyped', hb⟩

/-- The locals of an environment are all there. -/
theorem chainAt {length : Nat} {env : Value} (h : Typed w (.env length) env) {k : Nat}
    (hk : k < length) :
    ∃ u, Machine.chainAt w.heap env k = some u ∧ Typed w .data u := by
  induction k generalizing length env with
  | zero =>
      cases h with
      | nil => omega
      | cons hcell _ hfields hv _ =>
          refine ⟨_, ?_, hv⟩
          simp [Machine.chainAt, Value.address?, Heap.field, Heap.fields_of_cell hcell,
            hfields]
  | succ k ih =>
      cases h with
      | nil => omega
      | cons hcell _ hfields _ henv =>
          obtain ⟨u, hu, htyped⟩ := ih henv (by omega)
          refine ⟨u, ?_, htyped⟩
          simpa [Machine.chainAt, Value.address?, Heap.field, Heap.fields_of_cell hcell,
            hfields] using hu

/-- The environment that a closure captures holds the locals and then what was
captured before. -/
theorem captureEnv {captured : Nat} {env : Value} (henv : Typed w (.env captured) env)
    (locals : List Value) (hlocals : ∀ u ∈ locals, Typed w .data u) :
    let result := (locals.map ReturnEntry.value).foldr Machine.consEnv (env, w.heap)
    w.heap.Grows result.2 ∧
      Typed { w with heap := result.2 } (.env (locals.length + captured)) result.1 := by
  induction locals with
  | nil =>
      refine ⟨.refl _, ?_⟩
      rw [List.length_nil, Nat.zero_add]
      exact henv
  | cons u rest ih =>
      obtain ⟨hu, hrest⟩ := List.forall_mem_cons.1 hlocals
      obtain ⟨hgrows, htyped⟩ := ih hrest
      refine ⟨.alloc _ _ hgrows, ?_⟩
      have hnew := Heap.Grows.alloc .env
        #[u, ((rest.map ReturnEntry.value).foldr Machine.consEnv (env, w.heap)).1]
        (Heap.Grows.refl
          ((rest.map ReturnEntry.value).foldr Machine.consEnv (env, w.heap)).2)
      rw [List.length_cons, Nat.add_right_comm]
      exact .cons (Heap.cells_alloc_self _ _ _) rfl rfl ((hu.grow hgrows).grow hnew)
        (htyped.grow hnew)

end Typed

end Zinc
