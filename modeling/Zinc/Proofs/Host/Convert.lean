import Zinc.Proofs.Machine.Congruence

/-!
Handing host values to related machines.  All that happens is that integers are made,
handles are looked up and tuples are allocated of what has been made before, so a
conversion gives the same value on both machines and leaves them related.
-/

namespace Zinc.Machine.Congruence

variable {E : Code → Globals → Int → Prop}
  {R : List Value → Machine → Machine → Prop} {vs : List Value} {m m' : Machine}

theorem linked_mapError {ε δ α : Type} {inHand : α → List Value}
    {r r' : Except ε α × Machine} (h : Linked R inHand r r') (f : ε → δ) :
    Linked R inHand (r.1.mapError f, r.2) (r'.1.mapError f, r'.2) := by
  rcases h.cases with ⟨e, _, _, rfl, rfl, hmachine⟩ | ⟨a, _, _, rfl, rfl, hmachine⟩
  · exact ⟨rfl, hmachine⟩
  · exact ⟨rfl, hmachine⟩

theorem tupleOf (hR : Congruence E R) (ws vs : List Value) (m m' : Machine)
    (h : R (ws ++ vs) m m') :
    Linked R (fun t => t :: vs) (ofHost.tupleOf ws m) (ofHost.tupleOf ws m') := by
  have hws : ∀ w ∈ ws, w ∈ ws ++ vs := fun w hw => List.mem_append_left vs hw
  rw [ofHost.tupleOf, ofHost.tupleOf]
  rcases (hR.allocTuple h hws).cases with ⟨f, left, right, hleft, hright, hmachine⟩ |
    ⟨t, left, right, hleft, hright, hmachine⟩
  · rw [hleft, hright]
    exact ⟨rfl, hmachine⟩
  · rw [hleft, hright]
    refine ⟨rfl, hR.drop hmachine ?_⟩
    exact List.cons_subset_cons t (List.subset_append_right ws vs)

/-- A tuple is made of values that have been made before. -/
theorem linked_tuple (hR : Congruence E R) {r r' : Conversion (List Value)} :
    Linked R (fun ws => ws ++ vs) r r' → Linked R (fun t => t :: vs)
      (match r with
        | (.error e, m) => (.error e, m)
        | (.ok ws, m) => ofHost.tupleOf ws m)
      (match r' with
        | (.error e, m) => (.error e, m)
        | (.ok ws, m) => ofHost.tupleOf ws m) := by
  intro h
  rcases h.cases with ⟨e, _, _, rfl, rfl, hmachine⟩ | ⟨ws, _, _, rfl, rfl, hmachine⟩
  · exact hR.refuse hmachine e
  · exact hR.tupleOf ws vs _ _ hmachine

theorem in_hand_cons (hR : Congruence E R) {v : Value} {ws : List Value}
    (h : R (ws ++ v :: vs) m m') : R (v :: ws ++ vs) m m' := by
  refine hR.drop h fun w hw => ?_
  simp only [List.cons_append, List.mem_cons, List.mem_append] at hw ⊢
  rcases hw with hw | hw | hw
  · exact Or.inr (Or.inl hw)
  · exact Or.inl hw
  · exact Or.inr (Or.inr hw)

/-- The values of a list are made one after the other, each with the earlier ones in hand. -/
theorem linked_cons (hR : Congruence E R) {r r' : Conversion Value}
    (k : Machine → Conversion (List Value))
    (hk : ∀ v m m', R (v :: vs) m m' → Linked R (fun ws => ws ++ v :: vs) (k m) (k m')) :
    Linked R (fun v => v :: vs) r r' → Linked R (fun ws => ws ++ vs)
      (match r with
        | (.error e, m) => (.error e, m)
        | (.ok v, m) =>
          match k m with
          | (.error e, m) => (.error e, m)
          | (.ok ws, m) => (.ok (v :: ws), m))
      (match r' with
        | (.error e, m) => (.error e, m)
        | (.ok v, m) =>
          match k m with
          | (.error e, m) => (.error e, m)
          | (.ok ws, m) => (.ok (v :: ws), m)) := by
  intro h
  rcases h.cases with ⟨e, _, _, rfl, rfl, hmachine⟩ | ⟨v, after, after', rfl, rfl, hmachine⟩
  · exact hR.refuse hmachine e
  · dsimp only
    rcases (hk v after after' hmachine).cases with
      ⟨e, _, _, hs, hs', hdone⟩ | ⟨ws, _, _, hs, hs', hdone⟩
    · rw [hs, hs']
      exact hR.refuse hdone e
    · rw [hs, hs']
      exact give (hR.in_hand_cons hdone)

mutual

/-- Both machines make the same of a host value. -/
theorem ofHost (hR : Congruence E R) : (x : HostValue) → (vs : List Value) →
    (m m' : Machine) → R vs m m' →
      Linked R (fun v => v :: vs) (ofHost x m) (ofHost x m')
  | .int t n, vs, m, m', h => by
      rw [Machine.ofHost, Machine.ofHost]
      split
      · exact give (hR.int _ h)
      · exact hR.refuse h _
  | .bool b, vs, m, m', h => by
      rw [Machine.ofHost, Machine.ofHost]
      exact give (hR.int _ h)
  | .handle fn, vs, m, m', h => by
      rw [Machine.ofHost, Machine.ofHost, hR.value h]
      cases hv : m.value fn with
      | error f => exact hR.refuse h _
      | ok v => exact give (hR.value_in_hand h hv).2
  | .any none, vs, m, m', h => by
      rw [Machine.ofHost, Machine.ofHost]
      exact hR.refuse h _
  | .any (some x), vs, m, m', h => by
      rw [Machine.ofHost, Machine.ofHost]
      exact hR.ofHost x vs m m' h
  | .ptr elem none, vs, m, m', h => by
      rw [Machine.ofHost, Machine.ofHost]
      exact hR.refuse h _
  | .ptr elem (some x), vs, m, m', h => by
      rw [Machine.ofHost, Machine.ofHost]
      exact hR.ofHost x vs m m' h
  | .slice elem items, vs, m, m', h => by
      rw [Machine.ofHost, Machine.ofHost]
      exact hR.linked_tuple (hR.ofItems 0 items vs m m' h)
  | .array elem items, vs, m, m', h => by
      rw [Machine.ofHost, Machine.ofHost]
      exact hR.linked_tuple (hR.ofItems 0 items vs m m' h)
  | .struct fields values, vs, m, m', h => by
      rw [Machine.ofHost, Machine.ofHost]
      exact hR.linked_tuple (hR.ofFields fields values vs m m' h)
  | .address n, vs, m, m', h => by
      rw [Machine.ofHost, Machine.ofHost]
      exact hR.refuse h _
  | .string s, vs, m, m', h => by
      rw [Machine.ofHost, Machine.ofHost]
      exact hR.refuse h _
  | .float, vs, m, m', h => by
      rw [Machine.ofHost, Machine.ofHost]
      exact hR.refuse h _
  | .func, vs, m, m', h => by
      rw [Machine.ofHost, Machine.ofHost]
      exact hR.refuse h _
  | .map k v, vs, m, m', h => by
      rw [Machine.ofHost, Machine.ofHost]
      exact hR.refuse h _

theorem ofItems (hR : Congruence E R) (i : Nat) : (items : List HostValue) →
    (vs : List Value) → (m m' : Machine) → R vs m m' →
      Linked R (fun ws => ws ++ vs) (ofItems i items m) (ofItems i items m')
  | [], vs, m, m', h => give h
  | item :: rest, vs, m, m', h => by
      have hitem : Linked R (fun v => v :: vs)
          (inPart ("element " ++ toString i) (Machine.ofHost item m))
          (inPart ("element " ++ toString i) (Machine.ofHost item m')) :=
        linked_mapError (hR.ofHost item vs m m' h) _
      rw [Machine.ofItems, Machine.ofItems]
      exact hR.linked_cons (Machine.ofItems (i + 1) rest)
        (fun v => hR.ofItems (i + 1) rest (v :: vs)) hitem

theorem ofFields (hR : Congruence E R) : (fields : FieldTypes) →
    (values : List HostValue) → (vs : List Value) → (m m' : Machine) →
      R vs m m' → Linked R (fun ws => ws ++ vs) (ofFields fields values m)
        (ofFields fields values m')
  | .cons name type fields, value :: rest, vs, m, m', h => by
      rw [Machine.ofFields, Machine.ofFields]
      split
      · have hvalue : Linked R (fun v => v :: vs)
            (inPart ("field " ++ name) (Machine.ofHost value m))
            (inPart ("field " ++ name) (Machine.ofHost value m')) :=
          linked_mapError (hR.ofHost value vs m m' h) _
        exact hR.linked_cons (Machine.ofFields fields rest)
          (fun v => hR.ofFields fields rest (v :: vs)) hvalue
      · exact hR.ofFields fields rest vs m m' h
  | .nil, values, vs, m, m', h => by
      have hnil (m : Machine) : Machine.ofFields .nil values m = (.ok [], m) := by
        rw [Machine.ofFields]
        simp
      rw [hnil, hnil]
      exact give h
  | .cons name type fields, [], vs, m, m', h => by
      have hnil (m : Machine) :
          Machine.ofFields (.cons name type fields) [] m = (.ok [], m) := by
        rw [Machine.ofFields]
        simp
      rw [hnil, hnil]
      exact give h

end

end Zinc.Machine.Congruence
