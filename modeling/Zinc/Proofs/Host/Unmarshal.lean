import Zinc.Proofs.Host.Verdict

/-!
The conversion of machine values keeps to the verdicts.  A value that a tree stands for is
converted as the verdict on the tree says: a part of the right type comes out, or a failure
that is a clash of types where the verdict is one and nothing of the kind where it is a
refusal.
-/

namespace Zinc.Machine

/-- A conversion that comes out as a verdict says, with a good value if it fits. -/
inductive Judged {α : Type} (good : α → Prop) : Verdict → Except Failure α → Prop where
  | fits {a : α} : good a → Judged good .fits (.ok a)
  | refused {e : Failure} : e.root ≠ .typeMismatch → Judged good .refused (.error e)
  | clashes {e : Failure} : e.root = .typeMismatch → Judged good .clashes (.error e)

namespace Judged

variable {α β : Type} {good : α → Prop} {better : β → Prop} {v w : Verdict}
  {r : Except Failure α}

/-- A conversion that fails with a message of its own is refused. -/
theorem message (text : String) : Judged good .refused (.error (.message text)) :=
  .refused Failure.noConfusion

theorem bind {k : α → Except Failure β} (h : Judged good v r)
    (hk : ∀ a, good a → Judged better w (k a)) :
    Judged better (v.andThen w) (r >>= k) := by
  cases h with
  | fits ha => exact hk _ ha
  | refused he => exact .refused he
  | clashes he => exact .clashes he

theorem map {f : α → β} (h : Judged good v r) (hf : ∀ a, good a → better (f a)) :
    Judged better v (f <$> r) := by
  cases h with
  | fits ha => exact .fits (hf _ ha)
  | refused he => exact .refused he
  | clashes he => exact .clashes he

theorem within (h : Judged good v r) (part : String) :
    Judged good v (r.mapError (.within part)) := by
  cases h with
  | fits ha => exact .fits ha
  | refused he => exact .refused he
  | clashes he => exact .clashes he

end Judged

/-- A value that a tree has become, of a type that a place of type `t` takes when the type
takes the tree. -/
structure Converted (t : HostType) (d : ValueTree) (x : HostValue) : Prop where
  isOf : x.IsOf x.type
  taken : t = .any ∨ x.type = t ↔ t.takes d = true

/-- The conversion of a value that a tree stands for.  Nothing comes out of a closure, and
whatever else comes out has been converted. -/
inductive Comes (t : HostType) : ValueTree → Except Failure (Option HostValue) → Prop where
  | closure (shown : String) : Comes t (.closure shown) (.ok none)
  | other {d : ValueTree} {r : Except Failure (Option HostValue)} :
      (∀ shown, d ≠ .closure shown) →
      Judged (fun x? => ∃ x, x? = some x ∧ Converted t d x) (t.verdict d) r → Comes t d r

variable {h : Heap} {t elem : HostType} {d : ValueTree} {x : HostValue} {xs : List HostValue}
  {ds : List ValueTree} {vs : List Value}

theorem judged_stored (hx : Converted t d x) :
    Judged (HostValue.IsOf · t) (t.storing d) (stored x t) := by
  rw [stored, HostType.storing]
  by_cases hany : t = .any
  · rw [if_pos hany, if_pos (hx.taken.1 (Or.inl hany)), hany]
    exact .fits (.any hx.isOf)
  · rw [if_neg hany]
    by_cases htype : x.type = t
    · rw [if_pos htype, if_pos (hx.taken.1 (Or.inr htype))]
      exact .fits (htype ▸ hx.isOf)
    · have htakes : ¬ t.takes d = true := hx.taken.not.1 (not_or.2 ⟨hany, htype⟩)
      rw [if_neg htype, if_neg htakes]
      exact .clashes rfl

/-- Storing items one after the other. -/
theorem judged_stored_all (hxs : List.Forall₂ (Converted elem) ds xs) :
    Judged (fun ys => ∀ y ∈ ys, y.IsOf elem) (.all (ds.map elem.storing))
      (xs.mapM (stored · elem)) := by
  induction hxs with
  | nil => exact .fits (List.forall_mem_nil _)
  | cons hx _ ih =>
      rw [List.mapM_cons]
      apply (judged_stored hx).bind
      intro y hy
      exact ih.map fun ys hys => List.forall_mem_cons.2 ⟨hy, hys⟩

/-- An integer is converted to the types that it fits, and refused otherwise. -/
theorem judged_hostInteger (t : HostType) (n : Int64) :
    Judged (Converted t (.int n)) (t.verdict (.int n)) (hostInteger n.toInt (some t)) := by
  have hint : IntType.int.holds n.toInt = true := by
    have hleast := n.le_toInt
    have hgreatest := n.toInt_lt
    simp [IntType.holds, IntType.least, IntType.greatest, IntType.half, IntType.isSigned]
    omega
  rw [HostType.verdict]
  cases t with
  | int t =>
      rw [HostType.takesInteger, hostInteger]
      by_cases hholds : t.holds n.toInt = true
      · rw [if_pos hholds, if_pos hholds]
        exact .fits ⟨.int hholds, by simp [HostValue.type, HostType.takes]⟩
      · rw [if_neg hholds, if_neg hholds]
        exact .message _
  | bool => exact .fits ⟨.bool _, by simp [HostValue.type, HostType.takes]⟩
  | any => exact .fits ⟨.int hint, by simp [HostType.takes]⟩
  | _ => exact .message _

theorem Comes.item {β : Type} {good : β → Prop} {w : Verdict}
    {r : Except Failure (Option HostValue)} (hr : Comes t d r) (part : String)
    {k : HostValue → Except Failure β} (hk : ∀ x, Converted t d x → Judged good w (k x)) :
    Judged good ((t.verdict d).andThen w) (do
      match ← r.mapError (.within part) with
      | none => .error (.within part (.message "closure inside tuple"))
      | some x => k x) := by
  cases hr with
  | closure shown =>
      rw [HostType.verdict]
      exact (Judged.message "closure inside tuple").within part
  | other _ hr =>
      apply (hr.within part).bind
      rintro x? ⟨x, rfl, hx⟩
      exact hk x hx

theorem judged_hostItems {convert : Value → Except Failure (Option HostValue)}
    (hvs : List.Forall₂ (fun v d => Comes t d (convert v)) vs ds) (i : Nat) :
    Judged (List.Forall₂ (Converted t) ds) (.all (ds.map t.verdict))
      (hostItems convert i vs) := by
  induction hvs generalizing i with
  | nil => exact .fits .nil
  | cons hv _ ih =>
      rw [hostItems]
      apply hv.item
      intro x hx
      exact (ih (i + 1)).map fun xs hxs => .cons hx hxs

section

variable {convert : Value → HostType → Except Failure (Option HostValue)} {tooFew : Failure}
  {name : String}

/-- A field that can be seen takes an item, which is stored before anything else is read. -/
theorem hostFields_shown {α : Type} (hname : isExported name = true) (type : HostType)
    (fields : FieldTypes) (v : Value) (vs : List Value)
    (k : List HostValue × List Value → Except Failure α) :
    hostFields convert tooFew (.cons name type fields) (v :: vs) >>= k = (do
      match ← (convert v type).mapError (.within ("field " ++ name)) with
      | none => .error (.within ("field " ++ name) (.message "closure inside tuple"))
      | some x => do
        let y ← stored x type
        let p ← hostFields convert tooFew fields vs
        k (y :: p.1, p.2)) := by
  rw [hostFields, if_pos hname]
  cases convert v type with
  | error e => rfl
  | ok x? =>
      cases x? with
      | none => rfl
      | some x =>
          simp only [Except.mapError]
          change (stored x type >>= _) >>= k = stored x type >>= _
          cases stored x type with
          | error e => rfl
          | ok y =>
              cases hostFields convert tooFew fields vs with
              | error e => rfl
              | ok p => rfl

/-- A field that cannot be seen takes no item. -/
theorem hostFields_hidden (hname : ¬ isExported name = true) (type : HostType)
    (fields : FieldTypes) (vs : List Value) :
    hostFields convert tooFew (.cons name type fields) vs =
      (fun p => (type.zero :: p.1, p.2)) <$> hostFields convert tooFew fields vs := by
  cases vs with
  | nil =>
    rw [hostFields, if_neg hname]
    rfl
  | cons v vs =>
    rw [hostFields, if_neg hname]
    rfl

/-- Reading the fields of a record one after the other, and then going on.  What follows is
refused if items are left. -/
theorem judged_hostFields {α : Type} {good : α → Prop}
    (htooFew : tooFew.root ≠ .typeMismatch) : (fields : FieldTypes) → {vs : List Value} →
    {ds : List ValueTree} → List.Forall₂ (fun v d => ∀ t, Comes t d (convert v t)) vs ds →
    {k : List HostValue × List Value → Except Failure α} →
    (∀ xs rest, List.Forall₂ HostValue.IsOf xs fields.types →
      Judged good (if rest = [] then .fits else .refused) (k (xs, rest))) →
    Judged good (fields.verdict ds) (hostFields convert tooFew fields vs >>= k)
  | .nil, vs, ds, hvs, k, hk => by
      have hempty : (vs = []) = (ds = []) := by
        cases hvs with
        | nil => simp
        | cons _ _ => simp
      have hrest := hk [] vs .nil
      simp only [hempty] at hrest
      rw [FieldTypes.verdict]
      exact hrest
  | .cons name type fields, vs, ds, hvs, k, hk => by
      by_cases hname : isExported name = true
      · cases hvs with
        | nil =>
            rw [FieldTypes.verdict, if_pos hname, hostFields, if_pos hname]
            exact .refused htooFew
        | cons hv hvs =>
            rw [FieldTypes.verdict, if_pos hname, hostFields_shown hname]
            apply (hv type).item
            intro x hx
            apply (judged_stored hx).bind
            intro y hy
            apply judged_hostFields htooFew fields hvs
            intro xs rest hxs
            exact hk (y :: xs) rest (.cons hy hxs)
      · rw [FieldTypes.verdict_hidden hname, hostFields_hidden hname, bind_map_left]
        apply judged_hostFields htooFew fields hvs
        intro xs rest hxs
        exact hk (type.zero :: xs) rest (.cons type.zero_isOf hxs)

theorem judged_hostRecord (type : HostType) (fields : FieldTypes)
    (hvs : List.Forall₂ (fun v d => ∀ t, Comes t d (convert v t)) vs ds) :
    Judged (List.Forall₂ HostValue.IsOf · fields.types) (fields.verdict ds)
      (hostRecord convert type fields vs) := by
  rw [hostRecord]
  refine judged_hostFields Failure.noConfusion fields hvs fun xs rest hxs => ?_
  cases rest with
  | nil => exact .fits hxs
  | cons v rest => exact .message _

end

/-- Without a wanted type a value is converted as one of any type. -/
theorem toHost_none (h : Heap) (depth : Nat) (v : Value) :
    toHost h depth v none = toHost h depth v (some .any) := by
  unfold toHost
  rfl

section

variable {a depth : Nat}

theorem judged_slice (hitems : List.Forall₂ (fun v d => ∀ t, Comes t d
      (toHost h depth v (some t))) (h.fields a).toList ds)
    (htaken : t = .any ∨ HostType.slice .any = t ↔ t.takes (.tuple ds) = true) :
    Judged (fun x? => ∃ x, x? = some x ∧ Converted t (.tuple ds) x)
      (if ∀ d ∈ ds, d.IsData then .fits else .refused) (do
        let values ← hostItems (fun v => toHost h depth v none) 0 (h.fields a).toList
        return some (.slice .any (values.map fun v => .any (some v)))) := by
  rw [← Verdict.all_any]
  have hany : List.Forall₂ (fun v d => Comes .any d (toHost h depth v none))
      (h.fields a).toList ds :=
    hitems.imp fun v d hv => toHost_none h depth v ▸ hv .any
  apply (judged_hostItems hany 0).map
  intro values hvalues
  have hisOf : ∀ x ∈ values, x.IsOf x.type :=
    ((List.forall₂_and_left _ _).1 (hvalues.flip.imp fun x d hx => ⟨hx.isOf, hx⟩)).1
  refine ⟨_, rfl, .slice fun y hy => ?_, htaken⟩
  obtain ⟨x, hx, rfl⟩ := List.mem_map.1 hy
  exact .any (hisOf x hx)

/-- A tuple is converted as the verdict says, if its fields are. -/
theorem comes_tuple (hitems : List.Forall₂ (fun v d => ∀ t, Comes t d
      (toHost h depth v (some t))) (h.fields a).toList ds) (t : HostType) :
    Comes t (.tuple ds) (toHost h (depth + 1) (.ref .tuple a) (some t)) := by
  apply Comes.other fun _ => ValueTree.noConfusion
  unfold toHost
  cases t with
  | struct fields =>
      rw [HostType.verdict]
      apply (judged_hostRecord (.struct fields) fields hitems).map
      intro values hvalues
      obtain ⟨hlength, hzip⟩ := List.forall₂_iff_zip.1 hvalues
      exact ⟨_, rfl, .struct hlength hzip, by simp [HostValue.type, HostType.takes]⟩
  | handle =>
      rw [HostType.verdict, ← FieldTypes.verdict]
      apply (judged_hostRecord .handle .nil hitems).map
      intro values _
      exact ⟨_, rfl, .handle _, by simp [HostValue.type, HostType.takes]⟩
  | slice elem =>
      rw [HostType.verdict]
      apply (judged_hostItems (hitems.imp fun v d hv => hv elem) 0).bind
      intro values hvalues
      apply (judged_stored_all hvalues).map
      intro kept hkept
      exact ⟨_, rfl, .slice hkept, by simp [HostValue.type, HostType.takes]⟩
  | _ => exact judged_slice hitems (by simp [HostType.takes])

end

/-- In a heap in order, a value that a tree stands for is converted as the verdict on the tree
says. -/
theorem comes_of_shows (hordered : h.Ordered) {v : Value} (hshows : h.Shows v d)
    (t : HostType) : Comes t d (toHost h (h.cells.size + 1) v (some t)) := by
  induction hshows generalizing t with
  | int n =>
      unfold toHost
      apply Comes.other fun _ => ValueTree.noConfusion
      exact (judged_hostInteger t n).map fun x hx => ⟨x, rfl, hx⟩
  | closure a =>
      unfold toHost
      exact .closure _
  | tuple hsize _ ih =>
      rw [← toHost_eq hordered (Nat.lt_succ_of_lt (Nat.lt_succ_self _))]
      exact comes_tuple (List.forall₂_iff_zip.2 ⟨hsize, ih⟩) t

end Zinc.Machine
