import Zinc.Proofs.Heap.Tree
import Zinc.Proofs.Machine.Formed

/-!
The trees that values of a heap come to.  Two values are alike when they are the same
integer or tuples with fields that are alike; without closures, that is to come to the same
tree.  So values without closures are alike exactly when they are shown as the same text.
-/

namespace Zinc.Heap

/-- A value comes to a tree. -/
inductive Shows (h : Heap) : Value → ValueTree → Prop where
  | int (n : Int64) : Shows h (.int n) (.int n)
  | closure (a : Nat) : Shows h (.ref .closure a) (.closure (h.inspectClosure a))
  | tuple {a : Nat} {items : List ValueTree} : (h.fields a).size = items.length →
      (∀ {v d}, (v, d) ∈ (h.fields a).toList.zip items → Shows h v d) →
      Shows h (.ref .tuple a) (.tuple items)

/-- Structural equality: the same integer, or as many fields that are equal in pairs. -/
inductive Alike (h h' : Heap) : Value → Value → Prop where
  | int (n : Int64) : Alike h h' (.int n) (.int n)
  | tuple {a a' : Nat} : (h.fields a).size = (h'.fields a').size →
      (∀ {v v'}, (v, v') ∈ (h.fields a).toList.zip (h'.fields a').toList → Alike h h' v v') →
      Alike h h' (.ref .tuple a) (.ref .tuple a')

/-- A value is made of integers and tuples. -/
def ClosureFree (h : Heap) (v : Value) : Prop :=
  ∀ u, h.Finds [v] u → (∃ n, u = .int n) ∨ ∃ a, u = .ref .tuple a

variable {h h' : Heap} {v v' : Value} {d d' : ValueTree}

/-- A tree is shown as the value is. -/
theorem Shows.inspect (hordered : h.Ordered) (hshows : h.Shows v d) : h.inspect v = d.text := by
  induction hshows with
  | int n =>
      rw [ValueTree.text]
      rfl
  | closure a =>
      rw [ValueTree.text]
      rfl
  | @tuple a items hsize _ ih =>
      have htexts : (h.fields a).toList.map h.inspect = items.map ValueTree.text := by
        rw [← List.forall₂_eq_eq_eq, List.forall₂_map_left_iff, List.forall₂_map_right_iff]
        exact List.forall₂_iff_zip.2 ⟨hsize, ih⟩
      rw [hordered.inspect_tuple, htexts, ← ValueTree.texts_eq_map, ValueTree.text]

theorem ClosureFree.field {a : Nat} (hfree : h.ClosureFree (.ref .tuple a)) {w : Value}
    (hw : w ∈ h.fields a) : h.ClosureFree w := by
  have ha : h.Reach [.ref .tuple a] a := .root List.mem_cons_self rfl
  intro u hu
  apply hfree
  rcases hu with hu | ⟨b, hreach, hu⟩
  · obtain rfl := List.mem_singleton.1 hu
    exact Or.inr ⟨a, ha, hw⟩
  · refine Or.inr ⟨b, hreach.least (closed_reach h _) fun x hx b hb => ?_, hu⟩
    obtain rfl := List.mem_singleton.1 hx
    exact ha.field hw hb

theorem closureFree_int (h : Heap) (n : Int64) : h.ClosureFree (.int n) := by
  have hnone (b : Nat) (hreach : h.Reach [.int n] b) : False :=
    hreach.least (S := fun _ => False) (fun _ ha => ha.elim) fun v hv b hb => by
      obtain rfl := List.mem_singleton.1 hv
      cases hb
  intro u hu
  rcases hu with hu | ⟨b, hreach, _⟩
  · exact Or.inl ⟨n, List.mem_singleton.1 hu⟩
  · exact (hnone b hreach).elim

theorem closureFree_tuple {a : Nat} (hfields : ∀ w ∈ h.fields a, h.ClosureFree w) :
    h.ClosureFree (.ref .tuple a) := by
  -- what is reached is the tuple itself, or is reached from a field
  have hreached {b : Nat} (hreach : h.Reach [.ref .tuple a] b) :
      b = a ∨ ∃ w ∈ h.fields a, h.Reach [w] b := by
    induction hreach with
    | root hv ha =>
        obtain rfl := List.mem_singleton.1 hv
        exact Or.inl (Option.some.inj ha).symm
    | field _ hv hb ih =>
        rcases ih with rfl | ⟨w, hw, hreach⟩
        · exact Or.inr ⟨_, hv, .root List.mem_cons_self hb⟩
        · exact Or.inr ⟨w, hw, hreach.field hv hb⟩
  intro u hu
  rcases hu with hu | ⟨b, hreach, hu⟩
  · exact Or.inr ⟨a, List.mem_singleton.1 hu⟩
  · rcases hreached hreach with rfl | ⟨w, hw, hreach⟩
    · exact hfields u hu u (Or.inl List.mem_cons_self)
    · exact hfields w hw u (Or.inr ⟨b, hreach, hu⟩)

theorem Shows.ofItems {a : Nat} {items : List ValueTree}
    (hitems : List.Forall₂ h.Shows (h.fields a).toList items) :
    h.Shows (.ref .tuple a) (.tuple items) := by
  obtain ⟨hlength, hzip⟩ := List.forall₂_iff_zip.1 hitems
  exact .tuple hlength hzip

/-- A tuple comes to the tuple of what its fields come to. -/
theorem Shows.ofFields {a : Nat} {tree : Value → ValueTree}
    (hfields : ∀ w ∈ h.fields a, h.Shows w (tree w)) :
    h.Shows (.ref .tuple a) (.tuple ((h.fields a).toList.map tree)) := by
  apply Shows.ofItems
  rw [List.forall₂_map_right_iff, List.forall₂_same]
  exact fun w hw => hfields w (Array.mem_toList_iff.1 hw)

/-- In a heap in order, a value without closures comes to a tree without closures. -/
theorem ClosureFree.exists_tree (hordered : h.Ordered) (hfree : h.ClosureFree v) :
    ∃ d, d.IsData ∧ h.Shows v d := by
  induction v using hordered.wellFounded.induction with
  | _ v ih =>
      rcases hfree v (Or.inl List.mem_cons_self) with ⟨n, rfl⟩ | ⟨a, rfl⟩
      · exact ⟨.int n, .int n, .int n⟩
      · have hfields : ∀ w ∈ h.fields a, ∃ d, d.IsData ∧ h.Shows w d :=
          fun w hw => ih w (Array.mem_toList_iff.2 hw) (hfree.field hw)
        choose! tree hdata hshows using hfields
        refine ⟨_, .tuple fun d hd => ?_, .ofFields hshows⟩
        obtain ⟨w, hw, rfl⟩ := List.mem_map.1 hd
        exact hdata w (Array.mem_toList_iff.1 hw)

section

variable {α β γ : Type} {S : α → γ → Prop} {T : β → γ → Prop} {xs : List α} {ys : List β}
  {zs zs' : List γ}

theorem forall₂_unique
    (hpairs : List.Forall₂ (fun x y => ∀ {z z'}, S x z → T y z' → z = z') xs ys)
    (hxs : List.Forall₂ S xs zs) (hys : List.Forall₂ T ys zs') : zs = zs' := by
  induction hpairs generalizing zs zs' with
  | nil =>
      cases hxs
      cases hys
      rfl
  | cons hpair _ ih =>
      cases hxs with
      | cons hx hxs =>
          cases hys with
          | cons hy hys => rw [hpair hx hy, ih hxs hys]

theorem forall₂_meet {Q : α → β → Prop}
    (hpairs : List.Forall₂ (fun x z => ∀ {y}, T y z → Q x y) xs zs)
    (hys : List.Forall₂ T ys zs) : List.Forall₂ Q xs ys := by
  induction hpairs generalizing ys with
  | nil =>
      cases hys
      exact .nil
  | cons hpair _ ih =>
      cases hys with
      | cons hy hys => exact .cons (hpair hy) (ih hys)

end

/-- Values that are alike come to the same tree. -/
theorem Alike.tree_eq (halike : h.Alike h' v v') (hshows : h.Shows v d)
    (hshows' : h'.Shows v' d') : d = d' := by
  induction halike generalizing d d' with
  | int n =>
      cases hshows
      cases hshows'
      rfl
  | tuple hsize _ ih =>
      cases hshows with
      | tuple hlength hzip =>
          cases hshows' with
          | tuple hlength' hzip' =>
              have hitems := forall₂_unique (List.forall₂_iff_zip.2 ⟨hsize, ih⟩)
                (List.forall₂_iff_zip.2 ⟨hlength, hzip⟩)
                (List.forall₂_iff_zip.2 ⟨hlength', hzip'⟩)
              rw [hitems]

/-- Values without closures that come to the same tree are alike. -/
theorem Shows.alike (hdata : d.IsData) (hshows : h.Shows v d) (hshows' : h'.Shows v' d) :
    h.Alike h' v v' := by
  induction hshows generalizing v' with
  | int n =>
      cases hshows'
      exact .int n
  | closure a => cases hdata
  | @tuple a items hlength _ ih =>
      cases hdata with
      | tuple hitems =>
          cases hshows' with
          | tuple hlength' hzip' =>
              have hmeet := forall₂_meet (T := h'.Shows) (Q := h.Alike h')
                (List.forall₂_iff_zip.2
                  ⟨hlength, fun hvd => ih hvd (hitems _ (List.of_mem_zip hvd).2)⟩)
                (List.forall₂_iff_zip.2 ⟨hlength', hzip'⟩)
              obtain ⟨hsize, hzip⟩ := List.forall₂_iff_zip.1 hmeet
              exact .tuple hsize hzip

/-- In heaps in order, values without closures are shown as the same text when they are
alike, and not otherwise. -/
theorem inspect_eq_iff (hordered : h.Ordered) (hordered' : h'.Ordered)
    (hfree : h.ClosureFree v) (hfree' : h'.ClosureFree v') :
    h.inspect v = h'.inspect v' ↔ h.Alike h' v v' := by
  obtain ⟨d, hdata, hshows⟩ := hfree.exists_tree hordered
  obtain ⟨d', hdata', hshows'⟩ := hfree'.exists_tree hordered'
  rw [hshows.inspect hordered, hshows'.inspect hordered', hdata.text_inj hdata']
  constructor
  · rintro rfl
    exact hshows.alike hdata hshows'
  · intro halike
    exact halike.tree_eq hshows hshows'

end Zinc.Heap
