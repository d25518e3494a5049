import Zinc.Machine.Step
import Zinc.Proofs.Heap.Collect

/-!
Well-formed data, whatever the code is.  A value is well formed when the objects that it
leads to have the fields that their kind asks for: a closure has an environment and a
place in the code, and a cell of an environment has a value and the rest of the
environment.  A return stack is in segments when every count of locals, the current one
and those in frames, is the number of locals on top of the next frame.
-/

namespace Zinc

namespace Heap

/-- An environment: the empty one, or a live cell of a value and an environment. -/
inductive IsEnv (h : Heap) : Value → Prop where
  | empty : IsEnv h .emptyEnv
  | cell {a : Nat} {v next : Value} : a ∈ h.live → h.tag a = .env →
      h.fields a = #[v, next] → IsEnv h next → IsEnv h (.ref .env a)

/-- A live closure: an environment and a place in the code. -/
def IsClosure (h : Heap) (a : Nat) : Prop :=
  a ∈ h.live ∧ h.tag a = .closure ∧
    ∃ env offset, h.fields a = #[env, .code offset] ∧ h.IsEnv env

/-- A value is found on the way from some roots. -/
def Finds (h : Heap) (roots : List Value) (v : Value) : Prop :=
  v ∈ roots ∨ ∃ a, h.Reach roots a ∧ v ∈ h.fields a

/-- A value that leads to objects of the right layout only. -/
inductive Formed (h : Heap) : Value → Prop where
  | plain {v : Value} : v.address? = none → Formed h v
  | tuple {a : Nat} {c : Cell} : h.cells[a]? = some c → c.tag = .tuple →
      (∀ v ∈ c.fields, Formed h v) → Formed h (.ref .tuple a)
  | closure {a : Nat} {c : Cell} {env : Value} {offset : Int} :
      h.cells[a]? = some c → c.tag = .closure → c.fields = #[env, .code offset] →
      env.kind = .env → Formed h env → Formed h (.ref .closure a)
  | env {a : Nat} {c : Cell} {v next : Value} : h.cells[a]? = some c → c.tag = .env →
      c.fields = #[v, next] → next.kind = .env → Formed h v → Formed h next →
      Formed h (.ref .env a)

namespace Formed

variable {h h' : Heap} {v : Value} {a : Nat} {roots : List Value}

/-- A value stays well formed as long as the objects that it leads to stay. -/
theorem keep (hv : h.Formed v) (hkeeps : Keeps roots h h')
    (hwithin : v.Within (h.Reach roots)) : h'.Formed v := by
  -- a field of an object in use is in use
  have hfield {a : Nat} {c : Cell} {u : Value} (hcell : h.cells[a]? = some c)
      (ha : h.Reach roots a) (hu : u ∈ c.fields) : u.Within (h.Reach roots) := by
    apply closed_reach h roots a ha
    rwa [fields_of_cell hcell]
  induction hv with
  | plain hnone => exact .plain hnone
  | tuple hcell htag _ ih =>
      have ha := Value.within_ref.1 hwithin
      exact .tuple (hkeeps _ _ ha hcell) htag fun u hu => ih u hu (hfield hcell ha hu)
  | closure hcell htag hfields hkind _ ih =>
      have ha := Value.within_ref.1 hwithin
      refine .closure (hkeeps _ _ ha hcell) htag hfields hkind (ih ?_)
      exact hfield hcell ha (by simp [hfields])
  | env hcell htag hfields hkind _ _ ihv ihnext =>
      have ha := Value.within_ref.1 hwithin
      refine .env (hkeeps _ _ ha hcell) htag hfields hkind (ihv ?_) (ihnext ?_)
      · exact hfield hcell ha (by simp [hfields])
      · exact hfield hcell ha (by simp [hfields])

/-- New objects change nothing. -/
theorem grow (hv : h.Formed v) (hgrows : h.Grows h') : h'.Formed v :=
  hv.keep (hgrows.keeps [v]) (within_reach List.mem_cons_self)

/-- What a well-formed value refers to has its kind, and well-formed fields. -/
theorem fields (hv : h.Formed v) (ha : v.address? = some a) :
    ∃ c, h.cells[a]? = some c ∧ c.tag = v.kind ∧ v.kind ≠ .undefined ∧
      ∀ u ∈ c.fields, h.Formed u := by
  cases hv with
  | plain hnone => rw [hnone] at ha; cases ha
  | tuple hcell htag hfields =>
      cases ha
      exact ⟨_, hcell, htag, by simp [Value.kind], hfields⟩
  | closure hcell htag hfields _ henv =>
      cases ha
      refine ⟨_, hcell, htag, by simp [Value.kind], fun u hu => ?_⟩
      simp only [hfields, List.mem_toArray, List.mem_cons, List.not_mem_nil,
        or_false] at hu
      rcases hu with rfl | rfl
      · exact henv
      · exact .plain rfl
  | env hcell htag hfields _ hv hnext =>
      cases ha
      refine ⟨_, hcell, htag, by simp [Value.kind], fun u hu => ?_⟩
      simp only [hfields, List.mem_toArray, List.mem_cons, List.not_mem_nil,
        or_false] at hu
      rcases hu with rfl | rfl
      · exact hv
      · exact hnext

theorem field (hv : h.Formed v) (ha : v.address? = some a) (i : Nat) :
    h.Formed (h.field a i) := by
  obtain ⟨c, hcell, _, _, hfields⟩ := hv.fields ha
  rcases h.field_mem_or_undefined a i with hmem | hnone
  · rw [fields_of_cell hcell] at hmem
    exact hfields _ hmem
  · rw [hnone]
    exact .plain rfl

/-- An object that a well-formed value refers to is live. -/
theorem live (hv : h.Formed v) (htidy : h.Tidy) (ha : v.address? = some a) :
    a ∈ h.live ∧ h.tag a = v.kind := by
  obtain ⟨c, hcell, htag, hkind, _⟩ := hv.fields ha
  refine ⟨(htidy.live_iff a).2 ⟨c, hcell, ?_⟩, by simp [tag, hcell, htag]⟩
  refine Decidable.not_not.1 fun hmark => hkind ?_
  rw [htidy.dead a c hcell hmark] at htag
  exact htag.symm

/-- A well-formed value of the kind of environments is one. -/
theorem isEnv (hv : h.Formed v) (htidy : h.Tidy) (hkind : v.kind = .env) :
    h.IsEnv v := by
  induction hv with
  | @plain v hnone =>
      cases v with
      | emptyEnv => exact .empty
      | ref k a => cases hnone
      | undefined => cases hkind
      | int n => cases hkind
      | code offset => cases hkind
      | mark => cases hkind
  | tuple _ _ _ _ => cases hkind
  | closure _ _ _ _ _ _ => cases hkind
  | env hcell htag hfields hnext hv hrest _ ih =>
      have hlive := (Formed.env hcell htag hfields hnext hv hrest).live htidy rfl
      exact .cell hlive.1 hlive.2 ((fields_of_cell hcell).trans hfields) (ih hnext)

theorem isClosure (hv : h.Formed (.ref .closure a)) (htidy : h.Tidy) :
    h.IsClosure a := by
  obtain ⟨hlive, htag⟩ := hv.live htidy rfl
  refine ⟨hlive, htag, ?_⟩
  cases hv with
  | plain hnone => cases hnone
  | closure hcell _ hfields hkind henv =>
      exact ⟨_, _, (fields_of_cell hcell).trans hfields, henv.isEnv htidy hkind⟩

/-- Whatever can be reached from well-formed values is referred to by one. -/
theorem of_reach (hroots : ∀ u ∈ roots, h.Formed u) (hreach : h.Reach roots a) :
    ∃ u, h.Formed u ∧ u.address? = some a := by
  induction hreach with
  | root hu ha => exact ⟨_, hroots _ hu, ha⟩
  | field _ hu hb ih =>
      obtain ⟨u', hformed, ha⟩ := ih
      obtain ⟨c, hcell, _, _, hfields⟩ := hformed.fields ha
      rw [fields_of_cell hcell] at hu
      exact ⟨_, hfields _ hu, hb⟩

theorem of_finds (hroots : ∀ u ∈ roots, h.Formed u) (hfinds : h.Finds roots v) :
    h.Formed v := by
  rcases hfinds with hv | ⟨a, hreach, hv⟩
  · exact hroots v hv
  · obtain ⟨u, hformed, ha⟩ := of_reach hroots hreach
    obtain ⟨c, hcell, _, _, hfields⟩ := hformed.fields ha
    rw [fields_of_cell hcell] at hv
    exact hfields v hv

/-- What an environment holds is well formed. -/
theorem chainAt (hv : h.Formed v) {k : Nat} {u : Value}
    (hu : Machine.chainAt h v k = some u) : h.Formed u := by
  induction k generalizing v with
  | zero =>
      obtain ⟨a, ha, rfl⟩ := Option.map_eq_some_iff.1 hu
      exact hv.field ha 0
  | succ k ih =>
      obtain ⟨a, ha, hrest⟩ := Option.bind_eq_some_iff.1 hu
      exact ih (hv.field ha 1) hrest

/-- The environment that a closure captures is well formed. -/
theorem captureEnv {env : Value} (henv : h.Formed env) (hkind : env.kind = .env)
    (entries : List ReturnEntry) (hentries : ∀ e ∈ entries, h.Formed e.localValue) :
    let result := entries.foldr Machine.consEnv (env, h)
    h.Grows result.2 ∧ result.1.kind = .env ∧ result.2.Formed result.1 := by
  induction entries with
  | nil => exact ⟨.refl _, hkind, henv⟩
  | cons e rest ih =>
      obtain ⟨he, hrest⟩ := List.forall_mem_cons.1 hentries
      obtain ⟨hgrows, hkind', hformed⟩ := ih hrest
      have hnew := Grows.alloc .env
        #[e.localValue, (rest.foldr Machine.consEnv (env, h)).1]
        (Grows.refl (rest.foldr Machine.consEnv (env, h)).2)
      refine ⟨.alloc _ _ hgrows, rfl, ?_⟩
      exact .env (cells_alloc_self _ _ _) rfl rfl hkind' ((he.grow hgrows).grow hnew)
        (hformed.grow hnew)

end Formed

end Heap

/-- The first number counts the locals on top of a return stack: all entries above the
topmost frame, and below every frame as many as it says. -/
inductive Segmented : Nat → List ReturnEntry → Prop where
  | bottom (locals : List Value) : Segmented locals.length (locals.map .value)
  | frame {extra : Nat} {rest : List ReturnEntry} (locals : List Value) (pc : Int)
      (env : Value) : Segmented extra rest →
      Segmented locals.length (locals.map .value ++ .frame pc env extra :: rest)

namespace Segmented

variable {n : Nat} {items : List ReturnEntry}

theorem push (h : Segmented n items) (v : Value) :
    Segmented (n + 1) (.value v :: items) := by
  cases h with
  | bottom locals => exact .bottom (v :: locals)
  | frame locals pc env hrest => exact .frame (v :: locals) pc env hrest

theorem pushFrame (h : Segmented n items) (pc : Int) (env : Value) :
    Segmented 0 (.frame pc env n :: items) :=
  .frame [] pc env h

theorem pop (h : Segmented (n + 1) items) : Segmented n (items.drop 1) := by
  generalize hm : n + 1 = m at h
  cases h with
  | bottom locals =>
      cases locals with
      | nil => cases hm
      | cons v rest =>
          obtain rfl : n = rest.length := Nat.succ.inj hm
          exact .bottom rest
  | frame locals pc env hrest =>
      cases locals with
      | nil => cases hm
      | cons v rest =>
          obtain rfl : n = rest.length := Nat.succ.inj hm
          exact .frame rest pc env hrest

/-- The locals on top, and what is below them. -/
theorem split (h : Segmented n items) :
    ∃ (locals : List Value) (rest : List ReturnEntry),
      locals.length = n ∧ items = locals.map .value ++ rest ∧
      (rest = [] ∨ ∃ pc env extra below,
        rest = .frame pc env extra :: below ∧ Segmented extra below) := by
  cases h with
  | bottom locals => exact ⟨locals, [], rfl, by simp, Or.inl rfl⟩
  | frame locals pc env hrest =>
      exact ⟨locals, _, rfl, rfl, Or.inr ⟨pc, env, _, _, rfl, hrest⟩⟩

/-- The count in a frame is about what is below it. -/
theorem underFrame {pc : Int} {env : Value} {extra : Nat}
    (h : Segmented n (.frame pc env extra :: items)) : Segmented extra items := by
  obtain ⟨locals, rest, _, heq, hrest⟩ := h.split
  cases locals with
  | nil =>
      rcases hrest with rfl | ⟨_, _, _, _, rfl, hbelow⟩
      · cases heq
      · cases heq
        exact hbelow
  | cons v more => cases heq

theorem le_length (h : Segmented n items) : n ≤ items.length := by
  obtain ⟨locals, rest, rfl, rfl, _⟩ := h.split
  simp

/-- Without the locals there is nothing left, or a frame is on top. -/
theorem drop (h : Segmented n items) :
    items.drop n = [] ∨ ∃ pc env extra below,
      items.drop n = .frame pc env extra :: below ∧ Segmented extra below := by
  obtain ⟨locals, rest, rfl, rfl, hrest⟩ := h.split
  rwa [List.drop_left' (by simp)]

theorem dropAll (h : Segmented n items) : Segmented 0 (items.drop n) := by
  rcases h.drop with heq | ⟨pc, env, extra, below, heq, hbelow⟩
  · rw [heq]
    exact .bottom []
  · rw [heq]
    exact .frame [] pc env hbelow

/-- The locals on top are values. -/
theorem local_eq (h : Segmented n items) {i : Nat} (hi : i < n) :
    ∃ v, items[i]? = some (.value v) := by
  obtain ⟨locals, rest, rfl, rfl, _⟩ := h.split
  exact ⟨locals[i], by simp [List.getElem?_append_left, hi]⟩

theorem take (h : Segmented n items) :
    ∃ locals : List Value, items.take n = locals.map .value := by
  obtain ⟨locals, rest, rfl, rfl, _⟩ := h.split
  exact ⟨locals, List.take_left' (by simp)⟩

end Segmented

end Zinc
