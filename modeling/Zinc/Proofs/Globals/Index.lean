import Mathlib.Data.List.Chain
import Zinc.Proofs.Globals

/-!
The index of a table of globals.  Slots are declared, assigned and given up, and a host goes
back to slots that it has recorded.  As long as it goes back to the record that it made last,
and a slot is given up only by the definition that declared it, the index names exactly the
slots and their symbols, in every table on the way; and a symbol stays in its slot until it
is no longer declared.
-/

namespace Zinc.Globals

/-- What is done to a table of globals. -/
inductive Change where
  | declare (s : Symbol)
  | assign (i : Nat) (v : Value)
  /-- Declares a symbol and makes some changes; if the definition fails, a slot that was new
  is given up. -/
  | define (s : Symbol) (body : List Change) (fails : Bool)
  /-- Records the slots and makes some changes, then goes back to the record or keeps them. -/
  | attempt (body : List Change) (keep : Bool)

/-- A table and those that it was before, the latest first. -/
structure Course where
  now : Globals
  past : List Globals := []

/-- The tables of a course, the latest first. -/
def Course.tables (c : Course) : List Globals :=
  c.now :: c.past

/-- The course after one more step. -/
def Course.next (c : Course) (g : Globals) : Course where
  now := g
  past := c.tables

mutual

/-- The course after a change. -/
def Change.perform : Change → Course → Course
  | .declare s, c => c.next (c.now.declare s).2
  | .assign i v, c => c.next ((c.now.set? i v).getD c.now)
  | .define s body fails, c =>
    match c.now.declare s with
    | (.error _, g) => c.next g
    | (.ok declared, g) =>
      let c := performAll body (c.next g)
      if fails && declared.fresh then c.next (c.now.undeclare s) else c
  | .attempt body keep, c =>
    let recorded := c.now.entries
    let c := performAll body c
    if keep then c else c.next (c.now.restore recorded)

/-- The course after some changes. -/
def Change.performAll : List Change → Course → Course
  | [], c => c
  | change :: rest, c => performAll rest (change.perform c)

end

/-- The index names every slot and its symbol, and nothing else, and there are no more slots
than an operand can tell apart. -/
structure Indexed (g : Globals) : Prop where
  slot_iff : ∀ s i, g.slot? s = some i ↔ ∃ e, g.entries[i]? = some e ∧ e.symbol = s
  size_le : g.size ≤ maxGlobalSlot + 1

/-- A symbol that is declared in both tables is in the same slot of both. -/
def Keeps (g g' : Globals) : Prop :=
  ∀ s i, g.slot? s = some i → g'.isDeclared s = true → g'.slot? s = some i

variable {g g' : Globals} {s : Symbol} {i : Nat} {v : Value}

theorem indexed_empty : Indexed {} where
  slot_iff := by simp [slot?]
  size_le := Nat.zero_le _

/-- No symbol has two slots. -/
theorem Indexed.unique (hindexed : g.Indexed) {j : Nat} {e e' : Global}
    (hi : g.entries[i]? = some e) (hj : g.entries[j]? = some e')
    (hsame : e.symbol = e'.symbol) : i = j := by
  have hslot := (hindexed.slot_iff e.symbol i).2 ⟨e, hi, rfl⟩
  rw [hsame, (hindexed.slot_iff e'.symbol j).2 ⟨e', hj, rfl⟩] at hslot
  exact (Option.some.inj hslot).symm

theorem Indexed.declare (hindexed : g.Indexed) (s : Symbol) : (g.declare s).2.Indexed := by
  rw [Globals.declare]
  cases hslot : g.slot? s with
  | some i => exact hindexed
  | none =>
      dsimp only
      split
      · exact hindexed
      · rename_i hroom
        constructor
        · intro t i
          have hold := hindexed.slot_iff t i
          simp only [slot?] at hold ⊢
          rw [Std.ExtHashMap.getElem?_insert, Array.getElem?_push]
          by_cases hlast : i = g.entries.size
          · -- the new slot belongs to the new symbol alone
            subst hlast
            have hbeyond : g.entries[g.entries.size]? = none := by simp
            by_cases hst : s = t
            · simp [hst, size]
            · rw [if_neg (by simpa using hst), hold, hbeyond]
              simp [hst]
          · rw [if_neg hlast]
            by_cases hst : s = t
            · subst hst
              have hnone : ¬ ∃ e, g.entries[i]? = some e ∧ e.symbol = s := by
                rw [← hindexed.slot_iff s i, hslot]
                exact (Option.some_ne_none i).symm
              simp only [beq_self_eq_true, if_true, hnone, iff_false]
              intro hnew
              exact hlast (Option.some.inj hnew).symm
            · rw [if_neg (by simpa using hst)]
              exact hold
        · simpa [size] using Nat.le_of_not_lt hroom

theorem Indexed.assign (hindexed : g.Indexed) (hset : g.set? i v = some g') :
    g'.Indexed := by
  obtain ⟨_, rfl⟩ := set?_eq_some hset
  constructor
  · intro s j
    refine (hindexed.slot_iff s j).trans ?_
    simp only [Array.getElem?_modify]
    split
    · cases g.entries[j]? <;> simp
    · rfl
  · simpa [size] using hindexed.size_le

theorem Indexed.undeclare (hindexed : g.Indexed) (s : Symbol) : (g.undeclare s).Indexed := by
  rw [Globals.undeclare]
  split
  · rename_i last hlast
    split
    · rename_i hgone
      rw [Array.back?_eq_getElem?] at hlast
      constructor
      · intro t i
        have hold := hindexed.slot_iff t i
        simp only [slot?] at hold ⊢
        rw [Std.ExtHashMap.getElem?_erase, Array.getElem?_pop]
        by_cases hkept : i < g.entries.size - 1
        · rw [if_pos hkept]
          by_cases hst : s = t
          · -- the symbol given up had no slot but the last
            subst hst
            simp only [beq_self_eq_true, if_true, reduceCtorEq, false_iff]
            rintro ⟨e, he, hsymbol⟩
            have := hindexed.unique he hlast (hsymbol.trans hgone.1.symm)
            omega
          · rw [if_neg (by simpa using hst)]
            exact hold
        · rw [if_neg hkept]
          simp only [reduceCtorEq, false_and, exists_false, iff_false]
          intro hslot
          split at hslot
          · cases hslot
          · rename_i hst
            obtain ⟨e, he, hsymbol⟩ := hold.1 hslot
            obtain ⟨hinside, _⟩ := Array.getElem?_eq_some_iff.1 he
            have hi : i = g.entries.size - 1 := by omega
            rw [hi, hlast] at he
            cases he
            exact hst (by simp [← hgone.1, hsymbol])
      · have hsize := hindexed.size_le
        simp only [size, Array.size_pop] at hsize ⊢
        omega
    · exact hindexed
  · exact hindexed

theorem Keeps.refl (g : Globals) : g.Keeps g :=
  fun _ _ hslot _ => hslot

/-- Symbols stay in their slots when slots are added. -/
theorem Extends.keeps (hext : Extends g g') : g.Keeps g' :=
  fun _ _ hslot _ => hext.slot? hslot

/-- Symbols stay in their slots when the slots added since are dropped. -/
theorem Extends.keeps_back (hext : Extends g g') : g'.Keeps g := by
  intro s i hslot hdeclared
  obtain ⟨j, hj⟩ := isDeclared_iff.1 hdeclared
  rw [← hslot, hext.slot? hj, hj]

theorem keeps_undeclare (g : Globals) (s : Symbol) : g.Keeps (g.undeclare s) := by
  intro t i hslot hdeclared
  rw [isDeclared_iff] at hdeclared
  obtain ⟨j, hj⟩ := hdeclared
  rw [Globals.undeclare] at hj ⊢
  split at hj
  · split at hj
    · rename_i hlast _ hgone
      rw [if_pos hgone]
      rw [slot?, Std.ExtHashMap.getElem?_erase] at hj ⊢
      split at hj
      · cases hj
      · rename_i hst
        rw [if_neg hst]
        exact hslot
    · rename_i hgone
      rw [if_neg hgone]
      exact hslot
  · exact hslot

/-- What holds all along a course: the index is right in every table, and every table keeps
the slots of the one before. -/
structure Course.Sound (c : Course) : Prop where
  indexed : ∀ g ∈ c.tables, g.Indexed
  keeps : List.IsChain (fun later earlier => Keeps earlier later) c.tables

/-- The course goes on soundly, and its table still extends what it extended. -/
def Course.Goes (c c' : Course) : Prop :=
  c'.Sound ∧ ∀ g, Extends g c.now → Extends g c'.now

variable {c c' c'' : Course}

theorem Course.Goes.refl (hsound : c.Sound) : c.Goes c :=
  ⟨hsound, fun _ hext => hext⟩

theorem Course.Goes.trans (h : c.Goes c') (h' : c'.Goes c'') : c.Goes c'' :=
  ⟨h'.1, fun g hext => h'.2 g (h.2 g hext)⟩

theorem Course.Sound.now (hsound : c.Sound) : c.now.Indexed :=
  hsound.indexed _ List.mem_cons_self

theorem Course.Sound.next (hsound : c.Sound) (hindexed : g.Indexed) (hkeeps : c.now.Keeps g) :
    (c.next g).Sound where
  indexed := by
    intro t ht
    rcases List.mem_cons.1 ht with rfl | hold
    · exact hindexed
    · exact hsound.indexed t hold
  keeps := List.isChain_cons_cons.2 ⟨hkeeps, hsound.keeps⟩

theorem Course.Sound.declare (hsound : c.Sound) (s : Symbol) :
    c.Goes (c.next (c.now.declare s).2) :=
  ⟨hsound.next (hsound.now.declare s) ((Extends.refl _).declare s).keeps,
    fun _ hext => hext.declare s⟩

theorem Course.Sound.assign (hsound : c.Sound) (i : Nat) (v : Value) :
    c.Goes (c.next ((c.now.set? i v).getD c.now)) := by
  cases hset : c.now.set? i v with
  | none => exact ⟨hsound.next hsound.now (.refl _), fun _ hext => hext⟩
  | some g =>
      exact ⟨hsound.next (hsound.now.assign hset) ((Extends.refl _).set hset).keeps,
        fun _ hext => hext.set hset⟩

mutual

/-- A change keeps the course sound.  Its table extends what it extended before: this is what
lets a change around it go back. -/
theorem Change.goes : (change : Change) → (c : Course) → c.Sound → c.Goes (change.perform c)
  | .declare s, c, hsound => hsound.declare s
  | .assign i v, c, hsound => hsound.assign i v
  | .define s body fails, c, hsound => by
    have hdeclare := hsound.declare s
    rw [Change.perform]
    split
    · rename_i f g hfail
      rw [hfail] at hdeclare
      exact hdeclare
    · rename_i declared g hdone
      rw [hdone] at hdeclare
      have hbody := Change.goes_all body _ hdeclare.1
      dsimp only
      split
      · rename_i hgiven
        obtain ⟨_, hfresh⟩ := Bool.and_eq_true_iff.1 hgiven
        refine ⟨hbody.1.next (hbody.1.now.undeclare s) (keeps_undeclare _ s), ?_⟩
        intro older hext
        -- the slot that is given up was not in the older table
        have hsize : older.size < (performAll body (c.next g)).now.size :=
          calc older.size
            _ ≤ c.now.size := hext.size_le
            _ < g.size := by rw [size_declare hdone hfresh]; exact Nat.lt_succ_self _
            _ ≤ _ := (hbody.2 g (.refl g)).size_le
        exact (hbody.2 older (hdeclare.2 older hext)).undeclare hsize s
      · exact hdeclare.trans hbody
  | .attempt body keep, c, hsound => by
    have hbody := Change.goes_all body c hsound
    rw [Change.perform]
    split
    · exact hbody
    · -- going back to the record gives the table it was made of
      have hsince := hbody.2 c.now (.refl _)
      rw [hsince.restore]
      exact ⟨hbody.1.next hsound.now hsince.keeps_back, fun _ hext => hext⟩

theorem Change.goes_all : (changes : List Change) → (c : Course) → c.Sound →
    c.Goes (performAll changes c)
  | [], _, hsound => .refl hsound
  | change :: rest, c, hsound => by
    have hfirst := change.goes c hsound
    exact hfirst.trans (Change.goes_all rest _ hfirst.1)

end

/-- A symbol stays in its slot along tables that all declare it. -/
theorem slot?_of_isChain {during : List Globals}
    (hchain : List.IsChain (fun later earlier => Keeps earlier later) (during ++ [g]))
    (hslot : g.slot? s = some i) (hdeclared : ∀ t ∈ during, t.isDeclared s = true) :
    ∀ t ∈ during, t.slot? s = some i := by
  induction during using List.reverseRecOn generalizing g with
  | nil => exact fun t ht => absurd ht List.not_mem_nil
  | append_singleton later t ih =>
      rw [List.append_assoc] at hchain
      obtain ⟨hlater, htail⟩ := List.isChain_split.1 hchain
      have hstep : Keeps g t := (List.isChain_cons_cons.1 htail).1
      have hnow := hstep s i hslot (hdeclared t (by simp))
      intro u hu
      rcases List.mem_append.1 hu with hold | hnew
      · exact ih hlater hnow (fun w hw => hdeclared w (by simp [hw])) u hold
      · rw [List.mem_singleton.1 hnew]
        exact hnow

/-- The tables from the empty one on, after some changes, the latest first. -/
def tablesOf (changes : List Change) : List Globals :=
  (Change.performAll changes ⟨{}, []⟩).tables

theorem sound_performAll (changes : List Change) :
    (Change.performAll changes ⟨{}, []⟩).Sound := by
  have hempty : Course.Sound ⟨{}, []⟩ := by
    constructor
    · intro g hg
      obtain rfl := List.mem_singleton.1 hg
      exact indexed_empty
    · exact .singleton _
  exact (Change.goes_all changes _ hempty).1

/-- In every table on the way of any changes the index names exactly the slots and their
symbols; no symbol has two slots, and an operand can hold the number of every slot.  Declaring
a declared symbol changes nothing, and giving up a slot that has just been declared gives the
table back.  As long as a symbol stays declared it stays in its slot. -/
theorem index_bijective (changes : List Change) :
    (∀ g ∈ tablesOf changes,
      (∀ s i, g.slot? s = some i ↔ ∃ e, g.entries[i]? = some e ∧ e.symbol = s) ∧
      (∀ (i j : Nat) (e e' : Global), g.entries[i]? = some e → g.entries[j]? = some e' →
        e.symbol = e'.symbol → i = j) ∧
      g.size ≤ 65536 ∧ (∀ i < g.size, (UInt16.ofNat i).toNat = i) ∧
      (∀ s i, g.slot? s = some i → g.declare s = (.ok ⟨i, false⟩, g)) ∧
      ∀ s i g', g.declare s = (.ok ⟨i, true⟩, g') → g'.undeclare s = g) ∧
    ∀ later during g earlier s i,
      tablesOf changes = later ++ during ++ g :: earlier → g.slot? s = some i →
      (∀ t ∈ during, t.isDeclared s = true) → ∀ t ∈ during, t.slot? s = some i := by
  have hsound := sound_performAll changes
  constructor
  · intro g hg
    have hindexed := hsound.indexed g hg
    have hsize : g.size ≤ 65536 := hindexed.size_le
    refine ⟨hindexed.slot_iff, fun i j e e' => hindexed.unique, hsize, ?_, ?_, ?_⟩
    · intro i hi
      exact UInt16.toNat_ofNat_of_lt (Nat.lt_of_lt_of_le hi hsize)
    · intro s i hslot
      rw [declare, hslot]
    · intro s i g' hdeclare
      exact undeclare_declare hdeclare
  · intro later during g earlier s i hsplit hslot hdeclared
    have hchain := hsound.keeps
    change List.IsChain _ (tablesOf changes) at hchain
    rw [hsplit, List.append_assoc] at hchain
    have hpart : during ++ g :: earlier = (during ++ [g]) ++ earlier := by simp
    rw [hpart] at hchain
    exact slot?_of_isChain hchain.right_of_append.left_of_append hslot hdeclared

/-- In an attempt that is given up the definition of `g` fails and `h` gets its slot.  The
symbol of the second slot is `g` again later on, and that of the third is `h`. -/
theorem index_bijective_attempt :
    let f : Symbol := ⟨0, "f"⟩
    let g : Symbol := ⟨0, "g"⟩
    let h : Symbol := ⟨0, "h"⟩
    let changes : List Change :=
      [.declare f, .attempt [.define g [.assign 0 (.int 3)] true, .declare h] false,
        .declare g, .declare h]
    (tablesOf changes).map (fun t => (t.entries.toList.map (·.symbol), t.slot? h)) =
        [([f, g, h], some 2), ([f, g], none), ([f], none), ([f, h], some 1), ([f], none),
          ([f, g], none), ([f, g], none), ([f], none), ([], none)] ∧
      ∀ t ∈ tablesOf changes, ∀ s i,
        t.slot? s = some i ↔ ∃ e, t.entries[i]? = some e ∧ e.symbol = s := by
  intro f g h changes
  constructor
  · simp [changes, f, g, h, tablesOf, Change.performAll, Change.perform, Course.tables,
      Course.next, declare, slot?, undeclare, restore, set?, size, maxGlobalSlot]
  · intro t ht
    exact ((index_bijective changes).1 t ht).1

end Zinc.Globals
