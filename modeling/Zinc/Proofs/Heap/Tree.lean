import Zinc.Proofs.Heap.Ordered

/-!
What a value is once addresses are forgotten: a tree of integers and tuples, with closures
as leaves.  The tree fixes the text of the value, and where there are no closures the text
fixes the tree: a numeral ends before anything that can follow it, and a tuple is as long
as its brackets say.
-/

namespace Zinc

/-- A tree of integers and tuples.  Of a closure there is the text that it is shown as. -/
inductive ValueTree where
  | int (n : Int64)
  | closure (shown : String)
  | tuple (items : List ValueTree)
deriving Inhabited

namespace ValueTree

/-- Trees without closures. -/
inductive IsData : ValueTree → Prop where
  | int (n : Int64) : IsData (.int n)
  | tuple {items : List ValueTree} : (∀ d ∈ items, IsData d) → IsData (.tuple items)

mutual

/-- Looks for closures in a tree. -/
def decideIsData : (d : ValueTree) → Decidable d.IsData
  | int n => .isTrue (.int n)
  | closure _ => .isFalse nofun
  | tuple items =>
    match decideAllData items with
    | .isTrue hitems => .isTrue (.tuple hitems)
    | .isFalse hitems => .isFalse fun hdata => by
      cases hdata
      exact hitems ‹_›

/-- Looks for closures in several trees. -/
def decideAllData : (items : List ValueTree) → Decidable (∀ d ∈ items, d.IsData)
  | [] => .isTrue nofun
  | d :: rest =>
    match decideIsData d, decideAllData rest with
    | .isTrue hd, .isTrue hrest => .isTrue (List.forall_mem_cons.2 ⟨hd, hrest⟩)
    | .isFalse hd, _ => .isFalse fun hall => hd (List.forall_mem_cons.1 hall).1
    | _, .isFalse hrest => .isFalse fun hall => hrest (List.forall_mem_cons.1 hall).2

end

instance : DecidablePred IsData := decideIsData

mutual

/-- The text of a tree. -/
def text : ValueTree → String
  | int n => toString n.toInt
  | closure shown => shown
  | tuple items => "(" ++ ", ".intercalate (texts items) ++ ")"

/-- The texts of several trees. -/
def texts : List ValueTree → List String
  | [] => []
  | d :: rest => d.text :: texts rest

end

theorem texts_eq_map (items : List ValueTree) : texts items = items.map text := by
  induction items with
  | nil => rw [texts, List.map_nil]
  | cons d rest ih => rw [texts, ih, List.map_cons]

/-- The characters of numerals. -/
def isNumeral (c : Char) : Bool :=
  c.isDigit || c == '-'

theorem isNumeral_of_mem {n : Int} {c : Char} (hc : c ∈ (toString n).toList) :
    isNumeral c = true := by
  have hdigits {k : Nat} (hk : c ∈ k.repr.toList) : c.isDigit = true := by
    rw [Nat.toList_repr] at hk
    exact Nat.isDigit_of_mem_toDigits (by decide) (by decide) hk
  rw [Int.toString_eq_repr, Int.repr_eq_if] at hc
  split at hc
  · simp [isNumeral, hdigits hc]
  · rw [String.toList_append, List.mem_append] at hc
    rcases hc with hc | hc
    · have : c = '-' := by simpa using hc
      simp [isNumeral, this]
    · simp [isNumeral, hdigits hc]

/-- What can follow a tree inside of a text: nothing, or a character that no numeral has. -/
def Stops (rest : List Char) : Prop :=
  ∀ c ∈ rest.head?, isNumeral c = false

/-- Characters of one kind end where the first one of another kind is. -/
theorem takeWhile_append {p : Char → Bool} {cs rest : List Char} (hcs : ∀ c ∈ cs, p c = true)
    (hrest : ∀ c ∈ rest.head?, p c = false) : (cs ++ rest).takeWhile p = cs := by
  rw [List.takeWhile_append_of_pos hcs]
  cases rest with
  | nil => simp
  | cons c rest =>
      have hstop := hrest c rfl
      simp [hstop]

/-- A numeral can be told from what follows it. -/
theorem numeral_append_inj {n n' : Int} {rest rest' : List Char} (hrest : Stops rest)
    (hrest' : Stops rest')
    (heq : (toString n).toList ++ rest = (toString n').toList ++ rest') :
    n = n' ∧ rest = rest' := by
  have hnumeral : (toString n).toList = (toString n').toList := by
    rw [← takeWhile_append (fun _ => isNumeral_of_mem) hrest, heq,
      takeWhile_append (fun _ => isNumeral_of_mem) hrest']
  refine ⟨Int.repr_injective (String.toList_injective hnumeral), ?_⟩
  rw [hnumeral] at heq
  exact List.append_cancel_left heq

/-- The text of the items of a tuple after the first, with the bracket that ends it. -/
def moreText : List ValueTree → List Char
  | [] => [')']
  | d :: rest => ',' :: ' ' :: (d.text.toList ++ moreText rest)

/-- The text of a tuple after the bracket that starts it. -/
def innerText : List ValueTree → List Char
  | [] => [')']
  | d :: rest => d.text.toList ++ moreText rest

theorem text_tuple (items : List ValueTree) :
    (tuple items).text.toList = '(' :: innerText items := by
  have hmore (d : ValueTree) (rest : List ValueTree) :
      (", ".intercalate (texts (d :: rest))).toList ++ [')'] = d.text.toList ++ moreText rest := by
    induction rest generalizing d with
    | nil => simp [texts, moreText]
    | cons e rest ih =>
        rw [texts, texts, String.intercalate_cons_cons, ← texts, moreText]
        simp [← ih e]
  rw [text]
  cases items with
  | nil => simp [texts, innerText]
  | cons d rest =>
      rw [innerText, ← hmore]
      simp

theorem stops_moreText (items : List ValueTree) (rest : List Char) :
    Stops (moreText items ++ rest) := by
  intro c hc
  cases items with
  | nil =>
      obtain rfl : ')' = c := by simpa [moreText] using hc
      decide
  | cons d items =>
      obtain rfl : ',' = c := by simpa [moreText] using hc
      decide

/-- The text of an integer starts as a numeral does. -/
theorem int_append_ne {n : Int64} {c : Char} (hc : isNumeral c = false)
    {rest rest' : List Char} : (int n).text.toList ++ rest ≠ c :: rest' := by
  rw [text]
  intro heq
  cases hcs : (toString n.toInt).toList with
  | nil =>
      have hsome : (toString n.toInt).toList ≠ [] := by
        rw [Int.toString_eq_repr, Int.repr_eq_if]
        split <;> simp
      exact hsome hcs
  | cons c' cs =>
      have hc' : c' ∈ (toString n.toInt).toList := hcs ▸ List.mem_cons_self
      rw [hcs] at heq
      obtain rfl : c' = c := (List.cons.inj heq).1
      rw [isNumeral_of_mem hc'] at hc
      cases hc

theorem IsData.append_ne_closing {d : ValueTree} (hd : d.IsData) {rest rest' : List Char} :
    d.text.toList ++ rest ≠ ')' :: rest' := by
  cases hd with
  | int n => exact int_append_ne (by decide)
  | tuple hitems =>
      rw [text_tuple]
      intro heq
      cases heq

/-- The text of a tree can be told from what follows it. -/
def Splits (d : ValueTree) : Prop :=
  ∀ (d' : ValueTree) (rest rest' : List Char), d'.IsData → Stops rest → Stops rest' →
    d.text.toList ++ rest = d'.text.toList ++ rest' → d = d' ∧ rest = rest'

theorem moreText_append_inj {items items' : List ValueTree} {rest rest' : List Char}
    (hsplits : ∀ d ∈ items, d.Splits) (hdata : ∀ d ∈ items', d.IsData)
    (heq : moreText items ++ rest = moreText items' ++ rest') :
    items = items' ∧ rest = rest' := by
  induction items generalizing items' with
  | nil =>
      cases items' with
      | nil => exact ⟨rfl, (List.cons.inj heq).2⟩
      | cons d' items' => cases heq
  | cons d items ih =>
      cases items' with
      | nil => cases heq
      | cons d' items' =>
          obtain ⟨hd, hitems⟩ := List.forall_mem_cons.1 hsplits
          obtain ⟨hd', hitems'⟩ := List.forall_mem_cons.1 hdata
          simp only [moreText, List.cons_append, List.append_assoc, List.cons.injEq,
            true_and] at heq
          obtain ⟨rfl, hmore⟩ := hd d' _ _ hd' (stops_moreText _ _) (stops_moreText _ _) heq
          obtain ⟨rfl, hrest⟩ := ih hitems hitems' hmore
          exact ⟨rfl, hrest⟩

theorem innerText_append_inj {items items' : List ValueTree} {rest rest' : List Char}
    (hsplits : ∀ d ∈ items, d.Splits) (hitems : ∀ d ∈ items, d.IsData)
    (hitems' : ∀ d ∈ items', d.IsData)
    (heq : innerText items ++ rest = innerText items' ++ rest') :
    items = items' ∧ rest = rest' := by
  cases items with
  | nil =>
      cases items' with
      | nil => exact ⟨rfl, (List.cons.inj heq).2⟩
      | cons d' items' =>
          rw [innerText, innerText, List.append_assoc] at heq
          exact absurd heq.symm (hitems' d' List.mem_cons_self).append_ne_closing
  | cons d items =>
      cases items' with
      | nil =>
          rw [innerText, innerText, List.append_assoc] at heq
          exact absurd heq (hitems d List.mem_cons_self).append_ne_closing
      | cons d' items' =>
          obtain ⟨hd, hmore⟩ := List.forall_mem_cons.1 hsplits
          obtain ⟨hd', hmore'⟩ := List.forall_mem_cons.1 hitems'
          rw [innerText, innerText, List.append_assoc, List.append_assoc] at heq
          obtain ⟨rfl, htail⟩ := hd d' _ _ hd' (stops_moreText _ _) (stops_moreText _ _) heq
          obtain ⟨rfl, hrest⟩ := moreText_append_inj hmore hmore' htail
          exact ⟨rfl, hrest⟩

theorem IsData.splits {d : ValueTree} (hd : d.IsData) : d.Splits := by
  induction hd with
  | int n =>
      intro d' rest rest' hd' hrest hrest' heq
      cases hd' with
      | int n' =>
          rw [text, text] at heq
          obtain ⟨hn, htail⟩ := numeral_append_inj hrest hrest' heq
          exact ⟨congrArg ValueTree.int (Int64.toInt_inj.1 hn), htail⟩
      | @tuple items' hitems' =>
          rw [text_tuple] at heq
          exact absurd heq (int_append_ne (by decide))
  | @tuple items hitems ih =>
      intro d' rest rest' hd' hrest hrest' heq
      cases hd' with
      | int n' =>
          rw [text_tuple] at heq
          exact absurd heq.symm (int_append_ne (by decide))
      | tuple hitems' =>
          rw [text_tuple, text_tuple] at heq
          obtain ⟨rfl, htail⟩ :=
            innerText_append_inj ih hitems hitems' (List.cons.inj heq).2
          exact ⟨rfl, htail⟩

/-- Trees without closures are equal when their texts are. -/
theorem IsData.text_inj {d d' : ValueTree} (hd : d.IsData) (hd' : d'.IsData) :
    d.text = d'.text ↔ d = d' := by
  constructor
  · intro htext
    have heq : d.text.toList ++ [] = d'.text.toList ++ [] := by rw [htext]
    exact (hd.splits d' [] [] hd' nofun nofun heq).1
  · intro heq
    rw [heq]

end ValueTree

end Zinc
