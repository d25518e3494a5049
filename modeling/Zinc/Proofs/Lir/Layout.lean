import Zinc.Lir.Dump
import Zinc.Proofs.Heap.Tree

/-!
The text of a tree.  A tree is laid out as one line for each node, followed by the lines of
its children one step further in.  The line says how many children there are, so the text
of a tree can be told from what follows it: no two trees have the same text, as long as a
line can be told from the next and the name of a global says which one it is.
-/

namespace Zinc.Lir

/-- A node without its children, as one line shows it. -/
inductive Line where
  | lam (id : Nat)
  | letIn (id : Nat)
  | app
  | var (origin depth : Nat)
  | global (symbol : Symbol)
  | int (value : Int64)
  | block (kind : UInt8) (count : Nat)
  | missing

namespace Line

/-- The text of a line, without what it is indented by. -/
def text : Line → String
  | lam id => "Lambda #" ++ toString id
  | letIn id => "Let #" ++ toString id
  | app => "Application"
  | var origin depth => "Variable #" ++ toString origin ++ " depth " ++ toString depth
  | global symbol => "Global " ++ symbol.name
  | int value => "Integer " ++ toString value.toInt
  | block kind count => "Make Block " ++ blockName kind ++ "/" ++ toString count
  | missing => "?<nil>"

/-- The number of children of a node. -/
def arity : Line → Nat
  | lam _ => 1
  | letIn _ | app => 2
  | block _ count => count
  | var _ _ | global _ | int _ | missing => 0

/-- Lines whose text says what they are: the symbol is one of a given table and its name is
on one line, and the kind of a block has a name of its own. -/
def Legible (table : Nat) : Line → Prop
  | global symbol => symbol.table = table ∧ '\n' ∉ symbol.name.toList
  | block kind _ => kind = tupleKind
  | _ => True

/-- The first two letters of a line, which are different for every kind of node. -/
def initials : Line → List Char
  | lam _ => ['L', 'a']
  | letIn _ => ['L', 'e']
  | app => ['A', 'p']
  | var _ _ => ['V', 'a']
  | global _ => ['G', 'l']
  | int _ => ['I', 'n']
  | block _ _ => ['M', 'a']
  | missing => ['?', '<']

theorem take_text (l : Line) : l.text.toList.take 2 = l.initials := by
  cases l <;> simp [text, initials]

end Line

/-- A text is cut at the first occurrence of a character in one way only. -/
theorem append_cons_inj {c : Char} {s s' rest rest' : List Char} (hs : c ∉ s) (hs' : c ∉ s')
    (heq : s ++ c :: rest = s' ++ c :: rest') : s = s' ∧ rest = rest' := by
  rcases List.append_eq_append_iff.1 heq with ⟨more, rfl, hmore⟩ | ⟨more, rfl, hmore⟩
  · cases more with
    | nil => simpa using hmore
    | cons d more =>
        obtain rfl : c = d := (List.cons.inj hmore).1
        simp at hs'
  · cases more with
    | nil => simpa using hmore.symm
    | cons d more =>
        obtain rfl : c = d := (List.cons.inj hmore).1
        simp at hs

theorem not_mem_numeral {c : Char} (hc : ValueTree.isNumeral c = false) (n : Int) :
    c ∉ (toString n).toList := by
  intro hmem
  rw [ValueTree.isNumeral_of_mem hmem] at hc
  cases hc

namespace Line

variable {table : Nat} {l l' : Line}

theorem newline_not_mem_text (hl : l.Legible table) : '\n' ∉ l.text.toList := by
  have hnumeral (n : Nat) : '\n' ∉ (toString n).toList := not_mem_numeral (by decide) n
  cases l with
  | lam id => simpa [text] using hnumeral id
  | letIn id => simpa [text] using hnumeral id
  | app => simp [text]
  | var origin depth => simpa [text] using And.intro (hnumeral origin) (hnumeral depth)
  | global symbol => simpa [text] using hl.2
  | int value => simpa [text] using not_mem_numeral (by decide) value.toInt
  | block kind count =>
      obtain rfl : kind = tupleKind := hl
      simpa [text, blockName] using hnumeral count
  | missing => simp [text]

theorem var_text_inj {origin origin' depth depth' : Nat}
    (heq : (var origin depth).text = (var origin' depth').text) :
    origin = origin' ∧ depth = depth' := by
  have hspace (n : Nat) : ' ' ∉ (toString n).toList := not_mem_numeral (by decide) n
  have heq : (toString origin).toList ++ ' ' :: ("depth ".toList ++ (toString depth).toList) =
      (toString origin').toList ++ ' ' :: ("depth ".toList ++ (toString depth').toList) := by
    simpa [text, String.append_assoc] using congrArg String.toList heq
  obtain ⟨horigin, hdepth⟩ := append_cons_inj (hspace _) (hspace _) heq
  have hdepth := List.append_cancel_left hdepth
  exact ⟨Nat.repr_injective (String.toList_injective horigin),
    Nat.repr_injective (String.toList_injective hdepth)⟩

/-- The text of a line says what the line is. -/
theorem text_inj (hl : l.Legible table) (hl' : l'.Legible table) (heq : l.text = l'.text) :
    l = l' := by
  have hinitials : l.initials = l'.initials := by rw [← take_text, heq, take_text]
  cases l with
  | lam id =>
      cases l' with
      | lam id' => rw [Nat.repr_injective ((String.append_right_inj _).1 heq)]
      | _ => simp [initials] at hinitials
  | letIn id =>
      cases l' with
      | letIn id' => rw [Nat.repr_injective ((String.append_right_inj _).1 heq)]
      | _ => simp [initials] at hinitials
  | app =>
      cases l' with
      | app => rfl
      | _ => simp [initials] at hinitials
  | var origin depth =>
      cases l' with
      | var origin' depth' =>
          obtain ⟨rfl, rfl⟩ := var_text_inj heq
          rfl
      | _ => simp [initials] at hinitials
  | global symbol =>
      cases l' with
      | global symbol' =>
          have hname : symbol.name = symbol'.name := (String.append_right_inj _).1 heq
          have htable : symbol.table = symbol'.table := hl.1.trans hl'.1.symm
          cases symbol
          cases symbol'
          cases hname
          cases htable
          rfl
      | _ => simp [initials] at hinitials
  | int value =>
      cases l' with
      | int value' =>
          have hvalue := Int.repr_injective ((String.append_right_inj _).1 heq)
          rw [Int64.toInt_inj.1 hvalue]
      | _ => simp [initials] at hinitials
  | block kind count =>
      cases l' with
      | block kind' count' =>
          obtain rfl : kind = tupleKind := hl
          obtain rfl : kind' = tupleKind := hl'
          rw [Nat.repr_injective ((String.append_right_inj _).1 heq)]
      | _ => simp [initials] at hinitials
  | missing =>
      cases l' with
      | missing => rfl
      | _ => simp [initials] at hinitials

end Line

/-- The line of a node. -/
def line : Lir → Line
  | lam id _ => .lam id
  | letIn id _ _ => .letIn id
  | app _ _ => .app
  | var origin depth => .var origin depth
  | global symbol => .global symbol
  | int value => .int value
  | block kind fields => .block kind fields.length
  | missing => .missing

/-- The nodes right below a node, in the order in which they are laid out. -/
def children : Lir → List Lir
  | lam _ body => [body]
  | letIn _ value body => [value, body]
  | app fn arg => [fn, arg]
  | block _ fields => fields
  | var _ _ | global _ | int _ | missing => []

mutual

/-- The lines of a tree whose nodes are shown by the numbers that they carry. -/
def layout (indent : Nat) : Lir → String
  | .lam id body => dumpLine indent (Line.lam id).text ++ layout (indent + 1) body
  | .letIn id value body =>
    dumpLine indent (Line.letIn id).text ++
      (layout (indent + 1) value ++ layout (indent + 1) body)
  | .app fn arg =>
    dumpLine indent Line.app.text ++ (layout (indent + 1) fn ++ layout (indent + 1) arg)
  | .var origin depth => dumpLine indent (Line.var origin depth).text
  | .global symbol => dumpLine indent (Line.global symbol).text
  | .int value => dumpLine indent (Line.int value).text
  | .block kind fields =>
    dumpLine indent (Line.block kind fields.length).text ++ layoutFields (indent + 1) fields
  | .missing => dumpLine indent Line.missing.text

/-- The lines of several trees. -/
def layoutFields (indent : Nat) : List Lir → String
  | [] => ""
  | field :: rest => layout indent field ++ layoutFields indent rest

end

theorem layout_eq (indent : Nat) (e : Lir) :
    e.layout indent = dumpLine indent e.line.text ++ layoutFields (indent + 1) e.children := by
  cases e <;> simp [layout, layoutFields, line, children]

theorem length_children (e : Lir) : e.children.length = e.line.arity := by
  cases e <;> rfl

/-- A tree is its line and its children. -/
theorem eq_of_line_eq {e e' : Lir} (hline : e.line = e'.line)
    (hchildren : e.children = e'.children) : e = e' := by
  cases e <;> cases e' <;> simp_all [line, children]

/-- Trees all of whose lines say what they are. -/
inductive Legible (table : Nat) : Lir → Prop where
  | node {e : Lir} : e.line.Legible table → (∀ c ∈ e.children, Legible table c) →
      Legible table e

/-- The text of a tree can be told from what follows it. -/
def Splits (table : Nat) (e : Lir) : Prop :=
  ∀ (indent : Nat) (e' : Lir) (rest rest' : List Char), e'.Legible table →
    (e.layout indent).toList ++ rest = (e'.layout indent).toList ++ rest' →
    e = e' ∧ rest = rest'

theorem dumpLine_append_inj {indent : Nat} {s s' : String} {rest rest' : List Char}
    (hs : '\n' ∉ s.toList) (hs' : '\n' ∉ s'.toList)
    (heq : (dumpLine indent s).toList ++ rest = (dumpLine indent s').toList ++ rest') :
    s = s' ∧ rest = rest' := by
  have heq : s.toList ++ '\n' :: rest = s'.toList ++ '\n' :: rest' := by
    simpa [dumpLine] using heq
  obtain ⟨htext, hrest⟩ := append_cons_inj hs hs' heq
  exact ⟨String.toList_injective htext, hrest⟩

theorem layoutFields_append_inj {table indent : Nat} {es es' : List Lir}
    {rest rest' : List Char} (hsplits : ∀ e ∈ es, e.Splits table)
    (hlegible : ∀ e ∈ es', e.Legible table) (hlength : es.length = es'.length)
    (heq : (layoutFields indent es).toList ++ rest =
      (layoutFields indent es').toList ++ rest') : es = es' ∧ rest = rest' := by
  induction es generalizing es' with
  | nil =>
      obtain rfl := List.length_eq_zero_iff.1 hlength.symm
      exact ⟨rfl, List.append_cancel_left heq⟩
  | cons e es ih =>
      cases es' with
      | nil => cases hlength
      | cons e' es' =>
          obtain ⟨hfirst, hothers⟩ := List.forall_mem_cons.1 hsplits
          obtain ⟨hfirst', hothers'⟩ := List.forall_mem_cons.1 hlegible
          simp only [layoutFields, String.toList_append, List.append_assoc] at heq
          obtain ⟨rfl, hmore⟩ := hfirst indent e' _ _ hfirst' heq
          obtain ⟨rfl, hrest⟩ := ih hothers hothers' (Nat.succ.inj hlength) hmore
          exact ⟨rfl, hrest⟩

namespace Legible

variable {table : Nat} {e e' : Lir}

/-- By induction on the tree: its line ends at the line break, it says how many children
follow, and the children are the same by induction. -/
theorem splits (he : e.Legible table) : e.Splits table := by
  induction he with
  | @node e hline _ ih =>
      intro indent e' rest rest' he' heq
      cases he' with
      | node hline' hchildren' =>
          rw [layout_eq indent e, layout_eq indent e', String.toList_append,
            String.toList_append, List.append_assoc, List.append_assoc] at heq
          obtain ⟨htext, heq⟩ := dumpLine_append_inj (Line.newline_not_mem_text hline)
            (Line.newline_not_mem_text hline') heq
          have hsame : e.line = e'.line := Line.text_inj hline hline' htext
          have hlength : e.children.length = e'.children.length := by
            rw [length_children, length_children, hsame]
          obtain ⟨hchildren, hrest⟩ := layoutFields_append_inj ih hchildren' hlength heq
          exact ⟨eq_of_line_eq hsame hchildren, hrest⟩

/-- Two trees have the same text only if they are the same. -/
theorem layout_inj (he : e.Legible table) (he' : e'.Legible table) (indent : Nat) :
    e.layout indent = e'.layout indent ↔ e = e' := by
  constructor
  · intro htext
    exact (he.splits indent e' [] [] he' (by rw [htext])).1
  · intro heq
    rw [heq]

end Legible

end Zinc.Lir
