import Zinc.Proofs.Expr.Scope
import Zinc.Proofs.Lir.Layout

/-!
What the dump of a lowered expression says.  It shows every node by the number of binders
that are met before it, so it is the text of the tree in which the nodes carry those
numbers.  The text says which tree this is, and two lowered expressions agree in it exactly
when they correspond: they have the same shape, and the variables at corresponding places
name binders at corresponding places.
-/

namespace Zinc

namespace Expr

mutual

/-- The symbols of the globals in an expression. -/
def symbols : Expr → List Symbol
  | .lam _ _ body => body.symbols
  | .app _ fn arg => fn.symbols ++ arg.symbols
  | .var _ _ => []
  | .global _ symbol => symbol.toList
  | .letIn _ _ value body => value.symbols ++ body.symbols
  | .int _ _ => []
  | .tuple _ fields => fieldSymbols fields
  | .missing => []

/-- The symbols of the globals in the fields of a tuple. -/
def fieldSymbols : List Expr → List Symbol
  | [] => []
  | field :: rest => field.symbols ++ fieldSymbols rest

end

theorem mem_fieldSymbols {fields : List Expr} {field : Expr} {s : Symbol}
    (hfield : field ∈ fields) (hs : s ∈ field.symbols) : s ∈ fieldSymbols fields := by
  induction fields with
  | nil => cases hfield
  | cons first rest ih =>
      rw [fieldSymbols, List.mem_append]
      rcases List.mem_cons.1 hfield with rfl | hrest
      · exact Or.inl hs
      · exact Or.inr (ih hrest)

end Expr

namespace Lir

mutual

/-- The nodes of the binders in a tree, in the order in which its dump meets them. -/
def met : Lir → List Nat
  | .lam id body => id :: body.met
  | .letIn id value body => id :: (value.met ++ body.met)
  | .app fn arg => fn.met ++ arg.met
  | .block _ fields => metFields fields
  | .var _ _ => []
  | .global _ => []
  | .int _ => []
  | .missing => []

/-- The nodes of the binders in several trees. -/
def metFields : List Lir → List Nat
  | [] => []
  | field :: rest => field.met ++ metFields rest

end

mutual

/-- A tree with other numbers for its nodes. -/
def rename (f : Nat → Nat) : Lir → Lir
  | .lam id body => .lam (f id) (body.rename f)
  | .letIn id value body => .letIn (f id) (value.rename f) (body.rename f)
  | .app fn arg => .app (fn.rename f) (arg.rename f)
  | .block kind fields => .block kind (renameFields f fields)
  | .var origin depth => .var (f origin) depth
  | .global symbol => .global symbol
  | .int value => .int value
  | .missing => .missing

/-- Several trees with other numbers for their nodes. -/
def renameFields (f : Nat → Nat) : List Lir → List Lir
  | [] => []
  | field :: rest => field.rename f :: renameFields f rest

end

theorem renameFields_eq_map (f : Nat → Nat) (fields : List Lir) :
    renameFields f fields = fields.map (rename f) := by
  induction fields with
  | nil => rfl
  | cons field rest ih => rw [renameFields, ih, List.map_cons]

/-- Every variable in a tree names a node around it or one that is given. -/
inductive Scoped : List Nat → Lir → Prop where
  | lam {scope : List Nat} {id : Nat} {body : Lir} : Scoped (id :: scope) body →
      Scoped scope (.lam id body)
  | letIn {scope : List Nat} {id : Nat} {value body : Lir} : Scoped scope value →
      Scoped (id :: scope) body → Scoped scope (.letIn id value body)
  | app {scope : List Nat} {fn arg : Lir} : Scoped scope fn → Scoped scope arg →
      Scoped scope (.app fn arg)
  | var {scope : List Nat} {origin : Nat} (depth : Nat) : origin ∈ scope →
      Scoped scope (.var origin depth)
  | global {scope : List Nat} (symbol : Symbol) : Scoped scope (.global symbol)
  | int {scope : List Nat} (value : Int64) : Scoped scope (.int value)
  | block {scope : List Nat} {kind : UInt8} {fields : List Lir} :
      (∀ f ∈ fields, Scoped scope f) → Scoped scope (.block kind fields)

/-- Two trees are the same up to the identity of their nodes.  The binders around them
correspond in pairs; below, binders at the same place do, and variables at the same place
name binders that correspond. -/
inductive Corresponds : List (Nat × Nat) → Lir → Lir → Prop where
  | lam {pairs : List (Nat × Nat)} {id id' : Nat} {body body' : Lir} :
      Corresponds ((id, id') :: pairs) body body' →
      Corresponds pairs (.lam id body) (.lam id' body')
  | letIn {pairs : List (Nat × Nat)} {id id' : Nat} {value value' body body' : Lir} :
      Corresponds pairs value value' → Corresponds ((id, id') :: pairs) body body' →
      Corresponds pairs (.letIn id value body) (.letIn id' value' body')
  | app {pairs : List (Nat × Nat)} {fn fn' arg arg' : Lir} :
      Corresponds pairs fn fn' → Corresponds pairs arg arg' →
      Corresponds pairs (.app fn arg) (.app fn' arg')
  | var {pairs : List (Nat × Nat)} {origin origin' : Nat} (depth : Nat) :
      (origin, origin') ∈ pairs →
      Corresponds pairs (.var origin depth) (.var origin' depth)
  | global {pairs : List (Nat × Nat)} (symbol : Symbol) :
      Corresponds pairs (.global symbol) (.global symbol)
  | int {pairs : List (Nat × Nat)} (value : Int64) :
      Corresponds pairs (.int value) (.int value)
  | block {pairs : List (Nat × Nat)} (kind : UInt8) {fields fields' : List Lir} :
      fields.length = fields'.length →
      (∀ x ∈ fields.zip fields', Corresponds pairs x.1 x.2) →
      Corresponds pairs (.block kind fields) (.block kind fields')

section Numbering

variable {xs rest numbers : List Nat} {id : Nat}

theorem number_of_mem (hnumbers : numbers = xs ++ rest) (hid : id ∈ xs) :
    Seen.number xs.toArray id = (numbers.idxOf id, xs.toArray) := by
  have hindex : xs.idxOf? id = some (numbers.idxOf id) := by
    rw [hnumbers, List.idxOf_append_of_mem hid, List.idxOf_eq_getD_idxOf?]
    obtain ⟨i, hi⟩ := Option.isSome_iff_exists.1 (List.isSome_idxOf?.2 hid)
    rw [hi]
    rfl
  rw [Seen.number, List.idxOf?_toArray, hindex]

theorem number_of_new (hnumbers : numbers = xs ++ id :: rest) (hnodup : numbers.Nodup) :
    Seen.number xs.toArray id = (numbers.idxOf id, (xs ++ [id]).toArray) := by
  have hnew : id ∉ xs := by
    intro hmem
    rw [hnumbers] at hnodup
    exact (List.nodup_append.1 hnodup).2.2 id hmem id List.mem_cons_self rfl
  have hindex : numbers.idxOf id = xs.length := by
    rw [hnumbers, List.idxOf_append_of_notMem hnew, List.idxOf_cons_self, Nat.add_zero]
  rw [Seen.number, List.idxOf?_toArray, List.idxOf?_eq_none_iff.2 hnew, hindex]
  simp

theorem mem_snoc_of_mem {scope : List Nat} (id : Nat) (hscope : ∀ i ∈ scope, i ∈ xs) :
    ∀ i ∈ id :: scope, i ∈ xs ++ [id] := by
  intro i hi
  rcases List.mem_cons.1 hi with rfl | hi
  · simp
  · exact List.mem_append_left _ (hscope i hi)

/-- A tree is dumped as the text of the tree whose nodes carry their places in a list of
numbers, wherever the dump comes to it: the list goes on with its binders there. -/
def Dumps (numbers scope : List Nat) (e : Lir) : Prop :=
  ∀ (indent : Nat) (out : String) (xs rest : List Nat), numbers = xs ++ (e.met ++ rest) →
    (∀ id ∈ scope, id ∈ xs) →
    dumpFrom indent xs.toArray out e =
      (out ++ (e.rename numbers.idxOf).layout indent, (xs ++ e.met).toArray)

theorem dumpFields_eq {scope : List Nat} {fields : List Lir}
    (hfields : ∀ f ∈ fields, f.Dumps numbers scope) (indent : Nat) (out : String)
    (xs : List Nat) (hnumbers : numbers = xs ++ (metFields fields ++ rest))
    (hscope : ∀ id ∈ scope, id ∈ xs) :
    dumpFields indent xs.toArray out fields =
      (out ++ layoutFields indent (renameFields numbers.idxOf fields),
        (xs ++ metFields fields).toArray) := by
  induction fields generalizing out xs with
  | nil => simp [dumpFields, renameFields, layoutFields, metFields]
  | cons f fields ih =>
      obtain ⟨hf, hmore⟩ := List.forall_mem_cons.1 hfields
      rw [metFields, List.append_assoc] at hnumbers
      rw [dumpFields, hf indent out xs _ hnumbers hscope]
      dsimp only
      rw [ih hmore _ (xs ++ f.met) (by rw [hnumbers, List.append_assoc])
        fun id hid => List.mem_append_left _ (hscope id hid)]
      simp [renameFields, layoutFields, metFields, String.append_assoc]

/-- By induction on the tree: a binder gets the next number when it is met, and whatever a
variable names has been met before. -/
theorem Scoped.dumps (hnodup : numbers.Nodup) {scope : List Nat} {e : Lir}
    (he : Scoped scope e) : e.Dumps numbers scope := by
  induction he with
  | @lam scope id body _ ih =>
      intro indent out xs rest hnumbers hscope
      have hmore : numbers = xs ++ [id] ++ (body.met ++ rest) := by
        simpa [met] using hnumbers
      rw [dumpFrom, number_of_new hnumbers hnodup]
      dsimp only
      rw [ih (indent + 1) _ _ rest hmore (mem_snoc_of_mem id hscope)]
      simp [rename, layout, Line.text, met, String.append_assoc]
  | @letIn scope id value body _ _ ihvalue ihbody =>
      intro indent out xs rest hnumbers hscope
      have hvalue : numbers = xs ++ [id] ++ (value.met ++ (body.met ++ rest)) := by
        simpa [met] using hnumbers
      have hbody : numbers = xs ++ [id] ++ value.met ++ (body.met ++ rest) := by
        rw [hvalue, List.append_assoc _ value.met]
      have hmet := mem_snoc_of_mem id hscope
      rw [dumpFrom, number_of_new hnumbers hnodup]
      dsimp only
      rw [ihvalue (indent + 1) _ _ _ hvalue fun i hi => hmet i (List.mem_cons_of_mem _ hi)]
      dsimp only
      rw [ihbody (indent + 1) _ _ rest hbody fun i hi => List.mem_append_left _ (hmet i hi)]
      simp [rename, layout, Line.text, met, String.append_assoc]
  | @app scope fn arg _ _ ihfn iharg =>
      intro indent out xs rest hnumbers hscope
      have hfn : numbers = xs ++ (fn.met ++ (arg.met ++ rest)) := by
        simpa [met] using hnumbers
      have harg : numbers = xs ++ fn.met ++ (arg.met ++ rest) := by
        rw [hfn, List.append_assoc]
      rw [dumpFrom, ihfn (indent + 1) _ _ _ hfn hscope]
      dsimp only
      rw [iharg (indent + 1) _ _ rest harg fun i hi => List.mem_append_left _ (hscope i hi)]
      simp [rename, layout, Line.text, met, String.append_assoc]
  | var depth horigin =>
      intro indent out xs rest hnumbers hscope
      rw [dumpFrom, number_of_mem hnumbers (hscope _ horigin)]
      simp [rename, layout, Line.text, met]
  | global symbol =>
      intro indent out xs rest _ _
      simp [dumpFrom, rename, layout, Line.text, met]
  | int value =>
      intro indent out xs rest _ _
      simp [dumpFrom, rename, layout, Line.text, met]
  | block _ ih =>
      intro indent out xs rest hnumbers hscope
      rw [dumpFrom, dumpFields_eq ih _ _ _ hnumbers hscope]
      simp [rename, layout, Line.text, met, renameFields_eq_map, String.append_assoc]

/-- The dump of a tree in which no binder is given is its text when every node carries the
number of binders that are met before it. -/
theorem Scoped.dump_eq {e : Lir} (he : Scoped [] e) (hnodup : e.met.Nodup) :
    e.dump = (e.rename e.met.idxOf).layout 0 := by
  have hdumps := he.dumps hnodup 0 "" [] [] (by simp) nofun
  rw [dump, hdumps]
  simp

end Numbering

section Correspondence

variable {pairs : List (Nat × Nat)} {e e' : Lir} {f f' : Nat → Nat}

theorem length_metFields {fields fields' : List Lir}
    (h : List.Forall₂ (fun g g' => g.met.length = g'.met.length) fields fields') :
    (metFields fields).length = (metFields fields').length := by
  induction h with
  | nil => rfl
  | cons hfirst _ ih => simp [metFields, hfirst, ih]

theorem Corresponds.length_met (h : Corresponds pairs e e') :
    e.met.length = e'.met.length := by
  induction h with
  | lam _ ih => simp [met, ih]
  | letIn _ _ ihvalue ihbody => simp [met, ihvalue, ihbody]
  | app _ _ ihfn iharg => simp [met, ihfn, iharg]
  | var depth _ => rfl
  | global symbol => rfl
  | int value => rfl
  | block kind hlength _ ih =>
      apply length_metFields
      exact List.forall₂_iff_zip.2 ⟨hlength, fun hx => ih _ hx⟩

theorem renameFields_eq {fields fields' : List Lir}
    (h : List.Forall₂ (fun g g' => g.met.length = g'.met.length ∧
      ((∀ p ∈ g.met.zip g'.met, f p.1 = f' p.2) → g.rename f = g'.rename f')) fields fields')
    (hmet : ∀ p ∈ (metFields fields).zip (metFields fields'), f p.1 = f' p.2) :
    renameFields f fields = renameFields f' fields' := by
  induction h with
  | nil => rfl
  | cons hfirst _ ih =>
      rw [metFields, metFields, List.zip_append hfirst.1, List.forall_mem_append] at hmet
      rw [renameFields, renameFields, hfirst.2 hmet.1, ih hmet.2]

/-- Trees that correspond become the same when nodes that correspond get the same number. -/
theorem Corresponds.rename_eq (h : Corresponds pairs e e')
    (hpairs : ∀ p ∈ pairs, f p.1 = f' p.2)
    (hmet : ∀ p ∈ e.met.zip e'.met, f p.1 = f' p.2) : e.rename f = e'.rename f' := by
  induction h with
  | lam _ ih =>
      rw [met, met, List.zip_cons_cons] at hmet
      obtain ⟨hid, hbody⟩ := List.forall_mem_cons.1 hmet
      rw [rename, rename, ih (List.forall_mem_cons.2 ⟨hid, hpairs⟩) hbody, hid]
  | letIn hvalue _ ihvalue ihbody =>
      rw [met, met, List.zip_cons_cons, List.zip_append hvalue.length_met] at hmet
      obtain ⟨hid, hmore⟩ := List.forall_mem_cons.1 hmet
      obtain ⟨hvalue, hbody⟩ := List.forall_mem_append.1 hmore
      rw [rename, rename, ihvalue hpairs hvalue,
        ihbody (List.forall_mem_cons.2 ⟨hid, hpairs⟩) hbody, hid]
  | app hfn _ ihfn iharg =>
      rw [met, met, List.zip_append hfn.length_met] at hmet
      obtain ⟨hfn, harg⟩ := List.forall_mem_append.1 hmet
      rw [rename, rename, ihfn hpairs hfn, iharg hpairs harg]
  | var depth hpair => rw [rename, rename, hpairs _ hpair]
  | global symbol => rfl
  | int value => rfl
  | block kind hlength hfields ih =>
      rw [rename, rename, renameFields_eq ?_ hmet]
      exact List.forall₂_iff_zip.2
        ⟨hlength, fun hx => ⟨(hfields _ hx).length_met, ih _ hx hpairs⟩⟩

theorem mem_metFields {fields : List Lir} {field : Lir} {id : Nat} (hfield : field ∈ fields)
    (hid : id ∈ field.met) : id ∈ metFields fields := by
  induction fields with
  | nil => cases hfield
  | cons first rest ih =>
      rw [metFields, List.mem_append]
      rcases List.mem_cons.1 hfield with rfl | hrest
      · exact Or.inl hid
      · exact Or.inr (ih hrest)

/-- Every node in scope has a partner.  Partners have the same number, which is the place of
the second one in a list. -/
structure Paired (f : Nat → Nat) (numbers scope : List Nat) (pairs : List (Nat × Nat)) :
    Prop where
  partner : ∀ id ∈ scope, ∃ p ∈ pairs, p.1 = id
  place : ∀ p ∈ pairs, p.2 ∈ numbers ∧ f p.1 = numbers.idxOf p.2

theorem Paired.bind {numbers scope : List Nat} (h : Paired f numbers scope pairs)
    {id id' : Nat} (hmem : id' ∈ numbers) (hplace : f id = numbers.idxOf id') :
    Paired f numbers (id :: scope) ((id, id') :: pairs) where
  partner i hi := by
    rcases List.mem_cons.1 hi with rfl | hi
    · exact ⟨_, List.mem_cons_self, rfl⟩
    · obtain ⟨p, hp, hfirst⟩ := h.partner i hi
      exact ⟨p, List.mem_cons_of_mem _ hp, hfirst⟩
  place := List.forall_mem_cons.2 ⟨⟨hmem, hplace⟩, h.place⟩

/-- Trees that become the same correspond, if the nodes of the second one become their
places in a list.  By induction on the first tree: a variable in it names a node around it,
the partner of this node has the place of the node that the other variable names, and there
is one node at each place. -/
theorem Scoped.corresponds {numbers scope : List Nat} (he : Scoped scope e)
    (hpaired : Paired f numbers scope pairs) (hmet : ∀ id ∈ e'.met, id ∈ numbers)
    (heq : e.rename f = e'.rename numbers.idxOf) : Corresponds pairs e e' := by
  induction he generalizing pairs e' with
  | lam _ ih =>
      cases e' with
      | lam id' body' =>
          obtain ⟨hid, hbody⟩ := Lir.lam.inj heq
          obtain ⟨hmem, hmet⟩ := List.forall_mem_cons.1 hmet
          exact .lam (ih (hpaired.bind hmem hid) hmet hbody)
      | _ => simp [rename] at heq
  | letIn _ _ ihvalue ihbody =>
      cases e' with
      | letIn id' value' body' =>
          obtain ⟨hid, hvalue, hbody⟩ := Lir.letIn.inj heq
          obtain ⟨hmem, hmore⟩ := List.forall_mem_cons.1 hmet
          obtain ⟨hmetValue, hmetBody⟩ := List.forall_mem_append.1 hmore
          exact .letIn (ihvalue hpaired hmetValue hvalue)
            (ihbody (hpaired.bind hmem hid) hmetBody hbody)
      | _ => simp [rename] at heq
  | app _ _ ihfn iharg =>
      cases e' with
      | app fn' arg' =>
          obtain ⟨hfn, harg⟩ := Lir.app.inj heq
          obtain ⟨hmetFn, hmetArg⟩ := List.forall_mem_append.1 hmet
          exact .app (ihfn hpaired hmetFn hfn) (iharg hpaired hmetArg harg)
      | _ => simp [rename] at heq
  | var depth horigin =>
      cases e' with
      | var origin' depth' =>
          obtain ⟨horigin', rfl⟩ := Lir.var.inj heq
          obtain ⟨p, hp, rfl⟩ := hpaired.partner _ horigin
          obtain ⟨hmem, hplace⟩ := hpaired.place p hp
          obtain rfl : p.2 = origin' := (List.idxOf_inj hmem).1 (hplace.symm.trans horigin')
          exact .var depth hp
      | _ => simp [rename] at heq
  | global symbol =>
      cases e' with
      | global symbol' =>
          obtain rfl := Lir.global.inj heq
          exact .global symbol
      | _ => simp [rename] at heq
  | int value =>
      cases e' with
      | int value' =>
          obtain rfl := Lir.int.inj heq
          exact .int value
      | _ => simp [rename] at heq
  | @block scope kind fields _ ih =>
      cases e' with
      | block kind' fields' =>
          obtain ⟨rfl, hfields⟩ := Lir.block.inj heq
          have hall : List.Forall₂ (· = ·) (fields.map (rename f))
              (fields'.map (rename numbers.idxOf)) := by
            rw [← renameFields_eq_map, hfields, renameFields_eq_map]
            exact List.forall₂_same.2 fun _ _ => rfl
          rw [List.forall₂_map_left_iff, List.forall₂_map_right_iff] at hall
          obtain ⟨hlength, hsame⟩ := List.forall₂_iff_zip.1 hall
          refine .block kind hlength fun x hx => ?_
          obtain ⟨hleft, hright⟩ := List.of_mem_zip hx
          exact ih x.1 hleft hpaired (fun id hid => hmet id (mem_metFields hright hid))
            (hsame hx)
      | _ => simp [rename] at heq

end Correspondence

mutual

/-- The dump meets every binder once. -/
theorem met_perm : (e : Lir) → e.met.Perm e.binders
  | .lam id body => (met_perm body).cons id
  | .letIn id value body =>
    (((met_perm value).append (met_perm body)).cons id).trans List.perm_middle.symm
  | .app fn arg => (met_perm fn).append (met_perm arg)
  | .block _ fields => metFields_perm fields
  | .var _ _ => .refl _
  | .global _ => .refl _
  | .int _ => .refl _
  | .missing => .refl _

theorem metFields_perm : (fields : List Lir) → (metFields fields).Perm (fieldBinders fields)
  | [] => .refl _
  | field :: rest => (met_perm field).append (metFields_perm rest)

end

theorem children_rename (f : Nat → Nat) (e : Lir) :
    (e.rename f).children = e.children.map (rename f) := by
  cases e <;> simp [rename, children, renameFields_eq_map]

theorem Legible.rename {table : Nat} {e : Lir} (he : e.Legible table) (f : Nat → Nat) :
    (e.rename f).Legible table := by
  induction he with
  | @node e hline _ ih =>
      refine .node ?_ ?_
      · cases e <;> exact hline
      · rw [children_rename]
        exact List.forall_mem_map.2 ih

theorem idxOf_eq_of_mem_zip {xs ys : List Nat} (hxs : xs.Nodup) (hys : ys.Nodup)
    {p : Nat × Nat} (hp : p ∈ xs.zip ys) : xs.idxOf p.1 = ys.idxOf p.2 := by
  obtain ⟨i, hi, rfl⟩ := List.mem_iff_getElem.1 hp
  rw [List.getElem_zip, hxs.idxOf_getElem, hys.idxOf_getElem]

/-- Trees of which every variable names a binder around it, with a node of its own for
every binder and a text that can be read. -/
structure Readable (table : Nat) (e : Lir) : Prop where
  closed : Scoped [] e
  nodup : e.binders.Nodup
  legible : e.Legible table

/-- Two such trees have the same dump exactly when they correspond. -/
theorem Readable.dump_eq_iff {table : Nat} {e e' : Lir} (he : e.Readable table)
    (he' : e'.Readable table) : e.dump = e'.dump ↔ Corresponds [] e e' := by
  have hnodup : e.met.Nodup := (met_perm e).nodup_iff.2 he.nodup
  have hnodup' : e'.met.Nodup := (met_perm e').nodup_iff.2 he'.nodup
  rw [he.closed.dump_eq hnodup, he'.closed.dump_eq hnodup',
    (he.legible.rename _).layout_inj (he'.legible.rename _)]
  constructor
  · intro heq
    exact he.closed.corresponds ⟨nofun, nofun⟩ (fun _ hid => hid) heq
  · intro h
    exact h.rename_eq nofun fun p hp => idxOf_eq_of_mem_zip hnodup hnodup' hp

section Lowering

variable {declared declared' : Symbol → Bool} {depth : Nat → Nat} {scope : Scope} {e e' : Expr}
  {l l' : Lir} {table : Nat}

theorem mem_zip_of_mem {fields : List Expr} {fields' : List Lir}
    (hlength : fields'.length = fields.length) {f' : Lir} (hf' : f' ∈ fields') :
    ∃ f ∈ fields, (f, f') ∈ fields.zip fields' := by
  have hmap := List.map_snd_zip (Nat.le_of_eq hlength)
  rw [← hmap] at hf'
  obtain ⟨x, hx, rfl⟩ := List.mem_map.1 hf'
  exact ⟨x.1, (List.of_mem_zip hx).1, hx⟩

theorem Lowered.isScoped (h : Lowered declared depth scope e l) :
    Scoped (scope.map Prod.snd) l := by
  induction h with
  | lam _ ih => exact .lam ih
  | app _ _ ihfn iharg => exact .app ihfn iharg
  | letIn _ _ ihvalue ihbody => exact .letIn ihvalue ihbody
  | var _ => exact .var _ (by simp)
  | global _ => exact .global _
  | int => exact .int _
  | tuple hlength _ ih =>
      refine .block fun f' hf' => ?_
      obtain ⟨f, _, hx⟩ := mem_zip_of_mem hlength hf'
      exact ih _ hx

/-- Lowering leaves the globals as they are, and makes tuples of tuples. -/
theorem Lowered.legible (h : Lowered declared depth scope e l)
    (hsymbols : ∀ s ∈ e.symbols, s.table = table ∧ '\n' ∉ s.name.toList) :
    l.Legible table := by
  induction h with
  | lam _ ih => exact .node trivial (List.forall_mem_singleton.2 (ih hsymbols))
  | app _ _ ihfn iharg =>
      obtain ⟨hfn, harg⟩ := List.forall_mem_append.1 hsymbols
      exact .node trivial
        (List.forall_mem_cons.2 ⟨ihfn hfn, List.forall_mem_singleton.2 (iharg harg)⟩)
  | letIn _ _ ihvalue ihbody =>
      obtain ⟨hvalue, hbody⟩ := List.forall_mem_append.1 hsymbols
      exact .node trivial
        (List.forall_mem_cons.2 ⟨ihvalue hvalue, List.forall_mem_singleton.2 (ihbody hbody)⟩)
  | var _ => exact .node trivial nofun
  | @global _ _ s _ => exact .node (hsymbols s List.mem_cons_self) nofun
  | int => exact .node trivial nofun
  | tuple hlength _ ih =>
      refine .node rfl fun f' hf' => ?_
      obtain ⟨f, hf, hx⟩ := mem_zip_of_mem hlength hf'
      exact ih _ hx fun s hs => hsymbols s (Expr.mem_fieldSymbols hf hs)

theorem readable_of_lowerFrom {next : Nat}
    (hsymbols : ∀ s ∈ e.symbols, s.table = table ∧ '\n' ∉ s.name.toList)
    (h : (lowerFrom declared [] next e).map Prod.fst = .ok l) : l.Readable table := by
  have hresolves : Resolves declared [] next .value e (lowerFrom declared [] next e) :=
    resolves_lowerFrom e [] next .value
  generalize lowerFrom declared [] next e = r at hresolves h
  cases hresolves with
  | error _ => cases h
  | ok _ hlowered hnumbered =>
      cases h
      exact ⟨hlowered.isScoped, hnumbered.nodup, hlowered.legible hsymbols⟩

/-- The dump of a lowered expression says what the expression was lowered to, up to the
identity of the nodes.  Whatever globals are declared for two expressions and from whatever
numbers on their nodes are numbered, the dumps are the same text exactly when the trees
correspond, if the symbols in the expressions are from one table and their names are on one
line. -/
theorem dump_determines
    (hsymbols : ∀ s ∈ e.symbols ++ e'.symbols, s.table = table ∧ '\n' ∉ s.name.toList)
    {next next' : Nat} (h : (lowerFrom declared [] next e).map Prod.fst = .ok l)
    (h' : (lowerFrom declared' [] next' e').map Prod.fst = .ok l') :
    l.dump = l'.dump ↔ Corresponds [] l l' := by
  obtain ⟨hleft, hright⟩ := List.forall_mem_append.1 hsymbols
  exact (readable_of_lowerFrom hleft h).dump_eq_iff (readable_of_lowerFrom hright h')

/-- A function whose body binds its argument again and applies a global to one of the two
variables.  Lowered twice, with other nodes the second time, it is dumped as the same text;
with the other variable in the application it is not. -/
theorem dump_determines_renumbered :
    let g : Symbol := ⟨0, "g"⟩
    let x : Binder := ⟨0, "x"⟩
    let y : Binder := ⟨1, "y"⟩
    let applied (b : Binder) : Expr :=
      .lam {} x (.letIn {} y (.var {} (some x)) (.app {} (.global {} (some g)) (.var {} (some b))))
    let lowered (next origin : Nat) : Lir :=
      .lam next (.letIn (next + 1) (.var next 0) (.app (.global g) (.var origin 0)))
    lower (fun _ => true) (applied x) = .ok (lowered 0 0) ∧
      (lowered 0 0).dump = "Lambda #0\n  Let #1\n    Variable #0 depth 0\n" ++
        "    Application\n      Global g\n      Variable #0 depth 0\n" ∧
      Corresponds [] (lowered 0 0) (lowered 7 7) ∧
      ¬ Corresponds [] (lowered 0 0) (lowered 7 8) := by
  intro g x y applied lowered
  have hsymbols (b : Binder) : ∀ s ∈ (applied x).symbols ++ (applied b).symbols,
      s.table = 0 ∧ '\n' ∉ s.name.toList := by
    have hg : g.table = 0 ∧ '\n' ∉ g.name.toList := by decide
    exact List.forall_mem_cons.2 ⟨hg, List.forall_mem_singleton.2 hg⟩
  have hlower : lower (fun _ => true) (applied x) = .ok (lowered 0 0) := rfl
  have hsame : (lowerFrom (fun _ => true) [] 7 (applied x)).map Prod.fst =
      .ok (lowered 7 7) := rfl
  have hother : (lowerFrom (fun _ => true) [] 7 (applied y)).map Prod.fst =
      .ok (lowered 7 8) := rfl
  refine ⟨hlower, by decide +kernel, ?_, ?_⟩
  · exact (dump_determines (hsymbols x) hlower hsame).1 (by decide +kernel)
  · intro hcorresponds
    have hdump := (dump_determines (hsymbols y) hlower hother).2 hcorresponds
    exact absurd hdump (by decide +kernel)

end Lowering

end Lir

end Zinc
