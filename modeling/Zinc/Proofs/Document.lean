import Mathlib
import Zinc.Document
import Zinc.Proofs.Expr.Scope

/-!
Names in documents.  The scalars of a node that stand for expressions are listed in
reading order, each with the names that `lam` and `let` bind around it.  The decoder makes
the leaves of the expression out of them one by one: a name that is bound around it
becomes a variable of the innermost binder of that name, any other name the global of its
symbol.  So a decoded expression is well scoped, and all that lowering it can miss is the
declaration of a global.
-/

namespace Zinc

open Yaml (Node)

namespace Yaml.Node

/-- The names that a parameter list binds, in order. -/
def boundNames : Node → List String
  | .sequence _ items => items.map keyText
  | node => [node.keyText]

/-- The expressions directly inside a node, in reading order, each with the names that the
node binds in it, innermost first.  The parameters of a `lam` are bound in its body, the
last of them innermost, and the name of a `let` is bound in its body but not in its
value. -/
def parts : Node → List (List String × Node)
  | .sequence _ items => items.map ([], ·)
  | .mapping _ pairs =>
    match field? "lam" pairs, field? "let" pairs, field? "tuple" pairs with
    | some params, _, _ => (field? "body" pairs).toList.map (params.boundNames.reverse, ·)
    | none, some name, _ =>
      (field? "value" pairs).toList.map ([], ·) ++
        (field? "body" pairs).toList.map (name.boundNames, ·)
    | none, none, some (.sequence _ items) => items.map ([], ·)
    | _, _, _ => []
  | _ => []

theorem sizeOf_lt_of_mem_field? {key : String} {pairs : List (Node × Node)} {v : Node}
    {names bound : List String} (pos : Pos)
    (h : (bound, v) ∈ (field? key pairs).toList.map (names, ·)) :
    sizeOf v < sizeOf (mapping pos pairs) := by
  obtain ⟨w, hw, heq⟩ := List.mem_map.1 h
  cases heq
  have := sizeOf_lt_of_field? (Option.mem_toList.1 hw)
  rw [mapping.sizeOf_spec]
  omega

theorem sizeOf_lt_of_mem_items {items : List Node} {v : Node} {bound : List String}
    (h : (bound, v) ∈ items.map (([] : List String), ·)) : sizeOf v < sizeOf items := by
  obtain ⟨w, hw, heq⟩ := List.mem_map.1 h
  cases heq
  exact List.sizeOf_lt_of_mem hw

theorem sizeOf_lt_of_mem_parts {node v : Node} {bound : List String}
    (h : (bound, v) ∈ node.parts) : sizeOf v < sizeOf node := by
  cases node with
  | scalar => simp [parts] at h
  | aliasOf => simp [parts] at h
  | sequence pos items =>
      have := sizeOf_lt_of_mem_items h
      rw [sequence.sizeOf_spec]
      omega
  | mapping pos pairs =>
      rw [parts] at h
      split at h
      · exact sizeOf_lt_of_mem_field? pos h
      · rcases List.mem_append.1 h with h | h
        · exact sizeOf_lt_of_mem_field? pos h
        · exact sizeOf_lt_of_mem_field? pos h
      · rename_i htuple
        have hitems := sizeOf_lt_of_mem_items h
        have htuple := sizeOf_lt_of_field? htuple
        rw [sequence.sizeOf_spec] at htuple
        rw [mapping.sizeOf_spec]
        omega
      · exact absurd h List.not_mem_nil

end Yaml.Node

/-- A scalar that stands for an expression, with the names that are bound around it,
innermost first. -/
structure Mention where
  enclosing : List String
  scalar : Node

/-- The scalars that stand for expressions in a node inside the scope of the names in
`enclosing`, in reading order. -/
def Yaml.Node.mentions (enclosing : List String) (node : Node) : List Mention :=
  match node with
  | .scalar pos tag isPlain text => [⟨enclosing, .scalar pos tag isPlain text⟩]
  | node => node.parts.attach.flatMap fun part =>
      part.1.2.mentions (part.1.1 ++ enclosing)
termination_by sizeOf node
decreasing_by exact Yaml.Node.sizeOf_lt_of_mem_parts part.2

theorem Yaml.Node.mentions_eq {node : Node} (enclosing : List String)
    (h : ∀ pos tag isPlain text, node ≠ .scalar pos tag isPlain text) :
    node.mentions enclosing =
      node.parts.flatMap fun part => part.2.mentions (part.1 ++ enclosing) := by
  rw [Yaml.Node.mentions.eq_2 _ _ h]
  conv_rhs => rw [← List.attach_map_subtype_val node.parts, List.flatMap_map]

namespace Expr

/-- An expression without others inside it. -/
def isLeaf : Expr → Bool
  | .var _ _ | .global _ _ | .int _ _ | .missing => true
  | _ => false

/-- The binder that an expression introduces. -/
def introduces? : Expr → Option Binder
  | .lam _ b _ | .letIn _ b _ _ => some b
  | _ => none

/-- The numbers of the binders that nodes introduce. -/
def introduced (os : List Occurrence) : List Nat :=
  os.filterMap fun o => o.node.introduces?.map Binder.id

end Expr

namespace Mention

/-- What becomes of a scalar.  The leaf lies in the bodies of the binders of the names
around the scalar.  An integer becomes that integer; a name becomes a variable exactly when
it is bound around the scalar, and then a variable of the innermost binder of that name;
any other name becomes the global of its symbol. -/
structure Resolved (symbols : SymbolTable) (m : Mention) (o : Occurrence) : Prop where
  place : o.node.pos = m.scalar.pos
  enclosed : o.binders.map Binder.name = m.enclosing
  integer : m.scalar.isInteger = true → ∃ value,
    Text.integerOfNumeral m.scalar.keyText = .ok value ∧ o.node = .int m.scalar.pos value
  bound : m.scalar.isInteger = false →
    (m.scalar.keyText ∈ m.enclosing ↔ ∃ pos binder, o.node = .var pos binder)
  innermost : ∀ pos binder, o.node = .var pos binder → ∃ before b after,
    binder = some b ∧ o.binders = before ++ b :: after ∧ b.name = m.scalar.keyText ∧
      ∀ x ∈ before, x.name ≠ m.scalar.keyText
  free : m.scalar.isInteger = false → m.scalar.keyText ∉ m.enclosing → ∃ s,
    symbols.lookup? m.scalar.keyText = some s ∧ o.node = .global m.scalar.pos (some s)

end Mention

namespace Names

/-- Every name that has a symbol keeps it. -/
def Keeps (names names' : Names) : Prop :=
  ∀ text s, names.symbols.lookup? text = some s → names'.symbols.lookup? text = some s

theorem Keeps.trans {a b c : Names} (h : a.Keeps b) (h' : b.Keeps c) : a.Keeps c :=
  fun text s hs => h' text s (h text s hs)

theorem keeps_intern (names : Names) (text : String) : names.Keeps (names.intern text).2 := by
  intro other s hs
  rw [SymbolTable.lookup?] at hs
  split at hs
  · rename_i hmem
    cases hs
    rw [SymbolTable.lookup?, if_pos]
    · rfl
    · simp only [intern, SymbolTable.intern, Std.ExtHashSet.contains_insert, hmem, Bool.or_true]
  · cases hs

theorem lookup?_intern (names : Names) (text : String) :
    (names.intern text).2.symbols.lookup? text = some (names.intern text).1 := by
  rw [SymbolTable.lookup?, if_pos]
  · rfl
  · simp [intern, SymbolTable.intern]

end Names

theorem Mention.Resolved.mono {names names' : Names} {m : Mention} {o : Occurrence}
    (h : m.Resolved names.symbols o) (hkeeps : names.Keeps names') :
    m.Resolved names'.symbols o := by
  refine ⟨h.place, h.enclosed, h.integer, h.bound, h.innermost, fun hint hfree => ?_⟩
  obtain ⟨s, hs, hnode⟩ := h.free hint hfree
  exact ⟨s, hkeeps _ _ hs, hnode⟩

theorem Lir.Numbered.perm {ids ids' : List Nat} {next next' : Nat}
    (h : Numbered ids next next') (hperm : ids.Perm ids') : Numbered ids' next next' :=
  ⟨h.le, hperm.nodup_iff.1 h.nodup, fun id hid => h.range id (hperm.mem_iff.2 hid)⟩

namespace Document

/-- What decoding has come to between two states of the names: the leaves among the nodes
stem from the scalars one by one, the binders are new, and no symbol is lost. -/
structure Traced (ms : List Mention) (os : List Occurrence) (names names' : Names) :
    Prop where
  keeps : names.Keeps names'
  numbered : Lir.Numbered (Expr.introduced os) names.nextBinder names'.nextBinder
  leaves : List.Forall₂ (Mention.Resolved names'.symbols) ms (os.filter (·.node.isLeaf))

namespace Traced

variable {ms ms' : List Mention} {os os' : List Occurrence} {names names₁ names' : Names}

theorem nil (names : Names) : Traced [] [] names names :=
  ⟨fun _ _ hs => hs, .nil _, .nil⟩

theorem append (h : Traced ms os names names₁) (h' : Traced ms' os' names₁ names') :
    Traced (ms ++ ms') (os ++ os') names names' where
  keeps := h.keeps.trans h'.keeps
  numbered := by
    rw [Expr.introduced, List.filterMap_append]
    exact h.numbered.append h'.numbered
  leaves := by
    rw [List.filter_append]
    exact List.rel_append (h.leaves.imp fun _ _ hm => hm.mono h'.keeps) h'.leaves

/-- A node that has others inside it and introduces no binder. -/
theorem inner (h : Traced ms os names names') {o : Occurrence}
    (hleaf : o.node.isLeaf = false) (hnone : o.node.introduces? = none) :
    Traced ms (o :: os) names names' where
  keeps := h.keeps
  numbered := by
    rw [Expr.introduced, List.filterMap_cons_none (by rw [hnone]; rfl)]
    exact h.numbered
  leaves := by
    rw [List.filter_cons_of_neg (by simp [hleaf])]
    exact h.leaves

/-- A node that introduces the next binder. -/
theorem binder {o : Occurrence} {name : String}
    (h : Traced ms os { names with nextBinder := names.nextBinder + 1 } names')
    (hleaf : o.node.isLeaf = false)
    (hsome : o.node.introduces? = some ⟨names.nextBinder, name⟩) :
    Traced ms (o :: os) names names' where
  keeps := h.keeps
  numbered := by
    rw [Expr.introduced, List.filterMap_cons_some (by rw [hsome]; rfl)]
    exact h.numbered.cons
  leaves := by
    rw [List.filter_cons_of_neg (by simp [hleaf])]
    exact h.leaves

/-- A node that introduces the binder that comes next once its first part is decoded. -/
theorem letIn {o : Occurrence} {name : String} (h : Traced ms os names names₁)
    (h' : Traced ms' os' { names₁ with nextBinder := names₁.nextBinder + 1 } names')
    (hleaf : o.node.isLeaf = false)
    (hsome : o.node.introduces? = some ⟨names₁.nextBinder, name⟩) :
    Traced (ms ++ ms') (o :: (os ++ os')) names names' where
  keeps := h.keeps.trans h'.keeps
  numbered := by
    rw [Expr.introduced, List.filterMap_cons_some (by rw [hsome]; rfl),
      List.filterMap_append]
    exact (h.numbered.append h'.numbered.cons).perm List.perm_middle
  leaves := by
    rw [List.filter_cons_of_neg (by simp [hleaf]), List.filter_append]
    exact List.rel_append (h.leaves.imp fun _ _ hm => hm.mono h'.keeps) h'.leaves

theorem leaf {m : Mention} {o : Occurrence} (hkeeps : names.Keeps names')
    (hnext : names'.nextBinder = names.nextBinder) (hleaf : o.node.isLeaf = true)
    (hnone : o.node.introduces? = none) (hm : m.Resolved names'.symbols o) :
    Traced [m] [o] names names' where
  keeps := hkeeps
  numbered := by
    rw [Expr.introduced, List.filterMap_cons_none (by rw [hnone]; rfl), hnext]
    exact .nil _
  leaves := by
    rw [List.filter_cons_of_pos (by simp [hleaf])]
    exact .cons hm .nil

end Traced

/-- An expression was decoded from the scalars in `ms`, wherever its value is used. -/
def Decoded (scope : List Binder) (ms : List Mention) (e : Expr) (names names' : Names) :
    Prop :=
  ∀ p, Traced ms (e.occurrences p scope) names names'

variable {scope : List Binder} {names names' : Names}

theorem traced_reference {pos : Pos} {tag : Option String} {isPlain : Bool} {text : String}
    (hint : (Node.scalar pos tag isPlain text).isInteger = false) :
    Decoded scope [⟨scope.map Binder.name, .scalar pos tag isPlain text⟩]
      (reference scope pos text names).1 names (reference scope pos text names).2 := by
  intro p
  rw [reference]
  split
  · rename_i b hfind
    obtain ⟨hb, before, after, rfl, hbefore⟩ := List.find?_eq_some_iff_append.1 hfind
    have hname : b.name = text := of_decide_eq_true hb
    refine .leaf (fun _ _ hs => hs) rfl rfl rfl ⟨rfl, rfl, fun h => ?_, fun _ => ?_, ?_, ?_⟩
    · rw [hint] at h
      cases h
    · refine iff_of_true ?_ ⟨_, _, rfl⟩
      simp [Yaml.Node.keyText, hname]
    · rintro _ _ ⟨⟩
      refine ⟨before, b, after, rfl, rfl, hname, fun x hx => ?_⟩
      simpa [Yaml.Node.keyText] using hbefore x hx
    · intro _ hfree
      refine absurd ?_ hfree
      simp [Yaml.Node.keyText, hname]
  · rename_i hfind
    have hfree : text ∉ scope.map Binder.name := by
      intro hmem
      obtain ⟨b, hb, hname⟩ := List.mem_map.1 hmem
      simpa [hname] using List.find?_eq_none.1 hfind b hb
    refine .leaf (names.keeps_intern text) rfl rfl rfl
      ⟨rfl, rfl, fun h => ?_, fun _ => ?_, ?_, fun _ _ => ?_⟩
    · rw [hint] at h
      cases h
    · refine iff_of_false hfree ?_
      rintro ⟨_, _, ⟨⟩⟩
    · rintro _ _ ⟨⟩
    · exact ⟨_, names.lookup?_intern text, rfl⟩

theorem traced_scalar {pos : Pos} {tag : Option String} {isPlain : Bool} {text : String}
    {e : Expr} (h : scalar scope (.scalar pos tag isPlain text) text names = .ok (e, names')) :
    Decoded scope [⟨scope.map Binder.name, .scalar pos tag isPlain text⟩] e names names' := by
  rw [scalar] at h
  split at h
  · rename_i hint
    split at h
    · rename_i value hvalue
      cases h
      intro p
      refine .leaf (fun _ _ hs => hs) rfl rfl rfl
        ⟨rfl, rfl, fun _ => ⟨value, hvalue, rfl⟩, fun h => ?_, nofun, fun h => ?_⟩
      all_goals
        rw [hint] at h
        cases h
    · cases h
  · rename_i hint
    split at h
    · cases h
    · obtain ⟨rfl, rfl⟩ := Prod.mk.inj (Except.ok.inj h)
      exact traced_reference (Bool.not_eq_true _ ▸ hint)

theorem bind_eq_ok {α β : Type} {x : Except Failure α} {f : α → Except Failure β} {b : β}
    (h : x >>= f = .ok b) : ∃ a, x = .ok a ∧ f a = .ok b := by
  cases x with
  | error _ => cases h
  | ok a => exact ⟨a, rfl, h⟩

theorem map_eq_of_mapM {α β : Type} {f : α → Except Failure β} {g : α → β}
    (hf : ∀ {a b}, f a = .ok b → g a = b) {as : List α} {bs : List β}
    (h : as.mapM f = .ok bs) : as.map g = bs := by
  induction as generalizing bs with
  | nil =>
      cases h
      rfl
  | cons a rest ih =>
      rw [List.mapM_cons] at h
      obtain ⟨b, hb, h⟩ := bind_eq_ok h
      obtain ⟨others, hothers, ⟨⟩⟩ := bind_eq_ok h
      rw [List.map_cons, hf hb, ih hothers]

/-- Decoding a node makes an expression out of its scalars, in any scope. -/
def Decodes (node : Node) : Prop :=
  ∀ ⦃scope names e names'⦄, expr scope node names = .ok (e, names') →
    Decoded scope (node.mentions (scope.map Binder.name)) e names names'

section Items

variable {items : List Node} {ms : List Mention} {names₀ : Names}

theorem decoded_application (hitems : ∀ item ∈ items, Decodes item) {fn e : Expr}
    (hfn : Decoded scope ms fn names₀ names)
    (h : application scope fn items names = .ok (e, names')) :
    Decoded scope (ms ++ items.flatMap (·.mentions (scope.map Binder.name))) e
      names₀ names' := by
  induction items generalizing fn ms names with
  | nil =>
      rw [application] at h
      cases h
      rwa [List.flatMap_nil, List.append_nil]
  | cons item rest ih =>
      rw [application] at h
      obtain ⟨⟨arg, names₁⟩, harg, hrest⟩ := bind_eq_ok h
      have hdecoded := hitems item List.mem_cons_self harg
      have happ : Decoded scope (ms ++ item.mentions (scope.map Binder.name))
          (.app item.pos fn arg) names₀ names₁ := by
        intro p
        rw [Expr.occurrences]
        exact ((hfn .head).append (hdecoded .value)).inner rfl rfl
      rw [List.flatMap_cons, ← List.append_assoc]
      exact ih (fun x hx => hitems x (List.mem_cons_of_mem _ hx)) happ hrest

theorem fieldOccurrences_append (binders : List Binder) (es es' : List Expr) :
    Expr.fieldOccurrences binders (es ++ es') =
      Expr.fieldOccurrences binders es ++ Expr.fieldOccurrences binders es' := by
  induction es with
  | nil => rfl
  | cons e rest ih =>
      rw [List.cons_append, Expr.fieldOccurrences, Expr.fieldOccurrences, ih,
        List.append_assoc]

theorem traced_exprs (hitems : ∀ item ∈ items, Decodes item) {done es : List Expr}
    (hdone : Traced ms (Expr.fieldOccurrences scope done.reverse) names₀ names)
    (h : exprs scope done items names = .ok (es, names')) :
    Traced (ms ++ items.flatMap (·.mentions (scope.map Binder.name)))
      (Expr.fieldOccurrences scope es) names₀ names' := by
  induction items generalizing done ms names with
  | nil =>
      rw [exprs] at h
      cases h
      rwa [List.flatMap_nil, List.append_nil]
  | cons item rest ih =>
      rw [exprs] at h
      obtain ⟨⟨e, names₁⟩, he, hrest⟩ := bind_eq_ok h
      have hdecoded := hitems item List.mem_cons_self he
      have hmore : Traced (ms ++ item.mentions (scope.map Binder.name))
          (Expr.fieldOccurrences scope (e :: done).reverse) names₀ names₁ := by
        rw [List.reverse_cons, fieldOccurrences_append, Expr.fieldOccurrences,
          Expr.fieldOccurrences, List.append_nil]
        exact hdone.append (hdecoded .value)
      rw [List.flatMap_cons, ← List.append_assoc]
      exact ih (fun x hx => hitems x (List.mem_cons_of_mem _ hx)) hmore hrest

end Items

theorem bindAll_cons (name : String) (rest : List String) (names : Names) :
    names.bindAll (name :: rest) =
      (⟨names.nextBinder, name⟩ ::
          (Names.bindAll rest { names with nextBinder := names.nextBinder + 1 }).1,
        (Names.bindAll rest { names with nextBinder := names.nextBinder + 1 }).2) := by
  simp only [Names.bindAll, List.zipIdx_cons, List.map_cons, List.length_cons]
  rw [Nat.add_assoc, Nat.add_comm 1]

theorem map_name_bindAll (params : List String) (names : Names) :
    (names.bindAll params).1.map Binder.name = params := by
  induction params generalizing names with
  | nil => rfl
  | cons name rest ih => rw [bindAll_cons, List.map_cons, ih]

/-- The functions of a parameter list, the first one outermost. -/
theorem decoded_lams {params : List String} {pos : Pos} {body : Expr} {ms : List Mention}
    (h : Decoded ((names.bindAll params).1.reverse ++ scope) ms body
      (names.bindAll params).2 names') :
    Decoded scope ms ((names.bindAll params).1.foldr (Expr.lam pos) body) names names' := by
  induction params generalizing scope names with
  | nil => exact h
  | cons name rest ih =>
      rw [bindAll_cons] at h ⊢
      rw [List.reverse_cons, List.append_assoc] at h
      intro p
      rw [List.foldr_cons, Expr.occurrences]
      exact (ih h .tail).binder rfl rfl

theorem localName?_eq_some {node : Node} {text : String} (h : localName? node = some text) :
    node.boundNames = [text] ∧ node.keyText = text := by
  cases node with
  | scalar pos tag isPlain written =>
      rw [localName?] at h
      split at h
      · cases h
      · cases h
        exact ⟨rfl, rfl⟩
  | _ => cases h

theorem boundNames_of_parameters {node : Node} {params : List String}
    (h : parameters node = .ok params) : node.boundNames = params := by
  cases node with
  | scalar pos tag isPlain text =>
      rw [parameters] at h
      dsimp only at h
      split at h
      · rename_i hlocal
        cases h
        exact (localName?_eq_some hlocal).1
      · cases h
  | sequence pos items =>
      cases items with
      | nil => cases h
      | cons item rest =>
          rw [parameters] at h
          · refine map_eq_of_mapM (fun {p text} hok => ?_) h
            split at hok
            · rename_i hlocal
              cases hok
              exact (localName?_eq_some hlocal).2
            · cases hok
          · simp
  | _ => cases h

/-- A `lam` form stands for the functions of its parameters. -/
theorem decoded_lambda {pos : Pos} {pairs : List (Node × Node)} {params : Node} {e : Expr}
    (hfield : ∀ {key v}, Node.field? key pairs = some v → Decodes v)
    (h : lambda scope pos pairs params names = .ok (e, names')) :
    ∃ body, Node.field? "body" pairs = some body ∧
      Decoded scope (body.mentions (params.boundNames.reverse ++ scope.map Binder.name)) e
        names names' := by
  rw [lambda] at h
  obtain ⟨texts, htexts, h⟩ := bind_eq_ok h
  split at h
  · cases h
  · rename_i body hbody
    obtain ⟨⟨inner, names₁⟩, hinner, ⟨⟩⟩ := bind_eq_ok h
    have hdecoded : Decoded ((names.bindAll texts).1.reverse ++ scope) _ inner
        (names.bindAll texts).2 _ := hfield hbody hinner
    refine ⟨body, hbody, @decoded_lams _ _ _ texts _ _ _ ?_⟩
    have hscope : ((names.bindAll texts).1.reverse ++ scope).map Binder.name =
        params.boundNames.reverse ++ scope.map Binder.name := by
      rw [List.map_append, List.map_reverse, map_name_bindAll,
        boundNames_of_parameters htexts]
    rwa [← hscope]

/-- A `let` form: its value is decoded first, outside the scope of its name. -/
theorem decoded_letIn {pos : Pos} {pairs : List (Node × Node)} {name : Node} {e : Expr}
    (hfield : ∀ {key v}, Node.field? key pairs = some v → Decodes v)
    (h : letIn scope pos pairs name names = .ok (e, names')) :
    ∃ value body, Node.field? "value" pairs = some value ∧
      Node.field? "body" pairs = some body ∧
      Decoded scope (value.mentions (scope.map Binder.name) ++
        body.mentions (name.boundNames ++ scope.map Binder.name)) e names names' := by
  rw [letIn] at h
  split at h
  · cases h
  · cases h
  · cases h
  · rename_i text value body hlocal hvalue hbody
    obtain ⟨⟨first, names₁⟩, hfirst, h⟩ := bind_eq_ok h
    obtain ⟨⟨second, names₂⟩, hsecond, ⟨⟩⟩ := bind_eq_ok h
    refine ⟨value, body, hvalue, hbody, fun p => ?_⟩
    rw [(localName?_eq_some hlocal).1, Expr.occurrences]
    exact .letIn (hfield hvalue hfirst .value) (hfield hbody hsecond p.ofBody) rfl rfl

theorem decodes_of_smaller {node : Node} (ih : ∀ v, sizeOf v < sizeOf node → Decodes v) :
    Decodes node := by
  intro scope names e names' h
  cases node with
  | scalar pos tag isPlain text =>
      rw [expr] at h
      rw [Yaml.Node.mentions]
      exact traced_scalar h
  | aliasOf pos name target =>
      rw [expr] at h
      cases h
  | sequence pos items =>
      have hitems : ∀ item ∈ items, Decodes item := by
        intro item hitem
        have := List.sizeOf_lt_of_mem hitem
        exact ih item (by rw [Yaml.Node.sequence.sizeOf_spec]; omega)
      rw [Yaml.Node.mentions_eq _ (by simp), Yaml.Node.parts, List.flatMap_map]
      cases items with
      | nil =>
          rw [expr] at h
          · cases h
          · simp
      | cons fn args =>
          cases args with
          | nil =>
              rw [expr] at h
              · cases h
              · simp
          | cons arg args =>
              rw [expr] at h
              obtain ⟨⟨f, names₁⟩, hf, happ⟩ := bind_eq_ok h
              obtain ⟨hfn, hargs⟩ := List.forall_mem_cons.1 hitems
              exact decoded_application hargs (hfn hf) happ
  | mapping pos pairs =>
      have hfield {key : String} {v : Node} (hv : Node.field? key pairs = some v) :
          Decodes v := by
        have := Yaml.Node.sizeOf_lt_of_field? hv
        exact ih v (by rw [Yaml.Node.mapping.sizeOf_spec]; omega)
      rw [Yaml.Node.mentions_eq _ (by simp), Yaml.Node.parts]
      rw [expr] at h
      split at h
      · rename_i params _ _ hlam
        obtain ⟨body, hbody, hdecoded⟩ := decoded_lambda hfield h
        simpa [hlam, hbody] using hdecoded
      · rename_i name _ hlam hlet
        obtain ⟨value, body, hvalue, hbody, hdecoded⟩ := decoded_letIn hfield h
        simpa [hlam, hlet, hvalue, hbody] using hdecoded
      · rename_i pos' items hlam hlet htuple
        obtain ⟨⟨fields, names₁⟩, hfields, ⟨⟩⟩ := bind_eq_ok h
        have hitems : ∀ item ∈ items, Decodes item := by
          intro item hitem
          have hsize := Yaml.Node.sizeOf_lt_of_field? htuple
          have := List.sizeOf_lt_of_mem hitem
          rw [Yaml.Node.sequence.sizeOf_spec] at hsize
          exact ih item (by rw [Yaml.Node.mapping.sizeOf_spec]; omega)
        intro p
        rw [hlam, hlet, htuple, Expr.occurrences, List.flatMap_map]
        have htraced := traced_exprs hitems (.nil names) hfields
        exact .inner htraced rfl rfl
      · cases h
      · cases h

theorem decodes (node : Node) : Decodes node :=
  decodes_of_smaller fun v _ => decodes v
termination_by sizeOf node

/-- The nodes that the definitions of a document and its main expression are decoded from,
in that order. -/
def bodies : Node → List Node
  | .mapping _ pairs => ofDefinitions pairs ++ (Node.field? "main" pairs).toList
  | _ => []
where
  /-- Those that the definitions are decoded from. -/
  ofDefinitions (pairs : List (Node × Node)) : List Node :=
    match Node.field? "defs" pairs with
    | some (.sequence _ items) => items.filterMap body?
    | _ => []
  /-- The body of a definition. -/
  body? : Node → Option Node
    | .mapping _ pairs => Node.field? "body" pairs
    | _ => none

/-- The bodies of the definitions of a document and its main expression, in that order. -/
def units (d : Document) : List Expr :=
  d.defs.map Definition.body ++ d.main.toList

/-- The leaves of an expression stem from the scalars of a node one by one, outside of any
binder. -/
def Resolved (symbols : SymbolTable) (body : Node) (e : Expr) : Prop :=
  List.Forall₂ (Mention.Resolved symbols) (body.mentions [])
    (e.nodes.filter (·.node.isLeaf))

/-- What decoding several expressions on their own has come to. -/
structure UnitsTraced (nodes : List Node) (es : List Expr) (names names' : Names) :
    Prop where
  keeps : names.Keeps names'
  numbered : Lir.Numbered (Expr.introduced (es.flatMap Expr.nodes))
    names.nextBinder names'.nextBinder
  resolved : List.Forall₂ (Resolved names'.symbols) nodes es

namespace UnitsTraced

variable {nodes : List Node} {es : List Expr} {names₁ : Names}

theorem nil (names : Names) : UnitsTraced [] [] names names :=
  ⟨fun _ _ hs => hs, .nil _, .nil⟩

theorem resolved_mono (h : UnitsTraced nodes es names names₁) (hkeeps : names₁.Keeps names') :
    List.Forall₂ (Resolved names'.symbols) nodes es :=
  h.resolved.imp fun _ _ hleaves => hleaves.imp fun _ _ hm => hm.mono hkeeps

/-- One more expression. -/
theorem snoc (h : UnitsTraced nodes es names names₁) {node : Node} {e : Expr}
    (hexpr : expr [] node names₁ = .ok (e, names')) :
    UnitsTraced (nodes ++ [node]) (es ++ [e]) names names' := by
  have hdecoded := decodes node hexpr .value
  refine ⟨h.keeps.trans hdecoded.keeps, ?_, ?_⟩
  · rw [List.flatMap_append, List.flatMap_singleton, Expr.introduced, List.filterMap_append]
    exact h.numbered.append hdecoded.numbered
  · exact List.rel_append (h.resolved_mono hdecoded.keeps) (.cons hdecoded.leaves .nil)

theorem intern (h : UnitsTraced nodes es names names₁) (text : String) :
    UnitsTraced nodes es names (names₁.intern text).2 :=
  ⟨h.keeps.trans (names₁.keeps_intern text), h.numbered,
    h.resolved_mono (names₁.keeps_intern text)⟩

end UnitsTraced

variable {nodes : List Node} {names₁ : Names}

theorem definition_traced {es : List Expr} {node : Node} {d : Definition}
    (htraced : UnitsTraced nodes es names names₁)
    (h : definition node names₁ = .ok (d, names')) :
    ∃ body, bodies.body? node = some body ∧
      UnitsTraced (nodes ++ [body]) (es ++ [d.body]) names names' := by
  cases node with
  | mapping pos pairs =>
      rw [definition] at h
      split at h
      · cases h
      · rename_i name _
        split at h
        · cases h
        · rename_i body hbody
          obtain ⟨⟨e, names₂⟩, hexpr, ⟨⟩⟩ := bind_eq_ok h
          exact ⟨body, hbody, (htraced.snoc hexpr).intern name⟩
  | _ => cases h

theorem definitions_traced {items : List Node} {done ds : List Definition}
    (htraced : UnitsTraced nodes (done.reverse.map Definition.body) names names₁)
    (h : definitions done items names₁ = .ok (ds, names')) :
    UnitsTraced (nodes ++ items.filterMap bodies.body?) (ds.map Definition.body)
      names names' := by
  induction items generalizing done nodes names₁ with
  | nil =>
      rw [definitions] at h
      cases h
      rwa [List.filterMap_nil, List.append_nil]
  | cons item rest ih =>
      rw [definitions] at h
      obtain ⟨⟨d, names₂⟩, hd, hrest⟩ := bind_eq_ok h
      obtain ⟨body, hbody, htraced⟩ := definition_traced htraced hd
      have htraced : UnitsTraced (nodes ++ [body]) ((d :: done).reverse.map Definition.body)
          names names₂ := by
        rwa [List.reverse_cons, List.map_append]
      rw [List.filterMap_cons_some hbody, List.append_cons]
      exact ih htraced hrest

/-- A document is decoded from its definitions, if it has any, and then from its main
expression, if it has one. -/
theorem ofNode_eq_ok {pos : Pos} {pairs : List (Node × Node)} {d : Document}
    (h : ofNode (.mapping pos pairs) names = .ok (d, names')) :
    ∃ names₁,
      ((Node.field? "defs" pairs = none ∧ d.defs = [] ∧ names₁ = names) ∨
        ∃ pos items, Node.field? "defs" pairs = some (.sequence pos items) ∧
          definitions [] items names = .ok (d.defs, names₁)) ∧
      ((Node.field? "main" pairs = none ∧ d.main = none ∧ names' = names₁) ∨
        ∃ body e, Node.field? "main" pairs = some body ∧
          expr [] body names₁ = .ok (e, names') ∧ d.main = some e) := by
  let finish (defs : List Definition) (x : Option Expr × Names) :
      Except Failure (Document × Names) :=
    if x.1.isNone ∧ defs.isEmpty then
      fail (.mapping pos pairs) "document has neither defs nor main"
    else .ok (⟨defs, x.1⟩, x.2)
  have hfinish (defs : List Definition) (x : Option Expr × Names)
      (h : finish defs x = .ok (d, names')) : d.defs = defs ∧ d.main = x.1 ∧ names' = x.2 := by
    dsimp only [finish] at h
    split at h
    · cases h
    · cases h
      exact ⟨rfl, rfl, rfl⟩
  have hmain (body : Node) (defs : List Definition) (names₁ : Names)
      (h : ((expr [] body names₁).map fun x => (some x.1, x.2)) >>= finish defs =
        .ok (d, names')) :
      d.defs = defs ∧ ∃ e, expr [] body names₁ = .ok (e, names') ∧ d.main = some e := by
    cases hexpr : expr [] body names₁ with
    | error f =>
        rw [hexpr] at h
        cases h
    | ok x =>
        rw [hexpr] at h
        obtain ⟨hdefs, hmain, rfl⟩ := hfinish defs (some x.1, x.2) h
        exact ⟨hdefs, x.1, rfl, hmain⟩
  rw [ofNode] at h
  match hdefs : Node.field? "defs" pairs, hbody : Node.field? "main" pairs with
  | none, none =>
    rw [hdefs, hbody] at h
    obtain ⟨rdefs, rmain, rnames⟩ := hfinish [] (none, names) h
    exact ⟨names, .inl ⟨rfl, rdefs, rfl⟩, .inl ⟨rfl, rmain, rnames⟩⟩
  | none, some body =>
    rw [hdefs, hbody] at h
    obtain ⟨rdefs, e, hexpr, rmain⟩ := hmain body [] names h
    exact ⟨names, .inl ⟨rfl, rdefs, rfl⟩, .inr ⟨body, e, rfl, hexpr, rmain⟩⟩
  | some (.sequence _ items), none =>
    rw [hdefs, hbody] at h
    obtain ⟨⟨defs, names₁⟩, hdefinitions, h⟩ := bind_eq_ok h
    obtain ⟨rfl, rmain, rnames⟩ := hfinish defs (none, names₁) h
    exact ⟨names₁, .inr ⟨_, items, rfl, hdefinitions⟩, .inl ⟨rfl, rmain, rnames⟩⟩
  | some (.sequence _ items), some body =>
    rw [hdefs, hbody] at h
    obtain ⟨⟨defs, names₁⟩, hdefinitions, h⟩ := bind_eq_ok h
    obtain ⟨rfl, e, hexpr, rmain⟩ := hmain body defs names₁ h
    exact ⟨names₁, .inr ⟨_, items, rfl, hdefinitions⟩, .inr ⟨body, e, rfl, hexpr, rmain⟩⟩
  | some (.scalar ..), _ | some (.mapping ..), _ | some (.aliasOf ..), _ =>
    rw [hdefs] at h
    cases h

theorem ofNode_traced {node : Node} {d : Document}
    (h : ofNode node names = .ok (d, names')) :
    UnitsTraced (bodies node) d.units names names' := by
  cases node with
  | mapping pos pairs =>
      obtain ⟨names₁, hdefs, hmain⟩ := ofNode_eq_ok h
      have htraced : UnitsTraced (bodies.ofDefinitions pairs) (d.defs.map Definition.body)
          names names₁ := by
        rw [bodies.ofDefinitions]
        rcases hdefs with ⟨hfield, hnil, rfl⟩ | ⟨pos, items, hfield, hdefinitions⟩
        · rw [hfield, hnil]
          exact .nil names₁
        · rw [hfield]
          exact definitions_traced (.nil names) hdefinitions
      rw [bodies, units]
      rcases hmain with ⟨hfield, hnone, rfl⟩ | ⟨body, e, hfield, hexpr, hsome⟩
      · rw [hfield, hnone]
        simpa using htraced
      · rw [hfield, hsome]
        exact htraced.snoc hexpr
  | _ => cases h

end Document

namespace Mention

theorem Resolved.scoped {symbols : SymbolTable} {m : Mention} {o : Occurrence}
    (h : m.Resolved symbols o) {declared : Symbol → Bool}
    (hdeclared : ∀ pos s, o.node = .global pos (some s) → declared s = true) :
    o.Scoped declared := by
  have hvar (pos : Pos) (binder : Option Binder) (hnode : o.node = .var pos binder) :
      ∃ b ∈ o.binders, binder = some b := by
    obtain ⟨before, b, after, hb, hbinders, _⟩ := h.innermost pos binder hnode
    exact ⟨b, by simp [hbinders], hb⟩
  cases hint : m.scalar.isInteger with
  | true =>
      obtain ⟨value, _, hnode⟩ := h.integer hint
      exact ⟨by simp [hnode], hvar, by simp [hnode]⟩
  | false =>
      by_cases hmem : m.scalar.keyText ∈ m.enclosing
      · obtain ⟨pos, binder, hnode⟩ := (h.bound hint).1 hmem
        exact ⟨by simp [hnode], hvar, by simp [hnode]⟩
      · obtain ⟨s, _, hnode⟩ := h.free hint hmem
        refine ⟨by simp [hnode], hvar, fun pos symbol hglobal => ?_⟩
        rw [hnode] at hglobal
        cases hglobal
        exact ⟨s, rfl, hdeclared _ s hnode⟩

end Mention

namespace Document

theorem exists_of_mem_right {α β : Type} {R : α → β → Prop} {as : List α} {bs : List β}
    (h : List.Forall₂ R as bs) {b : β} (hb : b ∈ bs) : ∃ a ∈ as, R a b := by
  induction h with
  | nil => exact absurd hb List.not_mem_nil
  | @cons a _ _ _ hab _ ih =>
      rcases List.mem_cons.1 hb with rfl | hb
      · exact ⟨a, List.mem_cons_self, hab⟩
      · obtain ⟨a', ha', hab'⟩ := ih hb
        exact ⟨a', List.mem_cons_of_mem _ ha', hab'⟩

namespace Resolved

variable {symbols : SymbolTable} {body : Node} {e : Expr}

/-- A node of a decoded expression is in order unless it is an undeclared global. -/
theorem scoped_of_mem (h : Resolved symbols body e) {declared : Symbol → Bool} {o : Occurrence}
    (ho : o ∈ e.nodes)
    (hdeclared : ∀ pos s, o.node = .global pos (some s) → declared s = true) :
    o.Scoped declared := by
  cases hleaf : o.node.isLeaf with
  | true =>
      obtain ⟨m, _, hm⟩ := exists_of_mem_right h (List.mem_filter.2 ⟨ho, hleaf⟩)
      exact hm.scoped hdeclared
  | false =>
      refine ⟨fun hnode => ?_, fun _ _ hnode => ?_, fun _ _ hnode => ?_⟩
      all_goals
        rw [hnode] at hleaf
        cases hleaf

/-- All that lowering a decoded expression can miss is the declaration of a global. -/
theorem lower (h : Resolved symbols body e) (declared : Symbol → Bool) :
    ((∃ l, Lir.lower declared e = .ok l) ↔
        ∀ o ∈ e.nodes, ∀ pos s, o.node = .global pos (some s) → declared s = true) ∧
      ∀ f, Lir.lower declared e = .error f → f.cause = .unknownGlobal := by
  have hresolves : Lir.Resolves declared [] 0 .value e (Lir.lowerFrom declared [] 0 e) :=
    Lir.resolves_lowerFrom e [] 0 .value
  rw [Lir.lower]
  generalize Lir.lowerFrom declared [] 0 e = r at hresolves ⊢
  cases hresolves with
  | @ok l next' hall _ _ =>
      refine ⟨iff_of_true ⟨l, rfl⟩ fun o ho pos s hnode => ?_, fun f hf => by cases hf⟩
      obtain ⟨s', hs', hdeclared⟩ := (hall o ho).known pos (some s) hnode
      cases hs'
      exact hdeclared
  | @error f hfirst =>
      obtain ⟨before, o, after, hos, _, hout, rfl⟩ := hfirst
      have ho : o ∈ e.nodes := by
        rw [Expr.nodes]
        exact hos ▸ List.mem_append_right _ List.mem_cons_self
      have hnone : ¬∃ l, (.error o.fault : Except Fault Lir) = .ok l := by
        rintro ⟨l, hl⟩
        cases hl
      refine ⟨iff_of_false hnone fun hdeclared =>
        hout (h.scoped_of_mem ho (hdeclared o ho)), ?_⟩
      rintro _ ⟨⟩
      by_contra hcause
      refine hout (h.scoped_of_mem ho fun pos s hnode => absurd ?_ hcause)
      rw [Occurrence.fault, hnode]
      rfl

end Resolved

/-- The decoder resolves names lexically.  The definitions and the main expression of a
document that it accepts stem from their nodes scalar by scalar: a name that a `lam` or a
`let` binds around it becomes a variable of the innermost binder of that name, any other
name the global of its symbol, and no two binders of the document are the same.  So
lowering such an expression fails only for a global that is not declared, and succeeds
when all of them are. -/
theorem ofNode_resolves {node : Node} {names names' : Names} {d : Document}
    (h : ofNode node names = .ok (d, names')) :
    List.Forall₂ (Resolved names'.symbols) (bodies node) d.units ∧
      (Expr.introduced (d.units.flatMap Expr.nodes)).Nodup ∧
      ∀ e ∈ d.units, ∀ declared,
        ((∃ l, Lir.lower declared e = .ok l) ↔
          ∀ o ∈ e.nodes, ∀ pos s, o.node = .global pos (some s) → declared s = true) ∧
        ∀ f, Lir.lower declared e = .error f → f.cause = .unknownGlobal := by
  have htraced := ofNode_traced h
  refine ⟨htraced.resolved, htraced.numbered.nodup, fun e he declared => ?_⟩
  obtain ⟨body, _, hbody⟩ := exists_of_mem_right htraced.resolved he
  exact hbody.lower declared

/-- The function `f` of `[x, x]` refers to its second parameter and to a global `y`, which
the `let` in the main expression binds in its body only. -/
theorem ofNode_resolves_shadowed :
    let s (text : String) : Node := .scalar {} none true text
    let f : Node := .mapping {} [(s "lam", .sequence {} [s "x", s "x"]),
      (s "body", .sequence {} [s "x", s "y"])]
    let main : Node := .mapping {} [(s "let", s "y"), (s "value", s "y"),
      (s "body", .sequence {} [s "f", s "y"])]
    let node : Node := .mapping {} [
      (s "defs", .sequence {} [.mapping {} [(s "name", s "f"), (s "body", f)]]),
      (s "main", main)]
    let x (id : Nat) : Binder := ⟨id, "x"⟩
    let y : Binder := ⟨2, "y"⟩
    let g (name : String) : Expr := .global {} (some ⟨0, name⟩)
    let fBody : Expr :=
      .lam {} (x 0) (.lam {} (x 1) (.app {} (.var {} (some (x 1))) (g "y")))
    let mainBody : Expr := .letIn {} y (g "y") (.app {} (g "f") (.var {} (some y)))
    ∃ names', ofNode node {} = .ok (⟨[⟨{}, ⟨0, "f"⟩, fBody⟩], some mainBody⟩, names') ∧
      List.Forall₂ (Resolved names'.symbols) [f, main] [fBody, mainBody] := by
  intro s f main node x y g fBody mainBody
  have hok : ∃ names', ofNode node {} =
      .ok (⟨[⟨{}, ⟨0, "f"⟩, fBody⟩], some mainBody⟩, names') := by
    simp [node, f, main, s, x, y, g, fBody, mainBody, ofNode, definitions, definition, expr,
      lambda, letIn, parameters, localName?, globalName?, application, scalar, reference,
      Node.field?, Node.keyText, Node.isInteger, Node.pos, Yaml.plainInteger?, Names.bindAll,
      Names.bind, Names.intern, SymbolTable.intern, bind, Except.bind, pure, Except.pure,
      Except.map]
  obtain ⟨names', hok⟩ := hok
  refine ⟨names', hok, ?_⟩
  have hbodies : bodies node = [f, main] := rfl
  exact hbodies ▸ (ofNode_resolves hok).1

end Document

end Zinc
