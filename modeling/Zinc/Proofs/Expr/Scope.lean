import Zinc.Code.Generate
import Zinc.Lir.Lower

/-!
Scoping.  Every node of an expression is listed with the binders whose bodies it lies in,
in the order in which lowering reads them.  Lowering accepts an expression exactly when
each of its nodes is in order where it stands, and otherwise reports the first one that
is not.  The lowered form has the shape of the expression, a node of its own for every
binder, and each variable names the node of the innermost binder that it refers to.
-/

namespace Zinc

/-- A node of an expression where it stands: the position of its value, the binders whose
bodies it lies in, innermost first, and the node itself. -/
structure Occurrence where
  position : Position
  binders : List Binder
  node : Expr

namespace Expr

mutual

/-- The nodes of an expression that stands in a position inside the bodies of `binders`: a
node before the nodes inside it, those of the function before those of the argument, of
the value of a `let` before its body, and of fields from left to right. -/
def occurrences (p : Position) (binders : List Binder) : Expr → List Occurrence
  | .lam pos param body =>
    ⟨p, binders, .lam pos param body⟩ :: body.occurrences .tail (param :: binders)
  | .app pos fn arg =>
    ⟨p, binders, .app pos fn arg⟩ ::
      (fn.occurrences .head binders ++ arg.occurrences .value binders)
  | .letIn pos binder value body =>
    ⟨p, binders, .letIn pos binder value body⟩ ::
      (value.occurrences .value binders ++ body.occurrences p.ofBody (binder :: binders))
  | .tuple pos fields => ⟨p, binders, .tuple pos fields⟩ :: fieldOccurrences binders fields
  | .var pos binder => [⟨p, binders, .var pos binder⟩]
  | .global pos symbol => [⟨p, binders, .global pos symbol⟩]
  | .int pos value => [⟨p, binders, .int pos value⟩]
  | .missing => [⟨p, binders, .missing⟩]

/-- The nodes of the fields of a tuple. -/
def fieldOccurrences (binders : List Binder) : List Expr → List Occurrence
  | [] => []
  | field :: rest => field.occurrences .value binders ++ fieldOccurrences binders rest

end

/-- The nodes of an expression that is compiled on its own. -/
def nodes (e : Expr) : List Occurrence :=
  e.occurrences .value []

end Expr

namespace Occurrence

/-- A node is in order where it stands: it is there, a variable lies in the body of its
binder, and a global is declared. -/
structure Scoped (declared : Symbol → Bool) (o : Occurrence) : Prop where
  present : o.node ≠ .missing
  bound : ∀ pos binder, o.node = .var pos binder → ∃ b ∈ o.binders, binder = some b
  known : ∀ pos symbol, o.node = .global pos symbol →
    ∃ s, symbol = some s ∧ declared s = true

/-- The fault of a node that is not in order. -/
def fault (o : Occurrence) : Fault :=
  match o.node with
  | .var pos binder => Lir.unboundVariable binder pos
  | .global pos symbol => Lir.undeclaredGlobal symbol pos
  | _ => Lir.absentNode

/-- The fault is that of the first node in the list that is not in order. -/
def FirstFault (declared : Symbol → Bool) (os : List Occurrence) (f : Fault) : Prop :=
  ∃ before o after, os = before ++ o :: after ∧ (∀ x ∈ before, x.Scoped declared) ∧
    ¬ o.Scoped declared ∧ f = o.fault

variable {declared : Symbol → Bool} {f : Fault} {o : Occurrence}

theorem FirstFault.single (h : ¬ o.Scoped declared) : FirstFault declared [o] o.fault :=
  ⟨[], o, [], rfl, fun _ hx => absurd hx List.not_mem_nil, h, rfl⟩

theorem FirstFault.left {os : List Occurrence} (h : FirstFault declared os f)
    (more : List Occurrence) : FirstFault declared (os ++ more) f := by
  obtain ⟨before, o, after, rfl, hbefore, ho, hf⟩ := h
  exact ⟨before, o, after ++ more, by simp, hbefore, ho, hf⟩

theorem FirstFault.right {os : List Occurrence} (h : FirstFault declared os f)
    {first : List Occurrence} (hfirst : ∀ x ∈ first, x.Scoped declared) :
    FirstFault declared (first ++ os) f := by
  obtain ⟨before, o, after, rfl, hbefore, ho, hf⟩ := h
  refine ⟨first ++ before, o, after, by simp, fun x hx => ?_, ho, hf⟩
  rcases List.mem_append.1 hx with hx | hx
  · exact hfirst x hx
  · exact hbefore x hx

theorem FirstFault.cons {os : List Occurrence} (h : FirstFault declared os f)
    (ho : o.Scoped declared) : FirstFault declared (o :: os) f := by
  have hfirst : ∀ x ∈ [o], x.Scoped declared := List.forall_mem_singleton.2 ho
  exact h.right hfirst

theorem FirstFault.exists {os : List Occurrence} (h : FirstFault declared os f) :
    ∃ o ∈ os, ¬ o.Scoped declared := by
  obtain ⟨before, o, after, rfl, _, ho, _⟩ := h
  exact ⟨o, by simp, ho⟩

end Occurrence

namespace Lir

/-- The lowered form of an expression in a scope.  It has the shape of the expression.  A
variable names the node of the innermost binder in scope that is its own, and its depth
is given by the number of binders in between. -/
inductive Lowered (declared : Symbol → Bool) (depth : Nat → Nat) :
    Scope → Expr → Lir → Prop where
  | lam {scope : Scope} {pos : Pos} {param : Binder} {id : Nat} {body : Expr} {body' : Lir} :
      Lowered declared depth ((param, id) :: scope) body body' →
      Lowered declared depth scope (.lam pos param body) (.lam id body')
  | app {scope : Scope} {pos : Pos} {fn arg : Expr} {fn' arg' : Lir} :
      Lowered declared depth scope fn fn' → Lowered declared depth scope arg arg' →
      Lowered declared depth scope (.app pos fn arg) (.app fn' arg')
  | letIn {scope : Scope} {pos : Pos} {binder : Binder} {id : Nat} {value body : Expr}
      {value' body' : Lir} :
      Lowered declared depth scope value value' →
      Lowered declared depth ((binder, id) :: scope) body body' →
      Lowered declared depth scope (.letIn pos binder value body) (.letIn id value' body')
  | var {before after : Scope} {pos : Pos} {b : Binder} {id : Nat} :
      (∀ entry ∈ before, entry.1 ≠ b) →
      Lowered declared depth (before ++ (b, id) :: after) (.var pos (some b))
        (.var id (depth before.length))
  | global {scope : Scope} {pos : Pos} {s : Symbol} : declared s = true →
      Lowered declared depth scope (.global pos (some s)) (.global s)
  | int {scope : Scope} {pos : Pos} {value : Int64} :
      Lowered declared depth scope (.int pos value) (.int value)
  | tuple {scope : Scope} {pos : Pos} {fields : List Expr} {fields' : List Lir} :
      fields'.length = fields.length →
      (∀ x ∈ fields.zip fields', Lowered declared depth scope x.1 x.2) →
      Lowered declared depth scope (.tuple pos fields) (.block tupleKind fields')

mutual

/-- The nodes of the binders in a tree. -/
def binders : Lir → List Nat
  | .lam id body => id :: body.binders
  | .letIn id value body => value.binders ++ id :: body.binders
  | .app fn arg => fn.binders ++ arg.binders
  | .block _ fields => fieldBinders fields
  | _ => []

/-- The nodes of the binders in the fields of a block. -/
def fieldBinders : List Lir → List Nat
  | [] => []
  | field :: rest => field.binders ++ fieldBinders rest

end

/-- Nodes that were handed out while the next free number went up. -/
structure Numbered (ids : List Nat) (next next' : Nat) : Prop where
  le : next ≤ next'
  nodup : ids.Nodup
  range : ∀ id ∈ ids, next ≤ id ∧ id < next'

namespace Numbered

theorem nil (next : Nat) : Numbered [] next next :=
  ⟨Nat.le_refl _, List.nodup_nil, fun _ h => absurd h List.not_mem_nil⟩

theorem cons {ids : List Nat} {next next' : Nat} (h : Numbered ids (next + 1) next') :
    Numbered (next :: ids) next next' := by
  have hle := h.le
  refine ⟨by omega, List.nodup_cons.2 ⟨fun hmem => ?_, h.nodup⟩, fun id hid => ?_⟩
  · have := (h.range next hmem).1
    omega
  · rcases List.mem_cons.1 hid with rfl | hid
    · omega
    · have := h.range id hid
      omega

theorem append {ids ids' : List Nat} {next mid next' : Nat} (h : Numbered ids next mid)
    (h' : Numbered ids' mid next') : Numbered (ids ++ ids') next next' := by
  have hle := h.le
  have hle' := h'.le
  refine ⟨by omega, List.nodup_append.2 ⟨h.nodup, h'.nodup, ?_⟩, fun id hid => ?_⟩
  · intro id hid id' hid' heq
    have := h.range id hid
    have := h'.range id' hid'
    omega
  · rcases List.mem_append.1 hid with hid | hid
    · have := h.range id hid
      omega
    · have := h'.range id hid
      omega

end Numbered

/-- What a binder is resolved to is the innermost entry of the scope for it. -/
theorem Scope.origin?_eq_some {scope : Scope} {b : Binder} {id : Nat}
    (h : scope.origin? b = some id) :
    ∃ before after, scope = before ++ (b, id) :: after ∧ ∀ entry ∈ before, entry.1 ≠ b := by
  obtain ⟨⟨b', id'⟩, hfind, rfl⟩ := Option.map_eq_some_iff.1 h
  obtain ⟨hb, before, after, hscope, hbefore⟩ := List.find?_eq_some_iff_append.1 hfind
  obtain rfl := of_decide_eq_true hb
  exact ⟨before, after, hscope, fun entry hentry => by simpa using hbefore entry hentry⟩

theorem Scope.origin?_eq_none {scope : Scope} {b : Binder} (h : scope.origin? b = none) :
    b ∉ scope.map Prod.fst := by
  intro hmem
  obtain ⟨entry, hentry, rfl⟩ := List.mem_map.1 hmem
  have hnone := List.find?_eq_none.1 (Option.map_eq_none_iff.1 h) entry hentry
  simp at hnone

/-- What lowering an expression comes to: its nodes are all in order and the tree is its
lowered form, or the fault is that of the first node that is not in order. -/
inductive Resolves (declared : Symbol → Bool) (scope : Scope) (next : Nat) (p : Position)
    (e : Expr) : Except Fault (Lir × Nat) → Prop where
  | ok {l : Lir} {next' : Nat} :
      (∀ o ∈ e.occurrences p (scope.map Prod.fst), o.Scoped declared) →
      Lowered declared (fun _ => 0) scope e l → Numbered l.binders next next' →
      Resolves declared scope next p e (.ok (l, next'))
  | error {f : Fault} :
      Occurrence.FirstFault declared (e.occurrences p (scope.map Prod.fst)) f →
      Resolves declared scope next p e (.error f)

/-- The same for the fields of a tuple, which come after the fields `done`. -/
inductive ResolvesFields (declared : Symbol → Bool) (scope : Scope) (next : Nat)
    (done : List Lir) (fields : List Expr) : Except Fault (Lir × Nat) → Prop where
  | ok {fields' : List Lir} {next' : Nat} :
      (∀ o ∈ Expr.fieldOccurrences (scope.map Prod.fst) fields, o.Scoped declared) →
      fields'.length = fields.length →
      (∀ x ∈ fields.zip fields', Lowered declared (fun _ => 0) scope x.1 x.2) →
      Numbered (fieldBinders fields') next next' →
      ResolvesFields declared scope next done fields
        (.ok (.block tupleKind (done.reverse ++ fields'), next'))
  | error {f : Fault} :
      Occurrence.FirstFault declared
        (Expr.fieldOccurrences (scope.map Prod.fst) fields) f →
      ResolvesFields declared scope next done fields (.error f)

variable {declared : Symbol → Bool}

mutual

theorem resolves_lowerFrom : (e : Expr) → (scope : Scope) → (next : Nat) → (p : Position) →
    Resolves declared scope next p e (lowerFrom declared scope next e)
  | .lam pos param body, scope, next, p => by
      have hnode : Occurrence.Scoped declared
          ⟨p, scope.map Prod.fst, .lam pos param body⟩ := ⟨nofun, nofun, nofun⟩
      have hbody := resolves_lowerFrom body ((param, next) :: scope) (next + 1) .tail
      rw [lowerFrom]
      generalize lowerFrom declared ((param, next) :: scope) (next + 1) body = r at hbody ⊢
      cases hbody with
      | error hfirst =>
          refine .error ?_
          rw [Expr.occurrences]
          exact hfirst.cons hnode
      | ok hall hlowered hnumbered =>
          refine .ok ?_ (.lam hlowered) hnumbered.cons
          rw [Expr.occurrences]
          exact List.forall_mem_cons.2 ⟨hnode, hall⟩
  | .app pos fn arg, scope, next, p => by
      have hnode : Occurrence.Scoped declared
          ⟨p, scope.map Prod.fst, .app pos fn arg⟩ := ⟨nofun, nofun, nofun⟩
      have hfn := resolves_lowerFrom fn scope next .head
      rw [lowerFrom]
      generalize lowerFrom declared scope next fn = r at hfn ⊢
      cases hfn with
      | error hfirst =>
          refine .error ?_
          rw [Expr.occurrences]
          exact (hfirst.left _).cons hnode
      | @ok fn' next₁ hall hlowered hnumbered =>
          have harg := resolves_lowerFrom arg scope next₁ .value
          dsimp only
          generalize lowerFrom declared scope next₁ arg = r at harg ⊢
          cases harg with
          | error hfirst =>
              refine .error ?_
              rw [Expr.occurrences]
              exact (hfirst.right hall).cons hnode
          | ok hall' hlowered' hnumbered' =>
              refine .ok ?_ (.app hlowered hlowered') (hnumbered.append hnumbered')
              rw [Expr.occurrences]
              exact List.forall_mem_cons.2 ⟨hnode, List.forall_mem_append.2 ⟨hall, hall'⟩⟩
  | .letIn pos binder value body, scope, next, p => by
      have hnode : Occurrence.Scoped declared
          ⟨p, scope.map Prod.fst, .letIn pos binder value body⟩ := ⟨nofun, nofun, nofun⟩
      have hvalue := resolves_lowerFrom value scope next .value
      rw [lowerFrom]
      generalize lowerFrom declared scope next value = r at hvalue ⊢
      cases hvalue with
      | error hfirst =>
          refine .error ?_
          rw [Expr.occurrences]
          exact (hfirst.left _).cons hnode
      | @ok value' next₁ hall hlowered hnumbered =>
          have hbody := resolves_lowerFrom body ((binder, next₁) :: scope) (next₁ + 1) p.ofBody
          dsimp only
          generalize lowerFrom declared ((binder, next₁) :: scope) (next₁ + 1) body = r
            at hbody ⊢
          cases hbody with
          | error hfirst =>
              refine .error ?_
              rw [Expr.occurrences]
              exact (hfirst.right hall).cons hnode
          | ok hall' hlowered' hnumbered' =>
              refine .ok ?_ (.letIn hlowered hlowered') (hnumbered.append hnumbered'.cons)
              rw [Expr.occurrences]
              exact List.forall_mem_cons.2 ⟨hnode, List.forall_mem_append.2 ⟨hall, hall'⟩⟩
  | .var pos binder, scope, next, p => by
      rw [lowerFrom]
      cases horigin : binder.bind scope.origin? with
      | some origin =>
          obtain ⟨b, rfl, hb⟩ := Option.bind_eq_some_iff.1 horigin
          obtain ⟨before, after, rfl, hbefore⟩ := Scope.origin?_eq_some hb
          refine .ok ?_ (.var hbefore) (.nil next)
          rw [Expr.occurrences]
          refine List.forall_mem_singleton.2 ⟨nofun, fun _ _ heq => ?_, nofun⟩
          cases heq
          exact ⟨b, by simp, rfl⟩
      | none =>
          refine .error ?_
          rw [Expr.occurrences]
          refine .single (o := ⟨p, _, .var pos binder⟩) fun hscoped => ?_
          obtain ⟨b, hb, rfl⟩ := hscoped.bound pos binder rfl
          exact Scope.origin?_eq_none horigin hb
  | .global pos symbol, scope, next, p => by
      rw [lowerFrom]
      cases hsymbol : symbol.filter declared with
      | some s =>
          obtain ⟨rfl, hs⟩ := Option.filter_eq_some_iff.1 hsymbol
          refine .ok ?_ (.global hs) (.nil next)
          rw [Expr.occurrences]
          refine List.forall_mem_singleton.2 ⟨nofun, nofun, fun _ _ heq => ?_⟩
          cases heq
          exact ⟨s, rfl, hs⟩
      | none =>
          refine .error ?_
          rw [Expr.occurrences]
          refine .single (o := ⟨p, _, .global pos symbol⟩) fun hscoped => ?_
          obtain ⟨s, rfl, hs⟩ := hscoped.known pos symbol rfl
          simp [hs] at hsymbol
  | .int pos value, scope, next, p => by
      rw [lowerFrom]
      refine .ok ?_ .int (.nil next)
      rw [Expr.occurrences]
      exact List.forall_mem_singleton.2 ⟨nofun, nofun, nofun⟩
  | .tuple pos fields, scope, next, p => by
      have hnode : Occurrence.Scoped declared
          ⟨p, scope.map Prod.fst, .tuple pos fields⟩ := ⟨nofun, nofun, nofun⟩
      have hfields := resolves_lowerFields fields scope next []
      rw [lowerFrom]
      generalize lowerFields declared scope next fields [] = r at hfields ⊢
      cases hfields with
      | error hfirst =>
          refine .error ?_
          rw [Expr.occurrences]
          exact hfirst.cons hnode
      | ok hall hlength hlowered hnumbered =>
          refine .ok ?_ (.tuple hlength hlowered) hnumbered
          rw [Expr.occurrences]
          exact List.forall_mem_cons.2 ⟨hnode, hall⟩
  | .missing, scope, next, p => by
      rw [lowerFrom]
      refine .error ?_
      rw [Expr.occurrences]
      exact .single (o := ⟨p, _, .missing⟩) fun hscoped => hscoped.present rfl

theorem resolves_lowerFields : (fields : List Expr) → (scope : Scope) → (next : Nat) →
    (done : List Lir) →
    ResolvesFields declared scope next done fields
      (lowerFields declared scope next fields done)
  | [], scope, next, done => by
      rw [lowerFields]
      have h : ResolvesFields declared scope next done []
          (.ok (.block tupleKind (done.reverse ++ []), next)) :=
        .ok (by simp [Expr.fieldOccurrences]) rfl (by simp) (.nil next)
      rwa [List.append_nil] at h
  | field :: rest, scope, next, done => by
      have hfield := resolves_lowerFrom field scope next .value
      rw [lowerFields]
      generalize lowerFrom declared scope next field = r at hfield ⊢
      cases hfield with
      | error hfirst =>
          refine .error ?_
          rw [Expr.fieldOccurrences]
          exact hfirst.left _
      | @ok field' next₁ hall hlowered hnumbered =>
          have hrest := resolves_lowerFields rest scope next₁ (field' :: done)
          dsimp only
          generalize lowerFields declared scope next₁ rest (field' :: done) = r at hrest ⊢
          cases hrest with
          | error hfirst =>
              refine .error ?_
              rw [Expr.fieldOccurrences]
              exact hfirst.right hall
          | @ok rest' next' hall' hlength hlowered' hnumbered' =>
              rw [List.reverse_cons, List.append_assoc]
              refine .ok ?_ (congrArg Nat.succ hlength) ?_ (hnumbered.append hnumbered')
              · rw [Expr.fieldOccurrences]
                exact List.forall_mem_append.2 ⟨hall, hall'⟩
              · exact List.forall_mem_cons.2 ⟨hlowered, hlowered'⟩

end

theorem lowered_of_lower {e : Expr} {l : Lir} (h : lower declared e = .ok l) :
    Lowered declared (fun _ => 0) [] e l ∧ l.binders.Nodup := by
  have hresolves : Resolves declared [] 0 .value e (lowerFrom declared [] 0 e) :=
    resolves_lowerFrom e [] 0 .value
  rw [lower] at h
  generalize lowerFrom declared [] 0 e = r at hresolves h
  cases hresolves with
  | error hfirst => cases h
  | ok hall hlowered hnumbered =>
      cases h
      exact ⟨hlowered, hnumbered.nodup⟩

/-- Lowering accepts exactly the expressions whose nodes are all in order.  What it makes
of them has the same shape, no two binders share a node, and every variable names the node
of the innermost enclosing binder that is its own.  When it refuses an expression, the
fault is that of the first node that is not in order. -/
theorem lower_resolves (declared : Symbol → Bool) (e : Expr) :
    ((∃ l, lower declared e = .ok l) ↔ ∀ o ∈ e.nodes, o.Scoped declared) ∧
      (∀ l, lower declared e = .ok l →
        Lowered declared (fun _ => 0) [] e l ∧ l.binders.Nodup) ∧
      ∀ f, lower declared e = .error f → Occurrence.FirstFault declared e.nodes f := by
  have hresolves : Resolves declared [] 0 .value e (lowerFrom declared [] 0 e) :=
    resolves_lowerFrom e [] 0 .value
  refine ⟨?_, fun _ => lowered_of_lower, ?_⟩
  all_goals
    rw [lower]
    generalize lowerFrom declared [] 0 e = r at hresolves ⊢
  · cases hresolves with
    | @ok l next' hall _ _ => exact ⟨fun _ => hall, fun _ => ⟨l, rfl⟩⟩
    | error hfirst =>
        refine ⟨nofun, fun hall => ?_⟩
        obtain ⟨o, ho, hout⟩ := hfirst.exists
        exact absurd (hall o ho) hout
  · intro f heq
    cases hresolves with
    | ok _ _ _ => cases heq
    | error hfirst =>
        cases heq
        exact hfirst

/-- A function of `x` inside the body of another function of the same `x`: the variable in
its body is its own.  A tuple with two nodes that are not in order: the left one counts. -/
theorem lower_resolves_rebound :
    let x : Binder := ⟨0, "x"⟩
    let y : Binder := ⟨1, "x"⟩
    let rebound : Expr :=
      .lam {} x (.app {} (.lam {} x (.var {} (some x))) (.var {} (some x)))
    let l : Lir := .lam 0 (.app (.lam 1 (.var 1 0)) (.var 0 0))
    let stray : Expr := .lam {} x (.tuple {} [.var {} (some y), .missing])
    (∀ o ∈ rebound.nodes, o.Scoped fun _ => false) ∧
      Lowered (fun _ => false) (fun _ => 0) [] rebound l ∧ l.binders.Nodup ∧
      Occurrence.FirstFault (fun _ => false) stray.nodes (unboundVariable (some y) {}) := by
  intro x y rebound l stray
  have hok : lower (fun _ => false) rebound = .ok l := rfl
  have herror : lower (fun _ => false) stray = .error (unboundVariable (some y) {}) := rfl
  obtain ⟨hiff, hlowered, _⟩ := lower_resolves (fun _ => false) rebound
  exact ⟨hiff.1 ⟨l, hok⟩, (hlowered l hok).1, (hlowered l hok).2,
    (lower_resolves (fun _ => false) stray).2.2 _ herror⟩

end Lir

end Zinc
