import Zinc.Expr
import Zinc.Failure
import Zinc.Yaml.Node

/-!
Programs written as YAML.  A document lists definitions and may have a main
expression:

    defs:
      - name: const
        body: {lam: [x, y], body: x}
    main: [const, 1, 2]

A scalar is an integer or a name, a list is an application, and a mapping is one
of the forms `lam`, `let` and `tuple`.  A name refers to the innermost binder of
that name around it, and to the global of that name if there is none.
-/

-- The equations of some matches serve the termination proofs only.
set_option linter.unusedVariables false

namespace Zinc

open Yaml (Node)

/-- A global and the expression it is defined by. -/
structure Definition where
  pos : Pos
  name : Symbol
  body : Expr
deriving Repr, Inhabited

/-- A program. -/
structure Document where
  defs : List Definition := []
  main : Option Expr := none
deriving Repr, Inhabited

/-- The names given out so far. -/
structure Names where
  nextBinder : Nat := 0
  symbols : SymbolTable := {}

namespace Names

/-- A new binder. -/
def bind (name : String) (n : Names) : Binder × Names :=
  (⟨n.nextBinder, name⟩, { n with nextBinder := n.nextBinder + 1 })

/-- New binders, in order. -/
def bindAll (names : List String) (n : Names) : List Binder × Names :=
  ((names.zipIdx n.nextBinder).map fun (name, id) => ⟨id, name⟩,
    { n with nextBinder := n.nextBinder + names.length })

/-- The symbol of a global. -/
def intern (name : String) (n : Names) : Symbol × Names :=
  let (symbol, symbols) := n.symbols.intern name
  (symbol, { n with symbols })

end Names

namespace Document

/-- A malformed node. -/
def fail {α : Type} (node : Node) (message : String) : Except Failure α :=
  .error (.document node.pos message)

/-- The text of a scalar that can name a local variable. -/
def localName? : Node → Option String
  | .scalar pos tag isPlain text =>
    if (Node.scalar pos tag isPlain text).isInteger || text.isEmpty then none else some text
  | _ => none

/-- The names in the parameter list of a function. -/
def parameters (node : Node) : Except Failure (List String) :=
  let name (p : Node) : Except Failure String :=
    match localName? p with
    | some text => .ok text
    | none => fail p "parameter must be a name"
  match node with
  | .scalar _ _ _ _ => (name node).map ([·])
  | .sequence _ [] => fail node "lambda needs at least one parameter"
  | .sequence _ items => items.mapM name
  | _ => fail node "parameters must be a name or a list of names"

/-- The expression that a name stands for.  The scope lists the innermost binder
first. -/
def reference (scope : List Binder) (pos : Pos) (text : String) (names : Names) : Expr × Names :=
  match scope.find? (·.name = text) with
  | some binder => (.var pos (some binder), names)
  | none =>
    let (symbol, names) := names.intern text
    (.global pos (some symbol), names)

/-- The expression that a scalar stands for. -/
def scalar (scope : List Binder) (node : Node) (text : String) (names : Names) :
    Except Failure (Expr × Names) :=
  if node.isInteger then
    match Text.integerOfNumeral text with
    | .ok value => .ok (.int node.pos value, names)
    | .error e => fail node ("integer literal " ++ Text.quoted text ++ ": " ++
        e.report "ParseInt" text)
  else if text.isEmpty then fail node "empty name"
  else .ok (reference scope node.pos text names)

mutual

/-- The expression that a node stands for. -/
def expr (scope : List Binder) (node : Node) (names : Names) : Except Failure (Expr × Names) :=
  match node with
  | .scalar pos tag isPlain text => scalar scope (.scalar pos tag isPlain text) text names
  | .sequence _ (fn :: arg :: args) => do
    let (fn, names) ← expr scope fn names
    application scope fn (arg :: args) names
  | .sequence pos items =>
    fail (.sequence pos items) "application needs a function and at least one argument"
  | .aliasOf pos name target => fail (.aliasOf pos name target) "aliases are not supported"
  | .mapping pos pairs =>
    match Node.field? "lam" pairs, Node.field? "let" pairs, h : Node.field? "tuple" pairs with
    | some params, _, _ => lambda scope pos pairs params names
    | none, some name, _ => letIn scope pos pairs name names
    | none, none, some (.sequence _ items) => do
      let (fields, names) ← exprs scope [] items names
      return (.tuple pos fields, names)
    | none, none, some other => fail other "tuple must be a list"
    | none, none, none =>
      fail (.mapping pos pairs) "mapping must be a lam, let or tuple form"
termination_by (sizeOf node, 1)
decreasing_by
  · simp_wf; omega
  · simp_wf; omega
  · simp_wf; omega
  · simp_wf; omega
  · have smaller := Node.sizeOf_lt_of_field? h
    simp only [Node.sequence.sizeOf_spec] at smaller
    simp_wf; omega

/-- The function that a `lam` form stands for. -/
def lambda (scope : List Binder) (pos : Pos) (pairs : List (Node × Node)) (params : Node)
    (names : Names) : Except Failure (Expr × Names) := do
  let params ← parameters params
  match h : Node.field? "body" pairs with
  | none => fail (.mapping pos pairs) "lambda needs a body"
  | some body =>
    let (binders, names) := names.bindAll params
    let (body, names) ← expr (binders.reverse ++ scope) body names
    return (binders.foldr (Expr.lam pos) body, names)
termination_by (1 + sizeOf pos + sizeOf pairs, 0)
decreasing_by
  have smaller := Node.sizeOf_lt_of_field? h
  omega

/-- The expression that a `let` form stands for.  The value lies outside the scope of
the name. -/
def letIn (scope : List Binder) (pos : Pos) (pairs : List (Node × Node)) (name : Node)
    (names : Names) : Except Failure (Expr × Names) :=
  match localName? name, hv : Node.field? "value" pairs, hb : Node.field? "body" pairs with
  | none, _, _ => fail name "let must bind a name"
  | some _, none, _ => fail (.mapping pos pairs) "let needs a value"
  | some _, some _, none => fail (.mapping pos pairs) "let needs a body"
  | some name, some value, some body => do
    let (value, names) ← expr scope value names
    let (binder, names) := names.bind name
    let (body, names) ← expr (binder :: scope) body names
    return (.letIn pos binder value body, names)
termination_by (1 + sizeOf pos + sizeOf pairs, 0)
decreasing_by
  · have smaller := Node.sizeOf_lt_of_field? hv
    omega
  · have smaller := Node.sizeOf_lt_of_field? hb
    omega

/-- The application of `fn` to the expressions that `args` stand for. -/
def application (scope : List Binder) (fn : Expr) (args : List Node) (names : Names) :
    Except Failure (Expr × Names) :=
  match args with
  | [] => .ok (fn, names)
  | arg :: rest => do
    let (e, names) ← expr scope arg names
    application scope (.app arg.pos fn e) rest names
termination_by (sizeOf args, 0)

/-- The expressions that `items` stand for, after those in `done`, in reverse. -/
def exprs (scope : List Binder) (done : List Expr) (items : List Node) (names : Names) :
    Except Failure (List Expr × Names) :=
  match items with
  | [] => .ok (done.reverse, names)
  | item :: rest => do
    let (e, names) ← expr scope item names
    exprs scope (e :: done) rest names
termination_by (sizeOf items, 0)

end

/-- The text of a scalar that can name a global. -/
def globalName? : Node → Option String
  | .scalar _ _ _ text => if text.isEmpty then none else some text
  | _ => none

/-- The definition that a node stands for. -/
def definition (node : Node) (names : Names) : Except Failure (Definition × Names) :=
  match node with
  | .mapping pos pairs =>
    match (Node.field? "name" pairs).bind globalName? with
    | none => fail node "def needs a name"
    | some name =>
      match Node.field? "body" pairs with
      | none => fail node ("def " ++ Text.quoted name ++ " needs a body")
      | some body => do
        let (body, names) ← expr [] body names
        let (symbol, names) := names.intern name
        return (⟨pos, symbol, body⟩, names)
  | _ => fail node "def must be a mapping with name and body"

/-- The definitions that `items` stand for, after those in `done`, in reverse. -/
def definitions (done : List Definition) :
    List Node → Names → Except Failure (List Definition × Names)
  | [], names => .ok (done.reverse, names)
  | item :: rest, names => do
    let (d, names) ← definition item names
    definitions (d :: done) rest names

/-- The program that a node stands for. -/
def ofNode (node : Node) (names : Names) : Except Failure (Document × Names) :=
  match node with
  | .mapping _ pairs => do
    let (defs, names) ← match Node.field? "defs" pairs with
      | none => .ok ([], names)
      | some (.sequence _ items) => definitions [] items names
      | some other => fail other "defs must be a list"
    let (main, names) ← match Node.field? "main" pairs with
      | none => .ok (none, names)
      | some body => (expr [] body names).map fun (e, names) => (some e, names)
    if main.isNone ∧ defs.isEmpty then fail node "document has neither defs nor main"
    else return ({ defs, main }, names)
  | _ => fail node "document must be a mapping"

/-- The program that a source holds, its globals interned in `symbols`. -/
def parse [Yaml.Parser] (source : ByteArray) (symbols : SymbolTable) :
    Except Failure (Document × SymbolTable) :=
  match Yaml.Parser.content source with
  | .malformed => .error (.within "parsing document" .yaml)
  | .empty => .error (.document {} "empty document")
  | .root node => (ofNode node { symbols }).map fun (d, names) => (d, names.symbols)

end Document

end Zinc
