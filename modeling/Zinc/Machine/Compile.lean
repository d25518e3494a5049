import Zinc.Code.Emit
import Zinc.Lir.Lower
import Zinc.Machine.Access

/-!
Compiling into a machine.  The code of a unit is appended to the code area, or
the area stays as it is when compilation fails; a global declared for a
definition that fails is given up again.
-/

namespace Zinc.Machine

/-- Lowers an expression against the current globals. -/
def lower (m : Machine) (e : Expr) : Except Fault Lir :=
  if m.closed then .error (closedFault "lower")
  else Lir.lower m.globals.isDeclared e

/-- The record of a compiled unit. -/
def compiledRecord (op : String) (entry bytes : Nat) : Record where
  message := "compiled"
  attrs := [("op", op), ("entry", toString entry), ("bytes", toString bytes)]

/-- Takes over the code that an emitter has written, and records a unit that compiled. -/
def takeOver (m : Machine) (op : String) (r : Compiled × Emitter) : Compiled × Machine :=
  let (unit, c) := r
  let m := { m with code := c.code }
  match unit.entry with
  | .error _ => (unit, m)
  | .ok entry => (unit, m.logged (compiledRecord op entry (c.code.size - entry)))

/-- Compiles an expression, whether the machine is open or not. -/
def compileExpr (m : Machine) (l : Lir) : Compiled × Machine :=
  m.takeOver "compile" (Emitter.compileExpr { code := m.code } m.globals.slot? l)

/-- Compiles the definition of a declared global. -/
def compileDefinition (m : Machine) (s : Symbol) (l : Lir) : Compiled × Machine :=
  m.takeOver "define" (Emitter.compileDefinition { code := m.code } m.globals.slot? s l)

/-- Compiles an expression and answers where its code starts. -/
def compileEntry (m : Machine) (l : Lir) : Compiled × Machine :=
  if m.closed then (⟨l, .error (closedFault "compile")⟩, m) else m.compileExpr l

/-- Declares a global and compiles its definition.  `source` gives the lowered
expression once the global is declared; it may use the machine, and it may fail. -/
def defineEntryWith {ε : Type} (m : Machine) (s : Symbol) (refuse : Fault → ε)
    (source : Machine → Except ε Lir × Machine) : Option Lir × Except ε Nat × Machine :=
  if m.closed then (none, .error (refuse (closedFault "define")), m)
  else
    let (answer, globals) := m.globals.declare s
    let m := { m with globals := globals }
    match answer with
    | .error f => (none, .error (refuse f), m)
    | .ok declared =>
      let giveUp (m : Machine) : Machine :=
        if declared.fresh then { m with globals := m.globals.undeclare s } else m
      match source m with
      | (.error e, m) => (none, .error e, giveUp m)
      | (.ok l, m) =>
        match m.compileDefinition s l with
        | (⟨tree, .error f⟩, m) => (some tree, .error (refuse f), giveUp m)
        | (⟨tree, .ok entry⟩, m) => (some tree, .ok entry, m)

/-- Declares a global and compiles a lowered expression as its definition. -/
def defineEntry (m : Machine) (s : Symbol) (l : Lir) : Compiled × Machine :=
  let (tree, entry, m) := m.defineEntryWith s id fun m => (.ok l, m)
  (⟨tree.getD l, entry⟩, m)

/-- Declares a global, lowers an expression that may refer to it and compiles
it as the definition; the first component is the lowered expression, if lowering
got that far. -/
def defineExpr (m : Machine) (s : Symbol) (e : Expr) : Option Lir × Except Fault Nat × Machine :=
  m.defineEntryWith s id fun m => (Lir.lower m.globals.isDeclared e, m)

/-- A new closure over no environment. -/
def topClosure (m : Machine) (entry : Int) : Value × Machine :=
  let (a, heap) := m.heap.alloc .closure #[.emptyEnv, .code entry]
  (.ref .closure a, { m with heap := heap })

/-- A handle to a new closure that runs the code at `entry`. -/
def entryHandle (m : Machine) (entry : Nat) : Reply Handle :=
  let (callee, m) := m.topClosure entry
  m.addHandle callee

/-- Compiles a lowered expression into a closure. -/
def compileLir (m : Machine) (l : Lir) : Reply Handle :=
  m.whenFramed "compile" fun m =>
    match m.compileEntry l with
    | (⟨_, .error f⟩, m) => (.error f, m)
    | (⟨_, .ok entry⟩, m) => m.entryHandle entry

/-- Lowers and compiles an expression into a closure. -/
def compile (m : Machine) (e : Expr) : Reply Handle :=
  match m.lower e with
  | .error f => (.error f, m)
  | .ok l => m.compileLir l

/-- Declares a global and compiles its definition into a closure; the global is
assigned when the closure is evaluated. -/
def define (m : Machine) (s : Symbol) (e : Expr) : Reply Handle :=
  m.whenFramed "define" fun m =>
    match m.defineExpr s e with
    | (_, .error f, m) => (.error f, m)
    | (_, .ok entry, m) => m.entryHandle entry

end Zinc.Machine
