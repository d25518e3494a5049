import Zinc.Expr
import Zinc.Fault
import Zinc.Lir.Basic

/-!
Lowering: expressions to the nameless form.  Every binder of the tree gets a
fresh number, and a variable becomes a reference to the innermost enclosing
occurrence of its binder.  The first node that is out of order, reading the
function before the argument, the value of a `let` before its body and fields
from left to right, decides the fault.
-/

namespace Zinc.Lir

/-- The binders in scope with the numbers of their nodes, innermost first. -/
abbrev Scope := List (Binder × Nat)

/-- The node of the innermost enclosing occurrence of a binder. -/
def Scope.origin? (scope : Scope) (b : Binder) : Option Nat :=
  (List.find? (fun entry => entry.1 = b) scope).map (·.2)

/-- A variable whose binder does not enclose it. -/
def unboundVariable (b : Option Binder) (pos : Pos) : Fault where
  kind := .internal
  op := "lower"
  cause := .unboundVariable
  detail := some ((b.map (·.name)).getD "<nil>" ++ " at " ++ pos.text)

/-- A global that is not declared. -/
def undeclaredGlobal (s : Option Symbol) (pos : Pos) : Fault where
  kind := .internal
  op := "lower"
  cause := .unknownGlobal
  detail := some (Symbol.shown s ++ " at " ++ pos.text)

/-- An absent subexpression. -/
def absentNode : Fault where
  kind := .internal
  op := "lower"
  cause := .unknownNode
  detail := some "<nil>"

mutual

/-- Lowers an expression in a scope, numbering its binders from `next` on; the
result carries the first number that is still free. -/
def lowerFrom (declared : Symbol → Bool) (scope : Scope) (next : Nat) :
    Expr → Except Fault (Lir × Nat)
  | .app _ fn arg =>
    match lowerFrom declared scope next fn with
    | .error f => .error f
    | .ok (fn', next) =>
      match lowerFrom declared scope next arg with
      | .error f => .error f
      | .ok (arg', next) => .ok (.app fn' arg', next)
  | .lam _ param body =>
    match lowerFrom declared ((param, next) :: scope) (next + 1) body with
    | .error f => .error f
    | .ok (body', next') => .ok (.lam next body', next')
  | .letIn _ binder value body =>
    match lowerFrom declared scope next value with
    | .error f => .error f
    | .ok (value', next) =>
      match lowerFrom declared ((binder, next) :: scope) (next + 1) body with
      | .error f => .error f
      | .ok (body', next') => .ok (.letIn next value' body', next')
  | .var pos binder =>
    match binder.bind scope.origin? with
    | some origin => .ok (.var origin 0, next)
    | none => .error (unboundVariable binder pos)
  | .global pos symbol =>
    match symbol.filter declared with
    | some s => .ok (.global s, next)
    | none => .error (undeclaredGlobal symbol pos)
  | .tuple _ fields => lowerFields declared scope next fields []
  | .int _ value => .ok (.int value, next)
  | .missing => .error absentNode

/-- Lowers the fields of a tuple; `done` holds the fields before them, the last
one first. -/
def lowerFields (declared : Symbol → Bool) (scope : Scope) (next : Nat) :
    List Expr → List Lir → Except Fault (Lir × Nat)
  | [], done => .ok (.block tupleKind done.reverse, next)
  | field :: rest, done =>
    match lowerFrom declared scope next field with
    | .error f => .error f
    | .ok (field', next) => lowerFields declared scope next rest (field' :: done)

end

/-- Lowers a closed expression whose globals are those that `declared` accepts. -/
def lower (declared : Symbol → Bool) (e : Expr) : Except Fault Lir :=
  (lowerFrom declared [] 0 e).map (·.1)

end Zinc.Lir
