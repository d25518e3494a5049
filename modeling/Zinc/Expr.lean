import Zinc.Position
import Zinc.Symbol

/-!
Expressions of the source language: one-argument functions, application, local
and global variables, non-recursive `let`, integers and tuples.  Every local
variable already names the binder it refers to, so scoping is a matter of binder
identity and never of spelling.
-/

namespace Zinc

/-- A binding occurrence.  Two binders are the same only if they have the same
number; the name is for messages. -/
structure Binder where
  id : Nat
  name : String
deriving DecidableEq, Repr, Inhabited

/-- Expressions.  `missing` stands where a host left out a subexpression. -/
inductive Expr where
  | lam (pos : Pos) (param : Binder) (body : Expr)
  | app (pos : Pos) (fn arg : Expr)
  | var (pos : Pos) (binder : Option Binder)
  | global (pos : Pos) (symbol : Option Symbol)
  | letIn (pos : Pos) (binder : Binder) (value body : Expr)
  | int (pos : Pos) (value : Int64)
  | tuple (pos : Pos) (fields : List Expr)
  | missing
deriving Repr, Inhabited

namespace Expr

/-- The place of an expression. -/
def pos : Expr → Pos
  | lam p _ _ | app p _ _ | var p _ | global p _ | letIn p _ _ _ | int p _ | tuple p _ => p
  | missing => {}

/-- A variable or global moved to place `p`; other expressions stay as they are. -/
def place (p : Pos) : Expr → Expr
  | var _ b => var p b
  | global _ s => global p s
  | e => e

/-- The function of several parameters, the first one outermost. -/
def lams (params : List Binder) (body : Expr) : Expr :=
  params.foldr (lam {}) body

/-- The application of `fn` to several arguments, nested to the left. -/
def apply (fn : Expr) (args : List Expr) : Expr :=
  args.foldl (app {}) fn

/-- `inner` wrapped in `n` tuples of one field. -/
def nest : Nat → Expr → Expr
  | 0, inner => inner
  | n + 1, inner => nest n (tuple {} [inner])

/-- `fn` applied `n` times, starting from `arg`. -/
def chain (fn : Expr) : Nat → Expr → Expr
  | 0, arg => arg
  | n + 1, arg => chain fn n (app {} fn arg)

end Expr

end Zinc
