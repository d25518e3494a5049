import Zinc.Symbol

/-!
The nameless form between expressions and code.  Each function and each `let` is
a node with a number of its own, and a local variable names the node that
introduced it.  The depth of a variable, the number of binders between it and
that node, is zero until code is generated.
-/

namespace Zinc

/-- Lowered expressions.  `missing` stands for an absent node. -/
inductive Lir where
  | lam (id : Nat) (body : Lir)
  | letIn (id : Nat) (value body : Lir)
  | app (fn arg : Lir)
  | var (origin : Nat) (depth : Nat)
  | global (symbol : Symbol)
  | int (value : Int64)
  | block (kind : UInt8) (fields : List Lir)
  | missing
deriving Repr, Inhabited

namespace Lir

/-- The kind of the blocks that tuples become. -/
def tupleKind : UInt8 := 0

/-- The name of a kind of block. -/
def blockName (kind : UInt8) : String :=
  if kind = tupleKind then "tuple" else "block"

end Lir

end Zinc
