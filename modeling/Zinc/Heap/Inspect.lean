import Zinc.Heap.Basic
import Zinc.Text.Padding

/-!
How values are shown: integers in decimal, tuples field by field, closures by
the offset of their code.
-/

namespace Zinc.Heap

/-- The text of a closure object. -/
def inspectClosure (h : Heap) (a : Nat) : String :=
  if (h.fields a).size = 2 then
    "<closure @" ++ Text.zeroPadded 4 (h.field a 1).asOffset ++ ">"
  else "<closure>"

/-- The text of a value, looking at most `depth` tuples deep. -/
def inspectTo (h : Heap) : Nat → Value → String
  | _, .undefined => "<undefined>"
  | _, .int n => toString n.toInt
  | _, .code offset => toString offset
  | _, .mark => "<mark>"
  | _, .emptyEnv => "<env []>"
  | depth, .ref kind a =>
    match kind with
    | .int => "0"
    | .closure => h.inspectClosure a
    | .tuple =>
      match depth with
      | 0 => "(...)"
      | depth + 1 =>
        "(" ++ ", ".intercalate ((h.fields a).toList.map (h.inspectTo depth)) ++ ")"
    | .env => "<env>"
    | .mark => "<mark>"
    | .undefined | .other _ => "<undefined>"

/-- The text of a value.  No chain of distinct tuples is longer than the number
of objects, so that depth is enough for every value without a cycle. -/
def inspect (h : Heap) (v : Value) : String :=
  h.inspectTo (h.cells.size + 1) v

end Zinc.Heap
