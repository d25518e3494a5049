import Zinc.Lir.Basic
import Zinc.Text.Padding

/-!
The indented dump of a lowered expression, one node a line.  Binders are
numbered in the order in which they are met, so the dump does not depend on the
numbers the nodes carry.
-/

namespace Zinc.Lir

/-- The nodes met so far, oldest first. -/
abbrev Seen := Array Nat

/-- The number that the dump gives to a node. -/
def Seen.number (seen : Seen) (id : Nat) : Nat × Seen :=
  match seen.idxOf? id with
  | some i => (i, seen)
  | none => (seen.size, seen.push id)

/-- One line of the dump. -/
def dumpLine (indent : Nat) (s : String) : String :=
  Text.run ' ' (2 * indent) ++ s ++ "\n"

mutual

/-- Appends the lines of a node to `out`. -/
def dumpFrom (indent : Nat) (seen : Seen) (out : String) : Lir → String × Seen
  | .lam id body =>
    let (n, seen) := seen.number id
    dumpFrom (indent + 1) seen (out ++ dumpLine indent ("Lambda #" ++ toString n)) body
  | .letIn id value body =>
    let (n, seen) := seen.number id
    let (out, seen) :=
      dumpFrom (indent + 1) seen (out ++ dumpLine indent ("Let #" ++ toString n)) value
    dumpFrom (indent + 1) seen out body
  | .app fn arg =>
    let (out, seen) := dumpFrom (indent + 1) seen (out ++ dumpLine indent "Application") fn
    dumpFrom (indent + 1) seen out arg
  | .var origin depth =>
    let (n, seen) := seen.number origin
    (out ++ dumpLine indent ("Variable #" ++ toString n ++ " depth " ++ toString depth), seen)
  | .global symbol => (out ++ dumpLine indent ("Global " ++ symbol.name), seen)
  | .int value => (out ++ dumpLine indent ("Integer " ++ toString value.toInt), seen)
  | .block kind fields =>
    let head := "Make Block " ++ blockName kind ++ "/" ++ toString fields.length
    dumpFields (indent + 1) seen (out ++ dumpLine indent head) fields
  | .missing => (out ++ dumpLine indent "?<nil>", seen)

/-- Appends the lines of several nodes to `out`. -/
def dumpFields (indent : Nat) (seen : Seen) (out : String) : List Lir → String × Seen
  | [] => (out, seen)
  | field :: rest =>
    let (out, seen) := dumpFrom indent seen out field
    dumpFields indent seen out rest

end

/-- The dump of a lowered expression. -/
def dump (e : Lir) : String :=
  (dumpFrom 0 #[] "" e).1

end Zinc.Lir
