/-!
Places in a source text, counted from line 1 and column 1.
-/

namespace Zinc

/-- A place in a source text.  Line 0 means that the place is not known. -/
structure Pos where
  line : Int := 0
  column : Int := 0
deriving DecidableEq, Repr, Inhabited

/-- `line:column`, or a question mark for an unknown place. -/
def Pos.text (p : Pos) : String :=
  if p.line = 0 then "?" else toString p.line ++ ":" ++ toString p.column

end Zinc
