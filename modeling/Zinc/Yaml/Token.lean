import Zinc.Yaml.Source

/-!
YAML tokens.  Block structure, which the text shows by indentation alone, is made
explicit: a block collection has a start and an end token like a bracketed one.
-/

namespace Zinc.Yaml

/-- A token. -/
inductive Token where
  | streamEnd
  | version (major minor : Nat)
  | tagHandle (handle expansion : String)
  | documentStart
  | documentEnd
  | blockSequence
  | blockMapping
  | blockEnd
  | openSequence
  | closeSequence
  | openMapping
  | closeMapping
  | blockEntry
  | flowEntry
  | key
  | value
  | aliasOf (name : String)
  | anchor (name : String)
  /-- A tag `!suffix`, `!!suffix` or `!name!suffix`, split after its handle. -/
  | tag (handle suffix : String)
  | scalar (isPlain : Bool) (text : String)
  /-- What cannot be read, or what stands too close to it. -/
  | invalid
deriving DecidableEq, Repr, Inhabited

/-- A token and where it starts. -/
structure Located where
  token : Token
  start : Mark
deriving DecidableEq, Repr, Inhabited

end Zinc.Yaml
