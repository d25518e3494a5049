import Zinc.Text.Decimal
import Zinc.Yaml.Node

/-!
What a scalar stands for when no program but a setting is read: nothing, a truth
value, a number or a text.
-/

namespace Zinc.Yaml

/-- What a scalar stands for.  Of a decimal fraction only the integer part is kept. -/
inductive Meaning where
  | null
  | truth (b : Bool)
  | integer (n : Int)
  | fraction (whole : Int)
  | text (s : String)
deriving DecidableEq, Repr

namespace Meaning

/-- The tag of a meaning. -/
def tag : Meaning → String
  | null => "!!null"
  | truth _ => "!!bool"
  | integer _ => "!!int"
  | fraction _ => "!!float"
  | text _ => "!!str"

/-- The integer part of a decimal fraction, in which a leading digit or sign lets
underscores stand anywhere. -/
def fraction? (s : String) : Option Int :=
  let chars := s.toList
  let chars := if chars.head? = some '.' then chars else chars.filter (· ≠ '_')
  (Text.decimal? chars).bind Text.Decimal.whole?

/-- What a plain scalar without a tag stands for. -/
def ofPlain (s : String) : Meaning :=
  if s ∈ ["", "~", "null", "Null", "NULL"] then null
  else if s ∈ ["true", "True", "TRUE"] then truth true
  else if s ∈ ["false", "False", "FALSE"] then truth false
  else
    match plainInteger? s, fraction? s with
    | some n, _ => integer n
    | none, some w => fraction w
    | none, none => text s

/-- What a scalar stands for; `none` if its tag does not fit its text. -/
def ofScalar? (tag : Option String) (isPlain : Bool) (s : String) : Option Meaning :=
  match tag with
  | none => some (if isPlain then ofPlain s else text s)
  | some "!!str" => some (text s)
  | some "!!float" =>
    match ofPlain s with
    | integer n | fraction n => some (fraction n)
    | _ => none
  | some other => some (ofPlain s) |>.filter (·.tag = other)

end Meaning

namespace Node

/-- The node that an alias stands for, or the node itself.  An alias inside its own
node stands for nothing. -/
def resolved? : Node → Option Node
  | aliasOf _ _ target => target
  | n => some n

/-- Whether two keys count as the same key twice. -/
def sameKey : Node → Node → Bool
  | scalar _ _ _ a, scalar _ _ _ b => a == b
  | sequence _ _, sequence _ _ | mapping _ _, mapping _ _ => true
  | aliasOf _ a _, aliasOf _ b _ => a == b
  | _, _ => false

/-- Whether no key of a mapping comes twice. -/
def keysUnique : List (Node × Node) → Bool
  | [] => true
  | (k, _) :: rest => rest.all (fun p => !k.sameKey p.1) && keysUnique rest

end Node

end Zinc.Yaml
