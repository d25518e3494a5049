import Zinc.Position
import Zinc.Text.Numeral

/-!
YAML node trees.  A scalar keeps its text, the tag that was written on it and
whether it was written plainly; from these it follows whether it is an integer.
-/

namespace Zinc.Yaml

/-- A node.  An alias carries the node it stands for, or nothing if it lies inside
that node. -/
inductive Node where
  | scalar (pos : Pos) (tag : Option String) (isPlain : Bool) (text : String)
  | sequence (pos : Pos) (items : List Node)
  | mapping (pos : Pos) (pairs : List (Node × Node))
  | aliasOf (pos : Pos) (name : String) (target : Option Node)
deriving Repr, Inhabited

/-- What a source holds: no well-formed document, none at all, or one with a root. -/
inductive Content where
  | malformed
  | empty
  | root (node : Node)
deriving Repr, Inhabited

/-- A parser of YAML, which says what the bytes of a source hold. -/
class Parser where
  content : ByteArray → Content

/-- A text stands for its bytes. -/
instance coeBytes : Coe String ByteArray := ⟨String.toUTF8⟩

/-- The integer that a plain scalar stands for, all underscores removed: a signed
or unsigned 64-bit numeral, or a binary or octal one whose sign follows the base
mark. -/
def plainInteger? (text : String) : Option Int :=
  if text.toList.head?.any fun c => c.isDigit || c == '+' || c == '-' then
    let chars := text.toList.filter (· ≠ '_')
    let signedDigits (base : Nat) (digits : List Char) : Option Int :=
      (Text.integerOfDigits base digits).toOption.map Int64.toInt
    match Text.integerOfNumeral (String.ofList chars), Text.naturalOfNumeral chars, chars with
    | .ok n, _, _ => some n.toInt
    | .error _, .ok n, _ => some n
    | .error _, .error _, '0' :: 'b' :: digits => signedDigits 2 digits
    | .error _, .error _, '0' :: 'o' :: digits => signedDigits 8 digits
    | .error _, .error _, _ => none
  else none

namespace Node

/-- Where a node starts. -/
def pos : Node → Pos
  | scalar p _ _ _ | sequence p _ | mapping p _ | aliasOf p _ _ => p

/-- The text by which a key is found: an alias goes by the name of its anchor, a
collection by no text at all. -/
def keyText : Node → String
  | scalar _ _ _ text => text
  | aliasOf _ name _ => name
  | sequence _ _ | mapping _ _ => ""

/-- Whether a scalar counts as an integer: its tag says so, or it has no tag and is
plainly written like one. -/
def isInteger : Node → Bool
  | scalar _ (some tag) _ _ => tag == "!!int"
  | scalar _ none isPlain text => isPlain && (plainInteger? text).isSome
  | _ => false

/-- The value of the last pair whose key has the given text. -/
def field? (key : String) : List (Node × Node) → Option Node
  | [] => none
  | (k, v) :: rest =>
    match field? key rest with
    | some found => some found
    | none => if k.keyText = key then some v else none

/-- A field of a mapping is smaller than the mapping. -/
theorem sizeOf_lt_of_field? {key : String} {pairs : List (Node × Node)} {v : Node}
    (h : field? key pairs = some v) : sizeOf v < sizeOf pairs := by
  induction pairs with
  | nil => simp [field?] at h
  | cons pair rest ih =>
    obtain ⟨k, w⟩ := pair
    simp only [field?] at h
    split at h
    · next found hfound =>
      cases h
      have := ih hfound
      simp only [List.cons.sizeOf_spec]
      omega
    · split at h
      · cases h
        simp only [List.cons.sizeOf_spec, Prod.mk.sizeOf_spec]
        omega
      · cases h

end Node

end Zinc.Yaml
