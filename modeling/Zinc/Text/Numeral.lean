import Zinc.Text.Quoted

/-!
Integer numerals.  A numeral is an optional sign, an optional base mark (`0x`,
`0b`, `0o` or a bare leading `0` for octal) and digits of that base.  One
underscore may stand between two digits, and between the base mark and the
first digit.
-/

namespace Zinc.Text

/-- Why a text is not a numeral of the wanted range. -/
inductive NumeralError where
  | malformed
  | outOfRange
deriving DecidableEq, Repr

/-- The wording of a rejected numeral. -/
def NumeralError.message : NumeralError → String
  | .malformed => "invalid syntax"
  | .outOfRange => "value out of range"

/-- The wording with the text that was read and the name of the reading. -/
def NumeralError.report (e : NumeralError) (reading text : String) : String :=
  "strconv." ++ reading ++ ": parsing " ++ quoted text ++ ": " ++ e.message

/-- The digit that `c` stands for, up to base 36. -/
def digitValue? (c : Char) : Option Nat :=
  if '0' ≤ c ∧ c ≤ '9' then some (c.toNat - 48)
  else if 'a' ≤ c ∧ c ≤ 'z' then some (c.toNat - 87)
  else if 'A' ≤ c ∧ c ≤ 'Z' then some (c.toNat - 55)
  else none

/-- The base announced at the front of an unsigned numeral, and what follows
the announcement. -/
def splitBase : List Char → Nat × List Char
  | '0' :: c :: rest =>
    match c.toLower with
    | 'x' => (16, rest)
    | 'b' => (2, rest)
    | 'o' => (8, rest)
    | _ => (8, c :: rest)
  | cs => (10, cs)

/-- How many 64-bit words there are. -/
def wordCount : Nat := 0x10000000000000000

/-- The value of a run of digits in `base`, skipping underscores.  The digits are
read from the left, and the reading stops as soon as the value leaves the range
of an unsigned 64-bit word. -/
def digitsValue (base : Nat) : Nat → List Char → Except NumeralError Nat
  | acc, [] => .ok acc
  | acc, c :: rest =>
    if c = '_' then digitsValue base acc rest
    else
      match digitValue? c with
      | none => .error .malformed
      | some d =>
        if base ≤ d then .error .malformed
        else if wordCount ≤ acc * base + d then .error .outOfRange
        else digitsValue base (acc * base + d) rest

/-- Whether each underscore of `cs` stands between two digits, where `before`
says whether a digit or a base mark comes right before `cs`. -/
def underscoresSeparate : Bool → List Char → Bool
  | _, [] => true
  | before, '_' :: rest =>
    before && (match rest with
      | [] => false
      | d :: _ => d != '_') && underscoresSeparate false rest
  | _, _ :: rest => underscoresSeparate true rest

/-- Reads an unsigned 64-bit numeral with an optional base mark. -/
def naturalOfNumeral (cs : List Char) : Except NumeralError Nat :=
  let (base, digits) := splitBase cs
  if digits.isEmpty then .error .malformed
  else
    match digitsValue base 0 digits with
    | .error e => .error e
    | .ok n =>
      if underscoresSeparate (cs.head? == some '0') digits then .ok n else .error .malformed

/-- Splits off an optional sign; the first component is true for a minus. -/
def splitSign : List Char → Bool × List Char
  | '-' :: rest => (true, rest)
  | '+' :: rest => (false, rest)
  | cs => (false, cs)

/-- The signed 64-bit integer with the given sign and magnitude. -/
def signedWord (negative : Bool) (n : Nat) : Except NumeralError Int64 :=
  if negative then
    if n ≤ wordCount / 2 then .ok (Int64.ofInt (-n)) else .error .outOfRange
  else if n < wordCount / 2 then .ok (Int64.ofNat n) else .error .outOfRange

/-- Reads a signed 64-bit numeral with an optional base mark. -/
def integerOfNumeral (s : String) : Except NumeralError Int64 :=
  let (negative, digits) := splitSign s.toList
  match naturalOfNumeral digits with
  | .error e => .error e
  | .ok n => signedWord negative n

/-- Reads a signed 64-bit run of digits in `base`, without mark or underscore. -/
def integerOfDigits (base : Nat) (cs : List Char) : Except NumeralError Int64 :=
  let (negative, digits) := splitSign cs
  if digits.isEmpty || digits.contains '_' then .error .malformed
  else
    match digitsValue base 0 digits with
    | .error e => .error e
    | .ok n => signedWord negative n

/-- Reads a truth value: `1`, `t` and `true` or `0`, `f` and `false`, the words
also capitalised or in capitals. -/
def truthOfWord? (s : String) : Option Bool :=
  if s ∈ ["1", "t", "T", "true", "TRUE", "True"] then some true
  else if s ∈ ["0", "f", "F", "false", "FALSE", "False"] then some false
  else none

end Zinc.Text
