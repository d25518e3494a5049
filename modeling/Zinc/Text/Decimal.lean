/-!
Decimal fractions with an optional power of ten, rounded to the 53 significant
bits of a binary fraction.  A half goes to the even neighbour.
-/

namespace Zinc.Text

/-- The number `digits * 10 ^ exponent`, with a sign. -/
structure Decimal where
  negative : Bool
  digits : Nat
  exponent : Int
deriving DecidableEq, Repr

/-- The number that a run of decimal digits spells. -/
def decimalDigits (cs : List Char) : Nat :=
  cs.foldl (fun n c => n * 10 + (c.toNat - 48)) 0

/-- Reads an exponent, which is absent or a mark, an optional sign and digits. -/
def exponent? : List Char → Option Int
  | [] => some 0
  | c :: rest =>
    let (sign, digits) : Int × List Char := match rest with
      | '-' :: ds => (-1, ds)
      | '+' :: ds => (1, ds)
      | ds => (1, ds)
    if (c = 'e' ∨ c = 'E') ∧ !digits.isEmpty ∧ digits.all Char.isDigit then
      some (sign * decimalDigits digits)
    else none

/-- Reads a decimal fraction: digits with at most one point, before or behind which
digits may be left out, then an optional exponent. -/
def decimal? (cs : List Char) : Option Decimal :=
  let (negative, cs) := match cs with
    | '-' :: ds => (true, ds)
    | '+' :: ds => (false, ds)
    | ds => (false, ds)
  let (whole, rest) := cs.span Char.isDigit
  let (fraction, rest) := match rest with
    | '.' :: ds => ds.span Char.isDigit
    | ds => ([], ds)
  if whole.isEmpty ∧ fraction.isEmpty then none
  else (exponent? rest).map fun e =>
    ⟨negative, decimalDigits (whole ++ fraction), e - fraction.length⟩

/-- The quotient rounded to the nearest integer, a half to the even neighbour. -/
def roundDiv (num den : Nat) : Nat :=
  let q := num / den
  let twice := 2 * (num % den)
  if twice < den ∨ (twice = den ∧ q % 2 = 0) then q else q + 1

/-- The integer part of `num / den` once that is rounded to 53 significant bits. -/
def roundedWhole (num den : Nat) : Nat :=
  if num = 0 then 0
  else
    let scaled (e : Int) : Nat × Nat := (num * Nat.pow 2 (-e).toNat, den * Nat.pow 2 e.toNat)
    let guess : Int := (Nat.log2 num : Int) - Nat.log2 den - 52
    let (n, d) := scaled guess
    let e := if n < 0x10000000000000 * d then guess - 1 else guess
    let (n, d) := scaled e
    roundDiv n d * Nat.pow 2 e.toNat / Nat.pow 2 (-e).toNat

/-- The integer part of a decimal fraction rounded to 53 significant bits, unless it
is too large for a binary fraction with an exponent of eleven bits. -/
def Decimal.whole? (d : Decimal) : Option Int :=
  let scale := (toString d.digits).length + d.exponent
  if d.digits = 0 ∨ scale < 0 then some 0
  else if 400 < scale then none
  else
    let n := roundedWhole (d.digits * Nat.pow 10 d.exponent.toNat)
      (Nat.pow 10 (-d.exponent).toNat)
    if 1024 ≤ Nat.log2 n then none
    else some (if d.negative then -n else n)

end Zinc.Text
