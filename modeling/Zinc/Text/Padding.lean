/-!
Fixed-width fields.  Code offsets are written with leading zeros, operands are
aligned to the right and instruction names to the left.
-/

namespace Zinc.Text

/-- `n` copies of `c`. -/
def run (c : Char) (n : Nat) : String :=
  String.ofList (List.replicate n c)

/-- The decimal numeral of `n`, filled up with zeros after the sign until the
sign and the digits take `width` places. -/
def zeroPadded (width : Nat) (n : Int) : String :=
  let sign := if n < 0 then "-" else ""
  let digits := toString n.natAbs
  sign ++ run '0' (width - sign.length - digits.length) ++ digits

/-- `s` moved to the right end of a field of `width` places. -/
def padLeft (width : Nat) (s : String) : String :=
  run ' ' (width - s.length) ++ s

/-- `s` at the left end of a field of `width` places. -/
def padRight (width : Nat) (s : String) : String :=
  s ++ run ' ' (width - s.length)

end Zinc.Text
