/-!
How far two words are apart: the least number of letters to insert, drop or
replace to get from one to the other.
-/

namespace Zinc.Text

/-- One row of the table of distances, from the row before it.  `left` is the entry to
the left, `diagonal` the one before the entry above. -/
def distanceRow (c : UInt8) (left diagonal : Nat) : List UInt8 → List Nat → List Nat
  | d :: ds, above :: row =>
    let entry := if c = d then diagonal else min left (min above diagonal) + 1
    entry :: distanceRow c entry above ds row
  | _, _ => []

/-- The distances from the first letters of a word to the first letters of `t`. -/
def distanceRows (t : List UInt8) (row : List Nat) : List UInt8 → List Nat
  | [] => row
  | c :: cs =>
    let first := row.headD 0
    distanceRows t ((first + 1) :: distanceRow c (first + 1) first t row.tail) cs

/-- The distance of two words, counted in bytes. -/
def distance (s t : String) : Nat :=
  let target := t.toUTF8.toList
  (distanceRows target (List.range (target.length + 1)) s.toUTF8.toList).getLastD 0

end Zinc.Text
