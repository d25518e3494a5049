import Zinc.Code.Decode

/-!
Listings of code.  Each instruction is a line that starts with its offset; the
body of a closure is indented under the instruction that builds it, and globals
are shown by name.
-/

namespace Zinc

/-- The text of an instruction at `offset`, where `nameOf` gives the names of
the globals. -/
def Instr.listed (nameOf : Nat → Option String) (offset : Nat) (i : Instr) : String :=
  let withOperand := Text.padRight 16 i.opcode.name ++ " " ++ Text.padLeft 4 (toString i.operand)
  match i with
  | .int64 _ | .access _ | .makeBlock _ => withOperand
  | .closure n => withOperand ++ " -> " ++ Text.zeroPadded 4 (offset + 3 + n.toNat : Nat)
  | .setGlobal n | .getGlobal n => withOperand ++ " '" ++ (nameOf n.toNat).getD "?" ++ "'"
  | _ => i.opcode.name

/-- The ends of the closure bodies that are still open at `offset`. -/
def stillOpen (offset : Nat) (ends : List Nat) : List Nat :=
  ends.dropWhile (· ≤ offset)

/-- Appends the lines of decoded instructions to `out`; `ends` holds the ends of
the closure bodies around them, innermost first. -/
def listingFrom (nameOf : Nat → Option String) (out : String) (ends : List Nat) :
    List (Nat × Instr) → String
  | [] => out
  | (offset, i) :: rest =>
    let ends := stillOpen offset ends
    let line := Text.zeroPadded 4 offset ++ " " ++ Text.run ' ' (2 * ends.length)
      ++ i.listed nameOf offset ++ "\n"
    let ends := match i with
      | .closure n => (offset + 3 + n.toNat) :: ends
      | _ => ends
    listingFrom nameOf (out ++ line) ends rest

/-- The listing of decoded instructions under a title. -/
def Decoded.listing (d : Decoded) (nameOf : Nat → Option String) (title : String) : String :=
  let body := listingFrom nameOf ("== " ++ title ++ " ==\n") [] d.instrs
  match d.error with
  | none => body
  | some e => body ++ "!! " ++ e.text ++ "\n"

end Zinc
