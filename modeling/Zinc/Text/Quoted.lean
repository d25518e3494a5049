import Zinc.Text.Printable

/-!
Text between quotation marks.  A printable character other than the quotation
mark and the backslash stands for itself; every other character has one escape,
so the quoted form never spans two lines.
-/

namespace Zinc.Text

/-- The hexadecimal numeral of `n` in lower case, at least `width` digits long. -/
def hexPadded (width n : Nat) : String :=
  let digits := Nat.toDigits 16 n
  String.ofList (List.replicate (width - digits.length) '0' ++ digits)

/-- How `c` is written inside quotation marks. -/
def quotedChar (c : Char) : String :=
  match c.toNat with
  | 0x22 => "\\\""
  | 0x5c => "\\\\"
  | 0x07 => "\\a"
  | 0x08 => "\\b"
  | 0x0c => "\\f"
  | 0x0a => "\\n"
  | 0x0d => "\\r"
  | 0x09 => "\\t"
  | 0x0b => "\\v"
  | n =>
    if isPrintable c then String.singleton c
    else if n < 0x20 || n == 0x7f then "\\x" ++ hexPadded 2 n
    else if n < 0x10000 then "\\u" ++ hexPadded 4 n
    else "\\U" ++ hexPadded 8 n

/-- `s` between quotation marks. -/
def quoted (s : String) : String :=
  "\"" ++ String.join (s.toList.map quotedChar) ++ "\""

/-- The character with code `n`, at most 255, between apostrophes. -/
def quotedByte (n : UInt8) : String :=
  let c := Char.ofNat n.toNat
  let inner := if c = '\'' then "\\'" else if c = '"' then "\"" else quotedChar c
  "'" ++ inner ++ "'"

end Zinc.Text
