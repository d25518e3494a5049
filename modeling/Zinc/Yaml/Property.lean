import Zinc.Yaml.Token

/-!
What may stand around nodes: anchors and aliases, tags, and the directives in
front of a document.  Each reader starts after the first character and returns
what it read and what follows, or `none` if the form is malformed.
-/

namespace Zinc.Yaml

/-- The longest run of characters that satisfy `p`, and what follows it. -/
def readWhile (p : Char → Bool) (cells : List Cell) : String × List Cell :=
  let (run, rest) := cells.span fun c => p c.char
  (String.ofList (run.map Cell.char), rest)

/-- Characters that may follow the name of an anchor. -/
def endsAnchor (c : Char) : Bool :=
  endsWord c || "?:,]\x7d%@`".toList.contains c

/-- Reads the name of an anchor or an alias. -/
def anchorName? (cells : List Cell) : Option (String × List Cell) :=
  let (name, rest) := readWhile isNameChar cells
  if name.isEmpty ∨ !endsAnchor (ahead 0 rest) then none else some (name, rest)

/-- Characters of a tag, a percent sign apart. -/
def isTagChar (c : Char) : Bool :=
  isNameChar c || ";/?:@&=+$,.!~*'()[]".toList.contains c

/-- The value of the two hexadecimal digits of a percent escape. -/
def percentByte? (a b : Char) : Option UInt8 := do
  return UInt8.ofNat ((← hexDigit? a) * 16 + (← hexDigit? b))

/-- Reads tag characters as bytes; a percent sign and two hexadecimal digits stand
for any byte. -/
def tagBytes? (bytes : ByteArray) : List Cell → Option (ByteArray × List Cell)
  | [] => some (bytes, [])
  | cell :: rest =>
    if cell.char = '%' then
      match rest with
      | a :: b :: more =>
        match percentByte? a.char b.char with
        | some byte => tagBytes? (bytes.push byte) more
        | none => none
      | _ => none
    else if isTagChar cell.char then tagBytes? (bytes ++ cell.char.toString.toUTF8) rest
    else some (bytes, cell :: rest)

/-- Reads a tag text, which may be empty. -/
def tagText? (cells : List Cell) : Option (String × List Cell) := do
  let (bytes, rest) ← tagBytes? .empty cells
  return (← String.fromUTF8? bytes, rest)

/-- Reads a tag whose first `!` has been read: `<text>`, `name!suffix`, `!suffix`,
`suffix` or nothing at all. -/
def tag? (cells : List Cell) : Option (Token × List Cell) := do
  let (token, rest) ←
    if ahead 0 cells = '<' then do
      let (text, rest) ← tagText? (cells.drop 1)
      if text.isEmpty ∨ ahead 0 rest ≠ '>' then none
      some (Token.tag "" text, rest.drop 1)
    else do
      let (name, after) := readWhile isNameChar cells
      if ahead 0 after = '!' then do
        let (suffix, rest) ← tagText? (after.drop 1)
        if suffix.isEmpty then none
        some (Token.tag ("!" ++ name ++ "!") suffix, rest)
      else do
        let (more, rest) ← tagText? after
        let suffix := name ++ more
        some (if suffix.isEmpty then Token.tag "" "!" else Token.tag "!" suffix, rest)
  if endsWord (ahead 0 rest) then some (token, rest) else none

/-- Reads one part of a version number, of at most nine digits. -/
def versionPart? (cells : List Cell) : Option (Nat × List Cell) :=
  let (digits, rest) := readWhile Char.isDigit cells
  if digits.isEmpty ∨ 9 < digits.length then none
  else some (digits.toList.foldl (fun n d => n * 10 + (d.toNat - 48)) 0, rest)

/-- Reads the handle of a tag directive: `!`, `!!` or `!name!`. -/
def handle? (cells : List Cell) : Option (String × List Cell) :=
  if ahead 0 cells ≠ '!' then none
  else
    let (name, after) := readWhile isNameChar (cells.drop 1)
    if ahead 0 after = '!' then some ("!" ++ name ++ "!", after.drop 1)
    else if name.isEmpty then some ("!", after)
    else none

/-- Reads a directive whose percent sign has been read, to the end of its line. -/
def directive? (cells : List Cell) : Option (Token × List Cell) := do
  let (name, rest) := readWhile isNameChar cells
  if !endsWord (ahead 0 rest) then none
  let rest := dropBlanks rest
  let (token, rest) ←
    if name = "YAML" then do
      let (major, rest) ← versionPart? rest
      if ahead 0 rest ≠ '.' then none
      let (minor, rest) ← versionPart? (rest.drop 1)
      some (Token.version major minor, rest)
    else if name = "TAG" then do
      let (handle, rest) ← handle? rest
      if !isBlank (ahead 0 rest) then none
      let (expansion, rest) ← tagText? (dropBlanks rest)
      if expansion.isEmpty ∨ !endsWord (ahead 0 rest) then none
      some (Token.tagHandle handle expansion, rest)
    else none
  let rest ← finishLine? rest
  some (token, rest)

end Zinc.Yaml
