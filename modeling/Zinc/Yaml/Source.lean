import Zinc.Position

/-!
A YAML text as a list of placed characters.  Every line break is one character,
the text may hold no control characters, and a null character, which no text can
hold itself, stands at the end.
-/

namespace Zinc.Yaml

/-- A place in a text: lines count from 1, columns and characters from 0. -/
structure Mark where
  line : Nat := 1
  column : Nat := 0
  index : Nat := 0
deriving DecidableEq, Repr, Inhabited

namespace Mark

/-- The next place on the same line. -/
def right (m : Mark) : Mark :=
  { m with column := m.column + 1, index := m.index + 1 }

/-- The start of the next line. -/
def down (m : Mark) : Mark :=
  { line := m.line + 1, index := m.index + 1 }

/-- The place as users count it. -/
def pos (m : Mark) : Pos :=
  { line := m.line, column := m.column + 1 }

end Mark

/-- A character and its place. -/
structure Cell where
  char : Char
  mark : Mark
deriving DecidableEq, Repr

/-- The character that marks the end of the text. -/
def endMark : Char := '\x00'

/-- The mark that may open a text or a line without being part of it. -/
def byteOrderMark : Char := '\ufeff'

/-- Line breaks, once carriage returns and next-line characters are unified. -/
def isBreak (c : Char) : Bool :=
  c == '\n' || c == '\u2028' || c == '\u2029'

/-- Spaces and tabs. -/
def isBlank (c : Char) : Bool :=
  c == ' ' || c == '\t'

/-- Whether a word ends before `c`. -/
def endsWord (c : Char) : Bool :=
  isBlank c || isBreak c || c == endMark

/-- Whether a line ends before `c`. -/
def endsLine (c : Char) : Bool :=
  isBreak c || c == endMark

/-- Characters of anchors, tag handles and directive names. -/
def isNameChar (c : Char) : Bool :=
  c.isAlphanum || c == '_' || c == '-'

/-- The value of a hexadecimal digit. -/
def hexDigit? (c : Char) : Option Nat :=
  if '0' ≤ c ∧ c ≤ '9' then some (c.toNat - 48)
  else if 'a' ≤ c ∧ c ≤ 'f' then some (c.toNat - 87)
  else if 'A' ≤ c ∧ c ≤ 'F' then some (c.toNat - 55)
  else none

/-- Characters that a text may hold. -/
def isAllowed (c : Char) : Bool :=
  let n := c.toNat
  n == 0x9 || n == 0xa || n == 0xd || (0x20 ≤ n && n ≤ 0x7e) || n == 0x85 ||
    (0xa0 ≤ n && n ≤ 0xfffd) || 0x10000 ≤ n

/-- Places the characters of a text.  The cells collect in reverse, and a
carriage return with the line feed after it is one break. -/
def placed (m : Mark) (done : List Cell) : List Char → List Cell
  | [] => (⟨endMark, m⟩ :: done).reverse
  | '\r' :: '\n' :: rest => placed m.down (⟨'\n', m⟩ :: done) rest
  | c :: rest =>
    let c := if c = '\r' ∨ c = '\u0085' then '\n' else c
    placed (if isBreak c then m.down else m.right) (⟨c, m⟩ :: done) rest

/-- The placed characters of a text, if they are all allowed. -/
def cells? (text : String) : Option (List Cell) :=
  let chars := text.toList
  if chars.all isAllowed then
    some (placed {} [] (if chars.head? = some byteOrderMark then chars.tail else chars))
  else none

/-- The character `n` places ahead. -/
def ahead (n : Nat) (cells : List Cell) : Char :=
  (cells[n]?).elim endMark Cell.char

/-- The place of the next character. -/
def here (cells : List Cell) : Mark :=
  cells.head?.elim {} Cell.mark

/-- Whether the three characters `c` stand alone at the start of a line. -/
def markerAhead (c : Char) (cells : List Cell) : Bool :=
  (here cells).column == 0 && ahead 0 cells == c && ahead 1 cells == c && ahead 2 cells == c &&
    endsWord (ahead 3 cells)

/-- Whether a marker between documents comes next. -/
def documentMarkerAhead (cells : List Cell) : Bool :=
  markerAhead '-' cells || markerAhead '.' cells

/-- What follows the blanks. -/
def dropBlanks (cells : List Cell) : List Cell :=
  cells.dropWhile fun c => isBlank c.char

/-- What follows the blanks and the comment at the end of a line, line break
included; `none` if anything else stands on the line. -/
def finishLine? (cells : List Cell) : Option (List Cell) :=
  let cells := dropBlanks cells
  let cells :=
    if ahead 0 cells = '#' then cells.dropWhile fun c => !endsLine c.char else cells
  if isBreak (ahead 0 cells) then some cells.tail
  else if ahead 0 cells = endMark then some cells
  else none

end Zinc.Yaml
