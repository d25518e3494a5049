import Zinc.Yaml.Source

/-!
The three ways to write a scalar: plain, between quotes, and as an indented block.
Each reader returns the text and what follows it, or `none` if the scalar is
malformed.  Texts collect in reverse.
-/

namespace Zinc.Yaml

/-- What stands between two words of a scalar: blanks on one line, or line breaks
with the blanks around them dropped.  An escaped break leaves `first` empty. -/
inductive Gap where
  | blanks (chars : List Char)
  | breaks (first : Option Char) (more : List Char)
deriving DecidableEq, Repr

namespace Gap

/-- No gap. -/
def empty : Gap := blanks []

/-- Whether the gap spans lines. -/
def isBroken : Gap → Bool
  | blanks _ => false
  | breaks _ _ => true

/-- The gap followed by a blank. -/
def addBlank (c : Char) : Gap → Gap
  | blanks cs => blanks (c :: cs)
  | g => g

/-- The gap followed by a line break. -/
def addBreak (c : Char) : Gap → Gap
  | blanks _ => breaks (some c) []
  | breaks first more => breaks first (c :: more)

/-- The text of a gap, in reverse: a single line feed becomes a space, and a line
feed followed by further breaks gives way to them. -/
def folded : Gap → List Char
  | blanks cs => cs
  | breaks (some '\n') [] => [' ']
  | breaks (some '\n') more => more
  | breaks (some c) more => more ++ [c]
  | breaks none more => more

end Gap

/-- Whether a plain scalar ends before the next character. -/
def endsPlain (inFlow : Bool) (cells : List Cell) : Bool :=
  let c := ahead 0 cells
  let next := ahead 1 cells
  endsWord c || (c == ':' && endsWord next) ||
    (inFlow && (c == ',' || c == '[' || c == ']' || c == '\x7b' || c == '\x7d' ||
      (c == '?' && (next == ' ' || endsLine next))))

/-- A scalar that has been read: its text, whether it was followed by a line
break, and the cells after it. -/
structure PlainScalar where
  text : String
  brokeLine : Bool
  rest : List Cell

/-- Reads on in a plain scalar of which `text` has been read and `gap` lies behind.
Outside brackets a line that starts left of `margin` ends it. -/
def plainFrom (inFlow : Bool) (margin : Int) (text : List Char) (gap : Gap) :
    List Cell → Option PlainScalar
  | [] => some ⟨String.ofList text.reverse, gap.isBroken, []⟩
  | cell :: rest =>
    let column : Int := cell.mark.column
    if isBlank cell.char then
      if gap.isBroken ∧ column < margin ∧ cell.char = '\t' then none
      else plainFrom inFlow margin text (gap.addBlank cell.char) rest
    else if isBreak cell.char then
      plainFrom inFlow margin text (gap.addBreak cell.char) rest
    else if (gap ≠ .empty ∧ ((!inFlow ∧ column < margin) ∨ cell.char = '#')) ∨
        documentMarkerAhead (cell :: rest) ∨ endsPlain inFlow (cell :: rest) then
      some ⟨String.ofList text.reverse, gap.isBroken, cell :: rest⟩
    else plainFrom inFlow margin (cell.char :: (gap.folded ++ text)) .empty rest

/-- The character of a one-letter escape. -/
def simpleEscape? : Char → Option Char
  | '0' => some '\x00'
  | 'a' => some '\x07'
  | 'b' => some '\x08'
  | 't' | '\t' => some '\t'
  | 'n' => some '\n'
  | 'v' => some '\x0b'
  | 'f' => some '\x0c'
  | 'r' => some '\r'
  | 'e' => some '\x1b'
  | ' ' => some ' '
  | '"' => some '"'
  | '\'' => some '\''
  | '/' => some '/'
  | '\\' => some '\\'
  | 'N' => some '\u0085'
  | '_' => some '\u00a0'
  | 'L' => some '\u2028'
  | 'P' => some '\u2029'
  | _ => none

/-- The number of hexadecimal digits that an escape letter announces. -/
def escapeDigits? : Char → Option Nat
  | 'x' => some 2
  | 'u' => some 4
  | 'U' => some 8
  | _ => none

/-- The character with the code point that `n` hexadecimal digits spell. -/
def hexChar? (n : Nat) (cells : List Cell) : Option Char := do
  let code ← (cells.take n).foldlM (fun acc c => (hexDigit? c.char).map (acc * 16 + ·)) 0
  if h : code.isValidChar then some (Char.ofNatAux code h) else none

/-- The character of the escape at the front of `cells`, which follow the
backslash, and how many of them it takes. -/
def escape? (cells : List Cell) : Option (Char × Nat) :=
  match escapeDigits? (ahead 0 cells) with
  | some n => (hexChar? n cells.tail).map fun c => (c, n + 1)
  | none => (simpleEscape? (ahead 0 cells)).map fun c => (c, 1)

/-- Reads on in a scalar between quote characters `quote`, a text of which has been
read and a gap lies behind.  Only double quotes know escapes; a single quote is
written twice. -/
def quotedFrom (quote : Char) (text : List Char) (gap : Gap) :
    List Cell → Option (String × List Cell)
  | [] => none
  | cell :: rest =>
    let c := cell.char
    if c = endMark ∨ documentMarkerAhead (cell :: rest) then none
    else if isBlank c then quotedFrom quote text (gap.addBlank c) rest
    else if isBreak c then quotedFrom quote text (gap.addBreak c) rest
    else
      let text := gap.folded ++ text
      if c = quote then
        if quote = '\'' ∧ ahead 0 rest = '\'' then
          quotedFrom quote ('\'' :: text) .empty (rest.drop 1)
        else some (String.ofList text.reverse, rest)
      else if c = '\\' ∧ quote = '"' then
        if isBreak (ahead 0 rest) then quotedFrom quote text (.breaks none []) (rest.drop 1)
        else
          match escape? rest with
          | none => none
          | some (e, n) => quotedFrom quote (e :: text) .empty (rest.drop n)
      else quotedFrom quote (c :: text) .empty rest
termination_by cells => cells.length
decreasing_by all_goals simp only [List.length_drop, List.length_cons]; omega

/-- What becomes of the line breaks at the end of a block scalar. -/
inductive Chomping where
  | strip
  | clip
  | keep
deriving DecidableEq, Repr

/-- The indicators after `|` or `>`: a chomping sign and an indentation digit in
either order, and what follows them.  The digit 0 is refused. -/
def blockIndicators? (cells : List Cell) : Option (Chomping × Nat × List Cell) :=
  let sign? (c : Char) : Option Chomping :=
    if c = '+' then some .keep else if c = '-' then some .strip else none
  let digit? (c : Char) : Option Nat := if c.isDigit then some (c.toNat - 48) else none
  match sign? (ahead 0 cells), digit? (ahead 0 cells) with
  | some chomp, _ =>
    match digit? (ahead 1 cells) with
    | some 0 => none
    | some n => some (chomp, n, cells.drop 2)
    | none => some (chomp, 0, cells.drop 1)
  | none, some 0 => none
  | none, some n =>
    match sign? (ahead 1 cells) with
    | some chomp => some (chomp, n, cells.drop 2)
    | none => some (.clip, n, cells.drop 1)
  | none, none => some (.clip, 0, cells)

/-- The indentation of a block whose first line with text tells it: the widest
indentation up to there.  A tab right after the indentation is refused. -/
def blockIndent? (widest : Nat) : List Cell → Option Nat
  | [] => some widest
  | cell :: rest =>
    if cell.char = ' ' then blockIndent? widest rest
    else if cell.char = '\t' then none
    else
      let widest := max widest cell.mark.column
      if isBreak cell.char then blockIndent? widest rest else some widest

/-- How far the reading of a block scalar has come.  `lastBreak` ended the last
line with text, `blankLines` are the breaks after it. -/
structure BlockState where
  text : List Char := []
  inLine : Bool := false
  lastBreak : List Char := []
  blankLines : List Char := []
  /-- Whether the last line with text started with a blank. -/
  afterBlank : Bool := false

namespace BlockState

/-- The text when a line that starts with `c` begins.  A folded block joins two
lines by a space unless one of them starts with a blank or empty lines lie
between them. -/
def joined (folds : Bool) (c : Char) (s : BlockState) : List Char :=
  if folds ∧ !s.afterBlank ∧ !isBlank c ∧ s.lastBreak = ['\n'] then
    if s.blankLines.isEmpty then ' ' :: s.text else s.blankLines ++ s.text
  else s.blankLines ++ (s.lastBreak ++ s.text)

/-- The text of the whole block. -/
def finish (chomp : Chomping) (s : BlockState) : String :=
  let tail := match chomp with
    | .strip => []
    | .clip => s.lastBreak
    | .keep => s.blankLines ++ s.lastBreak
  String.ofList (tail ++ s.text).reverse

end BlockState

/-- Reads on in a block scalar whose lines are indented by `indent`. -/
def blockFrom (folds : Bool) (chomp : Chomping) (indent : Nat) (s : BlockState) :
    List Cell → Option (String × List Cell)
  | [] => some (s.finish chomp, [])
  | cell :: rest =>
    let c := cell.char
    if s.inLine then
      if c = endMark then some (s.finish chomp, cell :: rest)
      else if isBreak c then
        blockFrom folds chomp indent { s with inLine := false, lastBreak := [c] } rest
      else blockFrom folds chomp indent { s with text := c :: s.text } rest
    else if cell.mark.column < indent ∧ c = ' ' then blockFrom folds chomp indent s rest
    else if cell.mark.column < indent ∧ c = '\t' then none
    else if isBreak c then
      blockFrom folds chomp indent { s with blankLines := c :: s.blankLines } rest
    else if cell.mark.column = indent ∧ c ≠ endMark then
      blockFrom folds chomp indent
        { text := c :: s.joined folds c, inLine := true, afterBlank := isBlank c } rest
    else some (s.finish chomp, cell :: rest)

/-- Reads the block scalar whose indicator `|` or `>` has just been read, inside a
block that is indented by `outer` (-1 at top level). -/
def block? (folds : Bool) (outer : Int) (cells : List Cell) : Option (String × List Cell) := do
  let (chomp, increment, cells) ← blockIndicators? cells
  let cells ← finishLine? cells
  let least := (max (outer + 1) 1).toNat
  let indent ←
    if increment = 0 then (blockIndent? 0 cells).map (max least)
    else some ((max outer 0).toNat + increment)
  blockFrom folds chomp indent {} cells

end Zinc.Yaml
