import Zinc.Yaml.Property
import Zinc.Yaml.Scalar

/-!
From characters to tokens.  Indentation opens and closes block collections, and a
scalar turns out to be a key only when the colon after it is met; the key token
then goes in front of the tokens that make up the key.
-/

namespace Zinc.Yaml

/-- A place where a key without a question mark may have started. -/
structure PendingKey where
  /-- The key has to be one, because nothing else may stand at its column. -/
  required : Bool
  /-- How many tokens came before it. -/
  tokens : Nat
  mark : Mark
deriving DecidableEq, Repr

/-- The state of the lexer.  Tokens collect in reverse. -/
structure Lexer where
  rest : List Cell
  tokens : List Located := []
  count : Nat := 0
  /-- The column of the innermost block collection; -1 if there is none. -/
  indent : Int := -1
  outerIndents : List Int := []
  /-- The pending key at the current bracket level, and at the levels around it. -/
  pending : Option PendingKey := none
  outerPending : List (Option PendingKey) := []
  keyAllowed : Bool := true

namespace Lexer

/-- How many brackets or indentations may be open at once. -/
def maxDepth : Nat := 10000

/-- Whether a bracket is open. -/
def inFlow (s : Lexer) : Bool :=
  !s.outerPending.isEmpty

/-- Adds a token. -/
def add (token : Token) (start : Mark) (s : Lexer) : Lexer :=
  { s with tokens := ⟨token, start⟩ :: s.tokens, count := s.count + 1 }

/-- Adds a token in front of the last `n` ones. -/
def addBefore (n : Nat) (token : Token) (start : Mark) (s : Lexer) : Lexer :=
  { s with tokens := s.tokens.insertIdx n ⟨token, start⟩, count := s.count + 1 }

/-- Closes the block collections that are indented by more than `column`. -/
def unroll (column : Int) (mark : Mark) (s : Lexer) : Lexer :=
  if s.inFlow then s
  else
    let columns := s.indent :: s.outerIndents
    let closed := columns.takeWhile (column < ·)
    let kept := columns.drop closed.length
    closed.foldl (fun s _ => s.add .blockEnd mark)
      { s with indent := kept.headD (-1), outerIndents := kept.tail }

/-- Opens a block collection at `column` unless it is open, its token going in front
of the last `n` ones. -/
def roll? (column : Int) (n : Nat) (token : Token) (mark : Mark) (s : Lexer) : Option Lexer :=
  if s.inFlow ∨ column ≤ s.indent then some s
  else if maxDepth ≤ s.outerIndents.length then none
  else some (addBefore n token mark
    { s with indent := column, outerIndents := s.indent :: s.outerIndents })

/-- Gives up the pending key, which is an error if it had to be a key. -/
def dropKey? (s : Lexer) : Option Lexer :=
  if s.pending.any (·.required) then none else some { s with pending := none }

/-- Notes that a key may start here. -/
def saveKey? (s : Lexer) : Option Lexer :=
  if s.keyAllowed then do
    let s ← s.dropKey?
    let mark := here s.rest
    let required := !s.inFlow && s.indent == mark.column
    some { s with pending := some ⟨required, s.count, mark⟩ }
  else some s

/-- The pending key if a colon here still belongs to it: it stands on the same line
and at most 1024 characters back. -/
def liveKey? (s : Lexer) : Option PendingKey :=
  s.pending.filter fun k =>
    let mark := here s.rest
    k.mark.line == mark.line && mark.index ≤ k.mark.index + 1024

/-- Adds a token of one character. -/
def indicator (token : Token) (s : Lexer) : Lexer :=
  { s.add token (here s.rest) with rest := s.rest.drop 1 }

/-- Skips blanks, comments and line breaks.  A tab is skipped only where no key may
start, so that it never indents; a new line makes a key possible. -/
def skipGap (s : Lexer) : List Cell → Lexer
  | [] => { s with rest := [] }
  | cell :: rest =>
    let c := cell.char
    if c = ' ' ∨ (c = byteOrderMark ∧ cell.mark.column = 0) ∨
        (c = '\t' ∧ (s.inFlow ∨ !s.keyAllowed)) then skipGap s rest
    else if c = '#' then skipComment s rest
    else if isBreak c then skipGap { s with keyAllowed := s.keyAllowed || !s.inFlow } rest
    else { s with rest := cell :: rest }
where
  /-- Skips the rest of a comment. -/
  skipComment (s : Lexer) : List Cell → Lexer
    | [] => { s with rest := [] }
    | cell :: rest =>
      if cell.char = endMark then { s with rest := cell :: rest }
      else if isBreak cell.char then skipGap { s with keyAllowed := s.keyAllowed || !s.inFlow } rest
      else skipComment s rest

/-- Reads an opening bracket. -/
def openFlow? (token : Token) (s : Lexer) : Option Lexer := do
  let s ← s.saveKey?
  if maxDepth ≤ s.outerPending.length then none
  let s := s.indicator token
  some { s with pending := none, outerPending := s.pending :: s.outerPending, keyAllowed := true }

/-- Reads a closing bracket. -/
def closeFlow? (token : Token) (s : Lexer) : Option Lexer := do
  let s ← s.dropKey?
  let s := s.indicator token
  some { s with
    pending := s.outerPending.headD s.pending
    outerPending := s.outerPending.tail
    keyAllowed := false }

/-- Reads a comma. -/
def flowEntry? (s : Lexer) : Option Lexer := do
  let s ← s.dropKey?
  some { s.indicator .flowEntry with keyAllowed := true }

/-- Reads the dash of a block sequence. -/
def blockEntry? (s : Lexer) : Option Lexer := do
  if !s.inFlow ∧ !s.keyAllowed then none
  let mark := here s.rest
  let s ← s.roll? mark.column 0 .blockSequence mark
  let s ← s.dropKey?
  some { s.indicator .blockEntry with keyAllowed := true }

/-- Reads a question mark that announces a key. -/
def key? (s : Lexer) : Option Lexer := do
  if !s.inFlow ∧ !s.keyAllowed then none
  let mark := here s.rest
  let s ← s.roll? mark.column 0 .blockMapping mark
  let s ← s.dropKey?
  some { s.indicator .key with keyAllowed := !s.inFlow }

/-- Reads a colon.  If a key is pending its token is added now, and so is the start of
the mapping that the key opens. -/
def value? (s : Lexer) : Option Lexer :=
  match s.liveKey? with
  | some k => do
    let n := s.count - k.tokens
    let s := { s.addBefore n .key k.mark with pending := none }
    let s ← s.roll? k.mark.column (n + 1) .blockMapping k.mark
    some { s.indicator .value with keyAllowed := false }
  | none => do
    if s.pending.any (·.required) ∨ (!s.inFlow ∧ !s.keyAllowed) then none
    let mark := here s.rest
    let s ← s.roll? mark.column 0 .blockMapping mark
    some { s.indicator .value with pending := none, keyAllowed := !s.inFlow }

/-- Adds a token that may be or start a key, read by `read?` after one character. -/
def item? (read? : List Cell → Option (Token × List Cell)) (s : Lexer) : Option Lexer := do
  let s ← s.saveKey?
  let (token, rest) ← read? (s.rest.drop 1)
  some { s.add token (here s.rest) with rest, keyAllowed := false }

/-- Reads a plain scalar. -/
def plain? (s : Lexer) : Option Lexer := do
  let s ← s.saveKey?
  let scalar ← plainFrom s.inFlow (s.indent + 1) [] .empty s.rest
  some { s.add (.scalar true scalar.text) (here s.rest) with
    rest := scalar.rest
    keyAllowed := scalar.brokeLine }

/-- Reads a block scalar. -/
def blockScalar? (folds : Bool) (s : Lexer) : Option Lexer := do
  let s ← s.dropKey?
  let (text, rest) ← block? folds s.indent (s.rest.drop 1)
  some { s.add (.scalar false text) (here s.rest) with rest, keyAllowed := true }

/-- Closes all block collections in front of something that ends a document. -/
def endBlocks? (mark : Mark) (s : Lexer) : Option Lexer := do
  let s ← (s.unroll (-1) mark).dropKey?
  some { s with keyAllowed := false }

/-- Reads a marker between documents. -/
def marker? (token : Token) (s : Lexer) : Option Lexer := do
  let mark := here s.rest
  let s ← s.endBlocks? mark
  some { s.add token mark with rest := s.rest.drop 3 }

/-- Reads a directive. -/
def readDirective? (s : Lexer) : Option Lexer := do
  let mark := here s.rest
  let s ← s.endBlocks? mark
  let (token, rest) ← directive? (s.rest.drop 1)
  some { s.add token mark with rest }

/-- Ends the text, on a line of its own. -/
def streamEnd? (s : Lexer) : Option Lexer := do
  let mark := here s.rest
  let mark := if mark.column = 0 then mark else mark.down
  let s ← s.endBlocks? mark
  some (s.add .streamEnd mark)

/-- Characters with a meaning of their own, which cannot start a plain scalar. -/
def isIndicator (c : Char) : Bool :=
  "-?:,[]\x7b\x7d#&*!|>'\"%@`".toList.contains c

/-- Reads the token at the front, which is not a marker, a directive or the end. -/
def token? (s : Lexer) : Option Lexer :=
  let c := ahead 0 s.rest
  let next := ahead 1 s.rest
  if c = '[' then s.openFlow? .openSequence
  else if c = '\x7b' then s.openFlow? .openMapping
  else if c = ']' then s.closeFlow? .closeSequence
  else if c = '\x7d' then s.closeFlow? .closeMapping
  else if c = ',' then s.flowEntry?
  else if c = '-' ∧ endsWord next then s.blockEntry?
  else if c = '?' ∧ (s.inFlow ∨ endsWord next) then s.key?
  else if c = ':' ∧ (s.inFlow ∨ endsWord next) then s.value?
  else if c = '*' then s.item? fun cs => (anchorName? cs).map fun (n, r) => (.aliasOf n, r)
  else if c = '&' then s.item? fun cs => (anchorName? cs).map fun (n, r) => (.anchor n, r)
  else if c = '!' then s.item? tag?
  else if c = '|' ∧ !s.inFlow then s.blockScalar? false
  else if c = '>' ∧ !s.inFlow then s.blockScalar? true
  else if c = '\'' ∨ c = '"' then
    s.item? fun cs => (quotedFrom c [] .empty cs).map fun (t, r) => (.scalar false t, r)
  else if !(endsWord c || isIndicator c) ∨ c = '-' ∨
      (!s.inFlow ∧ (c = '?' ∨ c = ':')) then s.plain?
  else none

/-- Reads the next token, with the block ends in front of it. -/
def step? (s : Lexer) : Option Lexer :=
  let start := here s.rest
  let s := s.skipGap s.rest
  let mark := here s.rest
  let s := s.unroll mark.column start
  let c := ahead 0 s.rest
  if c = endMark then s.streamEnd?
  else if mark.column = 0 ∧ c = '%' then s.readDirective?
  else if markerAhead '-' s.rest then s.marker? .documentStart
  else if markerAhead '.' s.rest then s.marker? .documentEnd
  else s.token?

/-- Reads tokens up to the end of the text, `fuel` steps at most.  If one of them
cannot be read, it and the two before it count as invalid. -/
def run (s : Lexer) : Nat → List Located
  | 0 => s.tokens.reverse
  | fuel + 1 =>
    match s.step? with
    | none => (⟨.invalid, here s.rest⟩ :: s.tokens.drop 2).reverse
    | some s =>
      if s.tokens.head?.any (·.token == .streamEnd) then s.tokens.reverse else run s fuel

end Lexer

/-- The tokens of a text.  Each one takes at least one character, so that the text
bounds the number of steps. -/
def tokens (cells : List Cell) : List Located :=
  Lexer.run { rest := cells } (cells.length + 1)

end Zinc.Yaml
