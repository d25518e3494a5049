import Zinc.Yaml.Lexer
import Zinc.Yaml.Node

/-!
From tokens to the node tree of the first document of a text.  What stands after
that document is not read, save that the tokens right behind it have to be sound.
-/

namespace Zinc.Yaml

/-- The tags that handles stand for. -/
abbrev Handles := List (String × String)

/-- What the tags of the YAML standard start with. -/
def standardTags : String := "tag:yaml.org,2002:"

/-- The handles that need no directive. -/
def Handles.standard : Handles :=
  [("!", "!"), ("!!", standardTags)]

/-- The tag that a handle and a suffix make, with the standard tags shortened to
`!!suffix`; `none` if the handle is not known. -/
def Handles.tag? (handles : Handles) (handle suffix : String) : Option String :=
  let full :=
    if handle.isEmpty then some suffix
    else (handles.lookup handle).map (· ++ suffix)
  full.map fun tag =>
    if tag.startsWith standardTags then "!!" ++ (tag.drop standardTags.length).toString else tag

/-- The tokens still to be read and the anchors met so far, those of nodes that are
still being read without a node. -/
structure Reader where
  tokens : List Located
  anchors : Array (String × Option Node) := #[]
  handles : Handles := Handles.standard

namespace Reader

/-- The next token, if it is sound. -/
def peek? (r : Reader) : Option Located :=
  r.tokens.head?.filter (·.token != .invalid)

/-- The reader behind the next token. -/
def skip (r : Reader) : Reader :=
  { r with tokens := r.tokens.tail }

/-- The node that an alias stands for: the last one anchored by that name. -/
def target? (name : String) (r : Reader) : Option (Option Node) :=
  (r.anchors.findRev? (·.1 == name)).map (·.2)

/-- Notes the anchor of a node that is about to be read. -/
def openAnchor (anchor : Option String) (r : Reader) : Reader :=
  match anchor with
  | some name => { r with anchors := r.anchors.push (name, none) }
  | none => r

/-- Gives the anchor in slot `slot` its node. -/
def closeAnchor (slot : Nat) (anchor : Option String) (node : Node) (r : Reader) : Reader :=
  match anchor with
  | some name => { r with anchors := r.anchors.setIfInBounds slot (name, some node) }
  | none => r

end Reader

/-- The anchor and the tag of a node, in either order, and where they start. -/
structure Properties where
  anchor : Option String := none
  tag : Option String := none
  start : Option Mark := none

/-- Reads the properties of a node. -/
def Reader.properties? (r : Reader) : Option (Properties × Reader) :=
  match r.tokens with
  | ⟨.anchor name, start⟩ :: ⟨.tag handle suffix, _⟩ :: rest
  | ⟨.tag handle suffix, start⟩ :: ⟨.anchor name, _⟩ :: rest =>
    (r.handles.tag? handle suffix).map fun tag =>
      (⟨some name, some tag, some start⟩, { r with tokens := rest })
  | ⟨.anchor name, start⟩ :: rest =>
    some (⟨some name, none, some start⟩, { r with tokens := rest })
  | ⟨.tag handle suffix, start⟩ :: rest =>
    (r.handles.tag? handle suffix).map fun tag =>
      (⟨none, some tag, some start⟩, { r with tokens := rest })
  | _ => some ({}, r)

/-- A scalar that is not there. -/
def emptyScalar (m : Mark) : Node :=
  .scalar m.pos none true ""

/-- The tag that counts: a lone exclamation mark says nothing. -/
def Properties.shownTag (p : Properties) : Option String :=
  p.tag.filter (· ≠ "!")

/-- Tokens before which the value or the key of a block mapping is left out. -/
def Token.endsBlockItem : Token → Bool
  | .key | .value | .blockEnd => true
  | _ => false

mutual

/-- Reads a node.  Block collections are read only if `block`, and a sequence that is
not indented only if `indentless`. -/
def readNode (block indentless : Bool) : Nat → Reader → Option (Node × Reader)
  | 0, _ => none
  | fuel + 1, r => do
    let first ← r.peek?
    match first.token with
    | .aliasOf name =>
      let target ← r.target? name
      some (.aliasOf first.start.pos name target, r.skip)
    | _ =>
      let (props, r) ← r.properties?
      let slot := r.anchors.size
      let r := r.openAnchor props.anchor
      let next ← r.peek?
      let pos := (props.start.getD next.start).pos
      let (node, r) ← match next.token with
        | .scalar isPlain text => some (.scalar pos props.shownTag isPlain text, r.skip)
        | .openSequence =>
          (readFlowItems true [] fuel r.skip).map fun (l, r) => (.sequence pos l, r)
        | .openMapping => (readFlowPairs true [] fuel r.skip).map fun (l, r) => (.mapping pos l, r)
        | token =>
          if indentless && token == .blockEntry then
            (readDashes true [] fuel r).map fun (l, r) => (.sequence pos l, r)
          else if block && token == .blockSequence then
            (readDashes false [] fuel r.skip).map fun (l, r) => (.sequence pos l, r)
          else if block && token == .blockMapping then
            (readBlockPairs [] fuel r.skip).map fun (l, r) => (.mapping pos l, r)
          else if props.start.isSome then some (.scalar pos props.shownTag true "", r)
          else none
      some (node, r.closeAnchor slot props.anchor node)

/-- Reads the items of a block sequence.  An indented one is closed by a token of its
own, one that is not ends with its last item. -/
def readDashes (indentless : Bool) (done : List Node) : Nat → Reader → Option (List Node × Reader)
  | 0, _ => none
  | fuel + 1, r => do
    let dash ← r.peek?
    match dash.token with
    | .blockEntry =>
      let r := r.skip
      let next ← r.peek?
      if next.token == .blockEntry || next.token == .blockEnd ||
          (indentless && next.token.endsBlockItem) then
        readDashes indentless (emptyScalar dash.start.right :: done) fuel r
      else
        let (node, r) ← readNode true false fuel r
        readDashes indentless (node :: done) fuel r
    | token =>
      if indentless then some (done.reverse, r)
      else if token == .blockEnd then some (done.reverse, r.skip)
      else none

/-- Reads the pairs of a block mapping and its end. -/
def readBlockPairs (done : List (Node × Node)) :
    Nat → Reader → Option (List (Node × Node) × Reader)
  | 0, _ => none
  | fuel + 1, r => do
    let first ← r.peek?
    match first.token with
    | .blockEnd => some (done.reverse, r.skip)
    | .key =>
      let r := r.skip
      let next ← r.peek?
      let (key, r) ←
        if next.token.endsBlockItem then some (emptyScalar first.start.right, r)
        else readNode true true fuel r
      let colon ← r.peek?
      if colon.token == .value then
        let r := r.skip
        let next ← r.peek?
        let (value, r) ←
          if next.token.endsBlockItem then some (emptyScalar colon.start.right, r)
          else readNode true true fuel r
        readBlockPairs ((key, value) :: done) fuel r
      else readBlockPairs ((key, emptyScalar colon.start) :: done) fuel r
    | _ => none

/-- Reads the items of a bracketed sequence and its end.  An item may be a pair, which
counts as a mapping. -/
def readFlowItems (isFirst : Bool) (done : List Node) : Nat → Reader → Option (List Node × Reader)
  | 0, _ => none
  | fuel + 1, r => do
    let first ← r.peek?
    if first.token == .closeSequence then some (done.reverse, r.skip)
    else
      let r ← if isFirst then some r else if first.token == .flowEntry then some r.skip else none
      let next ← r.peek?
      match next.token with
      | .closeSequence => some (done.reverse, r.skip)
      | .key =>
        let (pair, r) ← readLonePair fuel r.skip
        readFlowItems false (.mapping next.start.pos [pair] :: done) fuel r
      | _ =>
        let (node, r) ← readNode false false fuel r
        readFlowItems false (node :: done) fuel r

/-- Reads a pair that is an item of a bracketed sequence. -/
def readLonePair : Nat → Reader → Option ((Node × Node) × Reader)
  | 0, _ => none
  | fuel + 1, r => do
    let first ← r.peek?
    let ends (token : Token) : Bool := token == .flowEntry || token == .closeSequence
    let (key, r) ←
      if first.token == .value || ends first.token then
        some (emptyScalar first.start.right, r.skip)
      else readNode false false fuel r
    let colon ← r.peek?
    if colon.token == .value then
      let r := r.skip
      let next ← r.peek?
      let (value, r) ←
        if ends next.token then some (emptyScalar colon.start, r) else readNode false false fuel r
      some ((key, value), r)
    else some ((key, emptyScalar colon.start), r)

/-- Reads the pairs of a bracketed mapping and its end.  A key may lack its value. -/
def readFlowPairs (isFirst : Bool) (done : List (Node × Node)) :
    Nat → Reader → Option (List (Node × Node) × Reader)
  | 0, _ => none
  | fuel + 1, r => do
    let first ← r.peek?
    if first.token == .closeMapping then some (done.reverse, r.skip)
    else
      let r ← if isFirst then some r else if first.token == .flowEntry then some r.skip else none
      let next ← r.peek?
      let ends (token : Token) : Bool := token == .flowEntry || token == .closeMapping
      match next.token with
      | .closeMapping => some (done.reverse, r.skip)
      | .key =>
        let r := r.skip
        let start ← r.peek?
        let (key, r) ←
          if start.token == .value || ends start.token then some (emptyScalar start.start, r)
          else readNode false false fuel r
        let colon ← r.peek?
        if colon.token == .value then
          let r := r.skip
          let next ← r.peek?
          let (value, r) ←
            if ends next.token then some (emptyScalar next.start, r)
            else readNode false false fuel r
          readFlowPairs false ((key, value) :: done) fuel r
        else readFlowPairs false ((key, emptyScalar colon.start) :: done) fuel r
      | _ =>
        let (key, r) ← readNode false false fuel r
        let after ← r.peek?
        readFlowPairs false ((key, emptyScalar after.start) :: done) fuel r

end

/-- Whether a token stands between documents. -/
def Token.separatesDocuments : Token → Bool
  | .version _ _ | .tagHandle _ _ | .documentStart | .documentEnd | .streamEnd => true
  | _ => false

/-- Reads the directives of a document and the marker that has to follow them.  There
is at most one version, 1.1 or 1.2, and no handle is given twice. -/
def readDirectives? (seenVersion : Bool) (handles : Handles) :
    List Located → Option (Handles × List Located)
  | ⟨.version major minor, _⟩ :: rest =>
    if seenVersion ∨ major ≠ 1 ∨ (minor ≠ 1 ∧ minor ≠ 2) then none
    else readDirectives? true handles rest
  | ⟨.tagHandle handle expansion, _⟩ :: rest =>
    if (handles.lookup handle).isSome then none
    else readDirectives? seenVersion ((handle, expansion) :: handles) rest
  | ⟨.documentStart, _⟩ :: rest => some (handles ++ Handles.standard, rest)
  | _ => none

/-- The root of the first document, if there is one.  Every call takes a token or is
one of at most two between two tokens, so that the tokens bound the depth. -/
def readDocument? (tokens : List Located) : Option (Option Node) := do
  let fuel := 3 * tokens.length + 3
  let r : Reader := { tokens }
  let first ← r.peek?
  match first.token with
  | .streamEnd => some none
  | .version _ _ | .tagHandle _ _ | .documentStart =>
    let (handles, rest) ← readDirectives? false [] tokens
    let r := { r with tokens := rest, handles }
    let next ← r.peek?
    if next.token.separatesDocuments then some (some (emptyScalar next.start))
    else
      let (node, r) ← readNode true false fuel r
      let _ ← r.peek?
      some (some node)
  | _ =>
    let (node, r) ← readNode true false fuel r
    let _ ← r.peek?
    some (some node)

/-- What a text holds. -/
def parse (text : String) : Content :=
  match (cells? text).bind fun cells => readDocument? (tokens cells) with
  | none => .malformed
  | some none => .empty
  | some (some node) => .root node

/-- The bytes of a source are read as a text, if they are one. -/
instance : Parser where
  content source :=
    match String.fromUTF8? source with
    | none => .malformed
    | some text => parse text

theorem content_text (text : String) : Parser.content (text : ByteArray) = parse text := by
  have hread : String.fromUTF8? text.toUTF8 = some text := dif_pos text.isValidUTF8
  simp only [Parser.content, hread]

end Zinc.Yaml
