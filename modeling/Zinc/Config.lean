import Zinc.FileSystem
import Zinc.Limits
import Zinc.Yaml.Node
import Zinc.Yaml.Resolve

/-!
Configuration files.  The bounds of a machine can be written as YAML:

    vm:
      arg_stack: 65536
      return_stack: 65536
      gc_threshold: 65536
      max_steps: 0
      trace: false

Every field may be left out or null.  A configuration is searched for in a
directory and then in those above it.
-/

namespace Zinc.Config

open Yaml (Node Meaning)

/-- The names of configuration files, the preferred one first. -/
def fileNames : List String := ["wist.yaml", "wist.yml"]

/-- The extensions of program files. -/
def programExtensions : List String := [".wist.yaml", ".wist.yml"]

/-- A path without the extension of a program file.  A path that is nothing but an
extension keeps it. -/
def trimExtension (path : String) : String :=
  match programExtensions.find? fun ext => path.endsWith ext && path ≠ ext with
  | some ext => (path.dropEnd ext.length).toString
  | none => path

/-- The meaning of a scalar, with an alias followed. -/
def meaning? (node : Node) : Option Meaning :=
  match node.resolved? with
  | some (.scalar _ tag isPlain text) => Meaning.ofScalar? tag isPlain text
  | _ => none

/-- The least number that a field can hold. -/
def leastWord : Int := -0x8000000000000000

/-- The greatest number that a field can hold. -/
def greatestWord : Int := 0x7fffffffffffffff

/-- A number that a field can hold: a 64-bit integer.  A fraction loses its fractional
part; one that is too small, or too large by one, becomes the least integer. -/
def word? : Meaning → Option Int
  | .integer n => if leastWord ≤ n ∧ n ≤ greatestWord then some n else none
  | .fraction w =>
    if greatestWord + 1 < w then none
    else some (if leastWord ≤ w ∧ w ≤ greatestWord then w else leastWord)
  | _ => none

/-- A truth value that a field can hold. -/
def truth? : Meaning → Option Bool
  | .truth b => some b
  | .text s =>
    if s ∈ ["y", "Y", "yes", "on"] then some true
    else if s ∈ ["n", "N", "no", "off"] then some false
    else none
  | _ => none

/-- The value of a field read by `read?`; null gives the default. -/
def value? {α : Type} (read? : Meaning → Option α) (default : α) (node : Node) : Option α :=
  (meaning? node).bind fun
    | .null => some default
    | m => read? m

/-- The name of a field; `some none` for a null key, which is skipped. -/
def fieldName? (key : Node) : Option (Option String) :=
  match key.resolved? with
  | some (.scalar _ tag isPlain text) =>
    (Meaning.ofScalar? tag isPlain text).map fun m => if m = .null then none else some text
  | _ => none

/-- Reads the pairs of a mapping into a record.  `set` gives `none` for a name that is
not known and otherwise the outcome of setting that field; no field is set twice. -/
def fields? {α : Type} (set : String → Node → α → Option (Option α)) (seen : List String) :
    List (Node × Node) → α → Option α
  | [], a => some a
  | (key, value) :: rest, a =>
    match fieldName? key with
    | none => none
    | some none => fields? set seen rest a
    | some (some name) =>
      match set name value a with
      | none => fields? set seen rest a
      | some none => none
      | some (some a) => if name ∈ seen then none else fields? set (name :: seen) rest a

/-- Reads a mapping into a record; null leaves the record as it is. -/
def record? {α : Type} (set : String → Node → α → Option (Option α)) (node : Node) (a : α) :
    Option α :=
  match node.resolved? with
  | some (.mapping _ pairs) => if Node.keysUnique pairs then fields? set [] pairs a else none
  | some (.scalar _ tag isPlain text) =>
    if Meaning.ofScalar? tag isPlain text = some .null then some a else none
  | _ => none

/-- Sets one bound. -/
def setLimit (name : String) (node : Node) (l : Limits) : Option (Option Limits) :=
  match name with
  | "arg_stack" => some ((value? word? 0 node).map fun n => { l with argStack := n })
  | "return_stack" => some ((value? word? 0 node).map fun n => { l with returnStack := n })
  | "gc_threshold" =>
    some ((value? (fun m => (word? m).map some) none node).map fun n => { l with threshold? := n })
  | "max_steps" => some ((value? word? 0 node).map fun n => { l with maxSteps := n })
  | "trace" => some ((value? truth? false node).map fun b => { l with trace := b })
  | _ => none

/-- The bounds that a configuration sets; all others are zero or unset. -/
def limits? (node : Node) : Option Limits :=
  record? (fun name value l => if name = "vm" then some (record? setLimit value l) else none)
    node {}

/-- The name of the first field that is negative. -/
def negativeField? (l : Limits) : Option String :=
  if l.argStack < 0 then some "arg_stack"
  else if l.returnStack < 0 then some "return_stack"
  else if l.threshold?.any (· < 0) then some "gc_threshold"
  else if l.maxSteps < 0 then some "max_steps"
  else none

/-- Reads the bounds from the content of the configuration file at `path`. -/
def parse [Yaml.Parser] (source : ByteArray) (path : String) : Except Failure Limits :=
  let limits : Option Limits := match Yaml.Parser.content source with
    | .malformed => none
    | .empty => some {}
    | .root node => limits? node
  match limits with
  | none => .error (.within ("parsing " ++ path) .yaml)
  | some l =>
    match negativeField? l with
    | some name => .error (.message (path ++ ": vm." ++ name ++ " must not be negative"))
    | none => .ok l.fillZero

/-- Reads the bounds from the configuration file at `path`. -/
def load [Yaml.Parser] {m : Type → Type} [Monad m] (fs : FileSystem m) (path : String) :
    m (Except Failure Limits) := do
  match ← fs.read path with
  | .error e => return .error (.within ("reading config " ++ path) (.file e))
  | .ok source => return parse source path

/-- The first of the paths that is present. -/
def firstPresent? {m : Type → Type} [Monad m] (fs : FileSystem m) :
    List String → m (Option String)
  | [] => return none
  | path :: rest => do if ← fs.isPresent path then return some path else firstPresent? fs rest

/-- The candidate in the directory whose parts, the last first, are given, or in the
nearest directory above it. -/
def findFrom {m : Type → Type} [Monad m] (fs : FileSystem m) (dir : List String) :
    m (Option String) := do
  match ← firstPresent? fs (fileNames.map fun name => Path.ofParts true (name :: dir)) with
  | some path => return some path
  | none =>
    match dir with
    | [] => return none
    | _ :: above => findFrom fs above

/-- The configuration file that counts for a directory, which need not exist. -/
def find {m : Type → Type} [Monad m] (fs : FileSystem m) (dir : String) : m (Option String) :=
  findFrom fs (Path.simpleParts (Path.absolute fs.workingDirectory dir))

end Zinc.Config
