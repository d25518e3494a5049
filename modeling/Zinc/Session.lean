import Zinc.Config
import Zinc.Host.Convert
import Zinc.Program

/-!
Sessions: how a host program uses a machine.  A session owns a machine and the
names of its globals.  The host holds values by handles only, builds expressions or
loads whole programs, and reads results back.
-/

namespace Zinc

/-- The kind of value that a host sees behind a handle. -/
inductive HostKind where
  | integer
  | closure
  | tuple
  | other (code : Nat)
deriving DecidableEq, Repr

namespace HostKind

/-- The kind with the given code. -/
def ofCode : Nat → HostKind
  | 0 => integer
  | 1 => closure
  | 2 => tuple
  | n => other n

/-- The name of a kind. -/
def text : HostKind → String
  | integer => "integer"
  | closure => "closure"
  | tuple => "tuple"
  | other n => "kind(" ++ toString n ++ ")"

end HostKind

/-- What comes of storing a value in a variable of the host, and what the variable holds
afterwards. -/
structure Stored where
  result : Except Failure Unit
  target : HostValue

namespace Stored

/-- A variable that held `old` takes the value that was made for it, or is left alone if
none could be made. -/
def of (old : HostValue) : Except Failure HostValue → Stored
  | .ok x => ⟨.ok (), x⟩
  | .error e => ⟨.error e, old⟩

/-- The variable, if something has been stored in it. -/
def value (r : Stored) : Except Failure HostValue :=
  r.result.map fun _ => r.target

instance : Coe Stored (Except Failure HostValue) :=
  ⟨value⟩

end Stored

/-- A session. -/
structure Session where
  machine : Machine
  symbols : SymbolTable := {}

namespace Session

/-- The answer to a request and the session after it. -/
abbrev Reply (α : Type) := Except Failure α × Session

/-- The record of a new session. -/
def createdRecord (l : Limits) : Record where
  message := "vm created"
  attrs := [("arg_stack", toString l.argStack), ("return_stack", toString l.returnStack),
    ("gc_threshold", toString l.threshold)]

/-- A session on a new machine with one handle frame. -/
def create (owner : Nat) (limits : Limits) (logLevel : Option LogLevel) (watch : Option Watch) :
    Session :=
  let machine := { Machine.create owner limits with logLevel, watch }
  let (_, machine) := machine.pushFrame
  { machine := machine.logged (createdRecord limits) }

/-- The bounds that a host asks for: those of a configuration file if it names one, else
the ones it gives, else the standard ones. -/
def chooseLimits [Yaml.Parser] {m : Type → Type} [Monad m] (fs : FileSystem m)
    (limits : Option Limits) (configFile : Option String) : m (Except Failure Limits) :=
  match configFile with
  | some path => Config.load fs path
  | none => return .ok (limits.getD Limits.standard)

/-- Passes a request on to the machine. -/
def onMachine {α : Type} (s : Session) (f : Machine → Machine.Reply α) : Reply α :=
  let (r, machine) := f s.machine
  (r.mapError .fault, { s with machine })

/-- The symbol of a global. -/
def symbol (s : Session) (name : String) : Symbol × Session :=
  let (symbol, symbols) := s.symbols.intern name
  (symbol, { s with symbols })

/-- Closes the session; its handles become unusable. -/
def close (s : Session) : Reply Unit :=
  s.onMachine Machine.close

/-- Makes a global known before it is defined. -/
def declare (s : Session) (name : String) : Reply Unit :=
  let (symbol, s) := s.symbol name
  s.onMachine (·.declare symbol)

/-- Compiles an expression into a closure that computes it. -/
def compile (s : Session) (e : Expr) : Reply Handle :=
  s.onMachine (·.compile e)

/-- Compiles the definition of a global into a closure that assigns it. -/
def define (s : Session) (name : String) (e : Expr) : Reply Handle :=
  let (symbol, s) := s.symbol name
  s.onMachine (·.define symbol e)

/-- Runs a compiled closure. -/
def evaluate (s : Session) (h : Handle) : Reply Handle :=
  s.onMachine (·.evaluate h)

/-- Applies a closure to arguments. -/
def call (s : Session) (fn : Handle) (args : List Handle) : Reply Handle :=
  s.onMachine (·.call fn args)

/-- A handle to the value of a global. -/
def global (s : Session) (name : String) : Reply Handle :=
  let (symbol, s) := s.symbol name
  match s.machine.globalValue symbol with
  | .error f => (.error (.fault f), s)
  | .ok v => s.onMachine (·.newHandle v)

/-- Opens a handle frame. -/
def pushFrame (s : Session) : Reply Unit :=
  s.onMachine Machine.pushFrame

/-- Closes the innermost handle frame. -/
def popFrame (s : Session) : Reply Unit :=
  s.onMachine Machine.popFrame

/-- A handle to an integer. -/
def newInt (s : Session) (n : Int64) : Reply Handle :=
  s.onMachine (·.newHandle (.int n))

/-- The values of several handles. -/
def values (s : Session) : List Handle → Except Fault (List Value)
  | [] => .ok []
  | h :: rest =>
    match s.machine.value h with
    | .error f => .error f
    | .ok v => (s.values rest).map (v :: ·)

/-- A handle to a new tuple. -/
def newTuple (s : Session) (fields : List Handle) : Reply Handle :=
  match s.values fields with
  | .error f => (.error (.fault f), s)
  | .ok vs => s.onMachine (·.newTuple vs)

/-- A value that a host must not see. -/
def hiddenKind (k : Kind) : Fault where
  kind := .internal
  op := "kind"
  cause := .internalKind
  detail := some k.text

/-- A value of another kind than the one asked for. -/
def wrongKind (op : String) (cause : Cause) (k : Kind) : Fault where
  kind := .usage
  op := op
  cause := cause
  detail := some ("got " ++ k.text)

/-- The kind of value behind a handle. -/
def kind (s : Session) (h : Handle) : Except Fault HostKind := do
  match (← s.machine.value h).kind with
  | .int => return .integer
  | .closure => return .closure
  | .tuple => return .tuple
  | k => throw (hiddenKind k)

/-- The integer behind a handle. -/
def int (s : Session) (h : Handle) : Except Fault Int64 := do
  let v ← s.machine.value h
  if v.kind = .int then return v.asInt else throw (wrongKind "int" .notInteger v.kind)

/-- The fields of the tuple behind a handle, for the operation `op`. -/
def tupleFields (s : Session) (h : Handle) (op : String) : Except Fault (List Value) := do
  let v ← s.machine.value h
  if v.kind = .tuple then return s.machine.heap.fieldsOf v
  else throw (wrongKind op .notTuple v.kind)

/-- The number of fields of a tuple. -/
def size (s : Session) (h : Handle) : Except Fault Nat :=
  (s.tupleFields h "len").map List.length

/-- A field that a tuple does not have. -/
def noField (i : Int) (size : Nat) : Fault where
  kind := .usage
  op := "field"
  cause := .fieldOutOfBounds
  detail := some ("index " ++ toString i ++ " of " ++ toString size)

/-- A handle to a field of a tuple. -/
def field (s : Session) (h : Handle) (i : Int) : Reply Handle :=
  match s.tupleFields h "field" with
  | .error f => (.error (.fault f), s)
  | .ok fields =>
    match if i < 0 then none else fields[i.toNat]? with
    | none => (.error (.fault (noField i fields.length)), s)
    | some v => s.onMachine (·.newHandle v)

/-- The text of the value behind a handle. -/
def inspect (s : Session) (h : Handle) : Except Fault String :=
  (s.machine.value h).map s.machine.inspect

/-- Collects garbage and answers how many objects were released. -/
def collect (s : Session) : Reply Nat :=
  s.onMachine Machine.collect

/-- Loads a program: defines its globals and evaluates its main expression.  The answer
is a handle to the value of that, if there is one. -/
def load [Yaml.Parser] (s : Session) (path : String) (source : ByteArray) : Reply (Option Handle) :=
  let l := Loading.run { path, source, symbols := s.symbols, machine := s.machine } Stage.all
  let s := { machine := l.machine, symbols := l.symbols }
  match l.failure with
  | some f => (.error f, s)
  | none => (.ok l.result, s)

/-- Loads a program from a file. -/
def loadFile [Yaml.Parser] {m : Type → Type} [Monad m] (s : Session) (fs : FileSystem m)
    (path : String) : m (Reply (Option Handle)) := do
  match ← fs.read path with
  | .error e => return (.error (.file e), s)
  | .ok source => return s.load path source

/-- A handle to the value that a host value becomes.  A handle stays what it is. -/
def marshal (s : Session) (x : HostValue) : Reply Handle :=
  match x.dynamic? with
  | none => (.error (.message "cannot convert nil"), s)
  | some (.handle h) => (.ok h, s)
  | some x =>
    match Machine.ofHost x s.machine with
    | (.error e, machine) => (.error e, { s with machine })
    | (.ok v, machine) => { s with machine }.onMachine (·.newHandle v)

/-- The host value of what a handle refers to, of the wanted type if one is wanted.  A
closure leaves the session as the handle itself. -/
def unmarshalAs (s : Session) (h : Handle) (target : Option HostType) :
    Except Failure HostValue := do
  let v ← (s.machine.value h).mapError .fault
  if target = some .handle then return .handle h
  else
    let heap := s.machine.heap
    let x ← Machine.toHost heap (heap.cells.size + 1) v target
    return x.getD (.handle h)

/-- The host value of what a handle refers to. -/
def unmarshal (s : Session) (h : Handle) : Except Failure HostValue :=
  s.unmarshalAs h none

/-- Stores the host value of what a handle refers to in the variable that the pointer `out`
points to.  What is no pointer is refused and stays as it is. -/
def unmarshalInto (s : Session) (h : Handle) (out : HostValue) : Stored :=
  match out.dynamic? with
  | some (.ptr elem (some old)) =>
    .of old do
      let x ← s.unmarshalAs h (some elem)
      Machine.stored x elem
  | other =>
    let shown := (other.map fun v => v.type.text).getD "<nil>"
    ⟨.error (.message ("UnmarshalInto needs a non-nil pointer, got " ++ shown)), out⟩

end Session

end Zinc
