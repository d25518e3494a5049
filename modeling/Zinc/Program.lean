import Zinc.Document
import Zinc.Lir.Dump
import Zinc.Machine.Checkpoint
import Zinc.Machine.Evaluate

/-!
Loading a program into a machine.  The program is decoded into units, the
definitions in order and then the main expression; all units are lowered, then all
are compiled, then all are evaluated.  If any stage fails after the program is
decoded, the machine goes back to the checkpoint that was taken then.
-/

namespace Zinc

/-- A definition of a program, or its main expression, which has no name. -/
structure ProgramUnit where
  name : Option Symbol
  pos : Pos
  body : Expr
  lir : Option Lir := none
  /-- Where the code starts; -1 as long as there is none. -/
  entry : Int := -1
deriving Inhabited

namespace ProgramUnit

/-- What a unit is called in listings and messages. -/
def label (u : ProgramUnit) : String :=
  (u.name.map Symbol.name).getD "main"

/-- A fault with the unit it came from. -/
def failure (u : ProgramUnit) (f : Fault) : Failure :=
  .within (u.label ++ " (" ++ u.pos.text ++ ")") (.fault f)

/-- The units of a document. -/
def ofDocument (d : Document) : List ProgramUnit :=
  d.defs.map (fun d => { name := some d.name, pos := d.pos, body := d.body }) ++
    (d.main.map fun e => { name := none, pos := e.pos, body := e }).toList

/-- Declares the global of a unit, if it has one, and lowers the unit.  Definitions are
declared as they are reached, so that a unit can refer to itself and to earlier
ones. -/
def lower (u : ProgramUnit) (m : Machine) : Option Fault × ProgramUnit × Machine :=
  let (declared, m) : Machine.Reply Unit := match u.name with
    | some s => m.declare s
    | none => (.ok (), m)
  match declared with
  | .error f => (some f, u, m)
  | .ok () =>
    match m.lower u.body with
    | .error f => (some f, u, m)
    | .ok l => (none, { u with lir := some l }, m)

/-- Compiles a lowered unit. -/
def compile (u : ProgramUnit) (m : Machine) : Option Fault × ProgramUnit × Machine :=
  let (compiled, m) := match u.name with
    | some s => m.defineEntry s (u.lir.getD .missing)
    | none => m.compileEntry (u.lir.getD .missing)
  let u := { u with lir := u.lir.map fun _ => compiled.tree }
  match compiled.entry with
  | .error f => (some f, { u with entry := -1 }, m)
  | .ok entry => (none, { u with entry }, m)

/-- Runs a compiled unit.  The value of a main expression is rooted and replaces the
result so far. -/
def evaluate (u : ProgramUnit) :
    Option Handle × Machine → Option Fault × ProgramUnit × (Option Handle × Machine)
  | (result, m) =>
    match m.runEntry u.entry with
    | (.error f, m) => (some f, u, result, m)
    | (.ok v, m) =>
      if u.name.isSome then (none, u, result, m)
      else
        match m.newHandle v with
        | (.error f, m) => (some f, u, result, m)
        | (.ok h, m) => (none, u, some h, m)

/-- Takes units through a stage one after the other, up to the first that fails. -/
def each {σ : Type} (step : ProgramUnit → σ → Option Fault × ProgramUnit × σ) :
    List ProgramUnit → σ → Option Failure × List ProgramUnit × σ
  | [], s => (none, [], s)
  | u :: rest, s =>
    match step u s with
    | (some f, u, s) => (some (u.failure f), u :: rest, s)
    | (none, u, s) =>
      let (failure, units, s) := each step rest s
      (failure, u :: units, s)

end ProgramUnit

/-- A program on its way into a machine. -/
structure Loading where
  path : String
  source : ByteArray
  symbols : SymbolTable
  machine : Machine
  units : List ProgramUnit := []
  /-- The value of the main expression, rooted in the innermost frame. -/
  result : Option Handle := none
  failure : Option Failure := none
  checkpoint : Option Checkpoint := none

/-- The stages of loading. -/
inductive Stage where
  | decode
  | lower
  | compile
  | evaluate
deriving DecidableEq, Repr

namespace Loading

/-- Records a failure and takes the machine back to the checkpoint, if there is one. -/
def fail (l : Loading) (f : Failure) : Loading :=
  match l.checkpoint with
  | none => { l with failure := some f }
  | some cp =>
    { l with failure := some f, machine := l.machine.rollback cp, checkpoint := none }

/-- Records a failure, if there is one. -/
def settle (l : Loading) : Option Failure → Loading
  | none => l
  | some f => l.fail f

/-- Decodes the source into units and takes a checkpoint. -/
def decode [Yaml.Parser] (l : Loading) : Loading :=
  match Document.parse l.source l.symbols with
  | .error e => l.fail (.within l.path e)
  | .ok (document, symbols) =>
    let (cp, machine) := l.machine.checkpoint
    { l with
      symbols, machine
      units := l.units ++ ProgramUnit.ofDocument document
      checkpoint := some cp }

/-- Lowers all units. -/
def lower (l : Loading) : Loading :=
  let (failure, units, machine) := ProgramUnit.each ProgramUnit.lower l.units l.machine
  { l with units, machine }.settle failure

/-- Compiles all units. -/
def compile (l : Loading) : Loading :=
  let (failure, units, machine) := ProgramUnit.each ProgramUnit.compile l.units l.machine
  { l with units, machine }.settle failure

/-- Evaluates all units and gives up the checkpoint. -/
def evaluate (l : Loading) : Loading :=
  let (failure, units, result, machine) :=
    ProgramUnit.each ProgramUnit.evaluate l.units (l.result, l.machine)
  let l := { l with units, machine, result }
  match failure with
  | some f => l.fail f
  | none =>
    if l.checkpoint.isSome then { l with machine := l.machine.commit, checkpoint := none } else l

/-- Runs one stage, unless an earlier one has failed. -/
def stage [Yaml.Parser] (l : Loading) (s : Stage) : Loading :=
  if l.failure.isSome then l
  else
    match s with
    | .decode => l.decode
    | .lower => l.lower
    | .compile => l.compile
    | .evaluate => l.evaluate

/-- Runs stages in order. -/
def run [Yaml.Parser] (l : Loading) (stages : List Stage) : Loading :=
  stages.foldl stage l

end Loading

/-- All stages in their order. -/
def Stage.all : List Stage := [.decode, .lower, .compile, .evaluate]

end Zinc
