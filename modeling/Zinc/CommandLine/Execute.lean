import Zinc.Code.Listing
import Zinc.CommandLine.Help
import Zinc.Config
import Zinc.Program
import Zinc.Yaml.Parser

/-!
The commands at work: `run` evaluates a program and prints the value of its main
expression, `disasm` prints its code, and `lir` prints its lowered form.
-/

namespace Zinc.CommandLine

/-- What a command prints and how it ends. -/
structure Outcome where
  stdout : String := ""
  stderr : String := ""
  failure : Option Failure := none

/-- The bounds for a program: those of the configuration that is named, else of the one
found next to the program or above it, else the standard ones; flags go first. -/
def chooseLimits [Yaml.Parser] {m : Type → Type} [Monad m] (fs : FileSystem m) (flags : Flags)
    (file : String) : m (Except Failure Limits) := do
  let path ← if flags.config.isEmpty then Config.find fs (Path.parent file)
    else pure (some flags.config)
  let loaded ← match path with
    | some path => Config.load fs path
    | none => pure (.ok Limits.standard)
  return loaded.map fun l =>
    { l with
      trace := flags.trace.getD l.trace
      maxSteps := (flags.maxSteps.map Int64.toInt).getD l.maxSteps }

/-- Takes a program through stages in a new machine with one handle frame. -/
def prepare [Yaml.Parser] (file : String) (source : ByteArray) (limits : Limits)
    (stages : List Stage) : Loading :=
  let machine := { Machine.create 1 limits with
    logLevel := if limits.trace then some .debug else none }
  let (_, machine) := machine.pushFrame
  Loading.run { path := file, source, symbols := {}, machine } (.decode :: stages)

/-- The value of the main expression of a loaded program, on a line of its own. -/
def valueReport (l : Loading) : Except Failure String :=
  match l.result with
  | none => .ok ""
  | some h =>
    match l.machine.value h with
    | .error f => .error (.fault f)
    | .ok v => .ok (l.machine.inspect v ++ "\n")

/-- The line that names a program by its file. -/
def title (file : String) : String :=
  "; " ++ Config.trimExtension (Path.base file) ++ "\n"

/-- The listings of units, each of which ends where the next one starts. -/
def unitListings (m : Machine) : List ProgramUnit → String
  | [] => ""
  | u :: rest =>
    let stop := (rest.head?.map ProgramUnit.entry).getD m.code.size
    let listing := match m.code.decode? u.entry stop with
      | some d => d.listing m.globals.nameOf? u.label
      | none => ""
    listing ++ unitListings m rest

/-- The line that gives the slots of the globals, ordered by name. -/
def globalsLine (g : Globals) : String :=
  match g.symbolsByName with
  | [] => ""
  | symbols =>
    let slots := symbols.map fun s => s.name ++ "=" ++ toString ((g.slot? s).getD 0)
    "globals: " ++ String.intercalate " " slots ++ "\n"

/-- The code of a compiled program. -/
def codeReport (file : String) (l : Loading) : String :=
  title file ++ unitListings l.machine l.units ++ globalsLine l.machine.globals

/-- The lowered form of a program. -/
def lirReport (file : String) (l : Loading) : String :=
  title file ++ String.join (l.units.map fun u =>
    "== " ++ u.label ++ " ==\n" ++ (u.lir.getD .missing).dump)

/-- The stages that a command needs beyond decoding. -/
def Command.stages : Command → List Stage
  | run => [.lower, .compile, .evaluate]
  | disasm => [.lower, .compile]
  | _ => [.lower]

/-- What a command prints about a loaded program. -/
def Command.report (c : Command) (file : String) (l : Loading) : Except Failure String :=
  match l.failure with
  | some f => .error f
  | none =>
    match c with
    | run => valueReport l
    | disasm => .ok (codeReport file l)
    | _ => .ok (lirReport file l)

/-- Runs a command on a program. -/
def Command.onProgram [Yaml.Parser] (c : Command) (file : String) (source : ByteArray)
    (limits : Limits) : Outcome :=
  let l := prepare file source limits c.stages
  let stderr := String.join (l.machine.log.toList.map fun r => r.keyed ++ "\n")
  match c.report file l with
  | .error f => { stderr, failure := some f }
  | .ok stdout => { stdout, stderr }

/-- Runs a command on a file. -/
def Command.onFile [Yaml.Parser] {m : Type → Type} [Monad m] (c : Command) (fs : FileSystem m)
    (flags : Flags) (file : String) : m Outcome := do
  match ← chooseLimits fs flags file with
  | .error f => return { failure := some f }
  | .ok limits =>
    match ← fs.read file with
    | .error e => return { failure := some (.file e) }
    | .ok source => return c.onProgram file source limits

/-- A wrong number of words. -/
def wrongCount (n : Nat) : Failure :=
  .message ("accepts 1 arg(s), received " ++ toString n)

/-- Carries out a command line. -/
def execute [Yaml.Parser] {m : Type → Type} [Monad m] (fs : FileSystem m)
    (args : List String) : m Outcome := do
  match findCommand args with
  | .error f => return { failure := some f }
  | .ok (command, args) =>
    match readArguments {} args with
    | .error f => return { failure := some f }
    | .ok ⟨flags, words⟩ =>
      match command with
      | none | some .help | some .completion => return { stdout := programHelp }
      | some c =>
        if flags.help then return { stdout := c.helpText }
        else
          match words with
          | [file] => c.onFile fs flags file
          | _ => return { failure := some (wrongCount words.length) }

end Zinc.CommandLine
