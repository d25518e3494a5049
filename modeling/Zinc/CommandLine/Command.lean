import Zinc.CommandLine.Flags
import Zinc.Text.Distance

/-!
Finding the command in a command line.  It is the first word that is neither a flag
nor the value of one; flags may come before it.
-/

namespace Zinc.CommandLine

/-- What the program is called. -/
def programName : String := "wist"

/-- The commands. -/
inductive Command where
  | run
  | disasm
  | lir
  | help
  | completion
deriving DecidableEq, Repr

namespace Command

/-- All commands. -/
def all : List Command := [run, disasm, lir, help, completion]

/-- The name of a command. -/
def text : Command → String
  | run => "run"
  | disasm => "disasm"
  | lir => "lir"
  | help => "help"
  | completion => "completion"

/-- The command of a name. -/
def ofText? (name : String) : Option Command :=
  all.find? (·.text = name)

/-- The commands that may have been meant by a word: those at most two letters away and
those that it abbreviates. -/
def suggestions (word : String) : List String :=
  let word := word.toLower
  ((all.filter (· ≠ help)).map text).filter fun name =>
    Text.distance word name ≤ 2 || name.startsWith word

/-- A word that is no command. -/
def unknown (word : String) : Failure :=
  let hint := match suggestions word with
    | [] => ""
    | names => "\n\nDid you mean this?\n" ++ String.join (names.map fun n => "\t" ++ n ++ "\n")
  .message ("unknown command " ++ Text.quoted word ++ " for " ++ Text.quoted programName ++ hint)

end Command

/-- Whether the argument after `s` is the value of `s`: every flag without an equals
sign counts as having one, except the switch that all commands share. -/
def takesNext (s : String) : Bool :=
  !s.contains '=' &&
    ((s.startsWith "--" && s ≠ "--" ++ FlagName.trace.text) ||
      (s.startsWith "-" && s.utf8ByteSize == 2))

/-- The words of a command line that are neither flags nor values of flags. -/
def plainWords : List String → List String
  | [] => []
  | s :: rest =>
    if s = "--" then []
    else if takesNext s then
      match rest with
      | _ :: next :: more => plainWords (next :: more)
      | _ => []
    else if s = "" ∨ s.startsWith "-" then plainWords rest
    else s :: plainWords rest

/-- The command line without the first word that is `x`. -/
def withoutWord (x : String) : List String → List String
  | [] => []
  | s :: rest =>
    if s = "--" then s :: rest
    else if takesNext s then
      match rest with
      | value :: more => s :: value :: withoutWord x more
      | [] => [s]
    else if s = x then rest
    else s :: withoutWord x rest

/-- The command of a command line and the arguments for it; no command if there is no
word that could be one. -/
def findCommand (args : List String) : Except Failure (Option Command × List String) :=
  match plainWords args with
  | [] => .ok (none, args)
  | word :: _ =>
    match Command.ofText? word with
    | some c => .ok (some c, withoutWord word args)
    | none => .error (Command.unknown word)

end Zinc.CommandLine
