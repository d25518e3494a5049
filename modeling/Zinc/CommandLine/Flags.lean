import Zinc.Failure
import Zinc.Text.Numeral

/-!
Flags of the command line.  Flags and other words may come in any order; two dashes
end the flags.  A flag is written `--name value` or `--name=value`; one that is
switched on by its name alone takes a value only behind an equals sign.
-/

namespace Zinc.CommandLine

/-- The flags. -/
inductive FlagName where
  | config
  | trace
  | maxSteps
  | help
deriving DecidableEq, Repr

namespace FlagName

/-- All flags. -/
def all : List FlagName := [config, trace, maxSteps, help]

/-- The name of a flag behind its two dashes. -/
def text : FlagName → String
  | config => "config"
  | trace => "trace"
  | maxSteps => "max-steps"
  | help => "help"

/-- How a flag is called in messages. -/
def shown : FlagName → String
  | help => "-h, --help"
  | f => "--" ++ f.text

/-- Whether the name alone switches the flag on. -/
def isSwitch : FlagName → Bool
  | trace | help => true
  | config | maxSteps => false

/-- The flag of a name. -/
def ofText? (name : String) : Option FlagName :=
  all.find? (·.text = name)

end FlagName

/-- The values of the flags that were given. -/
structure Flags where
  config : String := ""
  trace : Option Bool := none
  maxSteps : Option Int64 := none
  help : Bool := false
deriving DecidableEq, Repr, Inhabited

/-- Flags and the other words of a command line. -/
structure Arguments where
  flags : Flags := {}
  words : List String := []
deriving DecidableEq, Repr, Inhabited

/-- A wrong command line. -/
def fail {α : Type} (message : String) : Except Failure α :=
  .error (.message message)

/-- A value that a flag does not take. -/
def badValue {α : Type} (f : FlagName) (value reason : String) : Except Failure α :=
  fail ("invalid argument " ++ Text.quoted value ++ " for " ++ Text.quoted f.shown ++
    " flag: " ++ reason)

/-- Reads the truth value of a flag. -/
def switchValue (f : FlagName) (value : String) : Except Failure Bool :=
  match Text.truthOfWord? value with
  | some b => .ok b
  | none => badValue f value (Text.NumeralError.malformed.report "ParseBool" value)

/-- Gives a flag a value. -/
def Flags.set (flags : Flags) (f : FlagName) (value : String) : Except Failure Flags :=
  match f with
  | .config => .ok { flags with config := value }
  | .trace => (switchValue f value).map fun b => { flags with trace := some b }
  | .help => (switchValue f value).map fun b => { flags with help := b }
  | .maxSteps =>
    match Text.integerOfNumeral value with
    | .ok n => .ok { flags with maxSteps := some n }
    | .error e => badValue f value (e.report "ParseInt" value)

/-- Splits a word at its first equals sign. -/
def splitEquals (s : String) : String × Option String :=
  match s.toList.span (· ≠ '=') with
  | (name, []) => (String.ofList name, none)
  | (name, _ :: value) => (String.ofList name, some (String.ofList value))

/-- Reads the letters behind a single dash.  Only `h` is a flag. -/
def shortFlags (flags : Flags) : List Char → Except Failure Flags
  | [] => .ok flags
  | 'h' :: '=' :: c :: rest => flags.set .help (String.ofList (c :: rest))
  | 'h' :: rest => do shortFlags (← flags.set .help "true") rest
  | c :: rest =>
    let letter := c.toString.toUTF8.toList.headD 0
    fail ("unknown shorthand flag: " ++ Text.quotedByte letter ++ " in -" ++
      String.ofList (c :: rest))

/-- Reads the arguments after those in `done`, whose words are in reverse.  Arguments
that start with `-test.` are passed over. -/
def readArguments (done : Arguments) : List String → Except Failure Arguments
  | [] => .ok { done with words := done.words.reverse }
  | s :: rest =>
    if s = "--" then .ok { done with words := done.words.reverse ++ rest }
    else
      match s.toList with
      | '-' :: '-' :: name =>
        let (name, value?) := splitEquals (String.ofList name)
        if name.isEmpty ∨ name.startsWith "-" then fail ("bad flag syntax: " ++ s)
        else
          match FlagName.ofText? name, value? with
          | none, _ => fail ("unknown flag: --" ++ name)
          | some f, some value => do
            readArguments { done with flags := ← done.flags.set f value } rest
          | some f, none =>
            if f.isSwitch then do
              readArguments { done with flags := ← done.flags.set f "true" } rest
            else
              match rest with
              | [] => fail ("flag needs an argument: " ++ s)
              | value :: more => do
                readArguments { done with flags := ← done.flags.set f value } more
      | '-' :: letter :: letters =>
        if s.startsWith "-test." then readArguments done rest
        else do
          readArguments { done with flags := ← shortFlags done.flags (letter :: letters) } rest
      | _ => readArguments { done with words := s :: done.words } rest

end Zinc.CommandLine
