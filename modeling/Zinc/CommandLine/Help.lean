import Zinc.CommandLine.Command
import Zinc.Text.Padding

/-!
The help texts.
-/

namespace Zinc.CommandLine

/-- What a command does. -/
def Command.summary : Command → String
  | run => "Evaluate a program and print the value of main"
  | disasm => "Compile a program and print its bytecode"
  | lir => "Lower a program and print its LIR"
  | help => "Help about any command"
  | completion => "Generate the autocompletion script for the specified shell"

/-- The flags that all commands share. -/
def sharedFlags : String :=
  "      --config string   path to wist.yaml (default: search upwards from FILE)\n" ++
  "      --max-steps int   stop after this many instructions (0: from config)\n" ++
  "      --trace           log every executed instruction to stderr\n"

/-- The help text of the program. -/
def programHelp : String :=
  "Wist back end and abstract machine\n\nUsage:\n  wist [command]\n\nAvailable Commands:\n" ++
  String.join (([.completion, .disasm, .help, .lir, .run] : List Command).map fun c =>
    "  " ++ Text.padRight 12 c.text ++ c.summary ++ "\n") ++
  "\nFlags:\n" ++ sharedFlags ++ "  -h, --help            help for wist\n" ++
  "\nUse \"wist [command] --help\" for more information about a command.\n"

/-- The help text of a command. -/
def Command.helpText (c : Command) : String :=
  c.summary ++ "\n\nUsage:\n  wist " ++ c.text ++ " FILE [flags]\n\nFlags:\n" ++
  "  -h, --help   help for " ++ c.text ++ "\n\nGlobal Flags:\n" ++ sharedFlags

end Zinc.CommandLine
