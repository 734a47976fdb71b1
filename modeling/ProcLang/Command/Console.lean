import ProcLang.Command.Arguments
import ProcLang.Command.Run

/-! A console on which arguments and paths are texts. Each record takes a line of its own on the
error output. -/

namespace ProcLang

def Report.ofRefusal (r : Refusal) : Report :=
  match r with
  | .help text => ⟨r.exitCode, text, ""⟩
  | .version text => ⟨r.exitCode, text, ""⟩
  | .usage e => ⟨r.exitCode, "", "error: " ++ e.describe ++ "\n"⟩

/-- The line that a record takes on the error output. Further lines of a message are indented, and
nothing that would steer a terminal is let through. -/
def Record.line (r : Record) : String :=
  let level := r.level.name ++ String.ofList (List.replicate (5 - r.level.name.length) ' ')
  let message := r.message.toList.flatMap fun c => if c = '\n' then "\n    ".toList else [c]
  ControlSequence.strip .putsOff
    ("[" ++ level ++ " " ++ r.target ++ "] " ++ String.ofList message ++ "\n")

/-- The first argument is the name that the program was invoked by. -/
def Console.standard : Console String String where
  options arguments := (Options.parse arguments).mapError Report.ofRefusal
  line := Record.line

end ProcLang
