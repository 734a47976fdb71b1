import ProcLang.Command.Options
import ProcLang.Program.Listing
import ProcLang.Program.Lowering
import ProcLang.Program.Parsing

/-! A run of the command: read a source file, parse it, write the listing of its module and lower
it. The listing is written only if the source has a module. What a path is, how files are reached,
how arguments are read and how a record is written out is left to what a run is given. -/

namespace ProcLang

/-- The ways to reach files, where a failure is told by its text. -/
structure Files (m : Type → Type) (Path : Type) where
  display : Path → String
  read : Path → m (Except String Bytes)
  write : Path → Bytes → m (Except String Unit)

/-- What a run leaves to be seen apart from files. -/
structure Report where
  exitCode : Nat
  output : String
  errorOutput : String
  deriving DecidableEq, Repr

/-- How arguments are read and records are written out. Where arguments are refused, there is
nothing to run and the report says why. -/
structure Console (Argument Path : Type) where
  options : List Argument → Except Report (Options Path)
  line : Record → String

namespace Command

variable {m : Type → Type} [Monad m] {Argument Path : Type}

/-- Read and parse a file; the module is named by its path. -/
def load (files : Files m Path) (path : Path) :
    m (Logged (Except (FrontError Path) Module)) := do
  match ← files.read path with
  | .error cause => return ⟨[], .error (.io path cause)⟩
  | .ok source =>
    return ((Module.parse (files.display path) source).map (Except.mapError .parse)).after
      [.opened (files.display path) source.length]

def save (files : Files m Path) (program : Module) (path : Path) :
    m (Except (FrontError Path) Unit) := do
  return (← files.write path program.listing.toUTF8.toList).mapError (.io path)

/-- All that is done for accepted arguments. -/
def perform (files : Files m Path) (options : Options Path) :
    m (Logged (Except (FrontError Path) Unit)) := do
  match ← load files options.file with
  | ⟨events, .error e⟩ => return ⟨events, .error e⟩
  | ⟨events, .ok program⟩ =>
    let events := events ++ [.summarized program]
    match ← save files program options.listing with
    | .error e => return ⟨events, .error e⟩
    | .ok () =>
      let lowered := program.lower
      return ⟨events ++ [.wroteListing (files.display options.listing)] ++ lowered.events ++
        [.countedNodes lowered.value.size], .ok ()⟩

def report (console : Console Argument Path) (display : Path → String) (threshold : Threshold)
    (r : Logged (Except (FrontError Path) Unit)) : Report :=
  let log := String.join ((threshold.records r.events).map console.line)
  match r.value with
  | .ok () => ⟨0, "done.\n", log⟩
  | .error e => ⟨1, "", log ++ "error: " ++ e.describe display ++ "\n"⟩

def run (console : Console Argument Path) (files : Files m Path) (arguments : List Argument) :
    m Report := do
  match console.options arguments with
  | .error refused => return refused
  | .ok options =>
    return report console files.display options.threshold (← perform files options)

end Command

end ProcLang
