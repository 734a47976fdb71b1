import ProcLang.Command.ControlSequence
import ProcLang.Command.Options
import ProcLang.Command.Path

/-! The arguments of the command. They are read from left to right, flags and values in any order.
A value is not looked at when it is read but when the next flag, option or value takes effect, so a
bad value goes unnoticed where an unknown argument comes first. -/

namespace ProcLang

inductive UsageError where
  | missingArgument
  | unknownArgument
  | conflict
  | invalidValue
  | tooManyFlags
  | unneededValue
  deriving DecidableEq, Repr

def UsageError.describe : UsageError → String
  | .missingArgument => "a required argument is missing"
  | .unknownArgument => "an argument is not known"
  | .conflict => "arguments cannot be used together"
  | .invalidValue => "a value is missing or empty"
  | .tooManyFlags => "a flag is given too often"
  | .unneededValue => "a flag is given a value"

/-- Why there is nothing to run. -/
inductive Refusal where
  | help (text : String)
  | version (text : String)
  | usage (e : UsageError)
  deriving DecidableEq, Repr

def Refusal.exitCode : Refusal → Nat
  | .help _ => 0
  | .version _ => 0
  | .usage _ => 2

namespace Options

def defaultListing : String := "ir.dump.txt"

def versionText : String := "plume 0.1.0\n"

/-- The program is called by a name that may hold any characters; of these, and of what follows,
none that would steer a terminal is let through. -/
def helpText (program : String) : String :=
  ControlSequence.strip .ends <|
  "Parses a plume source file and writes its IR dump\n" ++
  "\n" ++
  "Usage: " ++ program ++ " [OPTIONS] <FILE>\n" ++
  "\n" ++
  "Arguments:\n" ++
  "  <FILE>  Source file to compile\n" ++
  "\n" ++
  "Options:\n" ++
  "  -v...              \n" ++
  "  -q...              \n" ++
  "  -d, --dump <DUMP>  Where to write the IR dump [default: ir.dump.txt]\n" ++
  "  -h, --help         Print help\n" ++
  "  -V, --version      Print version\n"

def programName (invoked : Option String) : String :=
  (invoked.bind Path.fileName?).getD "plume"

inductive Word where
  | separator
  | long (name : List Char) (value : Option (List Char))
  | short (flags : List Char)
  | plain
  deriving DecidableEq, Repr

def Word.ofChars : List Char → Word
  | ['-', '-'] => .separator
  | '-' :: '-' :: text =>
    .long (text.takeWhile (· ≠ '=')) ((text.dropWhile (· ≠ '=')).tail?)
  | '-' :: flag :: flags => .short (flag :: flags)
  | _ => .plain

/-- A value that has been read and not been looked at. The listing's path may yet have to come. -/
inductive Pending where
  | none
  | listing (value : Option String)
  | file (value : String)
  deriving DecidableEq, Repr

/-- What the arguments so far have said. -/
structure Collected where
  more : Fin 3
  less : Fin 3
  listing : Option String
  file : Option String
  pending : Pending
  deriving DecidableEq, Repr

namespace Collected

def initial : Collected := ⟨0, 0, none, none, .none⟩

def settle (c : Collected) : Except Refusal Collected :=
  match c.pending with
  | .none => .ok c
  | .listing none => .error (.usage .invalidValue)
  | .listing (some value) =>
    if c.listing.isSome then .error (.usage .conflict)
    else if value = "" then .error (.usage .invalidValue)
    else .ok { c with listing := some value, pending := .none }
  | .file value =>
    if value = "" then .error (.usage .invalidValue)
    else .ok { c with file := some value, pending := .none }

def hasFile (c : Collected) : Bool :=
  match c.pending with
  | .file _ => true
  | _ => c.file.isSome

def awaitListing (c : Collected) : Except Refusal Collected := do
  let c ← c.settle
  return { c with pending := .listing none }

def setListing (c : Collected) (value : List Char) : Except Refusal Collected := do
  let c ← c.settle
  { c with pending := .listing (some (String.ofList value)) }.settle

def takeFile (c : Collected) (value : String) : Except Refusal Collected := do
  if c.hasFile then throw (.usage .unknownArgument)
  let c ← c.settle
  return { c with pending := .file value }

/-- Read a group of one-letter flags. The rest of a group behind the option for the listing is its
value, with an equals sign in between or without. -/
def takeShort (program : String) (c : Collected) : List Char → Except Refusal Collected
  | [] => .ok c
  | 'v' :: flags => do
    let c ← c.settle
    if c.more = 2 then throw (.usage .tooManyFlags)
    takeShort program { c with more := c.more + 1 } flags
  | 'q' :: flags => do
    let c ← c.settle
    if c.less = 2 then throw (.usage .tooManyFlags)
    takeShort program { c with less := c.less + 1 } flags
  | 'h' :: _ => do
    let _ ← c.settle
    throw (.help (helpText program))
  | 'V' :: _ => do
    let _ ← c.settle
    throw (.version versionText)
  | ['d'] => c.awaitListing
  | 'd' :: '=' :: value => c.setListing value
  | 'd' :: value => c.setListing value
  | _ => .error (.usage .unknownArgument)

def takeLong (program : String) (c : Collected) (name : List Char) :
    Option (List Char) → Except Refusal Collected
  | none =>
    if name = "dump".toList then c.awaitListing
    else if name = "help".toList then do
      let _ ← c.settle
      throw (.help (helpText program))
    else if name = "version".toList then do
      let _ ← c.settle
      throw (.version versionText)
    else .error (.usage .unknownArgument)
  | some value =>
    if name = "dump".toList then c.setListing value
    else if name = "help".toList ∨ name = "version".toList then
      .error (.usage .unneededValue)
    else .error (.usage .unknownArgument)

/-- A plain argument is the value that is awaited, or else the file. -/
def takePlain (c : Collected) (value : String) : Except Refusal Collected :=
  match c.pending with
  | .listing none => .ok { c with pending := .listing (some value) }
  | _ => c.takeFile value

/-- Read all arguments; behind a separator every argument is the file. -/
def takeAll (program : String) (c : Collected) : List String → Except Refusal Collected
  | [] => .ok c
  | word :: words =>
    match Word.ofChars word.toList with
    | .separator => words.foldlM takeFile c
    | .long name value => do takeAll program (← c.takeLong program name value) words
    | .short flags => do takeAll program (← c.takeShort program flags) words
    | .plain => do takeAll program (← c.takePlain word) words

def finish (c : Collected) : Except Refusal (Options String) := do
  let c ← c.settle
  if c.more ≠ 0 ∧ c.less ≠ 0 then throw (.usage .conflict)
  match c.file with
  | none => throw (.usage .missingArgument)
  | some file => return ⟨file, c.listing.getD defaultListing, c.more, c.less⟩

end Collected

/-- Read the arguments, the first of which is the name that the program was invoked by. -/
def parse (arguments : List String) : Except Refusal (Options String) := do
  let program := programName arguments.head?
  (← Collected.initial.takeAll program arguments.tail).finish

end Options

end ProcLang
