import ProcLang.Command.Console
import ProcLang.Command.FileTree

/-! The command as a program, run on the files of the system. -/

namespace ProcLang

/-- The number and the text of a failed system call. -/
def systemError : IO.Error → Nat × String
  | .alreadyExists _ code text => (code.toNat, text)
  | .otherError code text => (code.toNat, text)
  | .resourceBusy code text => (code.toNat, text)
  | .resourceVanished code text => (code.toNat, text)
  | .unsupportedOperation code text => (code.toNat, text)
  | .hardwareFault code text => (code.toNat, text)
  | .unsatisfiedConstraints code text => (code.toNat, text)
  | .illegalOperation code text => (code.toNat, text)
  | .protocolError code text => (code.toNat, text)
  | .timeExpired code text => (code.toNat, text)
  | .interrupted _ code text => (code.toNat, text)
  | .noFileOrDirectory _ code text => (code.toNat, text)
  | .invalidArgument _ code text => (code.toNat, text)
  | .permissionDenied _ code text => (code.toNat, text)
  | .resourceExhausted _ code text => (code.toNat, text)
  | .inappropriateType _ code text => (code.toNat, text)
  | .noSuchThing _ code text => (code.toNat, text)
  | .unexpectedEof => (0, "unexpected end of file")
  | .userError text => (0, text)

/-- The numbers of some system calls come negated, as words of 32 bits. -/
def describeSystemError (e : IO.Error) : String :=
  let (code, text) := systemError e
  let code := if 2147483648 ≤ code then 4294967296 - code else code
  match code with
  | 2 => FileError.notFound.message
  | 20 => FileError.notDirectory.message
  | 21 => FileError.isDirectory.message
  | 36 => FileError.nameTooLong.message
  | _ => text ++ " (os error " ++ toString code ++ ")"

def attempt {α : Type} (action : IO α) : IO (Except String α) := do
  return (← action.toBaseIO).mapError describeSystemError

def systemFiles : Files IO String where
  display := id
  read path := attempt do return (← IO.FS.readBinFile path).toList
  write path content := attempt (IO.FS.writeBinFile path ⟨content.toArray⟩)

end ProcLang

def main (arguments : List String) : IO UInt32 := do
  let report ← ProcLang.Command.run .standard ProcLang.systemFiles ("plume" :: arguments)
  (← IO.getStderr).putStr report.errorOutput
  (← IO.getStdout).putStr report.output
  return report.exitCode.toUInt32
