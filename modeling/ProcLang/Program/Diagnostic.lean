import ProcLang.Source.Scanner
import ProcLang.Program.Scope

/-! Why a source has no module. Every error but a broken invariant of the parser names its place. -/

namespace ProcLang

inductive TypeFault where
  | unknown
  | notAType
  deriving DecidableEq, Repr

def TypeFault.message (name : String) : TypeFault → String
  | .unknown => "unknown type '" ++ name ++ "'"
  | .notAType => "'" ++ name ++ "' is not a type"

inductive ParseError where
  | lexical (e : LexError)
  | unexpected (expected : List TokenKind) (found : TokenKind) (location : Location)
  | semantic (name : String) (message : String) (location : Location)
  | internal (e : ScopeError)
  deriving DecidableEq, Repr

namespace ParseError

def ofTypeFault (name : String) (location : Location) (fault : TypeFault) : ParseError :=
  .semantic name (fault.message name) location

/-- The kinds separated by commas, with "or" before the last of several. -/
def choices : List TokenKind → String
  | [] => "nothing"
  | [kind] => kind.describe
  | [kind, last] => kind.describe ++ " or " ++ last.describe
  | kind :: kinds => kind.describe ++ ", " ++ choices kinds

def describe : ParseError → String
  | .lexical e => e.describe
  | .unexpected expected found l =>
    "syntax error at " ++ l.describe ++ ": expected " ++ choices expected ++ ", found " ++
      found.describe
  | .semantic _ message l => "semantic error at " ++ l.describe ++ ": " ++ message
  | .internal e => "internal error: " ++ e.message

def location? : ParseError → Option Location
  | .lexical e => some e.location
  | .unexpected _ _ l => some l
  | .semantic _ _ l => some l
  | .internal _ => none

end ParseError

/-- A parse error, or a file that could not be read or written. -/
inductive FrontError (Path : Type) where
  | io (path : Path) (cause : String)
  | parse (e : ParseError)
  deriving DecidableEq, Repr

namespace FrontError

variable {Path : Type}

def describe (display : Path → String) : FrontError Path → String
  | .io path cause => "I/O error on " ++ display path ++ ": " ++ cause
  | .parse e => e.describe

def location? : FrontError Path → Option Location
  | .io _ _ => none
  | .parse e => e.location?

/-- The failure of a lower layer that an error reports, where there is one. -/
def cause? : FrontError Path → Option String
  | .io _ cause => some cause
  | .parse (.internal e) => some e.message
  | .parse _ => none

end FrontError

end ProcLang
