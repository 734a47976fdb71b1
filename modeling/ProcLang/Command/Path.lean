/-! Paths as text: segments separated by slashes, of which several in a row count as one. -/

namespace ProcLang.Path

def cut : List Char → List (List Char)
  | [] => [[]]
  | c :: cs =>
    if c = '/' then [] :: cut cs
    else match cut cs with
      | [] => [[c]]
      | piece :: pieces => (c :: piece) :: pieces

def segments (path : String) : List String :=
  ((cut path.toList).filter (· ≠ [])).map String.ofList

def isAbsolute (path : String) : Bool := path.toList.head? = some '/'

def endsInSlash (path : String) : Bool := path.toList.getLast? = some '/'

/-- The name that a path ends in. Segments of one dot name nothing and are passed over; a path that
ends in two dots has no such name. -/
def fileName? (path : String) : Option String :=
  match ((segments path).filter (· ≠ ".")).getLast? with
  | some name => if name = ".." then none else some name
  | none => none

end ProcLang.Path
