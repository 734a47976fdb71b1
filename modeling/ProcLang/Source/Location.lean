/-! Places in a source text. Lines and columns are counted from one, every byte takes one column,
and only a line feed ends a line. -/

namespace ProcLang

abbrev Bytes := List UInt8

structure Location where
  line : Nat
  column : Nat
  deriving DecidableEq, Repr

namespace Location

def start : Location := ⟨1, 1⟩

def step (l : Location) (b : UInt8) : Location :=
  if b = 10 then ⟨l.line + 1, 1⟩ else ⟨l.line, l.column + 1⟩

/-- The place reached from `l` by passing over `text`. -/
def after (l : Location) (text : Bytes) : Location := text.foldl step l

def describe (l : Location) : String :=
  "line " ++ toString l.line ++ ", column " ++ toString l.column

@[simp] theorem after_nil (l : Location) : l.after [] = l := rfl

@[simp] theorem after_cons (l : Location) (b : UInt8) (text : Bytes) :
    l.after (b :: text) = (l.step b).after text := rfl

theorem after_append (l : Location) (first second : Bytes) :
    l.after (first ++ second) = (l.after first).after second :=
  List.foldl_append

end Location

end ProcLang
