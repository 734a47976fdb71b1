import ProcLang.Source.Location

/-! The tree of a module. Apart from the module itself every node has a number, by which tables
outside the tree refer to it, and the place of the token that it starts with or is named by.
Trees can be built by hand, so nothing here requires numbers to be distinct or names to be words. -/

namespace ProcLang

abbrev NodeId := Nat

/-- The built-in types, the only ones that a declaration can name. -/
inductive TypeName where
  | void
  | int
  | float
  | char
  deriving DecidableEq, Repr

namespace TypeName

def all : List TypeName := [.void, .int, .float, .char]

def text : TypeName → String
  | .void => "void"
  | .int => "int"
  | .float => "float"
  | .char => "char"

theorem mem_all (t : TypeName) : t ∈ all := by cases t <;> decide

theorem text_injective {t u : TypeName} (h : t.text = u.text) : t = u := by
  cases t <;> cases u <;> simp_all [text]

end TypeName

structure Var where
  id : NodeId
  name : String
  type : TypeName
  location : Location
  deriving DecidableEq, Repr

/-- The grammar has no parameters yet, so only trees built by hand hold any. -/
structure Param where
  id : NodeId
  location : Location
  deriving DecidableEq, Repr

inductive Expr where
  | ref (id : NodeId) (name : String) (location : Location)
  | const (id : NodeId) (value : Int) (location : Location)
  deriving DecidableEq, Repr

def Expr.id : Expr → NodeId
  | .ref id _ _ => id
  | .const id _ _ => id

def Expr.location : Expr → Location
  | .ref _ _ l => l
  | .const _ _ l => l

/-- The only form of a statement. -/
structure Assignment where
  id : NodeId
  lhs : Expr
  rhs : Expr
  location : Location
  deriving DecidableEq, Repr

structure Block where
  id : NodeId
  statements : List Assignment
  location : Location
  deriving DecidableEq, Repr

structure Proc where
  id : NodeId
  name : String
  params : List Param
  locals : List Var
  returnType : TypeName
  body : Block
  location : Location
  deriving DecidableEq, Repr

structure Module where
  name : String
  vars : List Var
  procs : List Proc
  exports : List String
  location : Location
  deriving DecidableEq, Repr

/-- A module starts where its text does. -/
def Module.new (name : String) : Module := ⟨name, [], [], [], .start⟩

def Module.proc? (m : Module) (name : String) : Option Proc :=
  m.procs.find? (·.name = name)

def Assignment.ids (a : Assignment) : List NodeId := [a.id, a.lhs.id, a.rhs.id]

def Block.ids (b : Block) : List NodeId := b.id :: b.statements.flatMap Assignment.ids

def Proc.ids (p : Proc) : List NodeId :=
  p.id :: p.params.map Param.id ++ p.locals.map Var.id ++ p.body.ids

/-- The numbers of all nodes, each node before the nodes below it. -/
def Module.ids (m : Module) : List NodeId := m.vars.map Var.id ++ m.procs.flatMap Proc.ids

inductive Node where
  | module (m : Module)
  | var (v : Var)
  | param (p : Param)
  | proc (p : Proc)
  | type (t : TypeName)
  | block (b : Block)
  | assignment (a : Assignment)
  | expr (e : Expr)
  deriving DecidableEq, Repr

end ProcLang
