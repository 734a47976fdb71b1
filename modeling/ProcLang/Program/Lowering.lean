import ProcLang.Program.Event

/-! Lowering flattens a tree into a table of nodes that refer to one another by number. A node is
entered after the nodes below it, and of nodes with equal numbers the last one entered stays. -/

namespace ProcLang

inductive LoweredNode where
  | var (name : String) (type : TypeName)
  | proc (name : String) (locals : List NodeId) (block : NodeId)
  | block (statements : List NodeId)
  | assign (lhs rhs : NodeId)
  | ref (name : String)
  | const (value : Int)
  deriving DecidableEq, Repr

structure Lowering where
  nodes : Table NodeId LoweredNode
  globals : List NodeId
  procs : List NodeId

namespace Lowering

abbrev Nodes := Table NodeId LoweredNode

def enterVar (nodes : Nodes) (v : Var) : Nodes := nodes.insert v.id (.var v.name v.type)

def enterExpr (nodes : Nodes) : Expr → Nodes
  | .ref id name _ => nodes.insert id (.ref name)
  | .const id value _ => nodes.insert id (.const value)

def enterAssignment (nodes : Nodes) (a : Assignment) : Nodes :=
  (enterExpr (enterExpr nodes a.lhs) a.rhs).insert a.id (.assign a.lhs.id a.rhs.id)

def enterBlock (nodes : Nodes) (b : Block) : Nodes :=
  (b.statements.foldl enterAssignment nodes).insert b.id (.block (b.statements.map Assignment.id))

/-- Parameters are not entered. -/
def enterProc (nodes : Nodes) (p : Proc) : Nodes :=
  (enterBlock (p.locals.foldl enterVar nodes) p.body).insert p.id
    (.proc p.name (p.locals.map Var.id) p.body.id)

def ofModule (m : Module) : Lowering where
  nodes := m.procs.foldl enterProc (m.vars.foldl enterVar .empty)
  globals := m.vars.map Var.id
  procs := m.procs.map Proc.id

def get? (l : Lowering) (id : NodeId) : Option LoweredNode := l.nodes.get? id

def size (l : Lowering) : Nat := l.nodes.size

def isEmpty (l : Lowering) : Bool := l.nodes.isEmpty

end Lowering

def Module.lower (m : Module) : Logged Lowering :=
  let l := Lowering.ofModule m
  ⟨[.lowered l.size m.name], l⟩

end ProcLang
