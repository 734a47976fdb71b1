import ProcLang.Program.Tree

/-! The listing of a tree: one line for each node, the nodes below it on lines of their own that
are indented by two more spaces. A line is indented where it starts and nowhere else, so line
feeds inside a text do not get an indentation. -/

namespace ProcLang

/-- A listing being written, and how deep the next line lies. -/
structure Listing where
  written : String
  depth : Nat
  deriving DecidableEq, Repr

namespace Listing

def empty : Listing := ⟨"", 0⟩

def indent (depth : Nat) : String := String.ofList (List.replicate (2 * depth) ' ')

def line (l : Listing) (text : String) : Listing :=
  { l with written := l.written ++ indent l.depth ++ text ++ "\n" }

/-- Write with `body` one level deeper, then come back up. -/
def nested (l : Listing) (body : Listing → Listing) : Listing :=
  let inner := body { l with depth := l.depth + 1 }
  { inner with depth := inner.depth - 1 }

def rule : String := String.ofList (List.replicate 50 '-')

def expr (l : Listing) : Expr → Listing
  | .ref _ name _ => l.line ("(var ref [" ++ name ++ "])")
  | .const _ value _ => l.line ("(int const [" ++ toString value ++ "])")

def assignment (l : Listing) (a : Assignment) : Listing :=
  (l.line "(assignment)").nested fun l => (l.expr a.lhs).expr a.rhs

def block (l : Listing) (b : Block) : Listing :=
  (l.line "(block)").nested fun l => b.statements.foldl assignment l

def var (l : Listing) (v : Var) : Listing :=
  l.line ("(var def " ++ v.name ++ ", type = " ++ v.type.text ++ ")")

def param (l : Listing) (_ : Param) : Listing := l.line "(param)"

def type (l : Listing) (t : TypeName) : Listing := l.line ("(type " ++ t.text ++ ")")

def proc (l : Listing) (p : Proc) : Listing :=
  (l.line ("(proc " ++ p.name ++ ", rettype = " ++ p.returnType.text ++ ")")).nested fun l =>
    (p.locals.foldl var (p.params.foldl param l)).block p.body

def module (l : Listing) (m : Module) : Listing :=
  let l := m.vars.foldl var ((l.line ("(module " ++ m.name ++ ")")).line rule)
  let l := m.procs.foldl proc (l.line rule)
  m.exports.foldl line ((l.line rule).line "(exports)")

def node (l : Listing) : Node → Listing
  | .module m => l.module m
  | .var v => l.var v
  | .param p => l.param p
  | .proc p => l.proc p
  | .type t => l.type t
  | .block b => l.block b
  | .assignment a => l.assignment a
  | .expr e => l.expr e

/-- What one listing can be asked to hold: lines, nodes, and groups of these one level deeper. -/
inductive Item where
  | line (text : String)
  | group (items : List Item)
  | node (n : Node)
  deriving Repr

mutual
def item (l : Listing) : Item → Listing
  | .line text => l.line text
  | .group items => l.nested fun l => l.items items
  | .node n => l.node n

def items (l : Listing) : List Item → Listing
  | [] => l
  | i :: is => (l.item i).items is
end

end Listing

def Node.listing (n : Node) : String := (Listing.empty.node n).written

def Module.listing (m : Module) : String := (Node.module m).listing

end ProcLang
