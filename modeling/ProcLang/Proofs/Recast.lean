import ProcLang.Proofs.Derivation

/-! # Recast trees

A tree with other numbers or other names in place of its own, everything else being kept. The tree
of a derivation is numbered on from any number, and then only its numbers are others. -/
namespace ProcLang

/-- What the numbers and the names of a tree become. -/
structure Recast where
  id : NodeId → NodeId
  name : String → String

def Recast.raise (n : ℕ) : Recast := ⟨(· + n), fun x => x⟩

def Recast.rename (r : String → String) : Recast := ⟨fun id => id, r⟩

section

variable (c : Recast)

def Var.recast (v : Var) : Var := { v with id := c.id v.id, name := c.name v.name }

def Param.recast (p : Param) : Param := { p with id := c.id p.id }

def Expr.recast : Expr → Expr
  | .ref id name l => .ref (c.id id) (c.name name) l
  | .const id value l => .const (c.id id) value l

def Assignment.recast (a : Assignment) : Assignment :=
  { a with id := c.id a.id, lhs := a.lhs.recast c, rhs := a.rhs.recast c }

def Block.recast (b : Block) : Block :=
  { b with id := c.id b.id, statements := b.statements.map (Assignment.recast c) }

def Proc.recast (p : Proc) : Proc :=
  { p with
    id := c.id p.id
    name := c.name p.name
    params := p.params.map (Param.recast c)
    locals := p.locals.map (Var.recast c)
    body := p.body.recast c }

def Module.recast (m : Module) : Module :=
  { m with
    vars := m.vars.map (Var.recast c)
    procs := m.procs.map (Proc.recast c)
    exports := m.exports.map c.name }

end

namespace Derivation

variable (n : ℕ) (id : NodeId)

theorem vars_add (gs : List Group) :
    vars (id + n) gs = (vars id gs).map (Var.recast (.raise n)) := by
  induction gs generalizing id with
  | nil => rfl
  | cons g gs ih =>
    rw [vars, vars, List.map_cons, Nat.add_right_comm, ih]
    rfl

theorem Operand.expr_add (o : Operand) : o.expr (id + n) = (o.expr id).recast (.raise n) := by
  cases o <;> rfl

theorem assignments_add (ss : List Statement) :
    assignments (id + n) ss = (assignments id ss).map (Assignment.recast (.raise n)) := by
  induction ss generalizing id with
  | nil => rfl
  | cons s ss ih =>
    have hs : s.assignment (id + n) = (s.assignment id).recast (.raise n) := by
      simp only [Statement.assignment, Nat.add_right_comm id n, Operand.expr_add]
      rfl
    rw [assignments, assignments, List.map_cons, hs, Nat.add_right_comm, ih]

theorem ProcDecl.proc_add (d : ProcDecl) :
    d.proc (id + n) = (d.proc id).recast (.raise n) := by
  simp only [proc, Proc.recast, Block.recast, Nat.add_right_comm _ n, vars_add, assignments_add]
  rfl

theorem Item.vars_add (i : Item) :
    i.vars (id + n) = (i.vars id).map (Var.recast (.raise n)) := by
  cases i with
  | varDecl d => exact Derivation.vars_add n id d.groups
  | _ => rfl

theorem Item.procs_add (i : Item) :
    i.procs (id + n) = (i.procs id).map (Proc.recast (.raise n)) := by
  cases i with
  | procDecl d => exact congrArg (fun p => [p]) (d.proc_add n id)
  | _ => rfl

theorem collect_add {α : Type} {part : NodeId → Item → List α} {f : α → α}
    (h : ∀ id i, part (id + n) i = (part id i).map f) (d : Derivation) :
    d.collect part (id + n) = (d.collect part id).map f := by
  induction d generalizing id with
  | nil => rfl
  | cons i d ih => rw [collect, collect, h, Nat.add_right_comm, ih, List.map_append]

end Derivation

end ProcLang
