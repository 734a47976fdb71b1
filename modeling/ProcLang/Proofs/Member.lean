import Mathlib.Data.List.Sort
import ProcLang.Proofs.Signature

/-! # Members

A module keeps its variables and its procedures in two lists. Put together and sorted by their
numbers they are in the order of the source again, and the tree has a derivation of its own, in
which every variable is declared by itself and the exports come last. -/
namespace ProcLang

open ProcLang.Derivation

inductive Member where
  | var (v : Var)
  | proc (p : Proc)
  deriving DecidableEq, Repr

namespace Member

def id : Member → NodeId
  | .var v => v.id
  | .proc p => p.id

def var? : Member → Option Var
  | .var v => some v
  | .proc _ => none

def proc? : Member → Option Proc
  | .var _ => none
  | .proc p => some p

def signature : Member → Signature
  | .var v => .var v.signature
  | .proc p => .proc p.signature

def Precedes (a b : Member) : Prop := a.id ≤ b.id

instance : DecidableRel Precedes := fun a b => inferInstanceAs (Decidable (a.id ≤ b.id))

instance : Std.Total Precedes := ⟨fun a b => Nat.le_total a.id b.id⟩

instance : IsTrans Member Precedes := ⟨fun _ _ _ => Nat.le_trans⟩

end Member

/-- The variables and procedures together, in increasing order of their numbers. -/
def Module.members (m : Module) : List Member :=
  (m.vars.map Member.var ++ m.procs.map Member.proc).insertionSort Member.Precedes

namespace Derivation

def Item.members (id : NodeId) (i : Item) : List Member :=
  (i.vars id).map Member.var ++ (i.procs id).map Member.proc

theorem collect_append {α : Type} (part : NodeId → Item → List α) (id : NodeId)
    (d e : Derivation) :
    collect part id (d ++ e) = collect part id d ++ collect part (id + size d) e := by
  induction d generalizing id with
  | nil => rfl
  | cons i d ih => simp [collect, size, ih, Nat.add_assoc]

theorem map_id_vars (id : NodeId) (gs : List Group) :
    (vars id gs).map Var.id = List.range' id gs.length := by
  induction gs generalizing id with
  | nil => rfl
  | cons g gs ih =>
    rw [vars, List.map_cons, ih, List.length_cons, List.range'_succ]
    rfl

theorem length_vars (id : NodeId) (gs : List Group) : (vars id gs).length = gs.length := by
  simpa using congrArg List.length (map_id_vars id gs)

theorem Item.members_increasing (id : NodeId) (i : Item) :
    ((i.members id).map Member.id).Pairwise (· < ·) ∧
      ∀ a ∈ i.members id, id ≤ a.id ∧ a.id < id + i.size := by
  cases i with
  | varDecl d =>
    have hids : (Item.members id (.varDecl d)).map Member.id = List.range' id d.groups.length := by
      simp only [members, vars, procs, List.map_nil, List.append_nil, List.map_map,
        ← map_id_vars]
      rfl
    refine ⟨hids ▸ List.pairwise_lt_range', fun a ha => ?_⟩
    exact List.mem_range'_1.mp (hids ▸ List.mem_map_of_mem ha)
  | procDecl d =>
    refine ⟨List.pairwise_singleton _ _, fun a ha => ?_⟩
    obtain rfl := List.mem_singleton.mp ha
    exact ⟨le_rfl, Nat.lt_add_of_pos_right (by rw [size]; omega)⟩
  | exportsDecl d => exact ⟨.nil, List.forall_mem_nil _⟩

theorem members_increasing (d : Derivation) (id : NodeId) :
    (d.collect Item.members id).Pairwise (·.id < ·.id) ∧
      ∀ a ∈ d.collect Item.members id, id ≤ a.id := by
  induction d generalizing id with
  | nil => exact ⟨.nil, List.forall_mem_nil _⟩
  | cons i d ih =>
    obtain ⟨hi, hbounds⟩ := i.members_increasing id
    obtain ⟨hd, hlow⟩ := ih (id + i.size)
    refine ⟨List.pairwise_append.mpr ⟨List.pairwise_map.mp hi, hd, ?_⟩, ?_⟩
    · intro a ha b hb
      exact (hbounds a ha).2.trans_le (hlow b hb)
    · intro a ha
      rcases List.mem_append.mp ha with ha | ha
      · exact (hbounds a ha).1
      · exact (Nat.le_add_right _ _).trans (hlow a ha)

theorem members_perm (d : Derivation) (id : NodeId) :
    ((d.collect Item.vars id).map Member.var ++ (d.collect Item.procs id).map Member.proc).Perm
      (d.collect Item.members id) := by
  induction d generalizing id with
  | nil => exact .nil
  | cons i d ih =>
    simp only [collect, List.map_append, Item.members]
    refine .trans ?_ ((ih (id + i.size)).append_left _)
    simp only [List.append_assoc]
    refine .append_left _ ?_
    simp only [← List.append_assoc]
    exact List.perm_append_comm.append_right _

theorem members_module (name : String) (d : Derivation) :
    (d.module name).members = d.collect Item.members 0 := by
  obtain ⟨hd, -⟩ := d.members_increasing 0
  have hperm : (d.module name).members.Perm (d.collect Item.members 0) :=
    (List.perm_insertionSort _ _).trans (d.members_perm 0)
  -- Sorting by numbers settles the order only because no two members have the same one.
  have hnodup : ((d.collect Item.members 0).map Member.id).Nodup :=
    List.pairwise_map.mpr (hd.imp Nat.ne_of_lt)
  refine hperm.eq_of_pairwise ?_ (List.pairwise_insertionSort _ _) (hd.imp Nat.le_of_lt)
  intro a b ha hb hab hba
  exact List.inj_on_of_nodup_map hnodup (hperm.mem_iff.mp ha) hb (le_antisymm hab hba)

end Derivation

def Var.group (v : Var) : Group := ⟨⟨v.name, v.location⟩, .start, ⟨v.type.text, .start⟩, .start⟩

def Var.varDecl (v : Var) : VarDecl := ⟨.start, v.group, []⟩

def Expr.operand : Expr → Operand
  | .ref _ name l => .name ⟨name, l⟩
  | .const _ value l => .literal value l

def Assignment.statement (a : Assignment) : Statement :=
  ⟨a.lhs.operand, .start, a.rhs.operand, .start⟩

def Proc.procDecl (p : Proc) : ProcDecl where
  keyword := p.location
  name := ⟨p.name, .start⟩
  leftParen := .start
  rightParen := .start
  colon := .start
  returnType := ⟨p.returnType.text, .start⟩
  locals := p.locals.map Var.varDecl
  leftBrace := p.body.location
  statements := p.body.statements.map Assignment.statement
  rightBrace := .start

def Member.item : Member → Item
  | .var v => .varDecl v.varDecl
  | .proc p => .procDecl p.procDecl

def exportItem (name : String) : Item := .exportsDecl ⟨.start, ⟨name, .start⟩, .start⟩

/-- The members in order and then the exports, with the places that the tree knows. -/
def Module.derivation (m : Module) : Derivation :=
  m.members.map Member.item ++ m.exports.map exportItem

namespace Derivation

theorem vars_map_group (id : NodeId) (gs : List Group) :
    vars id ((vars id gs).map Var.group) = vars id gs := by
  induction gs generalizing id with
  | nil => rfl
  | cons g gs ih =>
    have hg : ((g.var id).group).var id = g.var id := by
      simp [Group.var, Var.group, TypeName.named_text]
    rw [vars, List.map_cons, vars, hg, ih]

theorem operand_expr (o : Operand) (id : NodeId) : (o.expr id).operand = o := by
  cases o <;> rfl

theorem assignments_map_statement (id : NodeId) (ss : List Statement) :
    assignments id ((assignments id ss).map Assignment.statement) = assignments id ss := by
  induction ss generalizing id with
  | nil => rfl
  | cons s ss ih =>
    have hs : ((s.assignment id).statement).assignment id = s.assignment id := by
      simp [Statement.assignment, Assignment.statement, operand_expr]
    rw [assignments, List.map_cons, assignments, hs, ih]

theorem groups_procDecl (p : Proc) : p.procDecl.groups = p.locals.map Var.group := by
  rw [ProcDecl.groups, Proc.procDecl, List.flatMap_map]
  exact List.map_eq_flatMap.symm

theorem proc_procDecl (d : ProcDecl) (id : NodeId) : (d.proc id).procDecl.proc id = d.proc id := by
  have hgroups : (d.proc id).procDecl.groups = (vars (id + 1) d.groups).map Var.group :=
    groups_procDecl _
  have hstatements : (d.proc id).procDecl.statements =
      (assignments (id + 1 + d.groups.length + 1) d.statements).map Assignment.statement := rfl
  rw [ProcDecl.proc, hgroups, hstatements, vars_map_group, List.length_map, length_vars,
    assignments_map_statement]
  simp [Proc.procDecl, ProcDecl.proc, TypeName.named_text]

theorem size_append (d e : Derivation) : size (d ++ e) = size d + size e := by
  induction d with
  | nil => exact (Nat.zero_add _).symm
  | cons i d ih => rw [List.cons_append, size, size, ih, Nat.add_assoc]

theorem vars_map_item (id : NodeId) (gs : List Group) :
    size (((vars id gs).map Member.var).map Member.item) = gs.length ∧
      collect Item.members id (((vars id gs).map Member.var).map Member.item) =
        (vars id gs).map Member.var := by
  induction gs generalizing id with
  | nil => exact ⟨rfl, rfl⟩
  | cons g gs ih =>
    obtain ⟨hsize, hmembers⟩ := ih (id + 1)
    have hg : Item.members id (Member.var (g.var id)).item = [.var (g.var id)] := by
      simp [Member.item, Item.members, Item.vars, Item.procs, Var.varDecl, VarDecl.groups,
        vars, Group.var, Var.group, TypeName.named_text]
    have hone : (Member.var (g.var id)).item.size = 1 := rfl
    simp only [vars, List.map_cons, size, collect, hg, hone, hsize, hmembers, List.length_cons,
      List.singleton_append, and_true, Nat.add_comm]

theorem length_assignments (id : NodeId) (ss : List Statement) :
    (assignments id ss).length = ss.length := by
  induction ss generalizing id with
  | nil => rfl
  | cons s ss ih => rw [assignments, List.length_cons, ih, List.length_cons]

theorem size_procDecl (d : ProcDecl) (id : NodeId) :
    (Member.proc (d.proc id)).item.size = (Item.procDecl d).size := by
  have hgroups : (d.proc id).procDecl.groups.length = d.groups.length := by
    rw [groups_procDecl, List.length_map]
    exact length_vars _ _
  have hstatements : (d.proc id).procDecl.statements.length = d.statements.length := by
    rw [Proc.procDecl, List.length_map]
    exact length_assignments _ _
  rw [Member.item, Item.size, Item.size, hgroups, hstatements]

theorem Item.members_map_item (i : Item) (id : NodeId) :
    Derivation.size ((i.members id).map Member.item) = i.size ∧
      collect Item.members id ((i.members id).map Member.item) = i.members id := by
  cases i with
  | varDecl d =>
    simp only [members, vars, procs, List.map_nil, List.append_nil]
    exact vars_map_item id d.groups
  | procDecl d =>
    refine ⟨size_procDecl d id, ?_⟩
    simp [members, vars, procs, Member.item, collect, proc_procDecl]
  | exportsDecl d => exact ⟨rfl, rfl⟩

theorem members_map_item (d : Derivation) (id : NodeId) :
    size ((d.collect Item.members id).map Member.item) = d.size ∧
      collect Item.members id ((d.collect Item.members id).map Member.item) =
        d.collect Item.members id := by
  induction d generalizing id with
  | nil => exact ⟨rfl, rfl⟩
  | cons i d ih =>
    obtain ⟨hi, hitem⟩ := i.members_map_item id
    obtain ⟨hd, hrest⟩ := ih (id + i.size)
    refine ⟨?_, ?_⟩
    · rw [collect, List.map_append, size_append, hi, hd]
      rfl
    · rw [collect, List.map_append, collect_append, hi, hitem, hrest]

theorem collect_exports {α : Type} {part : NodeId → Item → List α}
    (h : ∀ id d, part id (.exportsDecl d) = []) (names : List String) (id : NodeId) :
    collect part id (names.map exportItem) = [] := by
  induction names generalizing id with
  | nil => rfl
  | cons x names ih => rw [List.map_cons, collect, ih, exportItem, h, List.append_nil]

theorem filterMap_members (d : Derivation) (id : NodeId) :
    (d.collect Item.members id).filterMap Member.var? = d.collect Item.vars id ∧
      (d.collect Item.members id).filterMap Member.proc? = d.collect Item.procs id := by
  have hitem (i : Item) (id : NodeId) : (i.members id).filterMap Member.var? = i.vars id ∧
      (i.members id).filterMap Member.proc? = i.procs id := by
    simp [Item.members, List.filterMap_map, Function.comp_def, Member.var?, Member.proc?]
  induction d generalizing id with
  | nil => exact ⟨rfl, rfl⟩
  | cons i d ih =>
    obtain ⟨hvars, hprocs⟩ := ih (id + i.size)
    simp only [collect, List.filterMap_append, hitem, hvars, hprocs, and_self]

theorem module_derivation (name : String) (d : Derivation) :
    (d.module name).derivation.module name = d.module name := by
  have hmembers : (d.module name).derivation.collect Item.members 0 =
      d.collect Item.members 0 := by
    rw [Module.derivation, collect_append, collect_exports (fun _ _ => rfl), members_module,
      (d.members_map_item 0).2, List.append_nil]
  have hvars : (d.module name).derivation.collect Item.vars 0 = d.collect Item.vars 0 := by
    rw [← (filterMap_members _ 0).1, hmembers, (filterMap_members d 0).1]
  have hprocs : (d.module name).derivation.collect Item.procs 0 = d.collect Item.procs 0 := by
    rw [← (filterMap_members _ 0).2, hmembers, (filterMap_members d 0).2]
  have hexports : (d.module name).derivation.flatMap Item.exports = d.flatMap Item.exports := by
    have hmember (a : Member) : a.item.exports = [] := by cases a <;> rfl
    have hexport (x : String) : (exportItem x).exports = [x] := rfl
    rw [Module.derivation, List.flatMap_append, List.flatMap_map, List.flatMap_map]
    simp [hmember, hexport, module]
  rw [module, hvars, hprocs, hexports]
  rfl

theorem derivation_signatures (m : Module) :
    m.derivation.flatMap Item.signatures = m.members.map Member.signature := by
  have hmember (a : Member) : a.item.signatures = [a.signature] := by
    cases a with
    | var v => rfl
    | proc p =>
      have hp : p.procDecl.signature = p.signature := by
        rw [ProcDecl.signature, groups_procDecl, List.map_map]
        rfl
      rw [Member.item, Item.signatures, hp]
      rfl
  have hexport (x : String) : (exportItem x).signatures = [] := rfl
  rw [Module.derivation, List.flatMap_append, List.flatMap_map, List.flatMap_map]
  simp [hmember, hexport, List.map_eq_flatMap]

end Derivation

theorem Visible.named_text {hidden : Set String} {x : String} (h : Visible hidden x) :
    (TypeName.named x).text = x := by
  obtain ⟨⟨t, rfl⟩, -⟩ := h
  rw [TypeName.named_text]

theorem VarsVisible.map_signature {hidden : Set String} {gs : List Group}
    (h : VarsVisible hidden (gs.map Group.signature)) (id : NodeId) :
    (vars id gs).map Var.signature = gs.map Group.signature := by
  induction gs generalizing hidden id with
  | nil => rfl
  | cons g gs ih =>
    obtain ⟨hg, hgs⟩ := h
    have hg : (g.var id).signature = g.signature := Prod.ext rfl hg.named_text
    rw [vars, List.map_cons, List.map_cons, hg, ih hgs]

theorem AllVisible.map_signature {hidden : Set String} {d : Derivation}
    (h : AllVisible hidden (d.flatMap Item.signatures)) (id : NodeId) :
    (d.collect Item.members id).map Member.signature = d.flatMap Item.signatures := by
  induction d generalizing hidden id with
  | nil => rfl
  | cons i d ih =>
    rw [List.flatMap_cons] at h
    cases i with
    | varDecl v =>
      rw [Item.signatures, allVisible_append_vars] at h
      rw [collect, List.map_append, ih h.2, List.flatMap_cons, Item.signatures,
        ← h.1.map_signature id]
      simp [Item.members, Item.vars, Item.procs, Function.comp_def, Member.signature]
    | procDecl p =>
      obtain ⟨hp, hlocals, hrest⟩ := h
      rw [collect, List.map_append, ih hrest, List.flatMap_cons]
      have hs : (p.proc id).signature = p.signature :=
        Prod.ext rfl (Prod.ext hp.named_text (hlocals.map_signature (id + 1)))
      simp [Item.members, Item.vars, Item.procs, Item.signatures, Member.signature, hs]
    | exportsDecl e => exact ih h _

theorem Derivation.Typed.derivation {d : Derivation} (hd : d.Typed) (name : String) :
    (d.module name).derivation.Typed := by
  rw [typed_iff_signatures] at hd ⊢
  rw [derivation_signatures, members_module, hd.map_signature]
  exact hd

end ProcLang
