import ProcLang.Program.Lowering
import ProcLang.Proofs.Numbering

/-! # Unfolding

Where numbers are distinct, the table that lowering gives holds every node of the tree under its
number. The tree can then be unfolded from the table again, but for what lowering does not keep. -/
namespace ProcLang

/-- What a number in a lowered node, or in one of the two lists of roots, refers to. -/
inductive Slot where
  | var
  | proc
  | block
  | assignment
  | operand
  deriving DecidableEq, Repr

def Slot.Fits : Slot → LoweredNode → Prop
  | .var, .var _ _ => True
  | .proc, .proc _ _ _ => True
  | .block, .block _ => True
  | .assignment, .assign _ _ => True
  | .operand, .ref _ => True
  | .operand, .const _ => True
  | _, _ => False

def LoweredNode.references : LoweredNode → List (Slot × NodeId)
  | .proc _ locals body => locals.map (Slot.var, ·) ++ [(.block, body)]
  | .block statements => statements.map (Slot.assignment, ·)
  | .assign lhs rhs => [(.operand, lhs), (.operand, rhs)]
  | _ => []

namespace Lowering

inductive Reaches (l : Lowering) : Slot → NodeId → Prop
  | global {id : NodeId} : id ∈ l.globals → Reaches l .var id
  | proc {id : NodeId} : id ∈ l.procs → Reaches l .proc id
  | reference {slot slot' : Slot} {id id' : NodeId} {n : LoweredNode} : Reaches l slot id →
      l.get? id = some n → (slot', id') ∈ n.references → Reaches l slot' id'

section

variable (get : NodeId → Option LoweredNode)

def unfoldVar (id : NodeId) : Option Var :=
  match get id with
  | some (.var name type) => some ⟨id, name, type, .start⟩
  | _ => none

def unfoldExpr (id : NodeId) : Option Expr :=
  match get id with
  | some (.ref name) => some (.ref id name .start)
  | some (.const value) => some (.const id value .start)
  | _ => none

def unfoldAssignment (id : NodeId) : Option Assignment :=
  match get id with
  | some (.assign lhs rhs) => do
    let lhs ← unfoldExpr get lhs
    let rhs ← unfoldExpr get rhs
    return ⟨id, lhs, rhs, .start⟩
  | _ => none

def unfoldBlock (id : NodeId) : Option Block :=
  match get id with
  | some (.block statements) => do
    let statements ← statements.mapM (unfoldAssignment get)
    return ⟨id, statements, .start⟩
  | _ => none

def unfoldProc (id : NodeId) : Option Proc :=
  match get id with
  | some (.proc name locals block) => do
    let locals ← locals.mapM (unfoldVar get)
    let body ← unfoldBlock get block
    return ⟨id, name, [], locals, .void, body, .start⟩
  | _ => none

/-- The variables and procedures with the given numbers, as a module without a name. -/
def unfold (globals procs : List NodeId) : Option Module := do
  let vars ← globals.mapM (unfoldVar get)
  let procs ← procs.mapM (unfoldProc get)
  return ⟨"", vars, procs, [], .start⟩

end

end Lowering

/-- Without its parameters and its return type. -/
def Proc.bare (p : Proc) : Proc := { p with params := [], returnType := .void }

/-- What lowering keeps: no names of the module and of what it exports, no places, and of the
procedures neither parameters nor return types. -/
def Module.bare (m : Module) : Module :=
  ⟨"", m.unplaced.vars, m.unplaced.procs.map Proc.bare, [], .start⟩

def Module.Distinct (m : Module) : Prop := (m.parts.map Part.id).Nodup

instance (m : Module) : Decidable m.Distinct := inferInstanceAs (Decidable (List.Nodup _))

namespace Part

def slot : Part → Slot
  | .var _ => .var
  | .proc _ => .proc
  | .block _ => .block
  | .assignment _ => .assignment
  | .expr _ => .operand

def lowered : Part → LoweredNode
  | .var v => .var v.name v.type
  | .proc p => .proc p.name (p.locals.map Var.id) p.body.id
  | .block b => .block (b.statements.map Assignment.id)
  | .assignment a => .assign a.lhs.id a.rhs.id
  | .expr (.ref _ name _) => .ref name
  | .expr (.const _ value _) => .const value

theorem slot_fits (p : Part) : p.slot.Fits p.lowered := by
  cases p with
  | expr e => cases e <;> trivial
  | _ => trivial

def below : Part → List Part
  | .var _ => []
  | .proc p => p.locals.map .var ++ [.block p.body]
  | .block b => b.statements.map .assignment
  | .assignment a => [.expr a.lhs, .expr a.rhs]
  | .expr _ => []

theorem references_lowered (p : Part) :
    p.lowered.references = p.below.map fun q => (q.slot, q.id) := by
  cases p with
  | expr e => cases e <;> rfl
  | proc p => simp [lowered, LoweredNode.references, below, slot, id]
  | block b => simp [lowered, LoweredNode.references, below, slot, id]
  | _ => rfl

def Closed (ps : List Part) : Prop := ∀ p ∈ ps, p.below ⊆ ps

namespace Closed

variable {ps qs : List Part}

theorem append (h : Closed ps) (k : Closed qs) : Closed (ps ++ qs) := by
  intro p hp
  rcases List.mem_append.mp hp with hp | hp
  · exact List.subset_append_of_subset_left qs (h p hp)
  · exact List.subset_append_of_subset_right ps (k p hp)

theorem cons {p : Part} (hp : p.below ⊆ ps) (h : Closed ps) : Closed (p :: ps) := by
  intro q hq
  rcases List.mem_cons.mp hq with rfl | hq
  · exact List.subset_cons_of_subset _ hp
  · exact List.subset_cons_of_subset _ (h q hq)

theorem flatMap {α : Type} {f : α → List Part} {as : List α} (h : ∀ a ∈ as, Closed (f a)) :
    Closed (as.flatMap f) := by
  intro p hp q hq
  obtain ⟨a, ha, hp⟩ := List.mem_flatMap.mp hp
  exact List.mem_flatMap.mpr ⟨a, ha, h a ha p hp hq⟩

theorem vars (vs : List Var) : Closed (vs.map .var) := by
  intro p hp
  obtain ⟨v, -, rfl⟩ := List.mem_map.mp hp
  exact List.nil_subset _

end Closed

end Part

theorem Assignment.closed (a : Assignment) : Part.Closed a.parts := by
  refine .cons (fun _ h => h) (.cons (List.nil_subset _) (.cons (List.nil_subset _) ?_))
  exact List.forall_mem_nil _

theorem Block.closed (b : Block) : Part.Closed b.parts := by
  refine .cons (fun p hp => ?_) (.flatMap fun a _ => a.closed)
  obtain ⟨a, ha, rfl⟩ := List.mem_map.mp hp
  exact List.mem_flatMap.mpr ⟨a, ha, List.mem_cons_self⟩

theorem Proc.closed (p : Proc) : Part.Closed p.parts := by
  refine .cons (fun q hq => ?_) (.append (.vars _) p.body.closed)
  rcases List.mem_append.mp hq with hq | hq
  · exact List.mem_append_left _ hq
  · obtain rfl := List.mem_singleton.mp hq
    exact List.mem_append_right _ List.mem_cons_self

theorem Module.closed (m : Module) : Part.Closed m.parts := by
  refine .flatMap fun a _ => ?_
  cases a with
  | var v => exact .vars [v]
  | proc p => exact p.closed

def Assignment.visits (a : Assignment) : List Part := [.expr a.lhs, .expr a.rhs, .assignment a]

def Block.visits (b : Block) : List Part :=
  b.statements.flatMap Assignment.visits ++ [.block b]

def Proc.visits (p : Proc) : List Part := p.locals.map .var ++ p.body.visits ++ [.proc p]

/-- The nodes in the order in which lowering enters them. -/
def Module.visits (m : Module) : List Part := m.vars.map .var ++ m.procs.flatMap Proc.visits

theorem Assignment.visits_perm (a : Assignment) : a.visits.Perm a.parts :=
  List.perm_append_singleton (Part.assignment a) [Part.expr a.lhs, Part.expr a.rhs]

theorem Block.visits_perm (b : Block) : b.visits.Perm b.parts := by
  have hstatements : (b.statements.flatMap Assignment.visits).Perm
      (b.statements.flatMap Assignment.parts) := .flatMap_left _ fun a _ => a.visits_perm
  exact (hstatements.append_right _).trans (List.perm_append_singleton _ _)

theorem Proc.visits_perm (p : Proc) : p.visits.Perm p.parts :=
  ((p.body.visits_perm.append_left _).append_right _).trans (List.perm_append_singleton _ _)

theorem Module.parts_eq (m : Module) :
    m.parts = m.vars.map .var ++ m.procs.flatMap Proc.parts := by
  rw [parts, stored, List.flatMap_append, List.flatMap_map, List.flatMap_map, List.map_eq_flatMap]
  rfl

theorem Module.visits_perm (m : Module) : m.visits.Perm m.parts := by
  rw [parts_eq]
  exact .append_left _ (.flatMap_left _ fun p _ => p.visits_perm)

namespace Lowering

def enter (nodes : Nodes) (p : Part) : Nodes := nodes.insert p.id p.lowered

theorem enterExpr_eq (nodes : Nodes) (e : Expr) : enterExpr nodes e = enter nodes (.expr e) := by
  cases e <;> rfl

theorem enterAssignment_eq :
    enterAssignment = fun nodes a => a.visits.foldl enter nodes := by
  funext nodes a
  rw [enterAssignment, enterExpr_eq, enterExpr_eq]
  rfl

theorem enterBlock_eq (nodes : Nodes) (b : Block) :
    enterBlock nodes b = b.visits.foldl enter nodes := by
  rw [Block.visits, List.foldl_append, List.foldl_flatMap, enterBlock, enterAssignment_eq]
  rfl

theorem enterVar_eq : enterVar = fun nodes v => enter nodes (.var v) := rfl

theorem enterProc_eq : enterProc = fun nodes p => p.visits.foldl enter nodes := by
  funext nodes p
  rw [Proc.visits, List.foldl_append, List.foldl_append, List.foldl_map, enterProc, enterBlock_eq,
    enterVar_eq]
  rfl

theorem nodes_ofModule (m : Module) : (ofModule m).nodes = m.visits.foldl enter .empty := by
  rw [Module.visits, List.foldl_append, List.foldl_flatMap, List.foldl_map, ofModule, enterVar_eq,
    enterProc_eq]

theorem get?_entered (ps : List Part) (id : NodeId) :
    (ps.foldl enter .empty).get? id = (ps.reverse.find? (·.id = id)).map Part.lowered := by
  induction ps using List.reverseRecOn with
  | nil => rfl
  | append_singleton ps p ih =>
    rw [List.foldl_append, List.foldl_cons, List.foldl_nil, enter, Table.get?_insert, ih,
      List.reverse_append, List.reverse_singleton, List.singleton_append, List.find?_cons]
    by_cases h : p.id = id
    · rw [if_pos h.symm, decide_eq_true h]
      rfl
    · rw [if_neg (Ne.symm h), decide_eq_false h]

theorem get?_eq_some_iff {m : Module} (h : m.Distinct) {id : NodeId} {n : LoweredNode} :
    (ofModule m).get? id = some n ↔ ∃ p ∈ m.parts, p.id = id ∧ p.lowered = n := by
  have hmem (p : Part) : p ∈ m.visits.reverse ↔ p ∈ m.parts :=
    List.mem_reverse.trans m.visits_perm.mem_iff
  rw [get?, nodes_ofModule, get?_entered, Option.map_eq_some_iff]
  constructor
  · rintro ⟨p, hp, hn⟩
    exact ⟨p, (hmem p).mp (List.mem_of_find?_eq_some hp),
      by simpa using List.find?_some hp, hn⟩
  · rintro ⟨p, hp, hid, hn⟩
    cases hfind : m.visits.reverse.find? (·.id = id) with
    | none =>
      exact absurd hid (by simpa using List.find?_eq_none.mp hfind p ((hmem p).mpr hp))
    | some q =>
      have hq := (hmem q).mp (List.mem_of_find?_eq_some hfind)
      have hqid : q.id = id := by simpa using List.find?_some hfind
      have hpq : q = p := List.inj_on_of_nodup_map h hq hp (hqid.trans hid.symm)
      exact ⟨q, rfl, hpq ▸ hn⟩

theorem get?_of_mem {m : Module} (h : m.Distinct) {p : Part} (hp : p ∈ m.parts) :
    (ofModule m).get? p.id = some p.lowered :=
  (get?_eq_some_iff h).mpr ⟨p, hp, rfl, rfl⟩

theorem get?_ne_none_iff {m : Module} (h : m.Distinct) {id : NodeId} :
    (ofModule m).get? id ≠ none ↔ id ∈ m.parts.map Part.id := by
  rw [Option.ne_none_iff_exists', List.mem_map]
  constructor
  · rintro ⟨n, hn⟩
    obtain ⟨p, hp, hid, -⟩ := (get?_eq_some_iff h).mp hn
    exact ⟨p, hp, hid⟩
  · rintro ⟨p, hp, rfl⟩
    exact ⟨_, get?_of_mem h hp⟩

theorem size_ofModule {m : Module} (h : m.Distinct) : (ofModule m).size = m.parts.length := by
  have hkeys : (ofModule m).nodes.keys.Perm (m.parts.map Part.id) :=
    (List.perm_ext_iff_of_nodup (Table.nodup_keys _) h).mpr fun id =>
      Table.mem_keys.trans (get?_ne_none_iff h)
  rw [size, ← Table.length_keys, hkeys.length_eq, List.length_map]

theorem exists_part_of_reaches {m : Module} (h : m.Distinct) {slot : Slot} {id : NodeId}
    (hr : (ofModule m).Reaches slot id) : ∃ p ∈ m.parts, p.slot = slot ∧ p.id = id := by
  rw [m.parts_eq]
  induction hr with
  | global hid =>
    obtain ⟨v, hv, rfl⟩ := List.mem_map.mp hid
    exact ⟨.var v, List.mem_append_left _ (List.mem_map_of_mem hv), rfl, rfl⟩
  | proc hid =>
    obtain ⟨p, hp, rfl⟩ := List.mem_map.mp hid
    have hproc : Part.proc p ∈ m.procs.flatMap Proc.parts :=
      List.mem_flatMap.mpr ⟨p, hp, List.mem_cons_self⟩
    exact ⟨.proc p, List.mem_append_right _ hproc, rfl, rfl⟩
  | reference _ hget href ih =>
    rw [← m.parts_eq] at ih ⊢
    obtain ⟨p, hp, -, rfl⟩ := ih
    rw [get?_of_mem h hp] at hget
    obtain rfl := Option.some.inj hget
    rw [p.references_lowered] at href
    obtain ⟨q, hq, hslot⟩ := List.mem_map.mp href
    exact ⟨q, m.closed p hp hq, (Prod.mk.inj hslot).1, (Prod.mk.inj hslot).2⟩

/-- Under their numbers the nodes are found as they are lowered. -/
def Stores (get : NodeId → Option LoweredNode) (ps : List Part) : Prop :=
  ∀ p ∈ ps, get p.id = some p.lowered

section

variable {get : NodeId → Option LoweredNode}

theorem mapM_map {α β : Type} {f : α → NodeId} {g : NodeId → Option β} {h : α → β}
    {as : List α} (hg : ∀ a ∈ as, g (f a) = some (h a)) :
    (as.map f).mapM g = some (as.map h) := by
  induction as with
  | nil => rfl
  | cons a as ih =>
    obtain ⟨ha, has⟩ := List.forall_mem_cons.mp hg
    rw [List.map_cons, List.mapM_cons, ha, ih has]
    rfl

theorem unfoldVar_eq {v : Var} (h : get v.id = some (Part.var v).lowered) :
    unfoldVar get v.id = some (v.relocate fun _ => .start) := by
  rw [unfoldVar, h]
  rfl

theorem mapM_unfoldVar {vs : List Var} (h : Stores get (vs.map .var)) :
    (vs.map Var.id).mapM (unfoldVar get) = some (vs.map (Var.relocate fun _ => .start)) :=
  mapM_map fun _ hv => unfoldVar_eq (h _ (List.mem_map_of_mem hv))

theorem unfoldExpr_eq {e : Expr} (h : get e.id = some (Part.expr e).lowered) :
    unfoldExpr get e.id = some (e.relocate fun _ => .start) := by
  rw [unfoldExpr, h]
  cases e <;> rfl

theorem unfoldAssignment_eq {a : Assignment} (h : Stores get a.parts) :
    unfoldAssignment get a.id = some (a.relocate fun _ => .start) := by
  obtain ⟨ha, hoperands⟩ := List.forall_mem_cons.mp h
  obtain ⟨hl, hr⟩ := List.forall_mem_cons.mp hoperands
  have hr := hr _ List.mem_cons_self
  have ha : get a.id = some (.assign a.lhs.id a.rhs.id) := ha
  rw [unfoldAssignment, ha]
  simp only [unfoldExpr_eq hl, unfoldExpr_eq hr]
  rfl

theorem unfoldBlock_eq {b : Block} (h : Stores get b.parts) :
    unfoldBlock get b.id = some (b.relocate fun _ => .start) := by
  obtain ⟨hb, hstatements⟩ := List.forall_mem_cons.mp h
  have hb : get b.id = some (.block (b.statements.map Assignment.id)) := hb
  have hmapM : (b.statements.map Assignment.id).mapM (unfoldAssignment get) =
      some (b.statements.map (Assignment.relocate fun _ => .start)) :=
    mapM_map fun a ha => unfoldAssignment_eq fun p hp =>
      hstatements p (List.mem_flatMap.mpr ⟨a, ha, hp⟩)
  rw [unfoldBlock, hb]
  simp only [hmapM]
  rfl

theorem unfoldProc_eq {p : Proc} (h : Stores get p.parts) :
    unfoldProc get p.id = some (p.relocate fun _ => .start).bare := by
  obtain ⟨hp, hbelow⟩ := List.forall_mem_cons.mp h
  obtain ⟨hlocals, hbody⟩ := List.forall_mem_append.mp hbelow
  have hp : get p.id = some (.proc p.name (p.locals.map Var.id) p.body.id) := hp
  rw [unfoldProc, hp]
  simp only [mapM_unfoldVar hlocals, unfoldBlock_eq hbody]
  rfl

theorem unfold_eq {m : Module} (h : Stores get m.parts) :
    unfold get (ofModule m).globals (ofModule m).procs = some m.bare := by
  rw [m.parts_eq] at h
  obtain ⟨hvars, hprocs⟩ := List.forall_mem_append.mp h
  have hmapM : (m.procs.map Proc.id).mapM (unfoldProc get) =
      some (m.procs.map fun p => (p.relocate fun _ => .start).bare) :=
    mapM_map fun p hp => unfoldProc_eq fun q hq => hprocs q (List.mem_flatMap.mpr ⟨p, hp, hq⟩)
  rw [unfold, ofModule]
  simp only [mapM_unfoldVar hvars, hmapM]
  simp [Module.bare, Module.unplaced, Module.relocate]

end

end Lowering

/-- Where numbers are distinct, every reference leads to a node of the right kind, and the tree can
be told from the table but for what `bare` leaves out. In a tree that has been read they are, and
they are all the numbers up to the size of the table. -/
theorem lowering_loses_nothing :
    (∀ m : Module, m.Distinct →
      (∀ slot id, (Lowering.ofModule m).Reaches slot id →
        ∃ n, (Lowering.ofModule m).get? id = some n ∧ slot.Fits n) ∧
      Lowering.unfold (Lowering.ofModule m).get? (Lowering.ofModule m).globals
        (Lowering.ofModule m).procs = some m.bare) ∧
    (∀ m m' : Module, m.Distinct → m'.Distinct →
      (Lowering.ofModule m).globals = (Lowering.ofModule m').globals →
      (Lowering.ofModule m).procs = (Lowering.ofModule m').procs →
      (∀ id, (Lowering.ofModule m).get? id = (Lowering.ofModule m').get? id) →
      m.bare = m'.bare) ∧
    ∀ (name : String) (source : Bytes) (m : Module),
      (Module.parse name source).value = .ok m → m.Distinct ∧
        ∀ id, (Lowering.ofModule m).get? id ≠ none ↔ id < (Lowering.ofModule m).size := by
  have hunfold {m : Module} (h : m.Distinct) : Lowering.unfold (Lowering.ofModule m).get?
      (Lowering.ofModule m).globals (Lowering.ofModule m).procs = some m.bare :=
    Lowering.unfold_eq fun _ hp => Lowering.get?_of_mem h hp
  refine ⟨fun m h => ⟨?_, hunfold h⟩, ?_, ?_⟩
  · intro slot id hr
    obtain ⟨p, hp, rfl, rfl⟩ := Lowering.exists_part_of_reaches h hr
    exact ⟨p.lowered, Lowering.get?_of_mem h hp, p.slot_fits⟩
  · intro m m' h h' hglobals hprocs hget
    have hm := hunfold h
    rw [hglobals, hprocs, funext hget, hunfold h'] at hm
    exact (Option.some.inj hm).symm
  · intro name source m h
    have hids := map_id_parts_perm h
    have hm : m.Distinct := hids.nodup_iff.mpr List.nodup_range
    refine ⟨hm, fun id => ?_⟩
    rw [Lowering.size_ofModule hm, ← List.mem_range, ← hids.mem_iff, Lowering.get?_ne_none_iff hm]

/-- A tree that has been read, and one that differs from it in nothing that lowering keeps. -/
theorem lowering_of_small_module :
    let source := utf8 "var x: int; proc f(): int \x7b x = 7; \x7d"
    let m : Module :=
      { name := "m"
        vars := [⟨0, "x", .int, ⟨1, 5⟩⟩]
        procs := [⟨1, "f", [], [], .int,
          ⟨2, [⟨3, .ref 4 "x" ⟨1, 29⟩, .const 5 7 ⟨1, 33⟩, ⟨1, 29⟩⟩], ⟨1, 27⟩⟩, ⟨1, 13⟩⟩]
        exports := []
        location := .start }
    let m' : Module :=
      { name := "n"
        vars := [⟨0, "x", .int, .start⟩]
        procs := [⟨1, "f", [⟨0, .start⟩], [], .void,
          ⟨2, [⟨3, .ref 4 "x" .start, .const 5 7 .start, .start⟩], .start⟩, .start⟩]
        exports := ["f"]
        location := .start }
    (Module.parse "m" source).value = .ok m ∧ m.Distinct ∧ m'.Distinct ∧
      Lowering.unfold (Lowering.ofModule m).get? [0] [1] = some m.bare ∧ m.bare = m'.bare ∧
      ((Lowering.ofModule m).get? 5 ≠ none ↔ 5 < (Lowering.ofModule m).size) := by
  intro source m m'
  have hparse : (Module.parse "m" source).value = .ok m := by
    rw [Module.parse_value]
    decide +kernel
  obtain ⟨hunfold, hequal, hread⟩ := lowering_loses_nothing
  obtain ⟨hm, hpresent⟩ := hread "m" source m hparse
  have hm' : m'.Distinct := by decide
  have hbare : m.bare = m'.bare := hequal m m' hm hm' rfl rfl fun _ => rfl
  exact ⟨hparse, hm, hm', (hunfold m hm).2, hbare, hpresent 5⟩

end ProcLang
