import Mathlib.Data.Prod.Lex
import ProcLang.Proofs.Transcript

/-! # Numbers and places of nodes

The tokens of a text stand one behind the other, and a node is numbered when its first token is
taken. So the numbers run through the tree in the order of the text, and only an assignment and its
left operand stand at the same place. -/
namespace ProcLang

open ProcLang.Derivation

namespace Location

/-- By lines first. -/
instance : LinearOrder Location :=
  LinearOrder.lift' (fun l => toLex (l.line, l.column)) (by
    rintro ⟨line, column⟩ ⟨line', column'⟩ h
    cases h
    rfl)

theorem lt_iff {l k : Location} :
    l < k ↔ l.line < k.line ∨ l.line = k.line ∧ l.column < k.column :=
  Prod.Lex.toLex_lt_toLex

theorem lt_step (l : Location) (b : UInt8) : l < l.step b := by
  rw [lt_iff, step]
  split
  · exact Or.inl (Nat.lt_succ_self _)
  · exact Or.inr ⟨rfl, Nat.lt_succ_self _⟩

theorem le_after (l : Location) (text : Bytes) : l ≤ l.after text := by
  induction text generalizing l with
  | nil => exact le_rfl
  | cons b text ih => exact (l.lt_step b).le.trans (ih _)

theorem lt_after (l : Location) (x : Lexeme) : l < l.after x.bytes :=
  (l.lt_step x.first).trans_le (le_after _ _)

end Location

def Ordered (ts : List Token) : Prop := ts.Pairwise (·.location < ·.location)

namespace Scanner

theorem next_of_token {s s' : Scanner} {t : Token} (h : s.next = (.token t, s')) :
    s.location ≤ t.location ∧ t.location < s'.location := by
  rcases blank_or_lexeme s.rest with hb | ⟨gap, x, rest, hrest, hg, hx⟩
  · rw [next_of_blank hb] at h
    cases h
  · rw [next_of_lexeme hrest hg hx, Lexeme.answer] at h
    split at h <;> cases h
    exact ⟨Location.le_after _ gap, Location.lt_after _ x⟩

theorem exists_next_of_read {s : Scanner} {t : Token} {r : Reading} (h : s.read.1 = .token t r) :
    ∃ s', s.next = (.token t, s') ∧ s'.read.1 = r := by
  rw [read] at h
  split at h <;> cases h
  exact ⟨_, ‹_›, rfl⟩

theorem read_ordered {s : Scanner} {ts : List Token} {last : Reading}
    (h : s.read.1 = .prepend ts last) : Ordered ts ∧ ∀ t ∈ ts, s.location ≤ t.location := by
  induction ts generalizing s with
  | nil => exact ⟨.nil, List.forall_mem_nil _⟩
  | cons t ts ih =>
    obtain ⟨s', hnext, hrest⟩ := exists_next_of_read h
    obtain ⟨hle, hlt⟩ := next_of_token hnext
    obtain ⟨hts, hbehind⟩ := ih hrest
    have hlater : ∀ u ∈ ts, t.location < u.location := fun u hu => hlt.trans_le (hbehind u hu)
    refine ⟨List.pairwise_cons.mpr ⟨hlater, hts⟩, List.forall_mem_cons.mpr ⟨hle, ?_⟩⟩
    exact fun u hu => hle.trans (hlater u hu).le

end Scanner

/-- A node with a number of its own. Parameters are left out. -/
inductive Part where
  | var (v : Var)
  | proc (p : Proc)
  | block (b : Block)
  | assignment (a : Assignment)
  | expr (e : Expr)
  deriving DecidableEq, Repr

namespace Part

def id : Part → NodeId
  | .var v => v.id
  | .proc p => p.id
  | .block b => b.id
  | .assignment a => a.id
  | .expr e => e.id

def location : Part → Location
  | .var v => v.location
  | .proc p => p.location
  | .block b => b.location
  | .assignment a => a.location
  | .expr e => e.location

/-- The second is the left operand of the first and has the next number. -/
def BeginsWith (a b : Part) : Prop := ∃ s, a = .assignment s ∧ b = .expr s.lhs ∧ b.id = a.id + 1

end Part

def Assignment.parts (a : Assignment) : List Part := [.assignment a, .expr a.lhs, .expr a.rhs]

def Block.parts (b : Block) : List Part := .block b :: b.statements.flatMap Assignment.parts

def Proc.parts (p : Proc) : List Part := .proc p :: (p.locals.map .var ++ p.body.parts)

def Member.parts : Member → List Part
  | .var v => [.var v]
  | .proc p => p.parts

def Member.location : Member → Location
  | .var v => v.location
  | .proc p => p.location

/-- The variables and the procedures as they are stored, each in its own list. -/
def Module.stored (m : Module) : List Member := m.vars.map .var ++ m.procs.map .proc

/-- All nodes that have a number, each before the nodes below it. -/
def Module.parts (m : Module) : List Part := m.stored.flatMap Member.parts

namespace Derivation

theorem map_id_parts_vars (id : NodeId) (gs : List Group) :
    ((vars id gs).map Part.var).map Part.id = List.range' id gs.length := by
  rw [← map_id_vars, List.map_map]
  rfl

theorem map_id_parts_assignments (id : NodeId) (ss : List Statement) :
    ((assignments id ss).flatMap Assignment.parts).map Part.id =
      List.range' id (3 * ss.length) := by
  induction ss generalizing id with
  | nil => rfl
  | cons s ss ih =>
    have hs : (s.assignment id).parts.map Part.id = List.range' id 3 := by
      obtain ⟨_ | _, -, _ | _, -⟩ := s <;> rfl
    rw [assignments, List.flatMap_cons, List.map_append, hs, ih, List.range'_append_1,
      List.length_cons, Nat.mul_succ, Nat.add_comm]

theorem map_id_parts_proc (id : NodeId) (d : ProcDecl) :
    (d.proc id).parts.map Part.id = List.range' id (Item.procDecl d).size := by
  have hlocals : ((d.proc id).locals.map Part.var).map Part.id =
      List.range' (id + 1) d.groups.length := map_id_parts_vars _ _
  have hbody : (d.proc id).body.parts.map Part.id =
      List.range' (id + 1 + d.groups.length) (3 * d.statements.length + 1) := by
    rw [List.range'_succ, ← map_id_parts_assignments]
    rfl
  have hsize : (Item.procDecl d).size =
      d.groups.length + (3 * d.statements.length + 1) + 1 := by
    rw [Item.size]
    omega
  rw [Proc.parts, List.map_cons, List.map_append, hlocals, hbody, List.range'_append_1, hsize,
    List.range'_succ]
  rfl

def Item.parts (id : NodeId) (i : Item) : List Part := (i.members id).flatMap Member.parts

theorem Item.parts_varDecl (id : NodeId) (d : VarDecl) :
    (Item.varDecl d).parts id = (Derivation.vars id d.groups).map .var := by
  have h : (Item.varDecl d).members id = (Derivation.vars id d.groups).map .var :=
    List.append_nil _
  rw [parts, h, List.flatMap_map, List.map_eq_flatMap]
  rfl

theorem Item.parts_procDecl (id : NodeId) (d : ProcDecl) :
    (Item.procDecl d).parts id = (d.proc id).parts := List.append_nil _

theorem Item.map_id_parts (id : NodeId) (i : Item) :
    (i.parts id).map Part.id = List.range' id i.size := by
  cases i with
  | varDecl d => rw [parts_varDecl, map_id_parts_vars, size]
  | procDecl d => rw [parts_procDecl, map_id_parts_proc]
  | exportsDecl d => rfl

/-- The nodes of a derivation as they are written. -/
def parts (id : NodeId) (d : Derivation) : List Part :=
  (d.collect Item.members id).flatMap Member.parts

theorem parts_cons (id : NodeId) (i : Item) (d : Derivation) :
    parts id (i :: d) = i.parts id ++ parts (id + i.size) d :=
  List.flatMap_append

theorem map_id_parts (id : NodeId) (d : Derivation) :
    (d.parts id).map Part.id = List.range' id d.size := by
  induction d generalizing id with
  | nil => rfl
  | cons i d ih => rw [parts_cons, List.map_append, i.map_id_parts, ih, List.range'_append_1, size]

/-- The nodes stand at tokens, in the order of these. -/
structure Laid (ps : List Part) (ts : List Token) : Prop where
  mem : ∀ a ∈ ps, ∃ t ∈ ts, t.location = a.location
  led : ∀ s, Part.assignment s ∈ ps → s.lhs.location = s.location
  ordered : Ordered ts → ps.Pairwise fun a b => a.location < b.location ∨ a.BeginsWith b

namespace Laid

variable {ps qs : List Part} {ts us : List Token}

theorem nil : Laid [] ts :=
  ⟨List.forall_mem_nil _, fun _ h => absurd h List.not_mem_nil, fun _ => .nil⟩

theorem singleton {a : Part} {t : Token} (ht : t ∈ ts) (hl : t.location = a.location)
    (ha : ∀ s, a ≠ .assignment s) : Laid [a] ts where
  mem := by
    intro b hb
    obtain rfl := List.mem_singleton.mp hb
    exact ⟨t, ht, hl⟩
  led := by
    intro s hs
    exact absurd (List.mem_singleton.mp hs).symm (ha s)
  ordered _ := List.pairwise_singleton _ _

theorem append (h : Laid ps ts) (k : Laid qs us) : Laid (ps ++ qs) (ts ++ us) where
  mem := by
    intro a ha
    rcases List.mem_append.mp ha with ha | ha
    · obtain ⟨t, ht, hl⟩ := h.mem a ha
      exact ⟨t, List.mem_append_left us ht, hl⟩
    · obtain ⟨t, ht, hl⟩ := k.mem a ha
      exact ⟨t, List.mem_append_right ts ht, hl⟩
  led := by
    intro s hs
    exact (List.mem_append.mp hs).elim (h.led s) (k.led s)
  ordered := by
    intro ho
    obtain ⟨hts, hus, hbetween⟩ := List.pairwise_append.mp ho
    refine List.pairwise_append.mpr ⟨h.ordered hts, k.ordered hus, ?_⟩
    intro a ha b hb
    obtain ⟨t, ht, hta⟩ := h.mem a ha
    obtain ⟨u, hu, hub⟩ := k.mem b hb
    exact Or.inl (hta ▸ hub ▸ hbetween t ht u hu)

theorem behind (h : Laid ps us) (ts : List Token) : Laid ps (ts ++ us) := nil.append h

theorem before (h : Laid ps ts) (us : List Token) : Laid ps (ts ++ us) := by
  simpa using h.append (nil : Laid [] us)

end Laid

theorem laid_vars (id : NodeId) (gs : List Group) :
    Laid ((vars id gs).map .var) (gs.flatMap Group.tokens) := by
  induction gs generalizing id with
  | nil => exact .nil
  | cons g gs ih =>
    have hg : Laid [.var (g.var id)] g.tokens :=
      .singleton List.mem_cons_self rfl (by rintro s ⟨⟩)
    exact hg.append (ih _)

theorem laid_locals (id : NodeId) (ds : List VarDecl) :
    Laid ((vars id (ds.flatMap VarDecl.groups)).map .var) (ds.flatMap VarDecl.tokens) := by
  induction ds generalizing id with
  | nil => exact .nil
  | cons d ds ih =>
    have hd : Laid ((vars id d.groups).map .var) d.tokens := (laid_vars id d.groups).behind [_]
    rw [List.flatMap_cons, List.flatMap_cons, vars_append, List.map_append]
    exact hd.append (ih _)

theorem Operand.expr_eq (o : Operand) (id : NodeId) :
    (o.expr id).id = id ∧ (o.expr id).location = o.token.location := by
  cases o <;> exact ⟨rfl, rfl⟩

theorem Statement.laid (s : Statement) (id : NodeId) :
    Laid (s.assignment id).parts s.tokens := by
  obtain ⟨hid, hlhs⟩ := s.lhs.expr_eq (id + 1)
  obtain ⟨-, hrhs⟩ := s.rhs.expr_eq (id + 2)
  refine ⟨?_, ?_, ?_⟩
  · simp [Assignment.parts, assignment, tokens, Part.location, hlhs, hrhs]
  · simp [Assignment.parts, assignment, hlhs]
  · intro ho
    have hlt : s.lhs.token.location < s.rhs.token.location := by
      simp_all [Ordered, tokens]
    have hrest : ∀ b ∈ [Part.expr (s.rhs.expr (id + 2))],
        s.lhs.token.location < b.location := by simpa [Part.location, hrhs] using hlt
    refine .cons (List.forall_mem_cons.mpr ⟨Or.inr ⟨_, rfl, rfl, hid⟩, ?_⟩) (.cons ?_ ?_)
    · exact fun b hb => Or.inl (hrest b hb)
    · exact fun b hb => Or.inl (hlhs.trans_lt (hrest b hb))
    · exact List.pairwise_singleton _ _

theorem laid_assignments (id : NodeId) (ss : List Statement) :
    Laid ((assignments id ss).flatMap Assignment.parts) (ss.flatMap Statement.tokens) := by
  induction ss generalizing id with
  | nil => exact .nil
  | cons s ss ih => exact (s.laid id).append (ih _)

theorem ProcDecl.laid (d : ProcDecl) (id : NodeId) : Laid (d.proc id).parts d.tokens := by
  have hheading : Laid [.proc (d.proc id)] d.heading :=
    .singleton List.mem_cons_self rfl (by rintro s ⟨⟩)
  have hbrace : Laid [.block (d.proc id).body] [⟨.leftBrace, d.leftBrace⟩] :=
    .singleton List.mem_cons_self rfl (by rintro s ⟨⟩)
  have hstatements := (laid_assignments (id + 1 + d.groups.length + 1) d.statements).before
    [⟨.rightBrace, d.rightBrace⟩]
  exact hheading.append ((laid_locals _ d.locals).append (hbrace.append hstatements))

theorem Item.laid (i : Item) (id : NodeId) : Laid (i.parts id) i.tokens := by
  cases i with
  | varDecl d =>
    rw [parts_varDecl]
    exact (laid_vars id d.groups).behind [_]
  | procDecl d =>
    rw [parts_procDecl]
    exact d.laid id
  | exportsDecl d => exact .nil

theorem laid (d : Derivation) (id : NodeId) : Laid (d.parts id) d.tokens := by
  induction d generalizing id with
  | nil => exact .nil
  | cons i d ih =>
    rw [parts_cons]
    exact (i.laid id).append (ih _)

theorem lt_or_beginsWith {d : Derivation} {id : NodeId} (ho : Ordered d.tokens) {a b : Part}
    (ha : a ∈ d.parts id) (hb : b ∈ d.parts id) (h : a.id < b.id) :
    a.location < b.location ∨ a.BeginsWith b := by
  have hids : (d.parts id).Pairwise (·.id < ·.id) := by
    rw [← List.pairwise_map, map_id_parts]
    exact List.pairwise_lt_range'
  -- A symmetric relation that holds along the list holds of any two of its nodes.
  let R (a b : Part) : Prop := a.id < b.id → a.location < b.location ∨ a.BeginsWith b
  have hpairs : (d.parts id).Pairwise fun a b => R a b ∧ R b a :=
    (hids.and ((d.laid id).ordered ho)).imp fun hab =>
      ⟨fun _ => hab.2, fun hgt => absurd hgt hab.1.asymm⟩
  have hself : ∀ a ∈ d.parts id, R a a ∧ R a a := fun a _ =>
    ⟨fun hlt => absurd hlt (lt_irrefl _), fun hlt => absurd hlt (lt_irrefl _)⟩
  have : Std.Symm fun a b => R a b ∧ R b a := ⟨fun _ _ hab => hab.symm⟩
  exact (List.Pairwise.forall_of_forall hself hpairs ha hb).1 h

end Derivation

def Member.head : Member → Part
  | .var v => .var v
  | .proc p => .proc p

theorem Member.head_mem_parts (a : Member) : a.head ∈ a.parts := by
  cases a <;> exact List.mem_cons_self

theorem Member.head_eq (a : Member) :
    a.head.id = a.id ∧ a.head.location = a.location ∧ ∀ b : Part, ¬ b.BeginsWith a.head := by
  cases a <;> exact ⟨rfl, rfl, by rintro b ⟨s, -, h, -⟩; cases h⟩

theorem Derivation.parts_perm (name : String) (d : Derivation) :
    (d.parts 0).Perm (d.module name).parts := (d.members_perm 0).symm.flatMap_right _

theorem Derivation.map_id_parts_range (name : String) (d : Derivation) :
    (d.parts 0).map Part.id = List.range (d.module name).parts.length := by
  rw [map_id_parts, ← (d.parts_perm name).length_eq, ← List.length_map, map_id_parts,
    List.length_range', List.range_eq_range']

theorem map_id_parts_perm {name : String} {source : Bytes} {m : Module}
    (h : (Module.parse name source).value = .ok m) :
    (m.parts.map Part.id).Perm (List.range m.parts.length) := by
  obtain ⟨d, -, -, rfl⟩ := exists_derivation h
  rw [← d.map_id_parts_range name]
  exact ((d.parts_perm name).map _).symm

/-- Along the text the numbers count up from zero without a gap. A node is not written before one
with a smaller number, and only an assignment and its left operand are written at one place. -/
theorem numbers_follow_text {name : String} {source : Bytes} {m : Module}
    (h : (Module.parse name source).value = .ok m) :
    (m.parts.map Part.id).Perm (List.range m.parts.length) ∧
    (∃ members : List Member, members.Perm m.stored ∧
      members.Pairwise (·.location < ·.location) ∧
      (members.flatMap Member.parts).map Part.id = List.range m.parts.length) ∧
    ∀ a ∈ m.parts, ∀ b ∈ m.parts, a.id < b.id → a.location ≤ b.location ∧
      (a.location = b.location ↔ a.BeginsWith b) := by
  refine ⟨map_id_parts_perm h, ?_⟩
  obtain ⟨d, l, hsource, rfl⟩ := exists_derivation h
  obtain ⟨ho, -⟩ := Scanner.read_ordered hsource
  have hmembers := (d.members_perm 0).symm
  have hparts := d.parts_perm name
  refine ⟨⟨_, hmembers, ?_, d.map_id_parts_range name⟩, ?_⟩
  · refine (d.members_increasing 0).1.imp_of_mem ?_
    intro a b ha hb hlt
    obtain ⟨haid, hal, -⟩ := a.head_eq
    obtain ⟨hbid, hbl, hb'⟩ := b.head_eq
    have hhead {c : Member} (hc : c ∈ d.collect Item.members 0) : c.head ∈ d.parts 0 :=
      List.mem_flatMap.mpr ⟨c, hc, c.head_mem_parts⟩
    rw [← hal, ← hbl]
    exact (lt_or_beginsWith ho (hhead ha) (hhead hb) (haid ▸ hbid ▸ hlt)).resolve_right (hb' _)
  · intro a ha b hb hlt
    have hsame : a.BeginsWith b → a.location = b.location := by
      rintro ⟨s, rfl, rfl, -⟩
      exact ((d.laid 0).led s (hparts.mem_iff.mpr ha)).symm
    rcases lt_or_beginsWith ho (hparts.mem_iff.mpr ha) (hparts.mem_iff.mpr hb) hlt with h | h
    · exact ⟨h.le, fun heq => absurd heq h.ne, hsame⟩
    · exact ⟨(hsame h).le, fun _ => h, hsame⟩

/-- The procedure is written before the variable, which is stored first. -/
theorem numbers_of_small_module :
    let source := utf8 "proc f(): int var x: int; \x7b x = 7; \x7d var y: char;"
    let m : Module :=
      { name := "m"
        vars := [⟨6, "y", .char, ⟨1, 42⟩⟩]
        procs := [⟨0, "f", [], [⟨1, "x", .int, ⟨1, 19⟩⟩], .int,
          ⟨2, [⟨3, .ref 4 "x" ⟨1, 29⟩, .const 5 7 ⟨1, 33⟩, ⟨1, 29⟩⟩], ⟨1, 27⟩⟩, ⟨1, 1⟩⟩]
        exports := []
        location := .start }
    (Module.parse "m" source).value = .ok m ∧ m.parts.length = 7 ∧
      (m.parts.map Part.id).Perm (List.range 7) := by
  intro source m
  have hm : (Module.parse "m" source).value = .ok m := by
    rw [Module.parse_value]
    decide +kernel
  exact ⟨hm, rfl, (numbers_follow_text hm).1⟩

end ProcLang
