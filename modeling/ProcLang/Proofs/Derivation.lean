import Mathlib.Data.Set.List
import ProcLang.Proofs.Grammar
import ProcLang.Program.Tree

/-! # Derivations

One structure for each production of the grammar, with the tokens that it derives and the tree that
it stands for. Nodes are numbered in the order in which their tokens are written: a procedure comes
before its variables, these before its block, and an assignment before its operands. -/
namespace ProcLang

def TypeName.ofText? (name : String) : Option TypeName := all.find? (·.text = name)

/-- As `ofText?`; a name that is no built-in type has no meaning of its own here. -/
def TypeName.named (name : String) : TypeName := (ofText? name).getD .void

theorem TypeName.ofText?_eq_some_iff {name : String} {t : TypeName} :
    ofText? name = some t ↔ t.text = name := by
  constructor
  · intro h
    simpa using List.find?_some h
  · rintro rfl
    cases t <;> rfl

theorem TypeName.named_text (t : TypeName) : named t.text = t := by
  simp [named, ofText?_eq_some_iff.mpr rfl]

namespace Derivation

structure Word where
  text : String
  location : Location
  deriving DecidableEq, Repr

def Word.token (w : Word) : Token := ⟨.identifier w.text, w.location⟩

structure Group where
  name : Word
  colon : Location
  type : Word
  semicolon : Location
  deriving DecidableEq, Repr

namespace Group

def tokens (g : Group) : List Token :=
  [g.name.token, ⟨.colon, g.colon⟩, g.type.token, ⟨.semicolon, g.semicolon⟩]

def var (g : Group) (id : NodeId) : Var := ⟨id, g.name.text, .named g.type.text, g.name.location⟩

end Group

/-- The variables of groups, numbered on from the given one. -/
def vars (id : NodeId) : List Group → List Var
  | [] => []
  | g :: gs => g.var id :: vars (id + 1) gs

theorem vars_append (id : NodeId) (gs hs : List Group) :
    vars id (gs ++ hs) = vars id gs ++ vars (id + gs.length) hs := by
  induction gs generalizing id with
  | nil => rfl
  | cons g gs ih => simp [vars, ih, add_assoc, add_comm 1]

structure VarDecl where
  keyword : Location
  first : Group
  more : List Group
  deriving DecidableEq, Repr

namespace VarDecl

def groups (d : VarDecl) : List Group := d.first :: d.more

def tokens (d : VarDecl) : List Token := ⟨.var, d.keyword⟩ :: d.groups.flatMap Group.tokens

end VarDecl

inductive Operand where
  | name (w : Word)
  | literal (value : Int) (location : Location)
  deriving DecidableEq, Repr

namespace Operand

def token : Operand → Token
  | .name w => w.token
  | .literal value l => ⟨.intLiteral value, l⟩

def expr (id : NodeId) : Operand → Expr
  | .name w => .ref id w.text w.location
  | .literal value l => .const id value l

end Operand

structure Statement where
  lhs : Operand
  equals : Location
  rhs : Operand
  semicolon : Location
  deriving DecidableEq, Repr

namespace Statement

def tokens (s : Statement) : List Token :=
  [s.lhs.token, ⟨.equals, s.equals⟩, s.rhs.token, ⟨.semicolon, s.semicolon⟩]

def assignment (s : Statement) (id : NodeId) : Assignment :=
  ⟨id, s.lhs.expr (id + 1), s.rhs.expr (id + 2), s.lhs.token.location⟩

end Statement

def assignments (id : NodeId) : List Statement → List Assignment
  | [] => []
  | s :: ss => s.assignment id :: assignments (id + 3) ss

structure ProcDecl where
  keyword : Location
  name : Word
  leftParen : Location
  rightParen : Location
  colon : Location
  returnType : Word
  locals : List VarDecl
  leftBrace : Location
  statements : List Statement
  rightBrace : Location
  deriving DecidableEq, Repr

namespace ProcDecl

def heading (d : ProcDecl) : List Token :=
  [⟨.proc, d.keyword⟩, d.name.token, ⟨.leftParen, d.leftParen⟩, ⟨.rightParen, d.rightParen⟩,
    ⟨.colon, d.colon⟩, d.returnType.token]

def block (d : ProcDecl) : List Token :=
  ⟨.leftBrace, d.leftBrace⟩ ::
    (d.statements.flatMap Statement.tokens ++ [⟨.rightBrace, d.rightBrace⟩])

def tokens (d : ProcDecl) : List Token :=
  d.heading ++ (d.locals.flatMap VarDecl.tokens ++ d.block)

def groups (d : ProcDecl) : List Group := d.locals.flatMap VarDecl.groups

def proc (d : ProcDecl) (id : NodeId) : Proc where
  id := id
  name := d.name.text
  params := []
  locals := vars (id + 1) d.groups
  returnType := .named d.returnType.text
  body :=
    { id := id + 1 + d.groups.length
      statements := assignments (id + 1 + d.groups.length + 1) d.statements
      location := d.leftBrace }
  location := d.keyword

end ProcDecl

structure ExportsDecl where
  keyword : Location
  name : Word
  semicolon : Location
  deriving DecidableEq, Repr

def ExportsDecl.tokens (d : ExportsDecl) : List Token :=
  [⟨.exports, d.keyword⟩, d.name.token, ⟨.semicolon, d.semicolon⟩]

inductive Item where
  | varDecl (d : VarDecl)
  | procDecl (d : ProcDecl)
  | exportsDecl (d : ExportsDecl)
  deriving DecidableEq, Repr

namespace Item

def tokens : Item → List Token
  | .varDecl d => d.tokens
  | .procDecl d => d.tokens
  | .exportsDecl d => d.tokens

def size : Item → Nat
  | .varDecl d => d.groups.length
  | .procDecl d => 2 + d.groups.length + 3 * d.statements.length
  | .exportsDecl _ => 0

def vars (id : NodeId) : Item → List Var
  | .varDecl d => Derivation.vars id d.groups
  | _ => []

def procs (id : NodeId) : Item → List Proc
  | .procDecl d => [d.proc id]
  | _ => []

def exports : Item → List String
  | .exportsDecl d => [d.name.text]
  | _ => []

end Item

end Derivation

abbrev Derivation := List Derivation.Item

namespace Derivation

def tokens (d : Derivation) : List Token := d.flatMap Item.tokens

def size : Derivation → Nat
  | [] => 0
  | i :: is => i.size + size is

/-- What the items hold, each with its nodes numbered on from those before it. -/
def collect {α : Type} (part : NodeId → Item → List α) (id : NodeId) : Derivation → List α
  | [] => []
  | i :: is => part id i ++ collect part (id + i.size) is

def module (name : String) (d : Derivation) : Module :=
  ⟨name, d.collect Item.vars 0, d.collect Item.procs 0, d.flatMap Item.exports, .start⟩

end Derivation

/-- The token lists with kinds in a language are those that `yield` gives. -/
def Spells {α : Type} (yield : α → List Token) (l : Language TokenKind) : Prop :=
  ∀ ts : List Token, ts.map Token.kind ∈ l ↔ ∃ a, yield a = ts

namespace Spells

open scoped Computability

variable {α β : Type} {y : α → List Token} {z : β → List Token} {l m : Language TokenKind}
  {w : List TokenKind}

theorem of_surjective (f : α → β) (hf : f.Surjective) (h : ∀ a, z (f a) = y a)
    (hy : Spells y l) : Spells z l := by
  intro ts
  rw [hy ts]
  constructor
  · intro h
    obtain ⟨a, rfl⟩ := h
    exact ⟨f a, h a⟩
  · intro h
    obtain ⟨b, rfl⟩ := h
    obtain ⟨a, rfl⟩ := hf b
    exact ⟨a, (h a).symm⟩

theorem nil : Spells (fun _ : Unit => []) {[]} := by
  intro ts
  constructor
  · intro h
    exact ⟨(), (List.map_eq_nil_iff.mp h).symm⟩
  · intro h
    obtain ⟨-, rfl⟩ := h
    rfl

theorem cons {token : β → Token} {k : TokenKind} (hk : ∀ t : Token, t.kind = k ↔ ∃ b, token b = t)
    (hy : Spells y {w}) : Spells (fun p : β × α => token p.1 :: y p.2) {k :: w} := by
  intro ts
  constructor
  · intro h
    obtain ⟨t, us, rfl, ht, hus⟩ := List.map_eq_cons_iff.mp (show ts.map Token.kind = k :: w from h)
    obtain ⟨b, rfl⟩ := (hk t).mp ht
    obtain ⟨a, rfl⟩ := (hy us).mp hus
    exact ⟨⟨b, a⟩, rfl⟩
  · intro h
    obtain ⟨⟨b, a⟩, rfl⟩ := h
    have hb := (hk (token b)).mpr ⟨b, rfl⟩
    have ha : (y a).map Token.kind = w := (hy (y a)).mpr ⟨a, rfl⟩
    exact congrArg₂ List.cons hb ha

theorem mul (hy : Spells y l) (hz : Spells z m) :
    Spells (fun p : α × β => y p.1 ++ z p.2) (l * m) := by
  intro ts
  rw [Language.mem_mul]
  constructor
  · intro h
    obtain ⟨v, hv, w, hw, h⟩ := h
    obtain ⟨us, vs, rfl, rfl, rfl⟩ := List.map_eq_append_iff.mp h.symm
    obtain ⟨a, rfl⟩ := (hy us).mp hv
    obtain ⟨b, rfl⟩ := (hz vs).mp hw
    exact ⟨⟨a, b⟩, rfl⟩
  · intro h
    obtain ⟨⟨a, b⟩, rfl⟩ := h
    exact ⟨_, (hy _).mpr ⟨a, rfl⟩, _, (hz _).mpr ⟨b, rfl⟩, List.map_append.symm⟩

theorem add (hy : Spells y l) (hz : Spells z m) : Spells (Sum.elim y z) (l + m) := by
  intro ts
  rw [Language.mem_add, hy ts, hz ts]
  simp

theorem kstar (hy : Spells y l) : Spells (fun as : List α => as.flatMap y) l∗ := by
  intro ts
  rw [Language.mem_kstar]
  constructor
  · intro h
    obtain ⟨words, h, hw⟩ := h
    induction words generalizing ts with
    | nil => exact ⟨[], (List.map_eq_nil_iff.mp h).symm⟩
    | cons v words ih =>
      obtain ⟨us, vs, rfl, rfl, hvs⟩ := List.map_eq_append_iff.mp h
      obtain ⟨a, rfl⟩ := (hy us).mp (hw _ List.mem_cons_self)
      obtain ⟨as, rfl⟩ := ih vs hvs fun v hv => hw v (List.mem_cons_of_mem _ hv)
      exact ⟨a :: as, rfl⟩
  · intro h
    obtain ⟨as, rfl⟩ := h
    refine ⟨as.map fun a => (y a).map Token.kind, ?_, ?_⟩
    · simp [List.flatMap, List.map_flatten, Function.comp_def]
    · intro v hv
      obtain ⟨a, -, rfl⟩ := List.mem_map.mp hv
      exact (hy _).mpr ⟨a, rfl⟩

theorem fixed (u : Terminal) (hu : u.kind ≠ .identifier ∧ u.kind ≠ .intLiteral)
    (hy : Spells y {w}) :
    Spells (fun p : Location × α => ⟨u, p.1⟩ :: y p.2) {u.kind :: w} := by
  refine cons (fun t => ⟨fun h => ⟨t.location, ?_⟩, ?_⟩) hy
  · obtain ⟨v, l⟩ := t
    have hv : v.kind = u.kind := h
    cases u <;> cases v <;> simp_all [Terminal.kind]
  · intro h
    obtain ⟨l, rfl⟩ := h
    rfl

theorem word (hy : Spells y {w}) :
    Spells (fun p : Derivation.Word × α => p.1.token :: y p.2) {.identifier :: w} := by
  refine cons (fun t => ⟨fun h => ?_, ?_⟩) hy
  · obtain ⟨v, l⟩ := t
    cases v <;> cases h
    exact ⟨⟨_, l⟩, rfl⟩
  · intro h
    obtain ⟨v, rfl⟩ := h
    rfl

end Spells

namespace Derivation

theorem Operand.spells : Spells (fun o : Operand => [o.token]) Grammar.expr := by
  intro ts
  rw [Grammar.expr, Language.mem_add]
  constructor
  · rintro (h | h) <;> obtain ⟨⟨v, l⟩, rfl, hv⟩ := List.map_eq_singleton_iff.mp h
    · cases v <;> cases hv
      exact ⟨.name ⟨_, l⟩, rfl⟩
    · cases v <;> cases hv
      exact ⟨.literal _ l, rfl⟩
  · intro h
    obtain ⟨_ | _, rfl⟩ := h
    · exact Or.inl rfl
    · exact Or.inr rfl

theorem Group.spells : Spells Group.tokens Grammar.group :=
  .of_surjective (fun p : Word × Location × Word × Location × Unit =>
      (⟨p.1, p.2.1, p.2.2.1, p.2.2.2.1⟩ : Group))
    (fun g => ⟨(g.name, g.colon, g.type, g.semicolon, ()), rfl⟩) (fun _ => rfl)
    (.word (.fixed .colon (by decide) (.word (.fixed .semicolon (by decide) .nil))))

theorem VarDecl.spells : Spells VarDecl.tokens Grammar.varDecl :=
  .of_surjective (fun p : (Location × Unit) × Group × List Group =>
      (⟨p.1.1, p.2.1, p.2.2⟩ : VarDecl))
    (fun d => ⟨((d.keyword, ()), d.first, d.more), rfl⟩) (fun _ => rfl)
    (.mul (.fixed .var (by decide) .nil) (.mul Group.spells (.kstar Group.spells)))

theorem Statement.spells : Spells Statement.tokens Grammar.statement :=
  .of_surjective (fun p : ((Operand × Location × Unit) × Operand) × Location × Unit =>
      (⟨p.1.1.1, p.1.1.2.1, p.1.2, p.2.1⟩ : Statement))
    (fun s => ⟨(((s.lhs, s.equals, ()), s.rhs), s.semicolon, ()), rfl⟩) (fun _ => rfl)
    (.mul (.mul (.mul Operand.spells (.fixed .equals (by decide) .nil)) Operand.spells)
      (.fixed .semicolon (by decide) .nil))

theorem heading_spells : Spells
    (fun p : Location × Word × Location × Location × Location × Word × Unit =>
      [⟨.proc, p.1⟩, p.2.1.token, ⟨.leftParen, p.2.2.1⟩, ⟨.rightParen, p.2.2.2.1⟩,
        ⟨.colon, p.2.2.2.2.1⟩, p.2.2.2.2.2.1.token])
    Grammar.heading :=
  .fixed .proc (by decide) (.word (.fixed .leftParen (by decide) (.fixed .rightParen (by decide)
    (.fixed .colon (by decide) (.word .nil)))))

theorem block_spells : Spells
    (fun p : ((Location × Unit) × List Statement) × Location × Unit =>
      ⟨.leftBrace, p.1.1.1⟩ :: (p.1.2.flatMap Statement.tokens ++ [⟨.rightBrace, p.2.1⟩]))
    Grammar.block :=
  .mul (.mul (.fixed .leftBrace (by decide) .nil) (.kstar Statement.spells))
    (.fixed .rightBrace (by decide) .nil)

theorem ProcDecl.spells : Spells ProcDecl.tokens Grammar.procDecl := by
  refine .of_surjective (fun p => ProcDecl.mk p.1.1.1 p.1.1.2.1 p.1.1.2.2.1 p.1.1.2.2.2.1
    p.1.1.2.2.2.2.1 p.1.1.2.2.2.2.2.1 p.1.2 p.2.1.1.1 p.2.1.2 p.2.2.1) ?_ ?_
    (.mul (.mul heading_spells (.kstar VarDecl.spells)) block_spells)
  · intro d
    exact ⟨(((d.keyword, d.name, d.leftParen, d.rightParen, d.colon, d.returnType, ()), d.locals),
      ((d.leftBrace, ()), d.statements), d.rightBrace, ()), rfl⟩
  · intro p
    exact (List.append_assoc _ _ _).symm

theorem ExportsDecl.spells : Spells ExportsDecl.tokens Grammar.exportsDecl :=
  .of_surjective (fun p : Location × Word × Location × Unit =>
      (⟨p.1, p.2.1, p.2.2.1⟩ : ExportsDecl))
    (fun d => ⟨(d.keyword, d.name, d.semicolon, ()), rfl⟩) (fun _ => rfl)
    (.fixed .exports (by decide) (.word (.fixed .semicolon (by decide) .nil)))

theorem Item.spells : Spells Item.tokens Grammar.item := by
  refine .of_surjective
    (Sum.elim (Sum.elim Item.varDecl Item.procDecl) Item.exportsDecl) ?_ ?_
    (.add (.add VarDecl.spells ProcDecl.spells) ExportsDecl.spells)
  · rintro (d | d | d)
    · exact ⟨.inl (.inl d), rfl⟩
    · exact ⟨.inl (.inr d), rfl⟩
    · exact ⟨.inr d, rfl⟩
  · rintro ((d | d) | d) <;> rfl

/-- A token list has a derivation exactly if the kinds of its tokens are in the grammar. -/
theorem spells : Spells Derivation.tokens Grammar.module := .kstar Item.spells

theorem kinds_mem_module (d : Derivation) : d.tokens.map Token.kind ∈ Grammar.module :=
  (spells _).mpr ⟨d, rfl⟩

theorem exists_kind_eq {k : TokenKind} (hk : k ≠ .eof) : ∃ t : Token, t.kind = k := by
  have of_terminal (u : Terminal) : ∃ t : Token, t.kind = u.kind := ⟨⟨u, .start⟩, rfl⟩
  cases k with
  | eof => exact absurd rfl hk
  | intLiteral => exact of_terminal (.intLiteral 0)
  | identifier => exact of_terminal (.identifier "")
  | exports => exact of_terminal .exports
  | proc => exact of_terminal .proc
  | var => exact of_terminal .var
  | leftParen => exact of_terminal .leftParen
  | rightParen => exact of_terminal .rightParen
  | leftBrace => exact of_terminal .leftBrace
  | rightBrace => exact of_terminal .rightBrace
  | colon => exact of_terminal .colon
  | semicolon => exact of_terminal .semicolon
  | equals => exact of_terminal .equals

theorem exists_prefix_iff {ts : List Token} :
    (∃ d : Derivation, ts <+: d.tokens) ↔
      ∃ p, Point.start.follow (ts.map Token.kind) = some p := by
  rw [← Grammar.exists_append_mem_module]
  constructor
  · intro h
    obtain ⟨d, rest, h⟩ := h
    exact ⟨rest.map Token.kind, by rw [← List.map_append, h]; exact d.kinds_mem_module⟩
  · intro h
    obtain ⟨w, hw⟩ := h
    obtain ⟨rest, rfl⟩ : w ∈ Set.range (List.map Token.kind) := by
      rw [Set.range_list_map]
      intro k hk
      refine exists_kind_eq fun he => Grammar.eof_notMem hw ?_
      exact List.mem_append_right _ (he ▸ hk)
    rw [← List.map_append] at hw
    obtain ⟨d, hd⟩ := (spells _).mp hw
    exact ⟨d, rest, hd.symm⟩

end Derivation

end ProcLang
