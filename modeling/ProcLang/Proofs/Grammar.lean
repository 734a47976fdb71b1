import Mathlib.Computability.Language
import ProcLang.Proofs.Place

/-! # The grammar as a language of token kinds

The productions are written with the operations on languages. Repetition is the only recursion, so
finitely many points, the places without what they carry, tell what may still follow. `Point.rest`
says it as a language and `Point.next?` as one step for each kind; that the two agree is the one
fact about the grammar that everything on syntax errors goes back to. -/
namespace ProcLang

open scoped Computability

namespace Grammar

def expr : Language TokenKind := {[.identifier]} + {[.intLiteral]}

def statement : Language TokenKind := expr * {[.equals]} * expr * {[.semicolon]}

def group : Language TokenKind := {[.identifier, .colon, .identifier, .semicolon]}

def varDecl : Language TokenKind := {[.var]} * (group * group∗)

def heading : Language TokenKind :=
  {[.proc, .identifier, .leftParen, .rightParen, .colon, .identifier]}

def block : Language TokenKind := {[.leftBrace]} * statement∗ * {[.rightBrace]}

def procDecl : Language TokenKind := heading * varDecl∗ * block

def exportsDecl : Language TokenKind := {[.exports, .identifier, .semicolon]}

def item : Language TokenKind := varDecl + procDecl + exportsDecl

/-- The kinds of the tokens of a module, the end of the input left out. -/
def module : Language TokenKind := item∗

/-- A prefix of a module that is followed by the end of the input. -/
def Viable (kinds : List TokenKind) : Prop := ∃ w ∈ module, kinds <+: w ++ [.eof]

end Grammar

/-- A region without the procedure it belongs to. -/
inductive Zone where
  | module
  | body
  deriving DecidableEq, Repr

/-- A place without the parts of the tree that it carries. -/
inductive Point where
  | declarations (z : Zone)
  | varKeyword (z : Zone)
  | varName (z : Zone)
  | varColon (z : Zone)
  | varType (z : Zone)
  | group (z : Zone)
  | procKeyword
  | procName
  | procLeftParen
  | procRightParen
  | procColon
  | statements
  | leftOperand
  | equals
  | rightOperand
  | exportsKeyword
  | exportsName
  deriving DecidableEq, Repr

def Zone.next? : Zone → TokenKind → Option Point
  | z, .var => some (.varKeyword z)
  | .module, .proc => some .procKeyword
  | .module, .exports => some .exportsKeyword
  | .body, .leftBrace => some .statements
  | _, _ => none

def Grammar.statements : Language TokenKind :=
  Grammar.statement∗ * ({[.rightBrace]} * Grammar.module)

def Zone.rest : Zone → Language TokenKind
  | .module => Grammar.module
  | .body => Grammar.varDecl∗ * (Grammar.block * Grammar.module)

def Zone.groups (z : Zone) : Language TokenKind := Grammar.group∗ * z.rest

namespace Point

def next? : Point → TokenKind → Option Point
  | .declarations z, k => z.next? k
  | .varKeyword z, .identifier => some (.varName z)
  | .varName z, .colon => some (.varColon z)
  | .varColon z, .identifier => some (.varType z)
  | .varType z, .semicolon => some (.group z)
  | .group z, .identifier => some (.varName z)
  | .group z, k => z.next? k
  | .procKeyword, .identifier => some .procName
  | .procName, .leftParen => some .procLeftParen
  | .procLeftParen, .rightParen => some .procRightParen
  | .procRightParen, .colon => some .procColon
  | .procColon, .identifier => some (.declarations .body)
  | .statements, .rightBrace => some (.declarations .module)
  | .statements, .identifier => some .leftOperand
  | .statements, .intLiteral => some .leftOperand
  | .leftOperand, .equals => some .equals
  | .equals, .identifier => some .rightOperand
  | .equals, .intLiteral => some .rightOperand
  | .rightOperand, .semicolon => some .statements
  | .exportsKeyword, .identifier => some .exportsName
  | .exportsName, .semicolon => some (.declarations .module)
  | _, _ => none

def isEnd : Point → Bool
  | .declarations .module => true
  | .group .module => true
  | _ => false

/-- What remains of a module from a point on. -/
def rest : Point → Language TokenKind
  | .declarations z => z.rest
  | .varKeyword z => {[.identifier, .colon, .identifier, .semicolon]} * z.groups
  | .varName z => {[.colon, .identifier, .semicolon]} * z.groups
  | .varColon z => {[.identifier, .semicolon]} * z.groups
  | .varType z => {[.semicolon]} * z.groups
  | .group z => z.groups
  | .procKeyword =>
    {[.identifier, .leftParen, .rightParen, .colon, .identifier]} * Zone.body.rest
  | .procName => {[.leftParen, .rightParen, .colon, .identifier]} * Zone.body.rest
  | .procLeftParen => {[.rightParen, .colon, .identifier]} * Zone.body.rest
  | .procRightParen => {[.colon, .identifier]} * Zone.body.rest
  | .procColon => {[.identifier]} * Zone.body.rest
  | .statements => Grammar.statements
  | .leftOperand => {[.equals]} * (Grammar.expr * ({[.semicolon]} * Grammar.statements))
  | .equals => Grammar.expr * ({[.semicolon]} * Grammar.statements)
  | .rightOperand => {[.semicolon]} * Grammar.statements
  | .exportsKeyword => {[.identifier, .semicolon]} * Grammar.module
  | .exportsName => {[.semicolon]} * Grammar.module

end Point

section Front

variable {α : Type} {k a : α} {u w : List α} {l m : Language α}

theorem mem_word_mul : w ∈ ({u} : Language α) * m ↔ ∃ v ∈ m, w = u ++ v := by
  rw [Language.mem_mul]
  constructor
  · intro h
    obtain ⟨_, rfl, v, hv, rfl⟩ := h
    exact ⟨v, hv, rfl⟩
  · intro h
    obtain ⟨v, hv, rfl⟩ := h
    exact ⟨u, rfl, v, hv, rfl⟩

@[simp] theorem cons_mem_word_mul :
    k :: w ∈ ({a :: u} : Language α) * m ↔ k = a ∧ w ∈ ({u} : Language α) * m := by
  simp only [mem_word_mul, List.cons_append, List.cons.injEq]
  constructor
  · intro h
    obtain ⟨v, hv, hk, hw⟩ := h
    exact ⟨hk, v, hv, hw⟩
  · intro h
    obtain ⟨hk, v, hv, hw⟩ := h
    exact ⟨v, hv, hk, hw⟩

@[simp] theorem mem_nil_mul : w ∈ ({[]} : Language α) * m ↔ w ∈ m := by
  simp [mem_word_mul]

theorem nil_mem_mul : [] ∈ l * m ↔ [] ∈ l ∧ [] ∈ m := by
  simp [Language.mem_mul]

theorem nil_notMem_word : [] ∉ ({a :: u} : Language α) := List.cons_ne_nil a u ∘ Eq.symm

theorem mem_kstar_mul : w ∈ l∗ * m ↔ w ∈ m ∨ w ∈ l * (l∗ * m) := by
  conv_lhs => rw [← Language.one_add_self_mul_kstar_eq_kstar, add_mul, one_mul, mul_assoc]
  exact Language.mem_add _ _ _

end Front

namespace Grammar

variable {k : TokenKind} {w : List TokenKind} {m : Language TokenKind}

theorem nil_notMem_expr : [] ∉ expr := by
  rw [expr, Language.mem_add]
  exact not_or.mpr ⟨nil_notMem_word, nil_notMem_word⟩

theorem cons_mem_expr_mul :
    k :: w ∈ expr * m ↔ (k = .identifier ∨ k = .intLiteral) ∧ w ∈ m := by
  rw [expr, add_mul, Language.mem_add]
  simp [or_and_right]

theorem cons_mem_groups : k :: w ∈ group∗ * m ↔ k :: w ∈ m ∨
    k = .identifier ∧ w ∈ ({[.colon, .identifier, .semicolon]} : Language _) * (group∗ * m) := by
  rw [mem_kstar_mul]
  simp [group]

theorem cons_mem_varDecl_mul : k :: w ∈ varDecl * m ↔
    k = .var ∧ w ∈ ({[.identifier, .colon, .identifier, .semicolon]} : Language _) *
      (group∗ * m) := by
  rw [varDecl, mul_assoc, mul_assoc]
  simp [group]

theorem cons_mem_varDecls : k :: w ∈ varDecl∗ * m ↔ k :: w ∈ m ∨
    k = .var ∧ w ∈ ({[.identifier, .colon, .identifier, .semicolon]} : Language _) *
      (group∗ * (varDecl∗ * m)) := by
  rw [mem_kstar_mul, cons_mem_varDecl_mul]

theorem cons_mem_statements : k :: w ∈ statements ↔
    k = .rightBrace ∧ w ∈ module ∨ (k = .identifier ∨ k = .intLiteral) ∧
      w ∈ ({[.equals]} : Language _) * (expr * ({[.semicolon]} * statements)) := by
  rw [statements, mem_kstar_mul]
  conv_lhs => rw [statement, mul_assoc, mul_assoc, mul_assoc, cons_mem_expr_mul]
  simp [statement, mul_assoc]

theorem cons_mem_procDecl_mul : k :: w ∈ procDecl * m ↔
    k = .proc ∧ w ∈ ({[.identifier, .leftParen, .rightParen, .colon, .identifier]} :
      Language _) * (varDecl∗ * (block * m)) := by
  rw [procDecl, heading, mul_assoc, mul_assoc]
  simp

theorem cons_mem_block_mul : k :: w ∈ block * module ↔ k = .leftBrace ∧ w ∈ statements := by
  rw [block, mul_assoc, mul_assoc]
  simp [statements]

theorem cons_mem_module : k :: w ∈ module ↔
    k = .var ∧ w ∈ (Point.varKeyword .module).rest ∨ k = .proc ∧ w ∈ Point.procKeyword.rest ∨
      k = .exports ∧ w ∈ Point.exportsKeyword.rest := by
  conv_lhs =>
    rw [module, ← Language.one_add_self_mul_kstar_eq_kstar, ← module, item, add_mul, add_mul,
      Language.mem_add, Language.mem_add, Language.mem_add, cons_mem_varDecl_mul,
      cons_mem_procDecl_mul, exportsDecl, cons_mem_word_mul, Language.mem_one]
  simp only [reduceCtorEq, false_or, or_assoc]
  rfl

end Grammar

theorem Zone.cons_mem_rest {z : Zone} {k : TokenKind} {w : List TokenKind} :
    k :: w ∈ z.rest ↔ ∃ q, z.next? k = some q ∧ w ∈ q.rest := by
  cases z with
  | module =>
    rw [Zone.rest, Grammar.cons_mem_module]
    cases k <;> simp [Zone.next?]
  | body =>
    rw [Zone.rest, Grammar.cons_mem_varDecls, Grammar.cons_mem_block_mul]
    cases k <;> simp [Zone.next?, Point.rest, Zone.groups, Zone.rest]

theorem Zone.cons_mem_groups {z : Zone} {k : TokenKind} {w : List TokenKind} :
    k :: w ∈ z.groups ↔ ∃ q, (Point.group z).next? k = some q ∧ w ∈ q.rest := by
  rw [Zone.groups, Grammar.cons_mem_groups, Zone.cons_mem_rest]
  cases z <;> cases k <;> simp [Point.next?, Zone.next?, Point.rest, Zone.groups]

theorem Point.cons_mem_rest {p : Point} {k : TokenKind} {w : List TokenKind} :
    k :: w ∈ p.rest ↔ ∃ q, p.next? k = some q ∧ w ∈ q.rest := by
  cases p with
  | declarations z => exact Zone.cons_mem_rest
  | group z => exact Zone.cons_mem_groups
  | statements =>
    rw [Point.rest, Grammar.cons_mem_statements]
    cases k <;> simp [Point.next?, Point.rest, Zone.rest]
  | equals =>
    rw [Point.rest, Grammar.cons_mem_expr_mul]
    cases k <;> simp [Point.next?, Point.rest]
  | _ => cases k <;> simp [Point.next?, Point.rest, Zone.rest]

namespace Point

def start : Point := .declarations .module

def follow (p : Point) (kinds : List TokenKind) : Option Point := kinds.foldlM next? p

/-- Whether a kind, the end of the input included, may stand at a point. -/
def admits (p : Point) (k : TokenKind) : Bool :=
  if k = .eof then p.isEnd else (p.next? k).isSome

@[simp] theorem follow_nil (p : Point) : p.follow [] = some p := rfl

theorem follow_cons (p : Point) (k : TokenKind) (kinds : List TokenKind) :
    p.follow (k :: kinds) = (p.next? k).bind (follow · kinds) := rfl

theorem follow_append (p : Point) (first second : List TokenKind) :
    p.follow (first ++ second) = (p.follow first).bind (follow · second) :=
  List.foldlM_append

theorem exists_of_follow_append_singleton {p q : Point} {kinds : List TokenKind} {k : TokenKind}
    (h : p.follow (kinds ++ [k]) = some q) :
    ∃ r, p.follow kinds = some r ∧ r.next? k = some q := by
  rw [follow_append, Option.bind_eq_some_iff] at h
  obtain ⟨r, hr, h⟩ := h
  rw [follow_cons, Option.bind_eq_some_iff] at h
  obtain ⟨_, hk, he⟩ := h
  cases he
  exact ⟨r, hr, hk⟩

theorem suffix_of_follow {before : Point → List TokenKind} {kinds : List TokenKind} {q : Point}
    (hstart : before start = [])
    (hstep : ∀ {p k q}, next? p k = some q → before q <:+ before p ++ [k])
    (h : start.follow kinds = some q) : before q <:+ kinds := by
  -- From the right, since the invariant is about what stands directly before a point.
  induction kinds using List.reverseRecOn generalizing q with
  | nil =>
    cases h
    rw [hstart]
  | append_singleton kinds k ih =>
    obtain ⟨p, hp, hk⟩ := exists_of_follow_append_singleton h
    obtain ⟨front, hfront⟩ := ih hp
    rw [← hfront, List.append_assoc]
    exact (hstep hk).trans (List.suffix_append _ _)

theorem append_mem_rest (p : Point) (kinds w : List TokenKind) :
    kinds ++ w ∈ p.rest ↔ ∃ q, p.follow kinds = some q ∧ w ∈ q.rest := by
  induction kinds generalizing p with
  | nil => simp
  | cons k kinds ih =>
    rw [List.cons_append, cons_mem_rest, follow_cons]
    simp only [Option.bind_eq_some_iff, ih]
    constructor
    · intro h
      obtain ⟨q, hq, r, hr, hw⟩ := h
      exact ⟨r, ⟨q, hq, hr⟩, hw⟩
    · intro h
      obtain ⟨r, ⟨q, hq, hr⟩, hw⟩ := h
      exact ⟨q, hq, r, hr, hw⟩

theorem nil_mem_rest {p : Point} : [] ∈ p.rest ↔ p.isEnd = true := by
  have module_rest : [] ∈ Zone.module.rest := Language.nil_mem_kstar _
  have body_rest : [] ∉ Zone.body.rest := by
    simp [Zone.rest, Grammar.varDecl, Grammar.block, nil_mem_mul, nil_notMem_word]
  have groups (z : Zone) : [] ∈ z.groups ↔ [] ∈ z.rest := by
    simp [Zone.groups, nil_mem_mul, Language.nil_mem_kstar]
  cases p with
  | declarations z => cases z <;> simp [rest, isEnd, module_rest, body_rest]
  | group z => cases z <;> simp [rest, isEnd, groups, module_rest, body_rest]
  | statements => simp [rest, isEnd, Grammar.statements, nil_mem_mul, nil_notMem_word]
  | _ => simp [rest, isEnd, nil_mem_mul, nil_notMem_word, Grammar.nil_notMem_expr]

/-- The shortest way to an end of the module. -/
def ending : Point → List TokenKind
  | .declarations .module => []
  | .varKeyword .module => [.identifier, .colon, .identifier, .semicolon]
  | .varName .module => [.colon, .identifier, .semicolon]
  | .varColon .module => [.identifier, .semicolon]
  | .varType .module => [.semicolon]
  | .group .module => []
  | .procKeyword => [.identifier, .leftParen, .rightParen, .colon, .identifier, .leftBrace,
      .rightBrace]
  | .procName => [.leftParen, .rightParen, .colon, .identifier, .leftBrace, .rightBrace]
  | .procLeftParen => [.rightParen, .colon, .identifier, .leftBrace, .rightBrace]
  | .procRightParen => [.colon, .identifier, .leftBrace, .rightBrace]
  | .procColon => [.identifier, .leftBrace, .rightBrace]
  | .declarations .body => [.leftBrace, .rightBrace]
  | .varKeyword .body => [.identifier, .colon, .identifier, .semicolon, .leftBrace, .rightBrace]
  | .varName .body => [.colon, .identifier, .semicolon, .leftBrace, .rightBrace]
  | .varColon .body => [.identifier, .semicolon, .leftBrace, .rightBrace]
  | .varType .body => [.semicolon, .leftBrace, .rightBrace]
  | .group .body => [.leftBrace, .rightBrace]
  | .statements => [.rightBrace]
  | .leftOperand => [.equals, .identifier, .semicolon, .rightBrace]
  | .equals => [.identifier, .semicolon, .rightBrace]
  | .rightOperand => [.semicolon, .rightBrace]
  | .exportsKeyword => [.identifier, .semicolon]
  | .exportsName => [.semicolon]

theorem ending_mem_rest (p : Point) : p.ending ∈ p.rest := by
  have reaches : ∃ q, p.follow p.ending = some q ∧ q.isEnd = true := by
    rcases p with (_ | _) | (_ | _) | (_ | _) | (_ | _) | (_ | _) | (_ | _) | _ <;>
      exact ⟨_, rfl, rfl⟩
  obtain ⟨q, hq, hend⟩ := reaches
  have hw := (append_mem_rest p p.ending []).mpr ⟨q, hq, nil_mem_rest.mpr hend⟩
  rwa [List.append_nil] at hw

theorem next?_eof (p : Point) : p.next? .eof = none := by
  rcases p with (_ | _) | _ | _ | _ | _ | (_ | _) | _ <;> rfl

end Point

namespace Grammar

theorem mem_module_iff {w : List TokenKind} :
    w ∈ module ↔ ∃ q, Point.start.follow w = some q ∧ q.isEnd = true := by
  have h := Point.append_mem_rest .start w []
  simp only [List.append_nil, Point.nil_mem_rest] at h
  exact h

theorem exists_append_mem_module {kinds : List TokenKind} :
    (∃ w, kinds ++ w ∈ module) ↔ ∃ q, Point.start.follow kinds = some q := by
  constructor
  · intro h
    obtain ⟨w, hw⟩ := h
    obtain ⟨q, hq, -⟩ := (Point.append_mem_rest .start _ _).mp hw
    exact ⟨q, hq⟩
  · intro h
    obtain ⟨q, hq⟩ := h
    exact ⟨q.ending, (Point.append_mem_rest .start _ _).mpr ⟨q, hq, q.ending_mem_rest⟩⟩

theorem viable_of_follow {kinds : List TokenKind} {q : Point}
    (h : Point.start.follow kinds = some q) : Viable kinds := by
  obtain ⟨w, hw⟩ := exists_append_mem_module.mpr ⟨q, h⟩
  refine ⟨kinds ++ w, hw, ?_⟩
  rw [List.append_assoc]
  exact List.prefix_append _ _

theorem eof_notMem {w : List TokenKind} (hw : w ∈ module) : .eof ∉ w := by
  intro h
  obtain ⟨before, after, rfl⟩ := List.append_of_mem h
  obtain ⟨q, -, hq⟩ := (Point.append_mem_rest .start _ _).mp hw
  obtain ⟨r, hr, -⟩ := Point.cons_mem_rest.mp hq
  simp [Point.next?_eof] at hr

/-- What may follow is told by the point that the kinds so far lead to. -/
theorem viable_append_iff {kinds : List TokenKind} {k : TokenKind} :
    Viable (kinds ++ [k]) ↔ ∃ q, Point.start.follow kinds = some q ∧ q.admits k = true := by
  constructor
  · intro h
    obtain ⟨w, hw, hp⟩ := h
    rcases List.prefix_concat_iff.mp hp with he | ⟨v, rfl⟩
    · obtain ⟨rfl, hk⟩ := List.append_inj' he rfl
      obtain rfl : k = .eof := List.singleton_inj.mp hk
      obtain ⟨q, hq, hend⟩ := mem_module_iff.mp hw
      exact ⟨q, hq, hend⟩
    · have hk : k ≠ .eof := fun h => eof_notMem hw (by simp [h])
      rw [List.append_assoc] at hw
      obtain ⟨q, hq, hv⟩ := (Point.append_mem_rest .start _ _).mp hw
      obtain ⟨r, hr, -⟩ := Point.cons_mem_rest.mp hv
      exact ⟨q, hq, by simp [Point.admits, hk, hr]⟩
  · intro h
    obtain ⟨q, hq, hk⟩ := h
    by_cases he : k = .eof
    · subst he
      exact ⟨kinds, mem_module_iff.mpr ⟨q, hq, hk⟩, List.prefix_rfl⟩
    · simp only [Point.admits, he, if_false, Option.isSome_iff_exists] at hk
      obtain ⟨r, hr⟩ := hk
      apply viable_of_follow (q := r)
      rw [Point.follow_append, hq]
      simp [Point.follow_cons, hr]

end Grammar

end ProcLang
