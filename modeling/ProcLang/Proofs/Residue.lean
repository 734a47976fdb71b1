import Mathlib.Tactic.Conv
import ProcLang.Proofs.Place
import ProcLang.Proofs.Stage

/-! # What is left of a parse

At each place something is left of the parser's stages, and before the next token is asked for, it
is told from what is ahead which of them that is. -/
namespace ProcLang

namespace Parsing

def finishVars (vars : List Var) : Parsing Module := do
  modify fun p => { p with tree.vars := p.tree.vars ++ vars }
  module

def finishProc (h : Heading) (returnType : TypeName) (parts : List Var × Block) :
    Parsing Module := do
  let p : Proc := ⟨h.id, h.name, [], parts.1, returnType, parts.2, h.location⟩
  tell (.declaredProc p)
  modify fun q => { q with tree.procs := q.tree.procs ++ [p] }
  module

def inBody (p : OpenProc) (x : Parsing (List Var × Block)) : Parsing Module :=
  closing x >>= finishProc p.heading p.returnType

/-- What is left of a body in which variables have been declared. -/
def bodyRest (locals : List Var) : Parsing (List Var × Block) := do
  let more ← repeatWhile (·.check .var) varDeclaration
  let p ← get
  if p.check .leftBrace then
    let block ← block
    return (locals ++ more.flatten, block)
  else unexpected [.var, .leftBrace] p.current

/-- What is left of a body whose block has begun. -/
def blockRest (locals : List Var) (b : OpenBlock) : Parsing (List Var × Block) := do
  let more ← repeatWhile (!·.check .rightBrace) statement
  let _ ← expect .rightBrace
  return (locals, ⟨b.id, b.statements ++ more, b.location⟩)

variable {α : Type}

def groupRest (h : Heading) (next : List Var → Parsing α) : Parsing α := do
  let _ ← expect .colon
  let type ← typeName
  let _ ← expect .semicolon
  tell (.declaredVar ⟨h.id, h.name, type, h.location⟩)
  let more ← groups
  next (⟨h.id, h.name, type, h.location⟩ :: more)

end Parsing

open Parsing

/-- What reads the variables of a region stands before what the region goes on with. -/
def Region.within (r : Region) (held : List Var)
    (x : {α : Type} → (List Var → Parsing α) → Parsing α) : Parsing Module :=
  match r with
  | .module => x fun vars => finishVars (held ++ vars)
  | .body p => inBody p (x fun vars => bodyRest (p.locals ++ vars))

/-- What is left of a parse at a place. The module's variables that are held have been declared and
are not in the tree yet. -/
def Place.resume (held : List Var) : Place → Parsing Module
  | .declarations .module => module
  | .declarations (.body p) => inBody p (bodyRest p.locals)
  | .varKeyword r => r.within held fun next => do
    let p ← get
    if p.check .identifier then groups >>= next else unexpected [.identifier] p.current
  | .varName r h => r.within held (groupRest h)
  | .varColon r h => r.within held fun next => do
    let type ← typeName
    let _ ← expect .semicolon
    tell (.declaredVar ⟨h.id, h.name, type, h.location⟩)
    let more ← groups
    next (⟨h.id, h.name, type, h.location⟩ :: more)
  | .varType r v => r.within held fun next => do
    let _ ← expect .semicolon
    tell (.declaredVar v)
    let more ← groups
    next (v :: more)
  | .group r => r.within held fun next => groups >>= next
  | .procKeyword l => do
    let (name, _) ← expectIdentifier
    let id ← newId
    declare name (.proc id)
    let _ ← expect .leftParen
    let _ ← expect .rightParen
    let _ ← expect .colon
    let returnType ← typeName
    openScope
    inBody ⟨⟨id, name, l⟩, returnType, []⟩ body
  | .procName h => do
    let _ ← expect .leftParen
    let _ ← expect .rightParen
    let _ ← expect .colon
    let returnType ← typeName
    openScope
    inBody ⟨h, returnType, []⟩ body
  | .procLeftParen h => do
    let _ ← expect .rightParen
    let _ ← expect .colon
    let returnType ← typeName
    openScope
    inBody ⟨h, returnType, []⟩ body
  | .procRightParen h => do
    let _ ← expect .colon
    let returnType ← typeName
    openScope
    inBody ⟨h, returnType, []⟩ body
  | .procColon h => do
    let returnType ← typeName
    openScope
    inBody ⟨h, returnType, []⟩ body
  | .statements p b => inBody p (blockRest p.locals b)
  | .leftOperand p b id lhs => inBody p do
    let _ ← expect .equals
    let rhs ← expression
    let _ ← expect .semicolon
    blockRest p.locals { b with statements := b.statements ++ [⟨id, lhs, rhs, lhs.location⟩] }
  | .equals p b id lhs => inBody p do
    let rhs ← expression
    let _ ← expect .semicolon
    blockRest p.locals { b with statements := b.statements ++ [⟨id, lhs, rhs, lhs.location⟩] }
  | .rightOperand p b a => inBody p do
    let _ ← expect .semicolon
    blockRest p.locals { b with statements := b.statements ++ [a] }
  | .exportsKeyword => do
    let (name, _) ← expectIdentifier
    let _ ← expect .semicolon
    tell (.exported name)
    modify fun p => { p with tree.exports := p.tree.exports ++ [name] }
    module
  | .exportsName name => do
    let _ ← expect .semicolon
    tell (.exported name)
    modify fun p => { p with tree.exports := p.tree.exports ++ [name] }
    module

/-- Variables are held only within a declaration of the module. -/
def Place.holds : Place → Bool
  | .varKeyword r => r = .module
  | .varName r _ => r = .module
  | .varColon r _ => r = .module
  | .varType r _ => r = .module
  | .group r => r = .module
  | _ => false

def Region.giveUp : Region → ParseError → Parsing Module
  | .module, e => fail e
  | .body _, e => closeScope >>= fun _ => fail e

namespace Parsing

variable {α : Type} {p : Parser} {k : TokenKind}

theorem module_eq : module = get >>= fun p =>
    if !p.check .eof then item >>= fun _ => module
    else get >>= fun p => tell (.parsed p.tree) >>= fun _ => pure p.tree := by
  conv_lhs => rw [module, repeatWhile_eq, bind_assoc]
  congr 1
  funext p
  split
  · simp only [bind_assoc, pure_bind]
    rfl
  · exact pure_bind _ _

theorem groups_bind (next : List Var → Parsing α) : groups >>= next = get >>= fun p =>
    if p.check .identifier then group >>= fun v => groups >>= fun vs => next (v :: vs)
    else next [] := by
  conv_lhs => rw [groups, repeatWhile_eq, bind_assoc]
  congr 1
  funext p
  split
  · simp only [bind_assoc, pure_bind]
    rfl
  · exact pure_bind _ _

theorem steps_groups (next : List Var → Parsing α) (p : Parser) : Steps (groups >>= next) p [] []
    (if p.check .identifier then group >>= fun v => groups >>= fun vs => next (v :: vs)
      else next []) p := by
  rw [groups_bind]
  exact .of_done (x := get) rfl _

theorem bodyRest_eq (locals : List Var) : bodyRest locals = get >>= fun p =>
    if p.check .var then varDeclaration >>= fun vars => bodyRest (locals ++ vars)
    else get >>= fun p =>
      if p.check .leftBrace then block >>= fun b => pure (locals, b)
      else unexpected [.var, .leftBrace] p.current := by
  rw [bodyRest, repeatWhile_eq, bind_assoc]
  congr 1
  funext p
  split
  · simp only [bind_assoc, pure_bind, List.flatten_cons, ← List.append_assoc]
    rfl
  · rw [pure_bind, List.flatten_nil, List.append_nil]

theorem blockRest_eq (locals : List Var) (b : OpenBlock) : blockRest locals b = get >>= fun p =>
    if !p.check .rightBrace then
      statement >>= fun a => blockRest locals { b with statements := b.statements ++ [a] }
    else expect .rightBrace >>= fun _ => pure (locals, ⟨b.id, b.statements, b.location⟩) := by
  rw [blockRest, repeatWhile_eq, bind_assoc]
  congr 1
  funext p
  split
  · simp only [bind_assoc, pure_bind, blockRest, List.append_assoc, List.singleton_append]
  · rw [pure_bind, List.append_nil]

theorem steps_item : p.current.kind = k → Steps item p [] [] (match k with
    | .var => varDeclaration >>= fun vars =>
      modify fun p => { p with tree.vars := p.tree.vars ++ vars }
    | .proc => procedure >>= fun proc =>
      modify fun p => { p with tree.procs := p.tree.procs ++ [proc] }
    | .exports => exportName
    | _ => unexpected [.var, .proc, .exports, .eof] p.current) p := by
  rintro rfl
  exact .of_done (x := get) rfl _

theorem varDeclaration_bind (next : List Var → Parsing α) :
    varDeclaration >>= next = expect .var >>= fun _ => get >>= fun p =>
      if p.check .identifier then groups >>= next
      else unexpected [.identifier] p.current := by
  simp only [varDeclaration, bind_assoc]
  congr 2
  funext _
  congr 1
  funext p
  split <;> rfl

theorem group_bind (next : Var → Parsing α) :
    group >>= next = expectIdentifier >>= fun x => newId >>= fun id =>
      declare x.1 (.var id) >>= fun _ => expect .colon >>= fun _ => typeName >>= fun type =>
      expect .semicolon >>= fun _ => tell (.declaredVar ⟨id, x.1, type, x.2⟩) >>= fun _ =>
      next ⟨id, x.1, type, x.2⟩ := by
  simp only [group, bind_assoc, pure_bind]

theorem procedure_bind (next : Proc → Parsing α) :
    procedure >>= next = expect .proc >>= fun ahead => expectIdentifier >>= fun x =>
      newId >>= fun id => declare x.1 (.proc id) >>= fun _ => expect .leftParen >>= fun _ =>
      expect .rightParen >>= fun _ => expect .colon >>= fun _ => typeName >>= fun returnType =>
      openScope >>= fun _ => closing body >>= fun parts =>
      tell (.declaredProc ⟨id, x.1, [], parts.1, returnType, parts.2, ahead.location⟩) >>= fun _ =>
      next ⟨id, x.1, [], parts.1, returnType, parts.2, ahead.location⟩ := by
  simp only [procedure, bind_assoc, pure_bind]

theorem block_bind (next : Block → Parsing α) :
    block >>= next = expect .leftBrace >>= fun brace => newId >>= fun id =>
      repeatWhile (!·.check .rightBrace) statement >>= fun statements =>
      expect .rightBrace >>= fun _ => next ⟨id, statements, brace.location⟩ := by
  simp only [block, bind_assoc, pure_bind]

theorem statement_bind (next : Assignment → Parsing α) :
    statement >>= next = get >>= fun p => newId >>= fun id => expression >>= fun lhs =>
      expect .equals >>= fun _ => expression >>= fun rhs => expect .semicolon >>= fun _ =>
      next ⟨id, lhs, rhs, p.current.location⟩ := by
  simp only [statement, assignment, bind_assoc, pure_bind]

theorem closeScope_of_ok {top : Scope} {below : ScopeStack} {events : List Event}
    (h : p.scopes.leave = .ok ⟨events, (top, below)⟩) :
    closeScope p = some ⟨events, [], { p with scopes := below }, .ok top⟩ := by
  rw [closeScope, h]

theorem closeScope_of_error {e : ScopeError} (h : p.scopes.leave = .error e) :
    closeScope p = some ⟨[], [], p, .error (.internal e)⟩ := by
  rw [closeScope, h]
  rfl

theorem closing_pure_bind {β : Type} (a : α) (f : α → Parsing β) :
    closing (pure a) >>= f = closeScope >>= fun _ => f a := by
  have hattempt : attempt (pure a : Parsing α) = pure (.ok a) := rfl
  rw [closing, hattempt, pure_bind, bind_assoc]
  congr 1
  funext _
  exact pure_bind a f

end Parsing

theorem context_module : Context Region.module.giveUp fun x : Parsing Module => x := context_id

theorem context_inBody (p : OpenProc) : Context (Region.body p).giveUp (inBody p) :=
  context_closing _

theorem Region.exists_context (r : Region) (held : List Var) :
    ∃ (α : Type) (y : Parsing α → Parsing Module) (next : List Var → Parsing α),
      Context r.giveUp y ∧ ∀ x : {β : Type} → (List Var → Parsing β) → Parsing β,
        r.within held x = y (x next) := by
  cases r with
  | module => exact ⟨_, _, fun vars => finishVars (held ++ vars), context_module, fun _ => rfl⟩
  | body p => exact ⟨_, inBody p, fun vars => bodyRest (p.locals ++ vars), context_inBody p,
      fun _ => rfl⟩

end ProcLang
