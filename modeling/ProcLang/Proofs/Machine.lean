import ProcLang.Program.Event
import ProcLang.Source.Reading
import ProcLang.Proofs.Place

/-! A machine that takes one token at a time, and all that it knows of the tokens before is its
state. A token that may follow at the present place is consumed only after the token behind it has
been scanned, and that token is checked only after the first has been consumed. So where several
things are wrong, an error of scanning comes before an unresolved type name just before it, and that
before a token that may not follow. -/

namespace ProcLang

structure ParseState where
  place : Place
  scopes : ScopeStack
  nextId : NodeId
  module : Module

abbrev Consumption := Except ParseError (Logged ParseState)

namespace ParseState

def initial (name : String) : ParseState :=
  ⟨.declarations .module, .initial, 0, .new name⟩

def goto (s : ParseState) (place : Place) : Consumption := .ok ⟨[], { s with place := place }⟩

/-- Give a number to a name and bind it in the innermost scope. -/
def introduce (s : ParseState) (name : String) (binding : NodeId → Binding) : ParseState :=
  { s with nextId := s.nextId + 1, scopes := s.scopes.declare name (binding s.nextId) }

def resolve (s : ParseState) (name : String) (location : Location) : Except ParseError TypeName :=
  match s.scopes.lookup name with
  | some (.type t) => .ok t
  | some _ => .error (.ofTypeFault name location .notAType)
  | none => .error (.ofTypeFault name location .unknown)

def operand? (id : NodeId) (t : Token) : Option Expr :=
  match t.terminal with
  | .identifier name => some (.ref id name t.location)
  | .intLiteral value => some (.const id value t.location)
  | _ => none

/-- The first token of a declaration in a region, or of the block that ends a body's declarations.
-/
def declaration? (s : ParseState) (r : Region) (t : Token) : Option Consumption :=
  match t.terminal, r with
  | .var, r => some (s.goto (.varKeyword r))
  | .proc, .module => some (s.goto (.procKeyword t.location))
  | .exports, .module => some (s.goto .exportsKeyword)
  | .leftBrace, .body p =>
    some ({ s with nextId := s.nextId + 1 }.goto (.statements p ⟨s.nextId, t.location, []⟩))
  | _, _ => none

def nameVar (s : ParseState) (r : Region) (name : String) (location : Location) : Consumption :=
  (s.introduce name .var).goto (.varName r ⟨s.nextId, name, location⟩)

def addVar (s : ParseState) (r : Region) (v : Var) : Consumption :=
  match r with
  | .module => .ok ⟨[.declaredVar v],
      { s with place := .group .module, module.vars := s.module.vars ++ [v] }⟩
  | .body p => .ok ⟨[.declaredVar v],
      { s with place := .group (.body { p with locals := p.locals ++ [v] }) }⟩

/-- Open the scope of a procedure's body, once its return type is known. -/
def enterBody (s : ParseState) (h : Heading) (returnType : TypeName) : Consumption :=
  .ok <| s.scopes.enter.map fun scopes =>
    { s with scopes := scopes, place := .declarations (.body ⟨h, returnType, []⟩) }

/-- Close the scope of a complete body and add its procedure. -/
def leaveBody (s : ParseState) (p : OpenProc) (b : OpenBlock) : Consumption :=
  let proc : Proc :=
    { id := p.heading.id
      name := p.heading.name
      params := []
      locals := p.locals
      returnType := p.returnType
      body := ⟨b.id, b.statements, b.location⟩
      location := p.heading.location }
  match s.scopes.leave with
  | .error e => .error (.internal e)
  | .ok ⟨events, (_, scopes)⟩ => .ok ⟨events ++ [.declaredProc proc],
      { s with
        scopes := scopes
        place := .declarations .module
        module.procs := s.module.procs ++ [proc] }⟩

/-- What consuming a token does, or nothing where the token may not follow. -/
def consume? (s : ParseState) (t : Token) : Option Consumption :=
  match s.place, t.terminal with
  | .declarations r, _ => s.declaration? r t
  | .varKeyword r, .identifier name => some (s.nameVar r name t.location)
  | .varName r h, .colon => some (s.goto (.varColon r h))
  | .varColon r h, .identifier name => some do
      let type ← s.resolve name t.location
      s.goto (.varType r ⟨h.id, h.name, type, h.location⟩)
  | .varType r v, .semicolon => some (s.addVar r v)
  | .group r, .identifier name => some (s.nameVar r name t.location)
  | .group r, _ => s.declaration? r t
  | .procKeyword l, .identifier name =>
    some ((s.introduce name .proc).goto (.procName ⟨s.nextId, name, l⟩))
  | .procName h, .leftParen => some (s.goto (.procLeftParen h))
  | .procLeftParen h, .rightParen => some (s.goto (.procRightParen h))
  | .procRightParen h, .colon => some (s.goto (.procColon h))
  | .procColon h, .identifier name => some do
      let returnType ← s.resolve name t.location
      s.enterBody h returnType
  | .statements p b, .rightBrace => some (s.leaveBody p b)
  | .statements p b, _ =>
    (operand? (s.nextId + 1) t).map fun lhs =>
      { s with nextId := s.nextId + 2 }.goto (.leftOperand p b s.nextId lhs)
  | .leftOperand p b id lhs, .equals => some (s.goto (.equals p b id lhs))
  | .equals p b id lhs, _ =>
    (operand? s.nextId t).map fun rhs =>
      { s with nextId := s.nextId + 1 }.goto (.rightOperand p b ⟨id, lhs, rhs, lhs.location⟩)
  | .rightOperand p b a, .semicolon =>
    some (s.goto (.statements p { b with statements := b.statements ++ [a] }))
  | .exportsKeyword, .identifier name => some (s.goto (.exportsName name))
  | .exportsName name, .semicolon => some (.ok ⟨[.exported name],
      { s with
        place := .declarations .module
        module.exports := s.module.exports ++ [name] }⟩)
  | _, _ => none

/-- Give up with an error. The scope of a body that has begun is closed, and if there is none to
close, that is the error. -/
def abandon (s : ParseState) (e : ParseError) : Logged (Except ParseError Module) :=
  match s.place.region with
  | .module => ⟨[], .error e⟩
  | .body _ => match s.scopes.leave with
    | .ok left => ⟨left.events, .error e⟩
    | .error fault => ⟨[], .error (.internal fault)⟩

/-- Parse what is left of a reading whose first answer has been scanned. -/
def run (s : ParseState) : Reading → Logged (Except ParseError Module)
  | .failed e => s.abandon (.lexical e)
  | .eof l =>
    if s.place.isEnd then ⟨[.parsed s.module], .ok s.module⟩
    else s.abandon (.unexpected s.place.expected .eof l)
  | .token t rest =>
    match s.consume? t with
    | none => s.abandon (.unexpected s.place.expected t.kind t.location)
    | some consumption => .after [.scanned rest.head] <|
      match rest.head with
      | .failed e => s.abandon (.lexical e)
      | _ => .after [.consumed (.token t)] <|
        match consumption with
        | .error e => s.abandon e
        | .ok ⟨events, s'⟩ => .after events (s'.run rest)

end ParseState

end ProcLang
