import ProcLang.Program.Event

/-! A parser pulls one token at a time from its scanner and keeps one that it has not taken. Its
stages change it as they go, also where they fail, and a stage that repeats another as long as the
token ahead says so may go on forever. -/

namespace ProcLang

structure Parser where
  scanner : Scanner
  current : Lookahead
  scopes : ScopeStack
  tree : Module
  nextId : NodeId

namespace Parser

def check (p : Parser) (k : TokenKind) : Bool := p.current.kind = k

/-- The parser of a source, unless its first token cannot be scanned. -/
def start (name : String) (source : Bytes) : Logged (Except ParseError Parser) :=
  let (answer, scanner) := (Scanner.ofSource source).next
  ⟨[.scanned answer],
    match answer.lookahead with
    | .ok current => .ok ⟨scanner, current, .initial, .new name, 0⟩
    | .error e => .error (.lexical e)⟩

end Parser

/-- What comes of a stage, with the parsers that asked for a token in its course. -/
structure Outcome (α : Type) where
  events : List Event
  asked : List Parser
  parser : Parser
  value : Except ParseError α

namespace Outcome

variable {α β : Type}

def followedBy (o : Outcome α) (later : Outcome β) : Outcome β :=
  ⟨o.events ++ later.events, o.asked ++ later.asked, later.parser, later.value⟩

def map (f : α → β) (o : Outcome α) : Outcome β := { o with value := o.value.map f }

def taken (o : Outcome α) : List Token := o.events.filterMap Event.consumed?

end Outcome

/-- A stage of parsing. There is no outcome where it does not come to an end. -/
def Parsing (α : Type) := Parser → Option (Outcome α)

namespace Parsing

variable {α β : Type}

def ofExcept (value : Except ParseError α) : Parsing α := fun p => some ⟨[], [], p, value⟩

def fail (e : ParseError) : Parsing α := ofExcept (.error e)

/-- Go on with a value, or stop with an error. -/
def andThen (value : Except ParseError α) (f : α → Parsing β) : Parsing β :=
  match value with
  | .ok a => f a
  | .error e => fail e

instance : Monad Parsing where
  pure a := ofExcept (.ok a)
  bind x f p := (x p).bind fun o => (andThen o.value f o.parser).map o.followedBy

def attempt (x : Parsing α) : Parsing (Except ParseError α) := fun p =>
  (x p).map fun o => ⟨o.events, o.asked, o.parser, .ok o.value⟩

section

variable (goesOn : Parser → Bool) (x : Parsing α)

/-- Go through a stage again and again as long as the parser is as told. -/
def rounds (p : Parser) : Option (Outcome (List α)) :=
  if goesOn p then do
    let o ← x p
    match o.value with
    | .ok a =>
      let later : Outcome (List α) ← by
        apply rounds
        exact o.parser
      return o.followedBy (later.map (a :: ·))
    | .error e => return o.followedBy ⟨[], [], o.parser, .error e⟩
  else return ⟨[], [], p, .ok []⟩
partial_fixpoint

end

def repeatWhile (goesOn : Parser → Bool) (x : Parsing α) : Parsing (List α) := rounds goesOn x

def get : Parsing Parser := fun p => some ⟨[], [], p, .ok p⟩

def modify (f : Parser → Parser) : Parsing Unit := fun p => some ⟨[], [], f p, .ok ()⟩

def tell (e : Event) : Parsing Unit := fun p => some ⟨[e], [], p, .ok ()⟩

/-- Take what is ahead, once what is behind it has been pulled. -/
def advance : Parsing Lookahead := fun p =>
  let (answer, scanner) := p.scanner.next
  match answer.lookahead with
  | .ok next => some ⟨[.scanned answer, .consumed p.current], [p],
      { p with scanner := scanner, current := next }, .ok p.current⟩
  | .error e => some ⟨[.scanned answer], [p], { p with scanner := scanner }, .error (.lexical e)⟩

def unexpected (expected : List TokenKind) (found : Lookahead) : Parsing α :=
  fail (.unexpected expected found.kind found.location)

def expect (k : TokenKind) : Parsing Lookahead := do
  let p ← get
  if p.check k then advance else unexpected [k] p.current

def expectIdentifier : Parsing (String × Location) := do
  let p ← get
  if p.check .identifier then
    match ← advance with
    | .token ⟨.identifier name, l⟩ => return (name, l)
    | other => unexpected [.identifier] other
  else unexpected [.identifier] p.current

def newId : Parsing NodeId := fun p =>
  some ⟨[], [], { p with nextId := p.nextId + 1 }, .ok p.nextId⟩

def declare (name : String) (b : Binding) : Parsing Unit :=
  modify fun p => { p with scopes := p.scopes.declare name b }

def openScope : Parsing Unit := fun p =>
  let entered := p.scopes.enter
  some ⟨entered.events, [], { p with scopes := entered.value }, .ok ()⟩

def closeScope : Parsing Scope := fun p =>
  match p.scopes.leave with
  | .ok ⟨events, (top, below)⟩ => some ⟨events, [], { p with scopes := below }, .ok top⟩
  | .error e => fail (.internal e) p

/-- Close a scope behind a stage, whatever comes of it. -/
def closing (x : Parsing α) : Parsing α := do
  let value ← attempt x
  let _ ← closeScope
  ofExcept value

/-- Read a type name and resolve it in the open scopes. -/
def typeName : Parsing TypeName := do
  let (name, l) ← expectIdentifier
  match (← get).scopes.lookup name with
  | some (.type t) => return t
  | some _ => fail (.ofTypeFault name l .notAType)
  | none => fail (.ofTypeFault name l .unknown)

end Parsing

end ProcLang
