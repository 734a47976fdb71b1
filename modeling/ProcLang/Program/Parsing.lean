import ProcLang.Program.Parser
import ProcLang.Source.Reading

/-! The stages of parsing, one for each production of the grammar

    module      = { variables | procedure | export }
    variables   = "var" group { group }
    group       = name ":" name ";"
    procedure   = "proc" name "(" ")" ":" name body
    body        = { variables } "{" { statement } "}"
    statement   = operand "=" operand ";"
    export      = "exports" name ";"
    operand     = name | integer literal

A repetition goes on as long as the token ahead is of the right kind. Each round of it takes a token
or fails, so a parse comes to an end. -/

namespace ProcLang

namespace Parsing

def expression : Parsing Expr := do
  let p ← get
  if p.check .identifier || p.check .intLiteral then
    let id ← newId
    match ← advance with
    | .token ⟨.identifier name, l⟩ => return .ref id name l
    | .token ⟨.intLiteral value, l⟩ => return .const id value l
    | other => unexpected [.identifier, .intLiteral] other
  else unexpected [.identifier, .intLiteral] p.current

def assignment : Parsing Assignment := do
  let location := (← get).current.location
  let id ← newId
  let lhs ← expression
  let _ ← expect .equals
  let rhs ← expression
  return ⟨id, lhs, rhs, location⟩

def statement : Parsing Assignment := do
  let a ← assignment
  let _ ← expect .semicolon
  return a

def block : Parsing Block := do
  let brace ← expect .leftBrace
  let id ← newId
  let statements ← repeatWhile (!·.check .rightBrace) statement
  let _ ← expect .rightBrace
  return ⟨id, statements, brace.location⟩

/-- A name is bound as soon as it is read, before its type is resolved. -/
def group : Parsing Var := do
  let (name, location) ← expectIdentifier
  let id ← newId
  declare name (.var id)
  let _ ← expect .colon
  let type ← typeName
  let _ ← expect .semicolon
  tell (.declaredVar ⟨id, name, type, location⟩)
  return ⟨id, name, type, location⟩

def groups : Parsing (List Var) := repeatWhile (·.check .identifier) group

def varDeclaration : Parsing (List Var) := do
  let _ ← expect .var
  let p ← get
  if p.check .identifier then groups else unexpected [.identifier] p.current

def body : Parsing (List Var × Block) := do
  let locals ← repeatWhile (·.check .var) varDeclaration
  let p ← get
  if p.check .leftBrace then
    let block ← block
    return (locals.flatten, block)
  else unexpected [.var, .leftBrace] p.current

/-- The name of a procedure is bound outside of it, so that its body can refer to it. -/
def procedure : Parsing Proc := do
  let location := (← expect .proc).location
  let (name, _) ← expectIdentifier
  let id ← newId
  declare name (.proc id)
  let _ ← expect .leftParen
  let _ ← expect .rightParen
  let _ ← expect .colon
  let returnType ← typeName
  openScope
  let (locals, body) ← closing body
  let p : Proc := ⟨id, name, [], locals, returnType, body, location⟩
  tell (.declaredProc p)
  return p

/-- What is exported need not be declared. -/
def exportName : Parsing Unit := do
  let _ ← expect .exports
  let (name, _) ← expectIdentifier
  let _ ← expect .semicolon
  tell (.exported name)
  modify fun p => { p with tree.exports := p.tree.exports ++ [name] }

def item : Parsing Unit := do
  let p ← get
  match p.current.kind with
  | .var =>
    let vars ← varDeclaration
    modify fun p => { p with tree.vars := p.tree.vars ++ vars }
  | .proc =>
    let proc ← procedure
    modify fun p => { p with tree.procs := p.tree.procs ++ [proc] }
  | .exports => exportName
  | _ => unexpected [.var, .proc, .exports, .eof] p.current

def module : Parsing Module := do
  let _ ← repeatWhile (!·.check .eof) item
  let m := (← get).tree
  tell (.parsed m)
  return m

end Parsing

def Lookahead.size : Lookahead → Nat
  | .token _ => 1
  | .eof _ => 0

/-- How many tokens can still be taken at most. -/
def Parser.left (p : Parser) : Nat := p.current.size + p.scanner.rest.length

/-- From a parser a stage comes to an end, and takes so many tokens unless it fails. -/
def Parsing.Takes {α : Type} (n : Nat) (x : Parsing α) (p : Parser) : Prop :=
  ∃ o, x p = some o ∧ o.parser.left + o.taken.length ≤ p.left ∧
    (n ≤ o.taken.length ∨ ∃ e, o.value = .error e)

namespace Parsing

variable {α β : Type} {m n : Nat} {p : Parser}

theorem bind_of_silent {x : Parsing α} {f : α → Parsing β} {q : Parser} {a : α}
    (h : x p = some ⟨[], [], q, .ok a⟩) : (x >>= f) p = f a q := by
  change (x p).bind _ = _
  rw [h]
  change (f a q).map (Outcome.followedBy ⟨[], [], q, .ok a⟩) = f a q
  cases f a q <;> rfl

theorem get_bind (f : Parser → Parsing β) (p : Parser) : (get >>= f) p = f p p :=
  bind_of_silent rfl

theorem takes_ofExcept (value : Except ParseError α) (p : Parser) : Takes 0 (ofExcept value) p :=
  ⟨_, rfl, Nat.le_refl _, .inl (Nat.zero_le _)⟩

theorem takes_pure (a : α) (p : Parser) : Takes 0 (pure a : Parsing α) p := takes_ofExcept _ p

theorem takes_fail (n : Nat) (e : ParseError) (p : Parser) : Takes n (fail e : Parsing α) p :=
  ⟨_, rfl, Nat.le_refl _, .inr ⟨e, rfl⟩⟩

theorem takes_modify {f : Parser → Parser} (h : (f p).left = p.left) : Takes 0 (modify f) p :=
  ⟨_, rfl, Nat.le_of_eq h, .inl (Nat.zero_le _)⟩

theorem takes_declare (name : String) (b : Binding) (p : Parser) : Takes 0 (declare name b) p :=
  takes_modify rfl

theorem takes_newId (p : Parser) : Takes 0 newId p :=
  ⟨_, rfl, Nat.le_refl _, .inl (Nat.zero_le _)⟩

theorem takes_tell {e : Event} (h : e.consumed? = none) (p : Parser) : Takes 0 (tell e) p := by
  refine ⟨_, rfl, ?_, .inl (Nat.zero_le _)⟩
  simp [Outcome.taken, h]

theorem takes_openScope (p : Parser) : Takes 0 openScope p :=
  ⟨_, rfl, Nat.le_refl _, .inl (Nat.zero_le _)⟩

theorem takes_closeScope (p : Parser) : Takes 0 closeScope p := by
  unfold Takes closeScope ScopeStack.leave
  cases p.scopes.pop with
  | ok left => exact ⟨_, rfl, Nat.le_refl _, .inl (Nat.zero_le _)⟩
  | error e => exact takes_fail 0 _ p

theorem Takes.bind_of_left {x : Parsing α} {f : α → Parsing β} (hx : Takes m x p)
    (hf : ∀ a q, q.left + m ≤ p.left → Takes n (f a) q) : Takes (m + n) (x >>= f) p := by
  obtain ⟨o, ho, hleft, htaken⟩ := hx
  have hbind : (x >>= f) p = (andThen o.value f o.parser).map o.followedBy := by
    change (x p).bind _ = _
    rw [ho, Option.bind_some]
  cases hv : o.value with
  | error e =>
    rw [hv] at hbind
    refine ⟨_, hbind, ?_, .inr ⟨e, rfl⟩⟩
    simpa [Outcome.taken, Outcome.followedBy] using hleft
  | ok a =>
    have hm : m ≤ o.taken.length := by
      rcases htaken with htaken | ⟨e, he⟩
      · exact htaken
      · rw [hv] at he
        cases he
    obtain ⟨o', ho', hleft', htaken'⟩ := hf a o.parser (by omega)
    have hlength : (o.followedBy o').taken.length = o.taken.length + o'.taken.length := by
      simp [Outcome.taken, Outcome.followedBy]
    rw [hv, andThen, ho', Option.map_some] at hbind
    refine ⟨_, hbind, ?_, ?_⟩
    · rw [hlength]
      change o'.parser.left + _ ≤ _
      omega
    · rw [hlength]
      exact htaken'.imp_left fun hn => Nat.add_le_add hm hn

theorem Takes.bind {x : Parsing α} {f : α → Parsing β} (hx : Takes n x p)
    (hf : ∀ a q, Takes 0 (f a) q) : Takes n (x >>= f) p :=
  hx.bind_of_left fun a q _ => hf a q

theorem Takes.ends {x : Parsing α} (h : Takes n x p) : Takes 0 x p := by
  obtain ⟨o, ho, hleft, -⟩ := h
  exact ⟨o, ho, hleft, .inl (Nat.zero_le _)⟩

theorem Takes.bind_silent {x : Parsing α} {f : α → Parsing β} {q : Parser} {a : α}
    (h : Takes n (f a) q) (hx : x p = some ⟨[], [], q, .ok a⟩) (hq : q.left = p.left) :
    Takes n (x >>= f) p := by
  unfold Takes
  rw [bind_of_silent hx, ← hq]
  exact h

theorem Takes.get_bind {f : Parser → Parsing β} (h : Takes n (f p) p) : Takes n (get >>= f) p :=
  h.bind_silent rfl rfl

theorem Takes.attempt {x : Parsing α} (h : Takes n x p) : Takes 0 (attempt x) p := by
  obtain ⟨o, ho, hleft, -⟩ := h
  refine ⟨⟨o.events, o.asked, o.parser, .ok o.value⟩, ?_, hleft, .inl (Nat.zero_le _)⟩
  rw [Parsing.attempt, ho, Option.map_some]

theorem Takes.closing {x : Parsing α} (h : Takes n x p) : Takes 0 (closing x) p :=
  h.attempt.bind fun _ _ => (takes_closeScope _).bind fun _ _ => takes_ofExcept _ _

theorem length_taken (a : Scanned) (x : Lookahead) :
    ([.scanned a, .consumed x].filterMap Event.consumed?).length = x.size := by
  cases x <;> rfl

theorem takes_advance (p : Parser) : Takes p.current.size advance p := by
  have hle := p.scanner.length_rest_next_le
  have hshorter := p.scanner.next_shorter
  unfold Takes advance
  cases hnext : p.scanner.next with
  | mk answer scanner =>
    rw [hnext] at hle hshorter
    cases answer with
    | failed e => exact ⟨_, rfl, Nat.add_le_add_left hle _, .inr ⟨_, rfl⟩⟩
    | token t =>
      have hlt : scanner.rest.length < p.scanner.rest.length := by
        rcases hshorter with ⟨l, hl⟩ | hlt
        · cases hl
        · exact hlt
      refine ⟨_, rfl, ?_, .inl (Nat.le_of_eq (length_taken _ _).symm)⟩
      rw [Outcome.taken, length_taken]
      change 1 + scanner.rest.length + p.current.size ≤ p.current.size + p.scanner.rest.length
      omega
    | eof l =>
      change scanner.rest.length ≤ _ at hle
      refine ⟨_, rfl, ?_, .inl (Nat.le_of_eq (length_taken _ _).symm)⟩
      rw [Outcome.taken, length_taken]
      change 0 + scanner.rest.length + p.current.size ≤ p.current.size + p.scanner.rest.length
      omega

theorem size_of_check {k : TokenKind} (hk : k ≠ .eof) (h : p.check k = true) :
    p.current.size = 1 := by
  cases hcurrent : p.current with
  | token t => rfl
  | eof l =>
    rw [Parser.check, hcurrent] at h
    exact absurd (of_decide_eq_true h).symm hk

theorem takes_advance_of_check {k : TokenKind} (hk : k ≠ .eof) (h : p.check k = true) :
    Takes 1 advance p :=
  size_of_check hk h ▸ takes_advance p

theorem takes_expect {k : TokenKind} (hk : k ≠ .eof) (p : Parser) : Takes 1 (expect k) p := by
  refine .get_bind ?_
  by_cases h : p.check k
  · rw [if_pos h]
    exact takes_advance_of_check hk h
  · rw [if_neg h]
    exact takes_fail 1 _ p

theorem takes_expectIdentifier (p : Parser) : Takes 1 expectIdentifier p := by
  refine .get_bind ?_
  by_cases h : p.check .identifier
  · rw [if_pos h]
    refine (takes_advance_of_check (by decide) h).bind fun x q => ?_
    split
    · exact takes_ofExcept _ q
    · exact takes_fail 0 _ q
  · rw [if_neg h]
    exact takes_fail 1 _ p

theorem takes_typeName (p : Parser) : Takes 1 typeName p := by
  refine (takes_expectIdentifier p).bind fun x q => .get_bind ?_
  split
  · exact takes_ofExcept _ q
  · exact takes_fail 0 _ q
  · exact takes_fail 0 _ q

theorem repeatWhile_eq (goesOn : Parser → Bool) (x : Parsing α) :
    repeatWhile goesOn x = get >>= fun p =>
      if goesOn p then x >>= fun a => repeatWhile goesOn x >>= fun as => pure (a :: as)
      else pure [] := by
  funext p
  rw [get_bind, repeatWhile, rounds]
  by_cases h : goesOn p
  · rw [if_pos h, if_pos h]
    change (x p).bind _ = (x p).bind _
    congr 1
    funext o
    cases o.value with
    | error e => rfl
    | ok a =>
      change (rounds goesOn x o.parser).bind _ = ((rounds goesOn x o.parser).bind _).map _
      rw [Option.map_bind]
      congr 1
      funext later
      cases hv : later.value with
      | ok as => simp [andThen, Outcome.followedBy, Outcome.map, hv, pure, ofExcept, Except.map]
      | error e => simp [andThen, Outcome.followedBy, Outcome.map, hv, fail, ofExcept, Except.map]
  · rw [if_neg h, if_neg h]
    rfl

/-- A repetition ends if each round of it takes a token or fails. -/
theorem takes_repeatWhile {goesOn : Parser → Bool} {x : Parsing α} (hx : ∀ p, Takes 1 x p)
    (p : Parser) : Takes 0 (repeatWhile goesOn x) p := by
  induction hn : p.left using Nat.strongRecOn generalizing p with
  | ind n ih =>
    rw [repeatWhile_eq]
    refine .get_bind ?_
    split
    · refine ((hx p).bind_of_left (n := 0) fun a q hq => ?_).ends
      exact (ih q.left (by omega) q rfl).bind fun as r => takes_pure _ r
    · exact takes_pure _ p

theorem takes_expression (p : Parser) : Takes 1 expression p := by
  refine .get_bind ?_
  split
  · rename_i h
    have hsize : p.current.size = 1 := by
      rcases (Bool.or_eq_true _ _).mp h with h | h
      · exact size_of_check (by decide) h
      · exact size_of_check (by decide) h
    have hadvance : Takes 1 advance { p with nextId := p.nextId + 1 } :=
      hsize ▸ takes_advance { p with nextId := p.nextId + 1 }
    refine .bind_silent (hadvance.bind fun x q => ?_) rfl rfl
    split
    · exact takes_ofExcept _ q
    · exact takes_ofExcept _ q
    · exact takes_fail 0 _ q
  · exact takes_fail 1 _ p

theorem takes_assignment (p : Parser) : Takes 1 assignment p := by
  refine .get_bind (.bind_silent ?_ rfl rfl)
  refine (takes_expression _).bind fun _ q => ?_
  refine (takes_expect (by decide) q).ends.bind fun _ q => ?_
  exact (takes_expression q).ends.bind fun _ q => takes_pure _ q

theorem takes_statement (p : Parser) : Takes 1 statement p :=
  (takes_assignment p).bind fun _ q =>
    (takes_expect (k := .semicolon) (by decide) q).ends.bind fun _ q => takes_pure _ q

theorem takes_block (p : Parser) : Takes 1 block p := by
  refine (takes_expect (by decide) p).bind fun _ q => ?_
  refine (takes_newId q).bind fun _ q => ?_
  refine (takes_repeatWhile takes_statement q).bind fun _ q => ?_
  exact (takes_expect (by decide) q).ends.bind fun _ q => takes_pure _ q

theorem takes_group (p : Parser) : Takes 1 group p := by
  refine (takes_expectIdentifier p).bind fun _ q => ?_
  refine (takes_newId q).bind fun _ q => ?_
  refine (takes_declare _ _ q).bind fun _ q => ?_
  refine (takes_expect (by decide) q).ends.bind fun _ q => ?_
  refine (takes_typeName q).ends.bind fun _ q => ?_
  refine (takes_expect (by decide) q).ends.bind fun _ q => ?_
  exact (takes_tell rfl q).bind fun _ q => takes_pure _ q

theorem takes_varDeclaration (p : Parser) : Takes 1 varDeclaration p := by
  refine (takes_expect (by decide) p).bind fun _ q => .get_bind ?_
  split
  · exact takes_repeatWhile takes_group q
  · exact takes_fail 0 _ q

theorem takes_body (p : Parser) : Takes 0 body p := by
  refine (takes_repeatWhile takes_varDeclaration p).bind fun _ q => .get_bind ?_
  split
  · exact (takes_block q).ends.bind fun _ q => takes_pure _ q
  · exact takes_fail 0 _ q

theorem takes_procedure (p : Parser) : Takes 1 procedure p := by
  refine (takes_expect (by decide) p).bind fun _ q => ?_
  refine (takes_expectIdentifier q).ends.bind fun _ q => ?_
  refine (takes_newId q).bind fun _ q => ?_
  refine (takes_declare _ _ q).bind fun _ q => ?_
  refine (takes_expect (by decide) q).ends.bind fun _ q => ?_
  refine (takes_expect (by decide) q).ends.bind fun _ q => ?_
  refine (takes_expect (by decide) q).ends.bind fun _ q => ?_
  refine (takes_typeName q).ends.bind fun _ q => ?_
  refine (takes_openScope q).bind fun _ q => ?_
  refine (takes_body q).closing.bind fun _ q => ?_
  exact (takes_tell rfl q).bind fun _ q => takes_pure _ q

theorem takes_exportName (p : Parser) : Takes 1 exportName p := by
  refine (takes_expect (by decide) p).bind fun _ q => ?_
  refine (takes_expectIdentifier q).ends.bind fun _ q => ?_
  refine (takes_expect (by decide) q).ends.bind fun _ q => ?_
  exact (takes_tell rfl q).bind fun _ q => takes_modify rfl

theorem takes_item (p : Parser) : Takes 1 item p := by
  refine .get_bind ?_
  split
  · exact (takes_varDeclaration p).bind fun _ q => takes_modify rfl
  · exact (takes_procedure p).bind fun _ q => takes_modify rfl
  · exact takes_exportName p
  · exact takes_fail 1 _ p

theorem takes_module (p : Parser) : Takes 0 module p :=
  (takes_repeatWhile takes_item p).bind fun _ _ => .get_bind <|
    (takes_tell rfl _).bind fun _ q => takes_pure _ q

/-- From whatever parser, a parse comes to an end. -/
theorem isSome_module (p : Parser) : (module p).isSome = true := by
  obtain ⟨o, ho, -⟩ := takes_module p
  rw [ho, Option.isSome_some]

end Parsing

/-- Parse what is left of a module. -/
def Parser.module (p : Parser) : Logged (Except ParseError Module) :=
  let o := (Parsing.module p).get (Parsing.isSome_module p)
  ⟨o.events, o.value⟩

def Module.parse (name : String) (source : Bytes) : Logged (Except ParseError Module) :=
  match Parser.start name source with
  | ⟨events, .error e⟩ => ⟨events, .error e⟩
  | ⟨events, .ok parser⟩ => .after events parser.module

end ProcLang
