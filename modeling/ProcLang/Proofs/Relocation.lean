import ProcLang.Proofs.Simulation

/-! # Relocation

The parser records places and never looks at them. When the tokens of a reading are moved to other
places, what comes of parsing them is the same tree or the same error, moved likewise. -/
namespace ProcLang

section

variable (f : Location → Location)

def Var.relocate (v : Var) : Var := { v with location := f v.location }

def Param.relocate (p : Param) : Param := { p with location := f p.location }

def Expr.relocate : Expr → Expr
  | .ref id name l => .ref id name (f l)
  | .const id value l => .const id value (f l)

def Assignment.relocate (a : Assignment) : Assignment :=
  { a with lhs := a.lhs.relocate f, rhs := a.rhs.relocate f, location := f a.location }

def Block.relocate (b : Block) : Block :=
  { b with statements := b.statements.map (Assignment.relocate f), location := f b.location }

def Proc.relocate (p : Proc) : Proc :=
  { p with
    params := p.params.map (Param.relocate f)
    locals := p.locals.map (Var.relocate f)
    body := p.body.relocate f
    location := f p.location }

def Module.relocate (m : Module) : Module :=
  { m with vars := m.vars.map (Var.relocate f), procs := m.procs.map (Proc.relocate f) }

def Token.relocate (t : Token) : Token := { t with location := f t.location }

def LexError.relocate (e : LexError) : LexError := { e with location := f e.location }

def Reading.relocate : Reading → Reading
  | .eof l => .eof (f l)
  | .failed e => .failed (e.relocate f)
  | .token t rest => .token (t.relocate f) (rest.relocate)

def ParseError.relocate : ParseError → ParseError
  | .lexical e => .lexical (e.relocate f)
  | .unexpected expected found l => .unexpected expected found (f l)
  | .semantic name message l => .semantic name message (f l)
  | .internal e => .internal e

def Heading.relocate (h : Heading) : Heading := { h with location := f h.location }

def OpenProc.relocate (p : OpenProc) : OpenProc :=
  { p with heading := p.heading.relocate f, locals := p.locals.map (Var.relocate f) }

def OpenBlock.relocate (b : OpenBlock) : OpenBlock :=
  { b with statements := b.statements.map (Assignment.relocate f), location := f b.location }

def Region.relocate : Region → Region
  | .module => .module
  | .body p => .body (p.relocate f)

def Place.relocate : Place → Place
  | .declarations r => .declarations (r.relocate f)
  | .varKeyword r => .varKeyword (r.relocate f)
  | .varName r h => .varName (r.relocate f) (h.relocate f)
  | .varColon r h => .varColon (r.relocate f) (h.relocate f)
  | .varType r v => .varType (r.relocate f) (v.relocate f)
  | .group r => .group (r.relocate f)
  | .procKeyword l => .procKeyword (f l)
  | .procName h => .procName (h.relocate f)
  | .procLeftParen h => .procLeftParen (h.relocate f)
  | .procRightParen h => .procRightParen (h.relocate f)
  | .procColon h => .procColon (h.relocate f)
  | .statements p b => .statements (p.relocate f) (b.relocate f)
  | .leftOperand p b id lhs => .leftOperand (p.relocate f) (b.relocate f) id (lhs.relocate f)
  | .equals p b id lhs => .equals (p.relocate f) (b.relocate f) id (lhs.relocate f)
  | .rightOperand p b a => .rightOperand (p.relocate f) (b.relocate f) (a.relocate f)
  | .exportsKeyword => .exportsKeyword
  | .exportsName name => .exportsName name

def ParseState.relocate (s : ParseState) : ParseState :=
  { s with place := s.place.relocate f, module := s.module.relocate f }

theorem Region.expected_relocate (r : Region) : (r.relocate f).expected = r.expected := by
  cases r <;> rfl

theorem Place.expected_relocate (p : Place) : (p.relocate f).expected = p.expected := by
  cases p <;> first | rfl | exact Region.expected_relocate f _

theorem Place.isEnd_relocate (p : Place) : (p.relocate f).isEnd = p.isEnd := by
  rcases p with (_ | _) | (_ | _) | _ | _ | _ | (_ | _) | _ <;> rfl

def ParseError.orMoved {α : Type} (move : α → α) : Except ParseError α → Except ParseError α
  | .ok a => .ok (move a)
  | .error e => .error (e.relocate f)

namespace ParseState

open ParseError (orMoved)

/-- What consuming a token leads to, or nothing where the token may not follow. -/
def outcome? (s : ParseState) (t : Token) : Option (Except ParseError ParseState) :=
  (s.consume? t).map fun c => c.map Logged.value

variable (s : ParseState)

theorem resolve_relocate (name : String) (l : Location) :
    (s.relocate f).resolve name (f l) = orMoved f id (s.resolve name l) := by
  unfold resolve relocate
  cases s.scopes.lookup name with
  | none => rfl
  | some b => cases b <;> rfl

theorem bind_relocate {x : Except ParseError TypeName} {next next' : TypeName → Consumption}
    (h : ∀ type, (next' type).map Logged.value =
      orMoved f (relocate f) ((next type).map Logged.value)) :
    (orMoved f id x >>= next').map Logged.value =
      orMoved f (relocate f) ((x >>= next).map Logged.value) := by
  cases x with
  | error e => rfl
  | ok type => exact h type

theorem addVar_relocate (r : Region) (v : Var) :
    ((s.relocate f).addVar (r.relocate f) (v.relocate f)).map Logged.value =
      orMoved f (relocate f) ((s.addVar r v).map Logged.value) := by
  cases r <;>
    simp [addVar, Except.map, orMoved, relocate, Region.relocate, Place.relocate,
      OpenProc.relocate, Module.relocate]

theorem leaveBody_relocate (p : OpenProc) (b : OpenBlock) :
    ((s.relocate f).leaveBody (p.relocate f) (b.relocate f)).map Logged.value =
      orMoved f (relocate f) ((s.leaveBody p b).map Logged.value) := by
  have hscopes : (s.relocate f).scopes = s.scopes := rfl
  unfold leaveBody
  rw [hscopes]
  cases s.scopes.leave with
  | error e => rfl
  | ok left =>
    simp [Except.map, orMoved, relocate, Place.relocate, Region.relocate, Module.relocate,
      Proc.relocate, Block.relocate, OpenProc.relocate, OpenBlock.relocate, Heading.relocate]

theorem declaration?_relocate (r : Region) (t : Token) :
    ((s.relocate f).declaration? (r.relocate f) (t.relocate f)).map (·.map Logged.value) =
      ((s.declaration? r t).map (·.map Logged.value)).map (orMoved f (relocate f)) := by
  obtain ⟨u, l⟩ := t
  cases r <;> cases u <;> rfl

theorem outcome?_relocate (t : Token) : (s.relocate f).outcome? (t.relocate f) =
    (s.outcome? t).map (orMoved f (relocate f)) := by
  obtain ⟨place, scopes, id, m⟩ := s
  cases place with
  | declarations r => exact declaration?_relocate f _ r t
  | group r =>
    have h := declaration?_relocate f ⟨.group r, scopes, id, m⟩ r t
    obtain ⟨u, l⟩ := t
    cases u with
    | identifier name => rfl
    | _ => exact h
  | varColon r h =>
    obtain ⟨u, l⟩ := t
    cases u with
    | identifier name =>
      have hr := resolve_relocate f ⟨.varColon r h, scopes, id, m⟩ name l
      exact congrArg some (hr ▸ bind_relocate f fun type => rfl)
    | _ => rfl
  | varType r v =>
    obtain ⟨u, l⟩ := t
    cases u with
    | semicolon => exact congrArg some (addVar_relocate f _ r v)
    | _ => rfl
  | procColon h =>
    obtain ⟨u, l⟩ := t
    cases u with
    | identifier name =>
      have hr := resolve_relocate f ⟨.procColon h, scopes, id, m⟩ name l
      exact congrArg some (hr ▸ bind_relocate f fun type => rfl)
    | _ => rfl
  | statements p b =>
    obtain ⟨u, l⟩ := t
    cases u with
    | rightBrace => exact congrArg some (leaveBody_relocate f _ p b)
    | _ => rfl
  | rightOperand p b a =>
    obtain ⟨u, l⟩ := t
    cases u with
    | semicolon =>
      simp [outcome?, consume?, goto, Except.map, orMoved, relocate, Token.relocate,
        Place.relocate, OpenBlock.relocate]
    | _ => rfl
  | equals p b id' lhs =>
    obtain ⟨u, l⟩ := t
    cases lhs <;> cases u <;> rfl
  | _ =>
    obtain ⟨u, l⟩ := t
    cases u <;> rfl

theorem zone_relocate : (s.relocate f).zone = s.zone := by
  obtain ⟨place, scopes, id, m⟩ := s
  rcases place with (_ | _) | (_ | _) | (_ | _) | (_ | _) | (_ | _) | (_ | _) | _ <;> rfl

variable {s}

theorem outcome?_eq_ok {s' : ParseState} {t : Token} (h : s.outcome? t = some (.ok s')) :
    s.advance t = .ok s' := by
  unfold outcome? at h
  unfold advance
  cases hc : s.consume? t with
  | none =>
    rw [hc] at h
    cases h
  | some c =>
    rw [hc] at h
    exact Option.some.inj h

/-- What a token leads to matters only if no error has been scanned behind it. -/
theorem Balanced.run_token (hb : s.Balanced) (t : Token) (rest : Reading) :
    (s.run (.token t rest)).value =
      match s.outcome? t, rest with
      | none, _ => .error (.unexpected s.place.expected t.kind t.location)
      | some _, .failed e => .error (.lexical e)
      | some (.error e), _ => .error e
      | some (.ok s'), rest => (s'.run rest).value := by
  cases ho : s.outcome? t with
  | none => exact hb.run_refused (Option.map_eq_none_iff.mp ho)
  | some o =>
    obtain ⟨c, hc, rfl⟩ := Option.map_eq_some_iff.mp ho
    cases rest with
    | failed e => exact hb.run_before_failed (by simp [hc])
    | _ =>
      cases c with
      | error e => exact hb.run_faulty hc nofun
      | ok x => exact hb.run_advance (outcome?_eq_ok ho)

theorem Balanced.relocate (hb : s.Balanced) : (s.relocate f).Balanced := by
  rw [Balanced, zone_relocate]
  exact hb

theorem Balanced.run_relocate (hb : s.Balanced) (r : Reading) :
    ((s.relocate f).run (r.relocate f)).value =
      orMoved f (Module.relocate f) (s.run r).value := by
  induction r generalizing s with
  | eof l =>
    have hend : (s.relocate f).place.isEnd = s.place.isEnd := s.place.isEnd_relocate f
    have hexpected : (s.relocate f).place.expected = s.place.expected :=
      s.place.expected_relocate f
    rw [Reading.relocate, (hb.relocate f).run_eof, hb.run_eof, hend, hexpected]
    split <;> rfl
  | failed e =>
    rw [Reading.relocate, (hb.relocate f).run_failed, hb.run_failed]
    rfl
  | token t rest ih =>
    have hexpected : (s.relocate f).place.expected = s.place.expected :=
      s.place.expected_relocate f
    rw [Reading.relocate, (hb.relocate f).run_token, hb.run_token, outcome?_relocate, hexpected]
    cases ho : s.outcome? t with
    | none => rfl
    | some o =>
      cases rest with
      | failed e => rfl
      | _ =>
        cases o with
        | error e => rfl
        | ok s' => exact ih (hb.advance (outcome?_eq_ok ho))

theorem run_initial_relocate (name : String) (r : Reading) :
    ((initial name).run (r.relocate f)).value =
      orMoved f (Module.relocate f) ((initial name).run r).value :=
  (balanced_initial name).run_relocate f r

end ParseState

theorem Reading.relocate_prepend (ts : List Token) (r : Reading) :
    (prepend ts r).relocate f = prepend (ts.map (Token.relocate f)) (r.relocate f) := by
  induction ts with
  | nil => rfl
  | cons t ts ih => simp [relocate, ih]

end

end ProcLang
