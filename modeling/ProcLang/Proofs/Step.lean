import ProcLang.Proofs.Grammar
import ProcLang.Proofs.Machine

/-! # Steps of the machine

A step consumes one token. Which kinds it takes, and to what sort of place it leads, is told by the
grammar alone; what it does there is not needed to know that. -/
namespace ProcLang

def Region.zone : Region → Zone
  | .module => .module
  | .body _ => .body

def Place.point : Place → Point
  | .declarations r => .declarations r.zone
  | .varKeyword r => .varKeyword r.zone
  | .varName r _ => .varName r.zone
  | .varColon r _ => .varColon r.zone
  | .varType r _ => .varType r.zone
  | .group r => .group r.zone
  | .procKeyword _ => .procKeyword
  | .procName _ => .procName
  | .procLeftParen _ => .procLeftParen
  | .procRightParen _ => .procRightParen
  | .procColon _ => .procColon
  | .statements _ _ => .statements
  | .leftOperand _ _ _ _ => .leftOperand
  | .equals _ _ _ _ => .equals
  | .rightOperand _ _ _ => .rightOperand
  | .exportsKeyword => .exportsKeyword
  | .exportsName _ => .exportsName

theorem Place.isEnd_point (p : Place) : p.point.isEnd = p.isEnd := by
  rcases p with (_ | _) | (_ | _) | _ | _ | _ | (_ | _) | _ <;> rfl

namespace ParseState

variable {s s' : ParseState} {t : Token}

/-- What consuming a token leads to, or the error where it may not follow. -/
def advance (s : ParseState) (t : Token) : Except ParseError ParseState :=
  match s.consume? t with
  | none => .error (.unexpected s.place.expected t.kind t.location)
  | some consumption => consumption.map Logged.value

/-- Every outcome that consuming a token can have stands at the point. -/
def LeadsTo (c : Option Consumption) (p : Point) : Prop :=
  ∃ consumption, c = some consumption ∧
    ∀ s' : ParseState, consumption.map Logged.value = .ok s' → s'.place.point = p

theorem leadsTo_goto (s : ParseState) (place : Place) :
    LeadsTo (some (s.goto place)) place.point := by
  refine ⟨_, rfl, ?_⟩
  rintro s' ⟨⟩
  rfl

theorem leadsTo_resolve (s : ParseState) (name : String) (l : Location) (p : Point)
    (next : TypeName → Consumption) (h : ∀ t, LeadsTo (some (next t)) p) :
    LeadsTo (some (s.resolve name l >>= next)) p := by
  refine ⟨_, rfl, ?_⟩
  intro s' hs
  cases hr : s.resolve name l with
  | error e =>
    rw [hr] at hs
    cases hs
  | ok type =>
    obtain ⟨_, he, hp⟩ := h type
    cases he
    rw [hr] at hs
    exact hp s' hs

theorem leadsTo_addVar (s : ParseState) (r : Region) (v : Var) :
    LeadsTo (some (s.addVar r v)) (.group r.zone) := by
  refine ⟨_, rfl, ?_⟩
  cases r <;> rintro s' ⟨⟩ <;> rfl

theorem leadsTo_leaveBody (s : ParseState) (p : OpenProc) (b : OpenBlock) :
    LeadsTo (some (s.leaveBody p b)) (.declarations .module) := by
  refine ⟨_, rfl, ?_⟩
  intro s' hs
  unfold leaveBody at hs
  split at hs
  · cases hs
  · cases hs
    rfl

/-- A token is taken exactly if its kind may follow, and the grammar tells where it leads. -/
def Obeys (c : Option Consumption) : Option Point → Prop
  | none => c = none
  | some p => LeadsTo c p

theorem declaration?_obeys (s : ParseState) (r : Region) (t : Token) :
    Obeys (s.declaration? r t) (r.zone.next? t.kind) := by
  obtain ⟨u, l⟩ := t
  cases r <;> cases u <;> first | exact rfl | exact leadsTo_goto _ _

theorem consume?_obeys (s : ParseState) (t : Token) :
    Obeys (s.consume? t) (s.place.point.next? t.kind) := by
  obtain ⟨place, scopes, id, m⟩ := s
  cases place with
  | declarations r => exact declaration?_obeys _ r t
  | group r =>
    have h := declaration?_obeys ⟨.group r, scopes, id, m⟩ r t
    obtain ⟨u, l⟩ := t
    cases u with
    | identifier name => exact leadsTo_goto _ _
    | _ => exact h
  | varColon r h =>
    obtain ⟨u, l⟩ := t
    cases u with
    | identifier name => exact leadsTo_resolve _ _ _ _ _ fun t => leadsTo_goto _ _
    | _ => exact rfl
  | varType r v =>
    obtain ⟨u, l⟩ := t
    cases u with
    | semicolon => exact leadsTo_addVar _ _ _
    | _ => exact rfl
  | procColon h =>
    obtain ⟨u, l⟩ := t
    cases u with
    | identifier name =>
      refine leadsTo_resolve _ _ _ _ _ fun type => ⟨_, rfl, ?_⟩
      rintro s' ⟨⟩
      rfl
    | _ => exact rfl
  | statements p b =>
    obtain ⟨u, l⟩ := t
    cases u with
    | rightBrace => exact leadsTo_leaveBody _ _ _
    | identifier name => exact leadsTo_goto _ _
    | intLiteral value => exact leadsTo_goto _ _
    | _ => exact rfl
  | equals p b id' lhs =>
    obtain ⟨u, l⟩ := t
    cases u with
    | identifier name => exact leadsTo_goto _ _
    | intLiteral value => exact leadsTo_goto _ _
    | _ => exact rfl
  | exportsName name =>
    obtain ⟨u, l⟩ := t
    cases u with
    | semicolon =>
      refine ⟨_, rfl, ?_⟩
      rintro s' ⟨⟩
      rfl
    | _ => exact rfl
  | _ =>
    obtain ⟨u, l⟩ := t
    cases u <;> first | exact rfl | exact leadsTo_goto _ _

theorem consume?_eq_none_iff :
    s.consume? t = none ↔ s.place.point.next? t.kind = none := by
  have h := consume?_obeys s t
  cases hp : s.place.point.next? t.kind with
  | none => simpa [hp, Obeys] using h
  | some p =>
    rw [hp] at h
    obtain ⟨c, hc, -⟩ := h
    simp [hc]

theorem point_of_advance (h : s.advance t = .ok s') :
    s.place.point.next? t.kind = some s'.place.point := by
  have ho := consume?_obeys s t
  unfold advance at h
  cases hp : s.place.point.next? t.kind with
  | none =>
    rw [consume?_eq_none_iff.mpr hp] at h
    cases h
  | some p =>
    rw [hp] at ho
    obtain ⟨c, hc, hs⟩ := ho
    rw [hc] at h
    rw [hs s' h]

/-- Consuming tokens one after the other, up to the first error. -/
def steps (s : ParseState) (ts : List Token) : Except ParseError ParseState := ts.foldlM advance s

theorem steps_append (s : ParseState) (first second : List Token) :
    s.steps (first ++ second) = s.steps first >>= fun s' => s'.steps second :=
  List.foldlM_append

theorem steps_cons (s : ParseState) (t : Token) (ts : List Token) :
    s.steps (t :: ts) = s.advance t >>= fun s' => s'.steps ts :=
  List.foldlM_cons

theorem point_of_steps {ts : List Token} (h : s.steps ts = .ok s') :
    s.place.point.follow (ts.map Token.kind) = some s'.place.point := by
  induction ts generalizing s with
  | nil =>
    cases h
    rfl
  | cons t ts ih =>
    rw [steps_cons] at h
    cases ha : s.advance t with
    | error e =>
      rw [ha] at h
      cases h
    | ok u =>
      rw [ha] at h
      rw [List.map_cons, Point.follow_cons, point_of_advance ha]
      exact ih h

end ParseState

def Reading.prepend (ts : List Token) (r : Reading) : Reading := ts.foldr .token r

namespace Reading

@[simp] theorem prepend_nil (r : Reading) : prepend [] r = r := rfl

@[simp] theorem prepend_cons (t : Token) (ts : List Token) (r : Reading) :
    prepend (t :: ts) r = .token t (prepend ts r) := rfl

theorem prepend_append (first second : List Token) (r : Reading) :
    prepend (first ++ second) r = prepend first (prepend second r) :=
  List.foldr_append

/-- The end of the text, or the first error. -/
inductive IsLast : Reading → Prop where
  | eof (l : Location) : IsLast (.eof l)
  | failed (e : LexError) : IsLast (.failed e)

theorem exists_eq_prepend (r : Reading) : ∃ ts last, r = prepend ts last ∧ IsLast last := by
  induction r with
  | eof l => exact ⟨[], .eof l, rfl, .eof l⟩
  | failed e => exact ⟨[], .failed e, rfl, .failed e⟩
  | token t rest ih =>
    obtain ⟨ts, last, rfl, hl⟩ := ih
    exact ⟨t :: ts, last, rfl, hl⟩

theorem answers_prepend (ts : List Token) (r : Reading) :
    (prepend ts r).answers = ts.map .token ++ r.answers := by
  induction ts with
  | nil => rfl
  | cons t ts ih => simp [answers, ih]

theorem tokens_prepend (ts : List Token) (r : Reading) :
    (prepend ts r).tokens = r.tokens.map fun (us, l) => (ts ++ us, l) := by
  induction ts with
  | nil => cases h : r.tokens <;> simp [h, Except.map]
  | cons t ts ih => cases h : r.tokens <;> simp [tokens, ih, h, Except.map]

theorem tokens_eq_ok_iff {r : Reading} {ts : List Token} {l : Location} :
    r.tokens = .ok (ts, l) ↔ r = prepend ts (.eof l) := by
  constructor
  · intro h
    obtain ⟨us, last, rfl, hl⟩ := r.exists_eq_prepend
    rw [tokens_prepend] at h
    cases hl with
    | eof l' =>
      simp only [tokens, Except.map, List.append_nil] at h
      cases h
      rfl
    | failed e => cases h
  · intro h
    simp [h, tokens_prepend, tokens, Except.map]

theorem tokens_eq_error_iff {r : Reading} {e : LexError} :
    r.tokens = .error e ↔ ∃ ts, r = prepend ts (.failed e) := by
  constructor
  · intro h
    obtain ⟨us, last, rfl, hl⟩ := r.exists_eq_prepend
    rw [tokens_prepend] at h
    cases hl with
    | eof l => cases h
    | failed f =>
      cases h
      exact ⟨us, rfl⟩
  · intro h
    obtain ⟨ts, rfl⟩ := h
    simp [tokens_prepend, tokens, Except.map]

end Reading

end ProcLang
