import ProcLang.Proofs.Balance
import ProcLang.Proofs.Visibility

/-! # The inventory of names

The grammar tells which of the tokens taken so far are names that are declared, and how many nodes
have begun before each of them. The scopes bind these names and, outside bodies, those built-in
types that the module has not declared; what they refer to are the nodes of the tree that is being
built. -/
namespace ProcLang

/-- A name that is declared, whose it is, and what it is bound to. -/
structure Declaration where
  zone : Zone
  name : String
  binding : Binding
  deriving DecidableEq, Repr

def Binding.id? : Binding → Option NodeId
  | .type _ => none
  | .var id => some id
  | .proc id => some id

namespace Declaration

variable {ds es : List Declaration} {d : Declaration} {z : Zone} {x : String} {b : Binding}

/-- What the last declaration of a name in a zone binds it to. -/
def latest? (ds : List Declaration) (z : Zone) (x : String) : Option Binding :=
  (ds.reverse.find? fun d => d.zone = z ∧ d.name = x).map Declaration.binding

def within (z : Zone) (ds : List Declaration) : List Declaration := ds.filter (·.zone = z)

theorem latest?_append (ds es : List Declaration) (z : Zone) (x : String) :
    latest? (ds ++ es) z x = (latest? es z x).or (latest? ds z x) := by
  unfold latest?
  rw [List.reverse_append, List.find?_append]
  cases es.reverse.find? _ <;> rfl

theorem latest?_singleton (d : Declaration) (z : Zone) (x : String) :
    latest? [d] z x = if d.zone = z ∧ d.name = x then some d.binding else none := by
  by_cases h : d.zone = z ∧ d.name = x <;> simp [latest?, h]

theorem exists_of_latest? (h : latest? ds z x = some b) : ∃ d ∈ ds, d.binding = b := by
  obtain ⟨d, hd, hb⟩ := Option.map_eq_some_iff.mp h
  exact ⟨d, List.mem_reverse.mp (List.mem_of_find?_eq_some hd), hb⟩

theorem within_append (z : Zone) (ds es : List Declaration) :
    within z (ds ++ es) = within z ds ++ within z es :=
  List.filter_append ds es

theorem within_of_zone (h : ∀ d ∈ ds, d.zone = z) : within z ds = ds := by
  rw [within, List.filter_eq_self]
  intro d hd
  simpa using h d hd

end Declaration

namespace Point

/-- What a token declares at a point, if the next node gets the given number. -/
def declaration? (p : Point) (id : NodeId) (t : Token) : Option Declaration :=
  match p, t.terminal with
  | .varKeyword z, .identifier x => some ⟨z, x, .var id⟩
  | .group z, .identifier x => some ⟨z, x, .var id⟩
  | .procKeyword, .identifier x => some ⟨.module, x, .proc id⟩
  | _, _ => none

/-- How many nodes begin with a token. A statement begins with its left operand. -/
def nodes : Point → TokenKind → ℕ
  | .varKeyword _, .identifier => 1
  | .group _, .identifier => 1
  | .procKeyword, .identifier => 1
  | .declarations .body, .leftBrace => 1
  | .group .body, .leftBrace => 1
  | .statements, .identifier => 2
  | .statements, .intLiteral => 2
  | .equals, .identifier => 1
  | .equals, .intLiteral => 1
  | _, _ => 0

/-- What tokens declare from a point on, in the order in which it is written. -/
def declared (p : Point) (id : NodeId) : List Token → List Declaration
  | [] => []
  | t :: ts => (p.declaration? id t).toList ++
      match p.next? t.kind with
      | none => []
      | some q => q.declared (id + p.nodes t.kind) ts

variable {p : Point} {id : NodeId} {t : Token} {d : Declaration} {kinds : List TokenKind}

/-- A name is that of a variable where a colon may follow it, and that of a procedure where a
parenthesis may. -/
theorem declaration?_iff_viable (h : start.follow kinds = some p) (id : NodeId) (x : String)
    (l : Location) :
    (p.declaration? id ⟨.identifier x, l⟩ = some ⟨p.zone, x, .var id⟩ ↔
      Grammar.Viable (kinds ++ [.identifier, .colon])) ∧
    (p.declaration? id ⟨.identifier x, l⟩ = some ⟨p.zone, x, .proc id⟩ ↔
      Grammar.Viable (kinds ++ [.identifier, .leftParen])) := by
  have hviable (k : TokenKind) : Grammar.Viable (kinds ++ [.identifier, k]) ↔
      ∃ q, p.next? .identifier = some q ∧ q.admits k = true := by
    rw [List.append_cons, Grammar.viable_append_iff, follow_append, h]
    simp [follow_cons]
  rw [hviable, hviable]
  rcases p with (_ | _) | _ | _ | _ | _ | (_ | _) | _ <;>
    simp [declaration?, next?, Zone.next?, zone, admits]

theorem of_declaration? (h : p.declaration? id t = some d) : d.zone = p.zone ∧
    t.terminal = .identifier d.name ∧ d.binding.id? = some id ∧ p.nodes t.kind = 1 := by
  obtain ⟨u, l⟩ := t
  cases p <;> cases u <;> cases h <;> exact ⟨rfl, rfl, rfl, rfl⟩

theorem of_next?_body {k : TokenKind} (h : p.next? k = some (.declarations .body)) :
    p = .procColon ∧ k = .identifier := by
  rcases p with (_ | _) | _ | _ | _ | _ | (_ | _) | _ <;> cases k <;> cases h
  exact ⟨rfl, rfl⟩

theorem declaration?_of_declares {x : String} (hp : p.declares = true)
    (ht : t.terminal = .identifier x) : p.declaration? id t ≠ none := by
  cases p <;>
    first
    | exact absurd hp Bool.false_ne_true
    | simp [declaration?, ht]

end Point

def Var.declaration (z : Zone) (v : Var) : Declaration := ⟨z, v.name, .var v.id⟩

def Proc.declaration (p : Proc) : Declaration := ⟨.module, p.name, .proc p.id⟩

def Heading.var (z : Zone) (h : Heading) : Declaration := ⟨z, h.name, .var h.id⟩

def Heading.proc (h : Heading) : Declaration := ⟨.module, h.name, .proc h.id⟩

def OpenProc.begun (p : OpenProc) : List Declaration :=
  p.heading.proc :: p.locals.map (Var.declaration .body)

def Region.begun : Region → List Declaration
  | .module => []
  | .body p => p.begun

/-- What has been declared by nodes that have begun and are not part of the module yet. -/
def Place.begun : Place → List Declaration
  | .declarations r => r.begun
  | .varKeyword r => r.begun
  | .varName r h => r.begun ++ [h.var r.zone]
  | .varColon r h => r.begun ++ [h.var r.zone]
  | .varType r v => r.begun ++ [v.declaration r.zone]
  | .group r => r.begun
  | .procKeyword _ => []
  | .procName h => [h.proc]
  | .procLeftParen h => [h.proc]
  | .procRightParen h => [h.proc]
  | .procColon h => [h.proc]
  | .statements p _ => p.begun
  | .leftOperand p _ _ _ => p.begun
  | .equals p _ _ _ => p.begun
  | .rightOperand p _ _ => p.begun
  | .exportsKeyword => []
  | .exportsName _ => []

namespace ParseState

variable {s s' s₁ : ParseState} {t : Token} {ts : List Token} {events : List Event}
  {r : Reading} {d : Declaration} {top : Scope}

def begun (s : ParseState) : List Declaration :=
  s.module.vars.map (Var.declaration .module) ++
    (s.module.procs.map Proc.declaration ++ s.place.begun)

def declared (s : ParseState) (ts : List Token) : List Declaration :=
  s.place.point.declared s.nextId ts

theorem nextId_of_consume? (h : s.consume? t = some (.ok ⟨events, s'⟩)) :
    s'.nextId = s.nextId + s.place.point.nodes t.kind := by
  obtain ⟨place, scopes, id, m⟩ := s
  obtain ⟨u, l⟩ := t
  cases place with
  | declarations reg => cases reg <;> cases u <;> cases h <;> rfl
  | group reg => cases reg <;> cases u <;> cases h <;> rfl
  | varType reg v => cases reg <;> cases u <;> cases h <;> rfl
  | varColon reg hd =>
    cases u with
    | identifier x =>
      obtain ⟨type, hn⟩ := exists_of_resolve (Option.some.inj h)
      cases hn
      rfl
    | _ => cases h
  | procColon hd =>
    cases u with
    | identifier x =>
      obtain ⟨type, hn⟩ := exists_of_resolve (Option.some.inj h)
      cases hn
      rfl
    | _ => cases h
  | statements p b =>
    cases u with
    | rightBrace =>
      obtain ⟨_ | ⟨top, inner⟩, global⟩ := scopes <;> cases h
      rfl
    | _ => cases h <;> rfl
  | _ => cases u <;> cases h <;> rfl

theorem of_declaration? (h : s.consume? t = some (.ok ⟨events, s'⟩))
    (hd : s.place.point.declaration? s.nextId t = some d) :
    s'.scopes = s.scopes.declare d.name d.binding ∧ s'.module = s.module ∧
      s'.place.begun = s.place.begun ++ [d] := by
  obtain ⟨place, scopes, id, m⟩ := s
  obtain ⟨u, l⟩ := t
  cases place <;> cases u <;> cases hd <;> cases h <;> exact ⟨rfl, rfl, rfl⟩

theorem begun_of_addVar {reg : Region} {v : Var} (hs : s.place = .varType reg v)
    (h : s.addVar reg v = .ok ⟨events, s'⟩) : s'.begun.Perm s.begun := by
  obtain ⟨place, scopes, id, m⟩ := s
  obtain rfl : place = _ := hs
  cases reg with
  | module =>
    cases h
    simp only [begun, Place.begun, Region.begun, List.map_append, List.append_assoc,
      List.append_nil, List.nil_append]
    exact .append_left _ List.perm_append_comm
  | body p =>
    cases h
    simp [begun, Place.begun, Region.begun, OpenProc.begun, Region.zone]

theorem begun_of_declaration?_eq_none (h : s.consume? t = some (.ok ⟨events, s'⟩))
    (ht : t.kind ≠ .rightBrace) (hd : s.place.point.declaration? s.nextId t = none) :
    s'.begun.Perm s.begun := by
  obtain ⟨place, scopes, id, m⟩ := s
  obtain ⟨u, l⟩ := t
  cases place with
  | declarations reg => cases reg <;> cases u <;> cases h <;> exact .refl _
  | group reg => cases reg <;> cases u <;> cases hd <;> cases h <;> exact .refl _
  | varType reg v =>
    cases u with
    | semicolon => exact begun_of_addVar rfl (Option.some.inj h)
    | _ => cases h
  | varColon reg hd =>
    cases u with
    | identifier x =>
      obtain ⟨type, hn⟩ := exists_of_resolve (Option.some.inj h)
      cases hn
      exact .refl _
    | _ => cases h
  | procColon hd =>
    cases u with
    | identifier x =>
      obtain ⟨type, hn⟩ := exists_of_resolve (Option.some.inj h)
      cases hn
      exact .refl _
    | _ => cases h
  | statements p b =>
    cases u with
    | rightBrace => exact absurd rfl ht
    | _ => cases h <;> exact .refl _
  | _ => cases u <;> cases hd <;> cases h <;> exact .refl _

theorem begun_of_consume? (h : s.consume? t = some (.ok ⟨events, s'⟩))
    (ht : t.kind ≠ .rightBrace) :
    s'.begun.Perm (s.begun ++ (s.place.point.declaration? s.nextId t).toList) := by
  cases hd : s.place.point.declaration? s.nextId t with
  | none =>
    rw [Option.toList_none, List.append_nil]
    exact begun_of_declaration?_eq_none h ht hd
  | some d =>
    obtain ⟨-, hmodule, hplace⟩ := of_declaration? h hd
    rw [begun, begun, hmodule, hplace, Option.toList_some, List.append_assoc, List.append_assoc]

theorem begun_of_leaveBody {p : OpenProc} {b : OpenBlock} (hs : s.place = .statements p b)
    (h : s.leaveBody p b = .ok ⟨events, s'⟩) :
    s'.begun = Declaration.within .module s.begun := by
  obtain ⟨place, ⟨_ | ⟨top, inner⟩, global⟩, id, m⟩ := s
  · cases h
  · obtain rfl : place = _ := hs
    cases h
    simp [begun, Place.begun, Region.begun, OpenProc.begun, Declaration.within, Var.declaration,
      Proc.declaration, Heading.proc, Function.comp_def, List.filter_map]

theorem begun_of_rightBrace (h : s.consume? t = some (.ok ⟨events, s'⟩))
    (ht : t.kind = .rightBrace) : s'.begun = Declaration.within .module s.begun := by
  obtain ⟨place, scopes, id, m⟩ := s
  obtain ⟨u, l⟩ := t
  cases u <;> cases ht
  cases place with
  | statements p b => exact begun_of_leaveBody rfl (Option.some.inj h)
  | declarations reg => cases reg <;> cases h
  | group reg => cases reg <;> cases h
  | _ => cases h

theorem begun_module_of_consume? (h : s.consume? t = some (.ok ⟨events, s'⟩)) :
    (Declaration.within .module s'.begun).Perm (Declaration.within .module
      (s.begun ++ (s.place.point.declaration? s.nextId t).toList)) := by
  by_cases ht : t.kind = .rightBrace
  · have hnone : s.place.point.declaration? s.nextId t = none := by
      rw [Option.eq_none_iff_forall_ne_some]
      intro d hd
      obtain ⟨-, hname, -⟩ := Point.of_declaration? hd
      rw [Token.kind, hname] at ht
      cases ht
    rw [begun_of_rightBrace h ht, hnone]
    simp [Declaration.within]
  · exact (begun_of_consume? h ht).filter _

theorem within_body_begun (hs : s.zone = .module) : Declaration.within .body s.begun = [] := by
  have hplace : Declaration.within .body s.place.begun = [] := by
    obtain ⟨place, scopes, id, m⟩ := s
    rcases place with (_ | _) | (_ | _) | (_ | _) | (_ | _) | (_ | _) | (_ | _) | _ <;>
      first
      | rfl
      | cases hs
  rw [begun, Declaration.within_append, Declaration.within_append, hplace]
  simp [Declaration.within, Var.declaration, Proc.declaration]

theorem declared_cons (h : s.consume? t = some (.ok ⟨events, s₁⟩)) (ts : List Token) :
    s.declared (t :: ts) =
      (s.place.point.declaration? s.nextId t).toList ++ s₁.declared ts := by
  rw [declared, Point.declared, point_of_consume? h, ← nextId_of_consume? h]
  rfl

/-- What a token binds in the global scope is what it declares for the module. -/
theorem Balanced.global_of_consume? (hb : s.Balanced)
    (h : s.consume? t = some (.ok ⟨events, s'⟩)) (x : String) : s'.scopes.global.get? x =
      (Declaration.latest? (s.place.point.declaration? s.nextId t).toList .module x).or
        (s.scopes.global.get? x) := by
  cases hd : s.place.point.declaration? s.nextId t with
  | none =>
    rcases hb.global_cases h with hglobal | ⟨y, b, here, name, -⟩
    · rw [hglobal]
      rfl
    · exact absurd hd (Point.declaration?_of_declares here name)
  | some d =>
    obtain ⟨hzone, -⟩ := Point.of_declaration? hd
    rw [(of_declaration? h hd).1, Option.toList_some, Declaration.latest?_singleton]
    change d.zone = s.zone at hzone
    cases hs : s.zone with
    | module =>
      rw [ScopeStack.declare, hb.inner_eq_nil hs, Table.get?_insert]
      by_cases hx : x = d.name <;> simp [hzone, hs, hx, eq_comm]
    | body =>
      obtain ⟨top, hscopes⟩ := hb.exists_inner hs
      rw [ScopeStack.declare, hscopes]
      simp [hzone, hs]

theorem zone_of_consume? (h : s.consume? t = some (.ok ⟨events, s'⟩)) (hs : s.zone = .body)
    (ht : t.kind ≠ .rightBrace) : s'.zone = .body :=
  Point.zone_of_next? (point_of_consume? h) hs ht

/-- As long as a body goes on, its scope binds what its tokens declare. -/
theorem inner_of_consume? (h : s.consume? t = some (.ok ⟨events, s'⟩)) (hs : s.zone = .body)
    (hinner : s.scopes.inner = [top]) (ht : t.kind ≠ .rightBrace) :
    ∃ top', s'.scopes.inner = [top'] ∧ ∀ x, top'.get? x =
      (Declaration.latest? (s.place.point.declaration? s.nextId t).toList .body x).or
        (top.get? x) := by
  have hs' := zone_of_consume? h hs ht
  cases hd : s.place.point.declaration? s.nextId t with
  | none =>
    have hkept : s'.scopes = s.scopes := by
      cases scopeChange_of_consume? h with
      | kept scopes => exact scopes
      | declared here name => exact absurd hd (Point.declaration?_of_declares here name)
      | entered outside => cases hs.symm.trans outside
      | left _ outside => cases hs'.symm.trans outside
    exact ⟨top, by rw [hkept, hinner], fun x => rfl⟩
  | some d =>
    obtain ⟨hzone, -⟩ := Point.of_declaration? hd
    replace hzone : d.zone = .body := hzone.trans hs
    refine ⟨top.insert d.name d.binding, ?_, fun x => ?_⟩
    · rw [(of_declaration? h hd).1, ScopeStack.declare, hinner]
    · rw [Option.toList_some, Declaration.latest?_singleton, Table.get?_insert]
      by_cases hx : x = d.name <;> simp [hzone, hx, eq_comm]

theorem Course.declared_append (h : Course r s ts events s₁) (us : List Token) :
    s.declared (ts ++ us) = s.declared ts ++ s₁.declared us := by
  induction h with
  | nil => rfl
  | cons consumed _ _ ih =>
    rw [List.cons_append, declared_cons consumed, declared_cons consumed, ih, List.append_assoc]

theorem Course.get?_global_eq (h : Course r s ts events s') (hb : s.Balanced) (x : String) :
    s'.scopes.global.get? x =
      (Declaration.latest? (s.declared ts) .module x).or (s.scopes.global.get? x) := by
  induction h with
  | nil => rfl
  | cons consumed _ _ ih =>
    rw [ih (hb.consume? consumed), hb.global_of_consume? consumed, declared_cons consumed,
      Declaration.latest?_append, Option.or_assoc]

theorem Course.get?_inner_eq (h : Course r s ts events s') (hs : s.zone = .body)
    (hinner : s.scopes.inner = [top]) (hts : .rightBrace ∉ ts.map Token.kind) :
    ∃ top', s'.scopes.inner = [top'] ∧ ∀ x, top'.get? x =
      (Declaration.latest? (s.declared ts) .body x).or (top.get? x) := by
  induction h generalizing top with
  | nil => exact ⟨top, hinner, fun x => rfl⟩
  | @cons s s₁ s' t ts _ _ consumed _ _ ih =>
    obtain ⟨ht, hts⟩ := not_or.mp (mt List.mem_cons.mpr hts)
    obtain ⟨top₁, hinner₁, hfirst⟩ := inner_of_consume? consumed hs hinner (Ne.symm ht)
    obtain ⟨top', hinner', hrest⟩ := ih (zone_of_consume? consumed hs (Ne.symm ht)) hinner₁ hts
    refine ⟨top', hinner', fun x => ?_⟩
    rw [hrest, hfirst, declared_cons consumed, Declaration.latest?_append, Option.or_assoc]

theorem nextId_le_of_consume? (h : s.consume? t = some (.ok ⟨events, s'⟩)) :
    s.nextId ≤ s'.nextId := by
  rw [nextId_of_consume? h]
  exact Nat.le_add_right _ _

theorem Course.nextId_le (h : Course r s ts events s') : s.nextId ≤ s'.nextId := by
  induction h with
  | nil => exact le_rfl
  | cons consumed _ _ ih => exact (nextId_le_of_consume? consumed).trans ih

/-- The numbers that tokens give to names are new, and used up afterwards. -/
theorem Course.id_bounds (h : Course r s ts events s') (hd : d ∈ s.declared ts) :
    ∃ id, d.binding.id? = some id ∧ s.nextId ≤ id ∧ id < s'.nextId := by
  induction h with
  | nil => cases hd
  | @cons s s₁ s' t ts _ _ consumed _ rest ih =>
    rw [declared_cons consumed, List.mem_append] at hd
    rcases hd with hd | hd
    · obtain ⟨-, -, hid, hnodes⟩ := Point.of_declaration? (Option.mem_toList.mp hd)
      have hlt : s.nextId < s₁.nextId := by
        rw [nextId_of_consume? consumed, hnodes]
        exact Nat.lt_succ_self _
      exact ⟨s.nextId, hid, le_rfl, hlt.trans_le rest.nextId_le⟩
    · obtain ⟨id, hid, hle, hlt⟩ := ih hd
      exact ⟨id, hid, (nextId_le_of_consume? consumed).trans hle, hlt⟩

theorem Course.begun_module (h : Course r s ts events s') :
    (Declaration.within .module s'.begun).Perm
      (Declaration.within .module (s.begun ++ s.declared ts)) := by
  induction h with
  | nil s => rw [declared, Point.declared, List.append_nil]
  | cons consumed _ _ ih =>
    rw [declared_cons consumed, ← List.append_assoc, Declaration.within_append]
    rw [Declaration.within_append] at ih
    exact ih.trans ((begun_module_of_consume? consumed).append_right _)

theorem Course.begun_perm (h : Course r s ts events s') (hts : .rightBrace ∉ ts.map Token.kind) :
    s'.begun.Perm (s.begun ++ s.declared ts) := by
  induction h with
  | nil s => rw [declared, Point.declared, List.append_nil]
  | cons consumed _ _ ih =>
    obtain ⟨ht, hts⟩ := not_or.mp (mt List.mem_cons.mpr hts)
    rw [declared_cons consumed, ← List.append_assoc]
    exact (ih hts).trans ((begun_of_consume? consumed (Ne.symm ht)).append_right _)

theorem Course.zone_of_declared (h : Course r s ts events s') (hs : s.zone = .body)
    (hts : .rightBrace ∉ ts.map Token.kind) : ∀ d ∈ s.declared ts, d.zone = .body := by
  induction h with
  | nil => exact List.forall_mem_nil _
  | cons consumed _ _ ih =>
    obtain ⟨ht, hts⟩ := not_or.mp (mt List.mem_cons.mpr hts)
    rw [declared_cons consumed, List.forall_mem_append]
    refine ⟨fun d hd => ?_, ih (zone_of_consume? consumed hs (Ne.symm ht)) hts⟩
    obtain ⟨hzone, -⟩ := Point.of_declaration? (Option.mem_toList.mp hd)
    exact hzone.trans hs

def StartsEmpty (s : ParseState) : Prop :=
  s.place.point = .declarations .body →
    s.scopes.inner = [.empty] ∧ Declaration.within .body s.begun = []

theorem Balanced.startsEmpty_of_consume? (hb : s.Balanced)
    (h : s.consume? t = some (.ok ⟨events, s'⟩)) : s'.StartsEmpty := by
  intro hp
  obtain ⟨hcolon, hkind⟩ := Point.of_next?_body (hp ▸ point_of_consume? h)
  have hs : s.zone = .module := congrArg Point.zone hcolon
  have hs' : s'.zone = .body := congrArg Point.zone hp
  constructor
  · cases scopeChange_of_consume? h with
    | kept _ zone => cases hs.symm.trans (zone.symm.trans hs')
    | declared _ _ _ zone => cases hs.symm.trans (zone.symm.trans hs')
    | entered _ _ scopes => rw [scopes, ScopeStack.push, hb.inner_eq_nil hs]
    | left inside => cases hs.symm.trans inside
  · have hgoes : t.kind ≠ .rightBrace := by simp [hkind]
    have hbegun := begun_of_consume? h hgoes
    have hnone : s.place.point.declaration? s.nextId t = none := by
      rw [hcolon]
      rfl
    rw [hnone, Option.toList_none, List.append_nil] at hbegun
    have hwithin : (Declaration.within .body s'.begun).Perm (Declaration.within .body s.begun) :=
      hbegun.filter _
    rw [within_body_begun hs] at hwithin
    exact hwithin.eq_nil

theorem Course.startsEmpty (h : Course r s ts events s') (hb : s.Balanced) (hs : s.StartsEmpty) :
    s'.StartsEmpty := by
  induction h with
  | nil => exact hs
  | cons consumed _ _ ih => exact ih (hb.consume? consumed) (hb.startsEmpty_of_consume? consumed)

end ParseState

/-- The tokens end inside a body, with `inside` behind its heading. -/
structure InsideBody (ts before inside : List Token) : Prop where
  split : ts = before ++ inside
  heading : ∃ front, ∃ h : List Token, before = front ++ h ∧ h.map Token.kind ∈ Grammar.heading
  unclosed : .rightBrace ∉ inside.map Token.kind

theorem inBody_iff_exists {ts : List Token} :
    Grammar.InBody (ts.map Token.kind) ↔ ∃ before inside, InsideBody ts before inside := by
  constructor
  · rintro ⟨front, h, hh, inside, hts, hinside⟩
    obtain ⟨before, rest, rfl, hbefore, rfl⟩ := List.map_eq_append_iff.mp hts
    obtain ⟨us, vs, rfl, rfl, rfl⟩ := List.map_eq_append_iff.mp hbefore
    exact ⟨us ++ vs, rest, rfl, ⟨us, vs, rfl, hh⟩, hinside⟩
  · rintro ⟨before, inside, rfl, ⟨front, h, rfl, hh⟩, hinside⟩
    exact ⟨front.map Token.kind, h.map Token.kind, hh, inside.map Token.kind, by simp, hinside⟩

namespace ParseState

variable {name : String} {source : Bytes} {ts before inside : List Token} {r : Reading}
  {events : List Event} {s : ParseState}

theorem Reached.exists_locals (h : Reached name source ts r events s)
    (hts : InsideBody ts before inside) : ∃ top locals, s.scopes.inner = [top] ∧
      Point.start.declared 0 ts = Point.start.declared 0 before ++ locals ∧
      (∀ d ∈ locals, d.zone = .body) ∧ (∀ x, top.get? x = Declaration.latest? locals .body x) ∧
      (Declaration.within .body s.begun).Perm locals := by
  obtain ⟨rfl, ⟨front, w, rfl, hw⟩, hinside⟩ := hts
  -- Behind the heading the parse is in a state that has no locals yet; the rest of the course
  -- stays in the body, so that all it declares is in the one scope.
  obtain ⟨s₁, told, later, hfront, hback⟩ := h.2.split
  have hfollow := point_of_steps hfront.steps_eq
  rw [List.map_append, Point.follow_append, Option.bind_eq_some_iff] at hfollow
  obtain ⟨p, -, hp⟩ := hfollow
  have hpoint := Point.eq_of_follow_heading hw hp
  have hs₁ : s₁.zone = .body := congrArg Point.zone hpoint
  have hb := balanced_initial name
  obtain ⟨hinner, hbegun⟩ := hfront.startsEmpty hb nofun hpoint
  obtain ⟨top, htop, hget⟩ := hback.get?_inner_eq hs₁ hinner hinside
  have hlocals := hback.zone_of_declared hs₁ hinside
  refine ⟨top, s₁.declared inside, htop, hfront.declared_append inside, hlocals, ?_, ?_⟩
  · intro x
    rw [hget, Table.get?_empty, Option.or_none]
  · have hperm : (Declaration.within .body s.begun).Perm
        (Declaration.within .body (s₁.begun ++ s₁.declared inside)) :=
      (hback.begun_perm hinside).filter _
    rwa [Declaration.within_append, hbegun, List.nil_append,
      Declaration.within_of_zone hlocals] at hperm

theorem Reached.inner_eq_nil (h : Reached name source ts r events s)
    (hts : ¬ Grammar.InBody (ts.map Token.kind)) : s.scopes.inner = [] := by
  apply h.balanced.inner_eq_nil
  rw [← Point.zone_eq_body_iff h.follow] at hts
  change ¬ s.zone = .body at hts
  cases hs : s.zone with
  | module => rfl
  | body => exact absurd hs hts

theorem Reached.global_eq (h : Reached name source ts r events s) (x : String) :
    s.scopes.global.get? x =
      (Declaration.latest? (Point.start.declared 0 ts) .module x).or (builtin? x) := by
  rw [h.2.get?_global_eq (balanced_initial name), ← get?_builtin]
  rfl

theorem Reached.begun_module (h : Reached name source ts r events s) :
    (Declaration.within .module s.begun).Perm
      (Declaration.within .module (Point.start.declared 0 ts)) :=
  h.2.begun_module

theorem Reached.exists_id (h : Reached name source ts r events s) {d : Declaration}
    (hd : d ∈ Point.start.declared 0 ts) :
    ∃ id, d.binding.id? = some id ∧ id < s.nextId := by
  obtain ⟨id, hid, -, hlt⟩ := h.2.id_bounds hd
  exact ⟨id, hid, hlt⟩

theorem Reached.global_cases (h : Reached name source ts r events s) {x : String} {b : Binding}
    (hx : s.scopes.global.get? x = some b) :
    (∃ id, b.id? = some id ∧ id < s.nextId) ∨ ∃ t : TypeName, b = .type t ∧ x = t.text := by
  rw [h.global_eq, Option.or_eq_some_iff] at hx
  rcases hx with hdeclared | ⟨-, hbuiltin⟩
  · obtain ⟨d, hd, rfl⟩ := Declaration.exists_of_latest? hdeclared
    exact Or.inl (h.exists_id hd)
  · obtain ⟨t, ht, rfl⟩ := Option.map_eq_some_iff.mp hbuiltin
    exact Or.inr ⟨t, rfl, (TypeName.ofText?_eq_some_iff.mp ht).symm⟩

theorem Reached.inner_cases (h : Reached name source ts r events s) {top : Scope}
    (htop : top ∈ s.scopes.inner) {x : String} {b : Binding} (hx : top.get? x = some b) :
    ∃ id, b.id? = some id ∧ id < s.nextId := by
  by_cases hbody : Grammar.InBody (ts.map Token.kind)
  · obtain ⟨before, inside, hts⟩ := inBody_iff_exists.mp hbody
    obtain ⟨top', locals, hinner, hall, -, hget, -⟩ := h.exists_locals hts
    rw [hinner, List.mem_singleton] at htop
    rw [htop, hget] at hx
    obtain ⟨d, hd, rfl⟩ := Declaration.exists_of_latest? hx
    exact h.exists_id (hall ▸ List.mem_append_right _ hd)
  · rw [h.inner_eq_nil hbody] at htop
    cases htop

end ParseState

open ParseState in
/-- At each state of a parse the scopes bind what has been declared so far, each name to the node
that was declared last under it, and nothing else. The parser is at such a state whenever it asks
for a token and when it has stopped. -/
theorem scopes_mirror_declarations (name : String) (source : Bytes) :
    (∀ ts r events s, Reached name source ts r events s →
      (∀ x, s.scopes.global.get? x =
        (Declaration.latest? (Point.start.declared 0 ts) .module x).or (builtin? x)) ∧
      (Declaration.within .module s.begun).Perm
        (Declaration.within .module (Point.start.declared 0 ts)) ∧
      (∀ before inside, InsideBody ts before inside → ∃ top locals, s.scopes.inner = [top] ∧
        Point.start.declared 0 ts = Point.start.declared 0 before ++ locals ∧
        (∀ d ∈ locals, d.zone = .body) ∧ (∀ x, top.get? x = Declaration.latest? locals .body x) ∧
        (Declaration.within .body s.begun).Perm locals) ∧
      ((∀ before inside, ¬ InsideBody ts before inside) → s.scopes.inner = []) ∧
      (∀ x t, s.scopes.global.get? x = some (.type t) → x = t.text) ∧
      (∀ top ∈ s.scopes.inner, ∀ x t, top.get? x ≠ some (.type t)) ∧
      (∀ scope ∈ s.scopes.scopes, ∀ x b id, scope.get? x = some b → b.id? = some id →
        id < s.nextId) ∧
      s.close.value = ⟨[], s.scopes.global⟩) ∧
    (∃ ts r events s, Reached name source ts r events s ∧
      Module.parse name source =
        .after (.scanned (Reading.ofSource source).head :: events) (s.run r) ∧
      Ends s (s.run r)) ∧
    ∀ p, (Parser.start name source).value = .ok p → ∃ o, Parsing.module p = some o ∧
      (∀ i q, o.asked[i]? = some q → ∃ ts events s, ts.length = i ∧
        Reached name source ts q.reading events s ∧ q.scopes = s.scopes ∧
        s.nextId ≤ q.nextId) ∧
      ∃ ts r events s, Reached name source ts r events s ∧ (∃ closing x, Halts s r closing x) ∧
        o.parser.scopes = s.close.value ∧ s.nextId ≤ o.parser.nextId := by
  refine ⟨fun ts r events s h => ?_, exists_reached_end name source, fun p hp => ?_⟩
  · refine ⟨h.global_eq, h.begun_module, fun _ _ hts => h.exists_locals hts, ?_, ?_, ?_, ?_,
      h.balanced.close_value⟩
    · intro hts
      refine h.inner_eq_nil fun hbody => ?_
      obtain ⟨before, inside, hinside⟩ := inBody_iff_exists.mp hbody
      exact hts before inside hinside
    · intro x t hx
      rcases h.global_cases hx with ⟨id, hid, -⟩ | ⟨u, hu, rfl⟩
      · cases hid
      · cases hu
        rfl
    · intro top htop x t hx
      obtain ⟨id, hid, -⟩ := h.inner_cases htop hx
      cases hid
    · intro scope hscope x b id hx hb
      rcases List.mem_append.mp hscope with hinner | hglobal
      · obtain ⟨id', hid, hlt⟩ := h.inner_cases hinner hx
        cases hb.symm.trans hid
        exact hlt
      · obtain rfl := List.mem_singleton.mp hglobal
        rcases h.global_cases hx with ⟨id', hid, hlt⟩ | ⟨u, rfl, -⟩
        · cases hb.symm.trans hid
          exact hlt
        · cases hb
  · obtain ⟨o, ho, -⟩ := Parsing.takes_module p
    refine ⟨o, ho, fun i q hi => ?_, Parser.reached_of_stopped hp ho⟩
    obtain ⟨ts, events, s, hlength, hreached, htracks⟩ := Parser.reached_of_asked hp ho hi
    exact ⟨ts, events, s, hlength, hreached, htracks.scopes, htracks.nextId⟩

/-- The body has a local of its own, and the procedure is bound outside. -/
theorem tables_of_unfinished_body :
    let heading : List Token := [⟨.proc, ⟨1, 1⟩⟩, ⟨.identifier "a", ⟨1, 6⟩⟩,
      ⟨.leftParen, ⟨1, 7⟩⟩, ⟨.rightParen, ⟨1, 8⟩⟩, ⟨.colon, ⟨1, 9⟩⟩, ⟨.identifier "int", ⟨1, 11⟩⟩]
    let inside : List Token := [⟨.var, ⟨1, 15⟩⟩, ⟨.identifier "x", ⟨1, 19⟩⟩, ⟨.colon, ⟨1, 20⟩⟩,
      ⟨.identifier "char", ⟨1, 22⟩⟩, ⟨.semicolon, ⟨1, 26⟩⟩]
    ∃ r events s, ParseState.Reached "m" (utf8 "proc a(): int var x: char;")
        (heading ++ inside) r events s ∧
      s.scopes.global.get? "a" = some (.proc 0) ∧
      s.scopes.global.get? "int" = some (.type .int) ∧ s.scopes.global.get? "x" = none ∧
      ∃ top, s.scopes.inner = [top] ∧ top.get? "x" = some (.var 1) ∧
        top.get? "a" = none := by
  intro heading inside
  have hread : Reading.ofSource (utf8 "proc a(): int var x: char;") =
      .prepend (heading ++ inside) (.eof ⟨1, 27⟩) :=
    Reading.tokens_eq_ok_iff.mp (by decide +kernel)
  obtain ⟨s, hs⟩ : ∃ s, (ParseState.initial "m").steps (heading ++ inside) = .ok s := ⟨_, rfl⟩
  obtain ⟨events, hcourse⟩ := ParseState.exists_course_of_steps (r := .eof ⟨1, 27⟩) hs nofun
  obtain ⟨hstates, -⟩ := scopes_mirror_declarations "m" (utf8 "proc a(): int var x: char;")
  obtain ⟨hglobal, -, hinner, -⟩ := hstates _ _ _ s ⟨hread, hcourse⟩
  have hbody : InsideBody (heading ++ inside) heading inside :=
    ⟨rfl, ⟨[], heading, rfl, rfl⟩, by decide⟩
  obtain ⟨top, locals, htop, hall, -, hget, -⟩ := hinner _ _ hbody
  obtain rfl : locals = [⟨.body, "x", .var 1⟩] := List.append_cancel_left (hall.symm.trans rfl)
  refine ⟨_, events, s, ⟨hread, hcourse⟩, ?_, ?_, ?_, top, htop, ?_, ?_⟩
  · rw [hglobal]; rfl
  · rw [hglobal]; rfl
  · rw [hglobal]; rfl
  · rw [hget]; rfl
  · rw [hget]; rfl

/-- The procedure takes the name of the variable, and in its body the second local that of the
first. -/
example : (Reading.ofSource (utf8 "var a: int; proc a(): void var x: int; x: char;")).tokens.map
    (fun (ts, _) => Point.start.declared 0 ts) =
      .ok [⟨.module, "a", .var 0⟩, ⟨.module, "a", .proc 1⟩, ⟨.body, "x", .var 2⟩,
        ⟨.body, "x", .var 3⟩] := by
  decide +kernel

end ProcLang
