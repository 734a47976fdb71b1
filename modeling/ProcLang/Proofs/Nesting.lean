import ProcLang.Proofs.Step

/-! # The scopes of a run

Inside the global scope a scope is open exactly while a body is parsed. A token keeps that, so the
scope of a body is there to be closed wherever the parser gives up. -/
namespace ProcLang

namespace Point

/-- Whose names the innermost scope holds. -/
def zone : Point → Zone
  | .declarations z => z
  | .varKeyword z => z
  | .varName z => z
  | .varColon z => z
  | .varType z => z
  | .group z => z
  | .statements => .body
  | .leftOperand => .body
  | .equals => .body
  | .rightOperand => .body
  | _ => .module

def declares : Point → Bool
  | .varKeyword _ => true
  | .group _ => true
  | .procKeyword => true
  | _ => false

theorem zone_of_isEnd {p : Point} (h : p.isEnd = true) : p.zone = .module := by
  rcases p with (_ | _) | _ | _ | _ | _ | (_ | _) | _ <;> first | rfl | cases h

end Point

/-- How many scopes are open inside the global one. -/
def Zone.nesting : Zone → ℕ
  | .module => 0
  | .body => 1

def Event.isScope : Event → Bool
  | .scopePushed _ => true
  | .scopePopped _ => true
  | _ => false

namespace ParseState

variable {s s' : ParseState} {t : Token} {events : List Event}

def zone (s : ParseState) : Zone := s.place.point.zone

theorem zone_region (s : ParseState) : s.place.region.zone = s.zone := by
  obtain ⟨place, _, _, _⟩ := s
  cases place <;> rfl

theorem zone_of_isEnd (h : s.place.isEnd = true) : s.zone = .module :=
  Point.zone_of_isEnd (s.place.isEnd_point.trans h)

/-- The only changes to the scopes that consuming a token can make, and the events that tell of
them. -/
inductive ScopeChange (s : ParseState) (t : Token) (events : List Event) (s' : ParseState) :
    Prop where
  | kept (scopes : s'.scopes = s.scopes) (zone : s'.zone = s.zone)
      (told : events.filter Event.isScope = [])
  | declared {x b} (here : s.place.point.declares = true) (name : t.terminal = .identifier x)
      (scopes : s'.scopes = s.scopes.declare x b) (zone : s'.zone = s.zone)
      (told : events.filter Event.isScope = [])
  | entered (outside : s.zone = .module) (inside : s'.zone = .body)
      (scopes : s'.scopes = s.scopes.push)
      (told : events.filter Event.isScope = [.scopePushed s'.scopes.depth])
  | left {top} (inside : s.zone = .body) (outside : s'.zone = .module)
      (scopes : s.scopes.pop = .ok (top, s'.scopes))
      (told : events.filter Event.isScope = [.scopePopped s'.scopes.depth])

theorem resolve_bind_cases {name : String} {l : Location} {next : TypeName → Consumption}
    {c : Consumption} (h : (s.resolve name l >>= next) = c) :
    (∃ type, next type = c) ∨ ∃ fault, c = .error (.ofTypeFault name l fault) := by
  subst h
  unfold resolve
  rcases s.scopes.lookup name with _ | (t | _ | _)
  · exact Or.inr ⟨.unknown, rfl⟩
  · exact Or.inl ⟨t, rfl⟩
  · exact Or.inr ⟨.notAType, rfl⟩
  · exact Or.inr ⟨.notAType, rfl⟩

theorem exists_of_resolve {name : String} {l : Location} {next : TypeName → Consumption}
    {c : Logged ParseState} (h : (s.resolve name l >>= next) = .ok c) :
    ∃ type, next type = .ok c := by
  obtain htype | ⟨fault, he⟩ := resolve_bind_cases h
  · exact htype
  · cases he

theorem scopeChange_of_leaveBody {p : OpenProc} {b : OpenBlock} (hs : s.zone = .body)
    (h : s.leaveBody p b = .ok ⟨events, s'⟩) : ScopeChange s t events s' := by
  unfold leaveBody ScopeStack.leave at h
  cases hpop : s.scopes.pop with
  | error e =>
    rw [hpop] at h
    cases h
  | ok below =>
    rw [hpop] at h
    cases h
    exact .left hs rfl hpop rfl

theorem scopeChange_of_declaration? {r : Region} (hs : s.zone = r.zone)
    (h : s.declaration? r t = some (.ok ⟨events, s'⟩)) : ScopeChange s t events s' := by
  obtain ⟨u, l⟩ := t
  cases r <;> cases u <;> cases h <;> exact .kept rfl hs.symm rfl

theorem scopeChange_of_consume? (h : s.consume? t = some (.ok ⟨events, s'⟩)) :
    ScopeChange s t events s' := by
  obtain ⟨place, scopes, id, m⟩ := s
  obtain ⟨u, l⟩ := t
  cases place with
  | declarations r => exact scopeChange_of_declaration? rfl h
  | varKeyword r =>
    cases u <;> cases h
    exact .declared rfl rfl rfl rfl rfl
  | group r =>
    cases u with
    | identifier x =>
      cases h
      exact .declared rfl rfl rfl rfl rfl
    | _ => exact scopeChange_of_declaration? rfl h
  | procKeyword l' =>
    cases u <;> cases h
    exact .declared rfl rfl rfl rfl rfl
  | varColon r hd =>
    cases u with
    | identifier x =>
      obtain ⟨type, hn⟩ | ⟨fault, he⟩ := resolve_bind_cases (Option.some.inj h)
      · cases hn
        exact .kept rfl rfl rfl
      · cases he
    | _ => cases h
  | varType r v =>
    cases u <;> cases r <;> cases h <;> exact .kept rfl rfl rfl
  | procColon hd =>
    cases u with
    | identifier x =>
      obtain ⟨type, hn⟩ | ⟨fault, he⟩ := resolve_bind_cases (Option.some.inj h)
      · cases hn
        exact .entered rfl rfl rfl rfl
      · cases he
    | _ => cases h
  | statements p b =>
    cases u with
    | rightBrace => exact scopeChange_of_leaveBody rfl (Option.some.inj h)
    | identifier x =>
      cases h
      exact .kept rfl rfl rfl
    | intLiteral n =>
      cases h
      exact .kept rfl rfl rfl
    | _ => cases h
  | _ =>
    cases u <;> cases h <;> exact .kept rfl rfl rfl

theorem fault_of_consume? {e : ParseError} (h : s.consume? t = some (.error e)) :
    (∃ name l fault, e = .ofTypeFault name l fault) ∨ s.zone = .body ∧ s.scopes.inner = [] := by
  obtain ⟨place, scopes, id, m⟩ := s
  obtain ⟨u, l⟩ := t
  cases place with
  | declarations r => cases r <;> cases u <;> cases h
  | group r => cases r <;> cases u <;> cases h
  | varType r v => cases u <;> cases r <;> cases h
  | varColon r hd =>
    cases u with
    | identifier x =>
      obtain ⟨type, hn⟩ | ⟨fault, he⟩ := resolve_bind_cases (Option.some.inj h)
      · cases hn
      · exact Or.inl ⟨x, l, fault, Except.error.inj he⟩
    | _ => cases h
  | procColon hd =>
    cases u with
    | identifier x =>
      obtain ⟨type, hn⟩ | ⟨fault, he⟩ := resolve_bind_cases (Option.some.inj h)
      · cases hn
      · exact Or.inl ⟨x, l, fault, Except.error.inj he⟩
    | _ => cases h
  | statements p b =>
    cases u with
    | rightBrace =>
      obtain ⟨_ | ⟨top, inner⟩, global⟩ := scopes
      · exact Or.inr ⟨rfl, rfl⟩
      · cases h
    | _ => cases h
  | _ => cases u <;> cases h

/-- Inside the global scope there is that of the body that has begun, if one has. -/
def Balanced (s : ParseState) : Prop := s.scopes.inner.length = s.zone.nesting

theorem balanced_initial (name : String) : (initial name).Balanced := rfl

theorem Balanced.depth_eq (h : s.Balanced) : s.scopes.depth = s.zone.nesting + 1 := by
  rw [ScopeStack.depth_eq, h]

theorem Balanced.exists_inner (h : s.Balanced) (hs : s.zone = .body) :
    ∃ top, s.scopes = ⟨[top], s.scopes.global⟩ := by
  rw [Balanced, hs] at h
  obtain ⟨top, hinner⟩ := List.length_eq_one_iff.mp h
  exact ⟨top, by rw [← hinner]⟩

theorem Balanced.inner_eq_nil (h : s.Balanced) (hs : s.zone = .module) : s.scopes.inner = [] := by
  rw [Balanced, hs] at h
  exact List.length_eq_zero_iff.mp h

theorem Balanced.scopes_of_pop (h : s.Balanced) (hs : s.zone = .body) {top : Scope}
    {below : ScopeStack} (hpop : s.scopes.pop = .ok (top, below)) :
    below = ⟨[], s.scopes.global⟩ := by
  obtain ⟨top', hscopes⟩ := h.exists_inner hs
  rw [hscopes] at hpop
  cases hpop
  rfl

theorem inner_length_declare (scopes : ScopeStack) (x : String) (b : Binding) :
    (scopes.declare x b).inner.length = scopes.inner.length := by
  obtain ⟨_ | ⟨top, inner⟩, global⟩ := scopes <;> rfl

theorem Balanced.consume? (hb : s.Balanced) (h : s.consume? t = some (.ok ⟨events, s'⟩)) :
    s'.Balanced := by
  cases scopeChange_of_consume? h with
  | kept scopes zone => rw [Balanced, scopes, zone, hb]
  | declared _ _ scopes zone => rw [Balanced, scopes, zone, inner_length_declare, hb]
  | entered outside inside scopes =>
    rw [Balanced, scopes, inside, ScopeStack.push, hb.inner_eq_nil outside]
    rfl
  | left inside outside scopes =>
    rw [Balanced, outside, hb.scopes_of_pop inside scopes]
    rfl

theorem Balanced.fault (hb : s.Balanced) {e : ParseError}
    (h : s.consume? t = some (.error e)) : ∃ name l fault, e = .ofTypeFault name l fault := by
  obtain hf | ⟨inside, hinner⟩ := fault_of_consume? h
  · exact hf
  · obtain ⟨top, hs⟩ := hb.exists_inner inside
    rw [hs] at hinner
    cases hinner

/-- The scopes as they are left when the parser gives up. -/
def close (s : ParseState) : Logged ScopeStack :=
  match s.place.region with
  | .module => ⟨[], s.scopes⟩
  | .body _ => match s.scopes.leave with
    | .ok left => left.map Prod.snd
    | .error _ => ⟨[], s.scopes⟩

theorem close_of_module (hs : s.zone = .module) : s.close = ⟨[], s.scopes⟩ := by
  rw [← zone_region] at hs
  unfold close
  cases hr : s.place.region with
  | module => rfl
  | body p =>
    rw [hr] at hs
    cases hs

/-- Where the scope of the body is there to be closed, giving up reports the given error. -/
theorem Balanced.abandon_eq (hb : s.Balanced) (e : ParseError) :
    s.abandon e = s.close.map fun _ => .error e := by
  unfold abandon close
  cases hr : s.place.region with
  | module => rfl
  | body p =>
    obtain ⟨top, hscopes⟩ := hb.exists_inner (by rw [← zone_region, hr]; rfl)
    rw [hscopes]
    rfl

theorem Balanced.close_of_body (hb : s.Balanced) (hs : s.zone = .body) :
    s.close = ⟨[.scopePopped 1], ⟨[], s.scopes.global⟩⟩ := by
  obtain ⟨top, hscopes⟩ := hb.exists_inner hs
  rw [← zone_region] at hs
  unfold close
  cases hr : s.place.region with
  | module =>
    rw [hr] at hs
    cases hs
  | body p =>
    rw [hscopes]
    rfl

theorem Balanced.close_value (hb : s.Balanced) : s.close.value = ⟨[], s.scopes.global⟩ := by
  cases hs : s.zone with
  | module => rw [close_of_module hs, ← hb.inner_eq_nil hs]
  | body => rw [hb.close_of_body hs]

theorem advance_eq_ok_iff :
    s.advance t = .ok s' ↔ ∃ events, s.consume? t = some (.ok ⟨events, s'⟩) := by
  unfold advance
  constructor
  · intro h
    cases hc : s.consume? t with
    | none =>
      rw [hc] at h
      cases h
    | some c =>
      rw [hc] at h
      rcases c with e | ⟨events, u⟩ <;> cases h
      exact ⟨events, rfl⟩
  · rintro ⟨events, hc⟩
    rw [hc]
    rfl

theorem Balanced.advance (hb : s.Balanced) (h : s.advance t = .ok s') : s'.Balanced := by
  obtain ⟨events, hc⟩ := advance_eq_ok_iff.mp h
  exact hb.consume? hc

theorem Balanced.steps {ts : List Token} (hb : s.Balanced) (h : s.steps ts = .ok s') :
    s'.Balanced := by
  induction ts generalizing s with
  | nil =>
    cases h
    exact hb
  | cons t ts ih =>
    rw [steps_cons] at h
    cases ha : s.advance t with
    | error e =>
      rw [ha] at h
      cases h
    | ok u =>
      rw [ha] at h
      exact ih (hb.advance ha) h

theorem run_of_ok {rest : Reading} (h : s.consume? t = some (.ok ⟨events, s'⟩))
    (hr : ∀ f, rest ≠ .failed f) : s.run (.token t rest) =
      .after ([.scanned rest.head, .consumed (.token t)] ++ events) (s'.run rest) := by
  cases rest with
  | failed f => exact absurd rfl (hr f)
  | eof l =>
    conv_lhs => rw [run, h]
    rfl
  | token u rest =>
    conv_lhs => rw [run, h]
    rfl

theorem run_of_error {rest : Reading} {e : ParseError} (h : s.consume? t = some (.error e))
    (hr : ∀ f, rest ≠ .failed f) : s.run (.token t rest) =
      .after [.scanned rest.head, .consumed (.token t)] (s.abandon e) := by
  cases rest with
  | failed f => exact absurd rfl (hr f)
  | eof l =>
    rw [run, h]
    rfl
  | token u rest =>
    rw [run, h]
    rfl

theorem Balanced.abandon_value (hb : s.Balanced) (e : ParseError) :
    (s.abandon e).value = .error e := by
  rw [hb.abandon_eq]
  rfl

theorem Balanced.run_eof (hb : s.Balanced) (l : Location) : (s.run (.eof l)).value =
    if s.place.isEnd then .ok s.module else .error (.unexpected s.place.expected .eof l) := by
  unfold run
  split
  · rfl
  · exact hb.abandon_value _

theorem Balanced.run_failed (hb : s.Balanced) (e : LexError) :
    (s.run (.failed e)).value = .error (.lexical e) :=
  hb.abandon_value _

theorem Balanced.run_refused (hb : s.Balanced) {rest : Reading} (h : s.consume? t = none) :
    (s.run (.token t rest)).value =
      .error (.unexpected s.place.expected t.kind t.location) := by
  simp [run, h, hb.abandon_value]

/-- An error behind the token comes before what the token does. -/
theorem Balanced.run_before_failed (hb : s.Balanced) {e : LexError} (h : s.consume? t ≠ none) :
    (s.run (.token t (.failed e))).value = .error (.lexical e) := by
  obtain ⟨c, hc⟩ := Option.ne_none_iff_exists'.mp h
  simp [run, hc, Reading.head, Logged.after, hb.abandon_value]

theorem Balanced.run_advance (hb : s.Balanced) {rest : Reading} (h : s.advance t = .ok s') :
    (s.run (.token t rest)).value = (s'.run rest).value := by
  obtain ⟨events, hc⟩ := advance_eq_ok_iff.mp h
  by_cases hr : ∃ e, rest = .failed e
  · obtain ⟨e, rfl⟩ := hr
    rw [hb.run_before_failed (by simp [hc]), (hb.consume? hc).run_failed]
  · rw [run_of_ok hc fun e he => hr ⟨e, he⟩]
    rfl

theorem Balanced.run_faulty (hb : s.Balanced) {rest : Reading} {e : ParseError}
    (h : s.consume? t = some (.error e)) (hr : ∀ f, rest ≠ .failed f) :
    (s.run (.token t rest)).value = .error e := by
  rw [run_of_error h hr]
  exact hb.abandon_value e

theorem Balanced.run_steps {ts : List Token} {r : Reading} (hb : s.Balanced)
    (h : s.steps ts = .ok s') : (s.run (.prepend ts r)).value = (s'.run r).value := by
  induction ts generalizing s with
  | nil =>
    cases h
    rfl
  | cons t ts ih =>
    rw [steps_cons] at h
    cases ha : s.advance t with
    | error e =>
      rw [ha] at h
      cases h
    | ok u =>
      rw [ha] at h
      rw [Reading.prepend_cons, hb.run_advance ha]
      exact ih (hb.advance ha) h

end ParseState

end ProcLang
