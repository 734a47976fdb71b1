import ProcLang.Proofs.Keeping
import ProcLang.Proofs.Lexicon
import ProcLang.Proofs.Simulation

/-! # Balance of scopes

The scope of a body is opened behind the return type of its procedure and closed at its end or at
the error that the parse gives up with, wherever that is. How many scopes are open is told by the
kinds of the tokens consumed so far, and the log tells of one opening and one closing in turn. -/
namespace ProcLang

/-- The kinds end inside a body: a heading is among them, and no brace has closed what follows it.
-/
def Grammar.InBody (kinds : List TokenKind) : Prop :=
  ∃ before, ∃ h ∈ heading, ∃ inside, kinds = before ++ h ++ inside ∧ .rightBrace ∉ inside

namespace Point

variable {p q : Point} {k : TokenKind} {kinds : List TokenKind}

/-- The kinds of a heading that stand before a point within it. -/
def heading : Point → List TokenKind
  | .procKeyword => [.proc]
  | .procName => [.proc, .identifier]
  | .procLeftParen => [.proc, .identifier, .leftParen]
  | .procRightParen => [.proc, .identifier, .leftParen, .rightParen]
  | .procColon => [.proc, .identifier, .leftParen, .rightParen, .colon]
  | _ => []

theorem heading_suffix_of_next? (h : p.next? k = some q) : q.heading <:+ p.heading ++ [k] := by
  rcases p with (_ | _) | _ | _ | _ | _ | (_ | _) | _ <;> cases k <;> cases h <;>
    first
    | exact List.nil_suffix
    | exact List.suffix_rfl

theorem heading_suffix_of_follow (h : start.follow kinds = some q) : q.heading <:+ kinds :=
  suffix_of_follow rfl heading_suffix_of_next? h

theorem zone_of_next? (h : p.next? k = some q) (hp : p.zone = .body) (hk : k ≠ .rightBrace) :
    q.zone = .body := by
  rcases p with (_ | _) | (_ | _) | (_ | _) | (_ | _) | (_ | _) | (_ | _) | _ <;> cases k <;>
    cases h <;> first | rfl | exact absurd rfl hk | cases hp

theorem zone_before (h : p.next? k = some q) (hq : q.zone = .body) :
    p.zone = .body ∧ k ≠ .rightBrace ∨ p = .procColon ∧ k = .identifier := by
  rcases p with (_ | _) | (_ | _) | (_ | _) | (_ | _) | (_ | _) | (_ | _) | _ <;> cases k <;>
    cases h <;>
    first
    | exact Or.inr ⟨rfl, rfl⟩
    | exact Or.inl ⟨rfl, by decide⟩
    | cases hq

theorem kept_of_follow {P : Point → Prop}
    (hstep : ∀ {p q k}, next? p k = some q → P p → k ≠ .rightBrace → P q)
    (h : p.follow kinds = some q) (hp : P p) (hk : .rightBrace ∉ kinds) : P q := by
  induction kinds generalizing p with
  | nil =>
    cases h
    exact hp
  | cons k kinds ih =>
    rw [follow_cons, Option.bind_eq_some_iff] at h
    obtain ⟨r, hr, h⟩ := h
    obtain ⟨hne, hk⟩ := not_or.mp (mt List.mem_cons.mpr hk)
    exact ih h (hstep hr hp (Ne.symm hne)) hk

theorem eq_of_follow_heading {w : List TokenKind} (hw : w ∈ Grammar.heading)
    (h : p.follow w = some q) : q = .declarations .body := by
  obtain rfl : w = [.proc, .identifier, .leftParen, .rightParen, .colon, .identifier] := hw
  rcases p with (_ | _) | _ | _ | _ | _ | (_ | _) | _ <;> cases h
  all_goals rfl

theorem zone_eq_body_iff (h : start.follow kinds = some q) :
    q.zone = .body ↔ Grammar.InBody kinds := by
  constructor
  · intro hq
    induction kinds using List.reverseRecOn generalizing q with
    | nil =>
      cases h
      cases hq
    | append_singleton kinds k ih =>
      obtain ⟨p, hp, hk⟩ := exists_of_follow_append_singleton h
      rcases zone_before hk hq with ⟨hzone, hne⟩ | ⟨rfl, rfl⟩
      · obtain ⟨before, w, hw, inside, rfl, hinside⟩ := ih hp hzone
        refine ⟨before, w, hw, inside ++ [k], by simp, ?_⟩
        simpa using ⟨hinside, Ne.symm hne⟩
      · obtain ⟨before, rfl⟩ := heading_suffix_of_follow hp
        exact ⟨before, _, rfl, [], by simp [heading], List.not_mem_nil⟩
  · rintro ⟨before, w, hw, inside, rfl, hinside⟩
    rw [follow_append, Option.bind_eq_some_iff] at h
    obtain ⟨p, hp, hq⟩ := h
    rw [follow_append, Option.bind_eq_some_iff] at hp
    obtain ⟨_, -, hp⟩ := hp
    obtain rfl := eq_of_follow_heading hw hp
    exact kept_of_follow (P := (·.zone = .body)) zone_of_next? hq rfl hinside

def inProc : Point → Bool
  | .procName => true
  | .procLeftParen => true
  | .procRightParen => true
  | .procColon => true
  | p => p.zone = .body

theorem inProc_of_next? (h : p.next? k = some q) (hp : p.inProc = true) (hk : k ≠ .rightBrace) :
    q.inProc = true := by
  rcases p with (_ | _) | (_ | _) | (_ | _) | (_ | _) | (_ | _) | (_ | _) | _ <;> cases k <;>
    cases h <;> first | rfl | exact absurd rfl hk | cases hp

theorem inProc_of_follow (h : p.follow kinds = some q) (hp : p.inProc = true)
    (hk : .rightBrace ∉ kinds) : q.inProc = true :=
  kept_of_follow (P := (inProc · = true)) inProc_of_next? h hp hk

theorem isEnd_of_inProc (hp : p.inProc = true) : p.isEnd = false := by
  rcases p with (_ | _) | _ | _ | _ | _ | (_ | _) | _ <;> first | rfl | cases hp

theorem zone_of_declares (hp : p.inProc = true) (hd : p.declares = true) : p.zone = .body := by
  rcases p with (_ | _) | (_ | _) | (_ | _) | (_ | _) | (_ | _) | (_ | _) | _ <;>
    first
    | rfl
    | exact absurd hd (by decide)
    | exact absurd hp (by decide)

theorem eq_of_next?_procKeyword (h : procKeyword.next? k = some q) : q = .procName := by
  cases k <;> cases h
  rfl

theorem of_next?_proc (h : p.next? .proc = some q) : p.zone = .module ∧ q = .procKeyword := by
  rcases p with (_ | _) | _ | _ | _ | _ | (_ | _) | _ <;> cases h
  all_goals exact ⟨rfl, rfl⟩

theorem eq_of_next?_rightBrace (h : p.next? .rightBrace = some q) :
    q = .declarations .module := by
  rcases p with (_ | _) | _ | _ | _ | _ | (_ | _) | _ <;> cases h
  rfl

end Point

namespace ParseState

variable {s s' : ParseState} {t : Token} {ts us : List Token} {events : List Event} {r : Reading}

theorem point_of_consume? (h : s.consume? t = some (.ok ⟨events, s'⟩)) :
    s.place.point.next? t.kind = some s'.place.point := by
  refine point_of_advance ?_
  rw [advance, h]
  rfl

theorem get?_global_declare (scopes : ScopeStack) (b : Binding) {x y : String} (h : x ≠ y) :
    (scopes.declare y b).global.get? x = scopes.global.get? x := by
  obtain ⟨_ | ⟨top, inner⟩, global⟩ := scopes
  · simp [ScopeStack.declare, Table.get?_insert, h]
  · rfl

theorem Balanced.global_cases (hb : s.Balanced) (h : s.consume? t = some (.ok ⟨events, s'⟩)) :
    s'.scopes.global = s.scopes.global ∨ ∃ x b, s.place.point.declares = true ∧
      t.terminal = .identifier x ∧ s'.scopes = s.scopes.declare x b := by
  cases scopeChange_of_consume? h with
  | kept scopes => exact Or.inl (by rw [scopes])
  | declared here name scopes => exact Or.inr ⟨_, _, here, name, scopes⟩
  | entered _ _ scopes => exact Or.inl (by rw [scopes]; rfl)
  | left inside _ scopes => exact Or.inl (by rw [hb.scopes_of_pop inside scopes])

theorem Balanced.get?_global (hb : s.Balanced) (h : s.consume? t = some (.ok ⟨events, s'⟩))
    {x : String} (hx : t.terminal ≠ .identifier x) :
    s'.scopes.global.get? x = s.scopes.global.get? x := by
  rcases hb.global_cases h with hglobal | ⟨y, b, -, name, scopes⟩
  · rw [hglobal]
  · have hne : x ≠ y := by
      rintro rfl
      exact hx name
    rw [scopes, get?_global_declare _ b hne]

theorem Balanced.global_of_inProc (hb : s.Balanced)
    (h : s.consume? t = some (.ok ⟨events, s'⟩)) (hp : s.place.point.inProc = true) :
    s'.scopes.global = s.scopes.global := by
  rcases hb.global_cases h with hglobal | ⟨x, b, here, -, scopes⟩
  · exact hglobal
  · obtain ⟨top, hs⟩ := hb.exists_inner (Point.zone_of_declares hp here)
    rw [scopes, hs]
    rfl

theorem Course.global_eq (h : Course r s us events s') (hb : s.Balanced)
    (hp : s.place.point.inProc = true) (hus : ∀ u ∈ us.dropLast, u.kind ≠ .rightBrace) :
    s'.scopes.global = s.scopes.global := by
  induction h with
  | nil => rfl
  | @cons s s₁ s' t ts _ _ consumed _ rest ih =>
    have hglobal := hb.global_of_inProc consumed hp
    cases ts with
    | nil =>
      cases rest
      exact hglobal
    | cons u ts =>
      have ht : t.kind ≠ .rightBrace := hus t List.mem_cons_self
      have hp₁ := Point.inProc_of_next? (point_of_consume? consumed) hp ht
      rw [← hglobal]
      exact ih (hb.consume? consumed) hp₁ fun v hv => hus v (List.mem_cons_of_mem _ hv)

/-- Tokens of a procedure from its keyword on, up to some place in it or to its end. -/
def Procedural (us : List Token) : Prop :=
  us.head?.map Token.terminal = some .proc ∧ ∀ u ∈ us.dropLast, u.kind ≠ .rightBrace

theorem Course.zone_of_procedural (h : Course r s us events s') (hus : Procedural us) :
    s.zone = .module := by
  cases h with
  | nil => cases hus.1
  | @cons _ s₁ _ t ts _ _ consumed =>
    have ht : t.terminal = .proc := Option.some.inj hus.1
    have hnext := point_of_consume? consumed
    rw [Token.kind, ht] at hnext
    exact (Point.of_next?_proc hnext).1

theorem Course.get?_global (h : Course r s us events s') (hb : s.Balanced) (hus : Procedural us)
    {x : String} (hx : us[1]?.map Token.terminal ≠ some (.identifier x)) :
    s'.scopes.global.get? x = s.scopes.global.get? x := by
  obtain ⟨hhead, hinside⟩ := hus
  cases h with
  | nil => rfl
  | @cons _ s₁ _ t ts _ _ consumed _ rest =>
    have ht : t.terminal = .proc := Option.some.inj hhead
    have hfirst := hb.get?_global consumed (x := x) (by rw [ht]; exact nofun)
    have hnext := point_of_consume? consumed
    rw [Token.kind, ht] at hnext
    obtain ⟨-, hkeyword⟩ := Point.of_next?_proc hnext
    have hb₁ := hb.consume? consumed
    cases rest with
    | nil => exact hfirst
    | @cons _ s₂ _ u vs _ _ consumed' _ rest' =>
      have hu : u.terminal ≠ .identifier x := fun hu => hx (congrArg some hu)
      have hsecond := hb₁.get?_global consumed' hu
      have hname := point_of_consume? consumed'
      rw [hkeyword] at hname
      have hin : s₂.place.point.inProc = true := by
        rw [Point.eq_of_next?_procKeyword hname]
        rfl
      have hrest := rest'.global_eq (hb₁.consume? consumed') hin fun v hv =>
        hinside v (by
          cases vs with
          | nil => cases hv
          | cons w vs => exact List.mem_cons_of_mem _ (List.mem_cons_of_mem _ hv))
      rw [hrest, hsecond, hfirst]

theorem Course.zone_of_rightBrace (h : Course r s us events s')
    (hlast : us.getLast?.map Token.kind = some .rightBrace) : s'.zone = .module := by
  obtain ⟨t, ht, hkind⟩ := Option.map_eq_some_iff.mp hlast
  obtain ⟨front, rfl⟩ := List.getLast?_eq_some_iff.mp ht
  have hfollow := point_of_steps h.steps_eq
  rw [List.map_append, List.map_singleton, hkind] at hfollow
  obtain ⟨p, -, hp⟩ := Point.exists_of_follow_append_singleton hfollow
  rw [zone, Point.eq_of_next?_rightBrace hp]
  rfl

theorem Balanced.depth_close (hb : s.Balanced) : s.close.value.depth = 1 := by
  cases hs : s.zone with
  | module => rw [close_of_module hs, hb.depth_eq, hs, Zone.nesting]
  | body => rw [hb.close_of_body hs]; rfl

theorem Balanced.global_close (hb : s.Balanced) : s.close.value.global = s.scopes.global := by
  cases hs : s.zone with
  | module => rw [close_of_module hs]
  | body => rw [hb.close_of_body hs]

end ParseState

/-- A scope is opened and closed so many times, each time before the next. -/
def turns (n : ℕ) : List Event := (List.replicate n [.scopePushed 2, .scopePopped 1]).flatten

theorem turns_add (m n : ℕ) : turns (m + n) = turns m ++ turns n := by
  rw [turns, List.replicate_add, List.flatten_append]
  rfl

def Zone.opening : Zone → List Event
  | .module => []
  | .body => [.scopePushed 2]

namespace ParseState

variable {s s' : ParseState} {t : Token} {ts : List Token} {events : List Event} {r : Reading}

theorem Balanced.turns_of_consume? (hb : s.Balanced)
    (h : s.consume? t = some (.ok ⟨events, s'⟩)) :
    ∃ n, s.zone.opening ++ events.filter Event.isScope = turns n ++ s'.zone.opening := by
  have hdepth := (hb.consume? h).depth_eq
  cases scopeChange_of_consume? h with
  | kept _ zone told => exact ⟨0, by rw [told, zone, List.append_nil]; rfl⟩
  | declared _ _ _ zone told => exact ⟨0, by rw [told, zone, List.append_nil]; rfl⟩
  | entered outside inside _ told =>
    rw [inside] at hdepth
    exact ⟨0, by rw [told, outside, inside, hdepth]; rfl⟩
  | left inside outside _ told =>
    rw [outside] at hdepth
    exact ⟨1, by rw [told, outside, inside, hdepth]; rfl⟩

theorem Course.exists_turns (h : Course r s ts events s') (hb : s.Balanced) :
    ∃ n, s.zone.opening ++ events.filter Event.isScope = turns n ++ s'.zone.opening := by
  induction h with
  | nil s => exact ⟨0, List.append_nil _⟩
  | @cons s s₁ s' t ts events later consumed _ _ ih =>
    obtain ⟨m, hm⟩ := hb.turns_of_consume? consumed
    obtain ⟨n, hn⟩ := ih (hb.consume? consumed)
    refine ⟨m + n, ?_⟩
    have hlook : [Event.scanned (Reading.prepend ts r).head, .consumed (.token t)].filter
        Event.isScope = [] := rfl
    rw [List.filter_append, List.filter_append, hlook, List.nil_append, ← List.append_assoc, hm,
      List.append_assoc, hn, turns_add, List.append_assoc]

theorem Ends.exists_turns {x : Logged (Except ParseError Module)} (h : Ends s x)
    (hb : s.Balanced) : ∃ n, s.zone.opening ++ x.events.filter Event.isScope = turns n := by
  cases h with
  | parsed hend =>
    have hs : s.zone = .module := zone_of_isEnd hend
    exact ⟨0, by rw [hs]; rfl⟩
  | abandoned told =>
    rw [hb.abandon_eq, Logged.after, Logged.map, List.filter_append, told, List.nil_append]
    cases hs : s.zone with
    | module => exact ⟨0, by rw [close_of_module hs]; rfl⟩
    | body => exact ⟨1, by rw [hb.close_of_body hs]; rfl⟩

theorem Balanced.exists_turns (hb : s.Balanced) (r : Reading) :
    ∃ n, s.zone.opening ++ (s.run r).events.filter Event.isScope = turns n := by
  obtain ⟨ts, last, events, s', rfl, hcourse, hends⟩ := hb.exists_course r
  obtain ⟨m, hm⟩ := hcourse.exists_turns hb
  obtain ⟨n, hn⟩ := hends.exists_turns (hcourse.balanced hb)
  refine ⟨m + n, ?_⟩
  rw [hcourse.run_eq, Logged.after, List.filter_append, ← List.append_assoc, hm,
    List.append_assoc, hn, turns_add]

end ParseState

def scopeRecords (threshold : Threshold) (events : List Event) : List Record :=
  (threshold.records events).filter (·.target = "plume::parser::scope")

theorem Event.filter_record? {threshold : Threshold} (h : threshold.admits .debug = true)
    (e : Event) : e.record?.filter
      (fun r => decide (r.target = "plume::parser::scope") && threshold.admits r.level) =
        if e.isScope = true then e.record? else none := by
  cases e with
  | scanned x => cases x <;> simp [record?, isScope]
  | _ => simp [record?, isScope, h]

theorem scopeRecords_eq {threshold : Threshold} (h : threshold.admits .debug = true)
    (events : List Event) :
    scopeRecords threshold events = (events.filter Event.isScope).filterMap Event.record? := by
  rw [scopeRecords, Threshold.records, List.filter_filter, List.filter_filterMap,
    List.filterMap_filter]
  exact congrArg (events.filterMap ·) (funext fun e => e.filter_record? h)

theorem scopeRecords_turns (n : ℕ) : (turns n).filterMap Event.record? =
    (List.replicate n [⟨.debug, "plume::parser::scope", "pushed scope, depth 2"⟩,
      ⟨.debug, "plume::parser::scope", "popped scope, depth 1"⟩]).flatten := by
  induction n with
  | zero => rfl
  | succ n ih =>
    rw [Nat.add_comm, turns_add, List.filterMap_append, ih, List.replicate_add,
      List.flatten_append]
    rfl

namespace ParseState

namespace Reached

variable {name : String} {source : Bytes} {ts us : List Token} {r : Reading}
  {events during : List Event} {s s' : ParseState}

theorem balanced (h : Reached name source ts r events s) : s.Balanced :=
  h.2.balanced (balanced_initial name)

theorem follow (h : Reached name source ts r events s) :
    Point.start.follow (ts.map Token.kind) = some s.place.point :=
  point_of_steps h.2.steps_eq

/-- The tokens consumed so far tell the depth. -/
theorem depth_cases (h : Reached name source ts r events s) :
    s.scopes.depth = 2 ∧ Grammar.InBody (ts.map Token.kind) ∨
      s.scopes.depth = 1 ∧ ¬ Grammar.InBody (ts.map Token.kind) := by
  rw [h.balanced.depth_eq, ← Point.zone_eq_body_iff h.follow]
  change _ ∧ s.zone = .body ∨ _ ∧ ¬ s.zone = .body
  cases s.zone with
  | body => exact Or.inl ⟨rfl, rfl⟩
  | module => exact Or.inr ⟨rfl, nofun⟩

theorem depth_between_items (h : Reached name source ts r events s)
    (hts : ts.map Token.kind ∈ Grammar.module) : s.scopes.depth = 1 := by
  obtain ⟨q, hq, hend⟩ := Grammar.mem_module_iff.mp hts
  have hs : s.zone = .module := by
    rw [h.follow] at hq
    cases hq
    exact Point.zone_of_isEnd hend
  rw [h.balanced.depth_eq, hs, Zone.nesting]

theorem depth_of_procedural (h : Reached name source ts (.prepend us r) events s)
    (hc : Course r s us during s') (hus : Procedural us) : s.scopes.depth = 1 := by
  rw [h.balanced.depth_eq, hc.zone_of_procedural hus, Zone.nesting]

end Reached

theorem exists_reached_end (name : String) (source : Bytes) : ∃ ts r events s,
    Reached name source ts r events s ∧
      Module.parse name source =
        .after (.scanned (Reading.ofSource source).head :: events) (s.run r) ∧
      Ends s (s.run r) := by
  obtain ⟨ts, r, events, s, hr, hcourse, hends⟩ :=
    (balanced_initial name).exists_course (Reading.ofSource source)
  refine ⟨ts, r, events, s, ⟨hr, hcourse⟩, ?_, hends⟩
  rw [Module.parse_eq]
  conv_lhs => rw [hr, hcourse.run_eq]
  rw [hr]
  rfl

theorem Balanced.ne_internal {s : ParseState} (hb : s.Balanced)
    {x : Logged (Except ParseError Module)} (h : Ends s x) (e : ScopeError) :
    x.value ≠ .error (.internal e) := by
  cases h with
  | parsed => exact nofun
  | abandoned _ hne =>
    intro he
    rw [Logged.after, hb.abandon_value] at he
    exact hne e (Except.error.inj he)

end ParseState

/-- A procedure leaves the scopes as they were but for its own name, whatever comes of it. -/
theorem Parsing.balanced_procedure {p : Parser} {o : Outcome Proc} (h : procedure p = some o) :
    o.parser.scopes.depth = p.scopes.depth ∧
      (∀ x, o.taken[1]?.map Token.terminal ≠ some (.identifier x) →
        o.parser.scopes.global.get? x = p.scopes.global.get? x) ∧
      ∀ e, o.value ≠ .error (.internal e) := by
  obtain ⟨hcovers, hvalue⟩ := keeps_procedure p o h
  refine ⟨hcovers.depth_eq, fun x hx => ?_, hvalue⟩
  rcases scopes_of_procedure h with hsame | ⟨name, id, htaken, hdeclared⟩
  · rw [hsame]
  · have hne : x ≠ name := by
      rintro rfl
      exact hx htaken
    rw [hdeclared, ParseState.get?_global_declare _ _ hne]

/-- When the parser asks for a token, the ones that it has taken tell the depth. -/
theorem Parser.depth_of_asked {name : String} {source : Bytes} {p q : Parser}
    {o : Outcome Module} {i : ℕ} (h : (Parser.start name source).value = .ok p)
    (ho : Parsing.module p = some o) (hi : o.asked[i]? = some q) :
    ∃ ts, ts.length = i ∧ Reading.ofSource source = .prepend ts q.reading ∧
      (q.scopes.depth = 2 ∧ Grammar.InBody (ts.map Token.kind) ∨
        q.scopes.depth = 1 ∧ ¬ Grammar.InBody (ts.map Token.kind)) := by
  obtain ⟨ts, events, s, hlength, hreached, hscopes, -⟩ := Parser.reached_of_asked h ho hi
  exact ⟨ts, hlength, hreached.1, hscopes ▸ hreached.depth_cases⟩

open ParseState Parsing in
/-- Scopes are balanced on every path, whether the parse succeeds or gives up. -/
theorem scopes_are_balanced (name : String) (source : Bytes) :
    (∀ e, (Module.parse name source).value ≠ .error (.internal e)) ∧
    (∀ p, (Parser.start name source).value = .ok p → ∃ o, module p = some o ∧
      (Module.parse name source).value = o.value ∧ o.parser.scopes.depth = 1 ∧
      (∀ i q, o.asked[i]? = some q → ∃ ts, ts.length = i ∧
        Reading.ofSource source = .prepend ts q.reading ∧
        (q.scopes.depth = 2 ∧ Grammar.InBody (ts.map Token.kind) ∨
          q.scopes.depth = 1 ∧ ¬ Grammar.InBody (ts.map Token.kind))) ∧
      ∀ q, Round (!·.check .eof) item p q → q.scopes.depth = 1 ∧
        ∀ o, item q = some o → o.parser.scopes.depth = 1) ∧
    (∀ p o, procedure p = some o → o.parser.scopes.depth = p.scopes.depth ∧
      (∀ x, o.taken[1]?.map Token.terminal ≠ some (.identifier x) →
        o.parser.scopes.global.get? x = p.scopes.global.get? x) ∧
      ∀ e, o.value ≠ .error (.internal e)) ∧
    (∀ ts r events s, Reached name source ts r events s →
      s.scopes.depth = 2 ∧ Grammar.InBody (ts.map Token.kind) ∨
      s.scopes.depth = 1 ∧ ¬ Grammar.InBody (ts.map Token.kind)) ∧
    (∀ ts r events s, Reached name source ts r events s →
      ts.map Token.kind ∈ Grammar.module → s.scopes.depth = 1) ∧
    (∀ ts us r before s during s', Reached name source ts (.prepend us r) before s →
      Course r s us during s' → Procedural us →
        (us.getLast?.map Token.kind = some .rightBrace → s'.scopes.depth = s.scopes.depth) ∧
        s'.close.value.depth = s.scopes.depth ∧
        ∀ x, us[1]?.map Token.terminal ≠ some (.identifier x) →
          s'.scopes.global.get? x = s.scopes.global.get? x ∧
          s'.close.value.global.get? x = s.scopes.global.get? x) ∧
    (∃ ts r events s, Reached name source ts r events s ∧
      Module.parse name source =
        .after (.scanned (Reading.ofSource source).head :: events) (s.run r) ∧
      Ends s (s.run r) ∧ s.close.value.depth = 1) ∧
    ∃ n, ∀ threshold : Threshold, threshold.admits .debug = true →
      scopeRecords threshold (Module.parse name source).events =
        (List.replicate n [⟨.debug, "plume::parser::scope", "pushed scope, depth 2"⟩,
          ⟨.debug, "plume::parser::scope", "popped scope, depth 1"⟩]).flatten := by
  obtain ⟨ts, r, events, s, hreached, hparse, hends⟩ := exists_reached_end name source
  refine ⟨?_, ?_, fun _ _ h => balanced_procedure h, fun _ _ _ _ h => h.depth_cases,
    fun _ _ _ _ h => h.depth_between_items, ?_,
    ⟨ts, r, events, s, hreached, hparse, hends, hreached.balanced.depth_close⟩, ?_⟩
  · intro e
    rw [hparse]
    exact hreached.balanced.ne_internal hends e
  · intro p hp
    obtain ⟨o, ho, -⟩ := takes_module p
    have hdepth : p.scopes.depth = 1 := by
      rw [(Parser.agrees_start hp).1.scopes]
      rfl
    refine ⟨o, ho, ?_, (keeps_module p o ho).1.depth_eq.trans hdepth,
      fun _ _ hi => Parser.depth_of_asked hp ho hi, fun q hround => ?_⟩
    · exact congrArg Logged.value (Module.parse_of_start hp ho)
    · have hq := (keeps_item.round hround).depth_eq.trans hdepth
      exact ⟨hq, fun o' ho' => (keeps_item q o' ho').1.depth_eq.trans hq⟩
  · intro ts us r before s during s' h hc hus
    have hs' := hc.balanced h.balanced
    rw [h.depth_of_procedural hc hus, hs'.global_close]
    refine ⟨?_, hs'.depth_close, ?_⟩
    · intro hlast
      rw [hs'.depth_eq, hc.zone_of_rightBrace hlast, Zone.nesting]
    · intro x hx
      have hglobal := hc.get?_global h.balanced hus hx
      exact ⟨hglobal, hglobal⟩
  · obtain ⟨n, hn⟩ := (balanced_initial name).exists_turns (Reading.ofSource source)
    refine ⟨n, fun threshold h => ?_⟩
    rw [scopeRecords_eq h, Module.parse_eq, ← scopeRecords_turns, ← hn]
    rfl

/-- The body fails with its scope open, behind a complete procedure. -/
theorem scopes_of_broken_body :
    let source := utf8 "proc f(): int \x7b \x7d proc g(): int var x: f;"
    let fault : ParseError := .semantic "f" "'f' is not a type" ⟨1, 40⟩
    ∃ p o, (Parser.start "m" source).value = .ok p ∧ Parsing.module p = some o ∧
      (Module.parse "m" source).value = .error fault ∧ o.parser.scopes.depth = 1 ∧
      (∀ o', Parsing.procedure p = some o' → o'.parser.scopes.depth = p.scopes.depth ∧
        ∀ e, o'.value ≠ .error (.internal e)) ∧
      scopeRecords (.upTo .debug) (Module.parse "m" source).events =
        (List.replicate 2 [⟨.debug, "plume::parser::scope", "pushed scope, depth 2"⟩,
          ⟨.debug, "plume::parser::scope", "popped scope, depth 1"⟩]).flatten := by
  intro source fault
  obtain ⟨-, hparse, hprocedure, -⟩ := scopes_are_balanced "m" source
  obtain ⟨p, hp⟩ : ∃ p, (Parser.start "m" source).value = .ok p := ⟨_, rfl⟩
  obtain ⟨o, ho, -, hdepth, -⟩ := hparse p hp
  have hvalue : (Module.parse "m" source).value = .error fault := by
    rw [Module.parse_value]
    decide +kernel
  refine ⟨p, o, hp, ho, hvalue, hdepth, fun o' ho' => ?_, ?_⟩
  · obtain ⟨hdepth', -, hne⟩ := hprocedure p o' ho'
    exact ⟨hdepth', hne⟩
  · rw [Module.parse_eq]
    decide +kernel

end ProcLang
