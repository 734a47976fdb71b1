import Mathlib.Tactic.Set
import ProcLang.Proofs.Machine
import ProcLang.Proofs.Residue

/-! # The machine's next move

A parser that has gone as far as the machine asks for a token, takes it or fails exactly where the
machine does. What the stages do that stand first is told once, wherever they stand. -/
namespace ProcLang

open Parsing

/-- The machine has gone as far as the parser. -/
structure Agrees (held : List Var) (s : ParseState) (p : Parser) : Prop where
  scopes : p.scopes = s.scopes
  nextId : p.nextId = s.nextId
  module : s.module = { p.tree with vars := p.tree.vars ++ held }
  held : s.place.holds = false → held = []

/-- The parser has the scopes of the machine, and has given as many numbers at least. -/
structure Tracks (s : ParseState) (p : Parser) : Prop where
  scopes : p.scopes = s.scopes
  nextId : s.nextId ≤ p.nextId

/-- On the way from one parser to the other nothing has been taken or declared. -/
structure Idles (p q : Parser) : Prop where
  scanner : q.scanner = p.scanner
  current : q.current = p.current
  scopes : q.scopes = p.scopes
  nextId : p.nextId ≤ q.nextId

/-- What is left behind a token does what consuming it does. -/
def Continues (s : ParseState) (c : Consumption) (x : Parsing Module) (p : Parser) : Prop :=
  match c with
  | .error e => ∃ q, Steps x p [] [] (s.place.region.giveUp e) q ∧ Tracks s q
  | .ok ⟨events, s'⟩ => ∃ held q, Steps x p events [] (s'.place.resume held) q ∧
      Agrees held s' q ∧ q.scanner = p.scanner ∧ q.current = p.current

def Refuses (s : ParseState) : Lookahead → Prop
  | .token t => s.consume? t = none
  | .eof _ => s.place.isEnd = false

/-- The three things that the machine can do with what is ahead. -/
inductive Moves (s : ParseState) (x : Parsing Module) (p : Parser) : Prop where
  | ends {l q} (ahead : p.current = .eof l) (h : s.place.isEnd = true) (idles : Idles p q)
      (done : x p = some ⟨[.parsed s.module], [], q, .ok s.module⟩)
  | refuses {q} (h : Refuses s p.current) (idles : Idles p q)
      (steps : Steps x p [] [] (s.place.region.giveUp
        (.unexpected s.place.expected p.current.kind p.current.location)) q)
  | takes {t c y q} (ahead : p.current = .token t) (h : s.consume? t = some c)
      (context : Context s.place.region.giveUp y) (idles : Idles p q)
      (steps : Steps x p [] [] (y advance) q)
      (next : ∀ scanner current,
        Continues s c (y (pure (.token t))) { q with scanner := scanner, current := current })

namespace Idles

variable {p q r : Parser}

theorem refl (p : Parser) : Idles p p := ⟨rfl, rfl, rfl, Nat.le_refl _⟩

theorem trans (h : Idles p q) (h' : Idles q r) : Idles p r :=
  ⟨h'.scanner.trans h.scanner, h'.current.trans h.current, h'.scopes.trans h.scopes,
    Nat.le_trans h.nextId h'.nextId⟩

end Idles

variable {held : List Var} {s : ParseState} {x x' : Parsing Module} {p q : Parser} {α : Type}
  {k : TokenKind}

theorem Agrees.tracks (h : Agrees held s p) (hq : Idles p q) : Tracks s q :=
  ⟨hq.scopes.trans h.scopes, h.nextId ▸ hq.nextId⟩

theorem Tracks.pulled {scanner : Scanner} {current : Lookahead} (h : Tracks s p) :
    Tracks s { p with scanner := scanner, current := current } :=
  ⟨h.scopes, h.nextId⟩

theorem Agrees.pulled (h : Agrees held s p) (scanner : Scanner) (current : Lookahead) :
    Agrees held s { p with scanner := scanner, current := current } :=
  ⟨h.scopes, h.nextId, h.module, h.held⟩

theorem Moves.of_steps (h : Moves s x' q) (hx : Steps x p [] [] x' q) (hp : Idles p q) :
    Moves s x p := by
  cases h with
  | @ends l r ahead h idles done =>
    refine .ends (hp.current ▸ ahead) h (hp.trans idles) ?_
    rw [hx, done]
    rfl
  | refuses h idles steps =>
    rw [hp.current] at h steps
    exact .refuses h (hp.trans idles) (hx.trans steps)
  | takes ahead h context idles steps next =>
    exact .takes (hp.current ▸ ahead) h context (hp.trans idles) (hx.trans steps) next

theorem Continues.of_steps {c : Consumption} (h : Continues s c x' q) (hx : Steps x p [] [] x' q)
    (hscanner : q.scanner = p.scanner) (hcurrent : q.current = p.current) : Continues s c x p := by
  rcases c with e | ⟨events, s'⟩
  · obtain ⟨r, hsteps, hr⟩ := h
    exact ⟨r, hx.trans hsteps, hr⟩
  · obtain ⟨held, r, hsteps, hagrees, hr, hr'⟩ := h
    exact ⟨held, r, hx.trans hsteps, hagrees, hr.trans hscanner, hr'.trans hcurrent⟩

theorem continues_goto (h : Agrees held s p) (place : Place)
    (hheld : place.holds = false → held = []) :
    Continues s (s.goto place) (place.resume held) p :=
  ⟨held, p, .refl _ p, ⟨h.scopes, h.nextId, h.module, hheld⟩, rfl, rfl⟩

theorem check_token {t : Token} (h : p.current = .token t) : p.check k = true ↔ t.kind = k := by
  rw [Parser.check, h, decide_eq_true_iff]
  rfl

theorem check_operand {t : Token} (h : p.current = .token t) (id : NodeId) :
    (p.check .identifier || p.check .intLiteral) = (ParseState.operand? id t).isSome := by
  obtain ⟨u, l⟩ := t
  simp only [Parser.check, h]
  cases u <;> rfl

/-- Where a message says that one kind is expected, no other may follow. -/
theorem refuses_of_expected (h : s.place.expected = [k]) (hk : ¬ p.check k = true) :
    s.place.expected = [k] ∧ Refuses s p.current := by
  refine ⟨h, ?_⟩
  obtain ⟨place, scopes, id, m⟩ := s
  cases hcurrent : p.current with
  | eof l => rcases place with (_ | _) | _ | _ | _ | _ | (_ | _) | _ <;> first | rfl | cases h
  | token t =>
    rw [check_token hcurrent] at hk
    obtain ⟨u, l⟩ := t
    cases place with
    | declarations r => cases r <;> cases h
    | group r => cases r <;> cases h
    | _ => cases h <;> cases u <;> first | rfl | exact absurd rfl hk

namespace Parsing.Context

variable {y : Parsing α → Parsing Module} {r : Region}

theorem moves_unexpected (hy : Context r.giveUp y) (hr : s.place.region = r) {x : Parsing α}
    {expected : List TokenKind} (hx : Steps x p [] [] (unexpected expected q.current) q)
    (hp : Idles p q) (h : s.place.expected = expected ∧ Refuses s p.current) :
    Moves s (y x) p := by
  subst hr
  refine .refuses h.2 hp ((hy.steps hx).trans ?_)
  rw [h.1, ← hp.current]
  exact hy.fail _ q

theorem moves_expect {y : Parsing Lookahead → Parsing Module}
    (hy : Context r.giveUp y) (hr : s.place.region = r) (hk : k ≠ .eof)
    (hrefused : ¬ p.check k = true → s.place.expected = [k] ∧ Refuses s p.current)
    (hnext : ∀ t, t.kind = k → ∃ c, s.consume? t = some c ∧ ∀ scanner current,
      Continues s c (y (pure (.token t))) { p with scanner := scanner, current := current }) :
    Moves s (y (expect k)) p := by
  have hget : Steps (expect k) p [] []
      (if p.check k then advance else unexpected [k] p.current) p := .of_done rfl _
  by_cases h : p.check k = true
  · rw [if_pos h] at hget
    obtain ⟨t, hcurrent, ht⟩ := exists_token_of_check hk h
    obtain ⟨c, hc, hcontinues⟩ := hnext t ht
    exact .takes hcurrent hc (hr ▸ hy) (.refl p) (hy.steps hget) hcontinues
  · rw [if_neg h] at hget
    exact hy.moves_unexpected hr hget (.refl p) (hrefused h)

theorem moves_expect_goto {f : Lookahead → Parsing α} (place : Place) (hy : Context r.giveUp y)
    (hr : s.place.region = r) (h : Agrees held s p) (hexpected : s.place.expected = [k])
    (hk : k ≠ .eof) (hconsume : ∀ u l, u.kind = k → s.consume? ⟨u, l⟩ = some (s.goto place))
    (hresume : ∀ ahead, y (f ahead) = place.resume held)
    (hheld : place.holds = false → held = []) : Moves s (y (expect k >>= f)) p := by
  refine (hy.bind f).moves_expect hr hk (refuses_of_expected hexpected) fun t ht =>
    ⟨_, hconsume t.terminal t.location ht, fun scanner current => ?_⟩
  rw [pure_bind, hresume]
  exact continues_goto (h.pulled scanner current) place hheld

theorem moves_expectIdentifier {y : Parsing (String × Location) → Parsing Module}
    (hy : Context r.giveUp y) (hr : s.place.region = r)
    (hrefused : ¬ p.check .identifier = true →
      s.place.expected = [.identifier] ∧ Refuses s p.current)
    (hnext : ∀ name l, ∃ c, s.consume? ⟨.identifier name, l⟩ = some c ∧ ∀ scanner current,
      Continues s c (y (pure (name, l))) { p with scanner := scanner, current := current }) :
    Moves s (y expectIdentifier) p := by
  obtain ⟨f, hget, hf⟩ : ∃ f : Lookahead → Parsing (String × Location),
      Steps expectIdentifier p [] [] (if p.check .identifier then advance >>= f
        else unexpected [.identifier] p.current) p ∧
      ∀ name l, f (.token ⟨.identifier name, l⟩) = pure (name, l) :=
    ⟨_, .of_done rfl _, fun _ _ => rfl⟩
  by_cases h : p.check .identifier = true
  · rw [if_pos h] at hget
    obtain ⟨⟨u, l⟩, hcurrent, hu⟩ := exists_token_of_check (by decide) h
    cases u <;> cases hu
    obtain ⟨c, hc, hcontinues⟩ := hnext _ l
    refine .takes hcurrent hc (hr ▸ hy.bind f) (.refl p) (hy.steps hget) fun scanner current => ?_
    rw [pure_bind, hf]
    exact hcontinues scanner current
  · rw [if_neg h] at hget
    exact hy.moves_unexpected hr hget (.refl p) (hrefused h)

theorem moves_typeName {y : Parsing TypeName → Parsing Module}
    (hy : Context r.giveUp y) (hr : s.place.region = r)
    (hexpected : s.place.expected = [.identifier]) (hp : Tracks s p) {next : TypeName → Consumption}
    (hconsume : ∀ name l, s.consume? ⟨.identifier name, l⟩ = some (s.resolve name l >>= next))
    (hnext : ∀ type scanner current,
      Continues s (next type) (y (pure type)) { p with scanner := scanner, current := current }) :
    Moves s (y typeName) p := by
  subst hr
  refine (hy.bind _).moves_expectIdentifier rfl (refuses_of_expected hexpected) fun name l => ?_
  refine ⟨_, hconsume name l, fun scanner current => ?_⟩
  rw [pure_bind]
  set p' : Parser := { p with scanner := scanner, current := current }
  refine Continues.of_steps ?_ (hy.steps (Steps.of_done (p := p') (x := get) rfl _)) rfl rfl
  unfold ParseState.resolve
  rw [show p'.scopes = s.scopes from hp.scopes]
  rcases s.scopes.lookup name with _ | (t | _ | _)
  · exact ⟨p', hy.fail _ p', hp.scopes, hp.nextId⟩
  · exact hnext t scanner current
  · exact ⟨p', hy.fail _ p', hp.scopes, hp.nextId⟩
  · exact ⟨p', hy.fail _ p', hp.scopes, hp.nextId⟩

theorem moves_expression {y : Parsing Expr → Parsing Module}
    (hy : Context r.giveUp y) (hr : s.place.region = r)
    (hexpected : s.place.expected = [.identifier, .intLiteral]) (hend : s.place.isEnd = false)
    (next : Expr → Consumption) (hconsume : ∀ t, p.current = .token t →
      s.consume? t = (ParseState.operand? p.nextId t).map next)
    (hnext : ∀ t e, p.current = .token t → ParseState.operand? p.nextId t = some e →
      ∀ scanner current, Continues s (next e) (y (pure e))
        { p with nextId := p.nextId + 1, scanner := scanner, current := current }) :
    Moves s (y expression) p := by
  obtain ⟨f, hget, hf⟩ : ∃ f : NodeId → Lookahead → Parsing Expr,
      Steps expression p [] [] (if p.check .identifier || p.check .intLiteral then
        newId >>= fun id => advance >>= f id
        else unexpected [.identifier, .intLiteral] p.current) p ∧
      ∀ id t e, ParseState.operand? id t = some e → f id (.token t) = pure e := by
    refine ⟨_, .of_done rfl _, ?_⟩
    rintro id ⟨u, l⟩ e he
    cases u <;> cases he <;> rfl
  have hrefused (h : Refuses s p.current)
      (hcheck : ¬ (p.check .identifier || p.check .intLiteral) = true) :
      Moves s (y expression) p := by
    rw [if_neg hcheck] at hget
    exact hy.moves_unexpected hr hget (.refl p) ⟨hexpected, h⟩
  cases hcurrent : p.current with
  | eof l =>
    refine hrefused ?_ ?_
    · rw [hcurrent]
      exact hend
    · simp [Parser.check, hcurrent, Lookahead.kind]
  | token t =>
    have hc := hconsume t hcurrent
    cases he : ParseState.operand? p.nextId t with
    | none =>
      rw [he] at hc
      refine hrefused ?_ ?_
      · rw [hcurrent]
        exact hc
      · rw [check_operand hcurrent p.nextId, he]
        exact Bool.false_ne_true
    | some e =>
      rw [he] at hc
      rw [if_pos (by rw [check_operand hcurrent p.nextId, he]; rfl)] at hget
      refine .takes (q := { p with nextId := p.nextId + 1 }) hcurrent hc (hr ▸ hy.bind _)
        ⟨rfl, rfl, rfl, Nat.le_succ _⟩ (hy.steps (hget.on rfl)) fun scanner current => ?_
      have hcontinues := hnext t e hcurrent he scanner current
      rw [pure_bind, hf p.nextId t e he]
      exact hcontinues

end Parsing.Context

theorem steps_introduce (name : String) (b : NodeId → Binding) (f : NodeId → Parsing α) :
    Steps (newId >>= fun id => declare name (b id) >>= fun _ => f id) p [] [] (f p.nextId)
      { p with nextId := p.nextId + 1, scopes := p.scopes.declare name (b p.nextId) } :=
  (Steps.of_done (x := newId) rfl fun id => declare name (b id) >>= fun _ => f id).on rfl

theorem Agrees.introduce (h : Agrees held s p) (name : String) (b : NodeId → Binding) :
    Agrees held (s.introduce name b)
      { p with nextId := p.nextId + 1, scopes := p.scopes.declare name (b p.nextId) } := by
  refine ⟨?_, congrArg (· + 1) h.nextId, h.module, h.held⟩
  change p.scopes.declare name (b p.nextId) = s.scopes.declare name (b s.nextId)
  rw [h.scopes, h.nextId]

end ProcLang
