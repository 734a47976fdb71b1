import ProcLang.Program.Parsing

/-! # Stages of parsing

A stage that gets on to another one with something told and asked on the way does so wherever it
stands, and an error passes over all that would have come behind. -/
namespace ProcLang

/-- What comes behind events that have been told and parsers that have asked. -/
def Outcome.behind {α : Type} (events : List Event) (asked : List Parser) (o : Outcome α) :
    Outcome α :=
  ⟨events ++ o.events, asked ++ o.asked, o.parser, o.value⟩

namespace Parsing

variable {α β γ : Type} {p q r : Parser} {events later : List Event} {asked asked' : List Parser}

theorem bind_apply (x : Parsing α) (f : α → Parsing β) (p : Parser) :
    (x >>= f) p = (x p).bind fun o => (andThen o.value f o.parser).map o.followedBy := rfl

theorem followedBy_comp (o : Outcome α) (o' : Outcome β) :
    (o.followedBy o').followedBy = o.followedBy ∘ o'.followedBy (β := γ) := by
  funext o''
  simp [Outcome.followedBy]

instance : LawfulMonad Parsing := .mk' Parsing
  (by
    intro α x
    funext p
    change (x p).bind _ = x p
    cases x p with
    | none => rfl
    | some o =>
      obtain ⟨events, asked, q, value⟩ := o
      cases value <;> simp [andThen, fail, ofExcept, Outcome.followedBy])
  (by
    intro α β a f
    funext p
    exact bind_of_silent rfl)
  (by
    intro α β γ x f g
    funext p
    rw [bind_apply, bind_apply, bind_apply, Option.bind_assoc]
    congr 1
    funext o
    rw [Option.bind_map]
    cases o.value with
    | error e => simp [andThen, fail, ofExcept, Outcome.followedBy]
    | ok a =>
      change (f a o.parser).bind _ = ((f a o.parser).bind _).map _
      rw [Option.map_bind]
      congr 1
      funext o'
      rw [Function.comp_apply, Function.comp_apply, Option.map_map, followedBy_comp]
      rfl)

theorem exists_token_of_check {k : TokenKind} (hk : k ≠ .eof) (h : p.check k = true) :
    ∃ t, p.current = .token t ∧ t.kind = k := by
  rw [Parser.check, decide_eq_true_iff] at h
  cases hcurrent : p.current with
  | token t => exact ⟨t, rfl, by rw [← h, hcurrent]; rfl⟩
  | eof l =>
    rw [hcurrent] at h
    exact absurd h.symm hk

/-- A stage gets on to another one. -/
def Steps (x : Parsing α) (p : Parser) (events : List Event) (asked : List Parser)
    (y : Parsing α) (q : Parser) : Prop :=
  x p = (y q).map (Outcome.behind events asked)

namespace Steps

variable {x y z : Parsing α}

theorem refl (x : Parsing α) (p : Parser) : Steps x p [] [] x p := by
  change x p = (x p).map id
  rw [Option.map_id]
  rfl

theorem trans (h : Steps x p events asked y q) (h' : Steps y q later asked' z r) :
    Steps x p (events ++ later) (asked ++ asked') z r := by
  unfold Steps at *
  rw [h, h', Option.map_map]
  congr 1
  funext o
  simp [Outcome.behind]

theorem of_done {x : Parsing α} {a : α} (h : x p = some ⟨events, asked, q, .ok a⟩)
    (f : α → Parsing β) : Steps (x >>= f) p events asked (f a) q := by
  unfold Steps
  rw [bind_apply, h]
  rfl

theorem of_failed {x : Parsing α} {e : ParseError} (h : x p = some ⟨[], [], q, .error e⟩)
    (f g : α → Parsing β) : Steps (x >>= f) p [] [] (x >>= g) p := by
  unfold Steps
  rw [bind_apply, bind_apply, h]
  rfl

theorem on {x : Parsing β} {y : Parsing α} {f : α → Parsing β} {a : α}
    (h : Steps x p [] [] (y >>= f) q) (hy : y q = some ⟨[], [], r, .ok a⟩) :
    Steps x p [] [] (f a) r :=
  h.trans (of_done hy f)

theorem told {e : Event} {f : Unit → Parsing β} {y : Parsing β}
    (h : Steps (f ()) p events asked y q) : Steps (tell e >>= f) p (e :: events) asked y q := by
  have step : Steps (tell e >>= f) p [e] [] (f ()) p := of_done rfl f
  exact step.trans h

theorem bind (h : Steps x p events asked y q) (f : α → Parsing β) :
    Steps (x >>= f) p events asked (y >>= f) q := by
  unfold Steps at *
  rw [bind_apply, bind_apply, h, Option.bind_map, Option.map_bind]
  congr 1
  funext o
  change (andThen o.value f o.parser).map _ = ((andThen o.value f o.parser).map _).map _
  rw [Option.map_map]
  congr 1
  funext o'
  simp [Outcome.followedBy, Outcome.behind]

theorem closing (h : Steps x p events asked y q) :
    Steps (closing x) p events asked (closing y) q := by
  apply Steps.bind
  unfold Steps attempt at *
  rw [h, Option.map_map, Option.map_map]
  rfl

theorem advance {answer : Scanned} {ahead : Lookahead} {scanner : Scanner}
    (h : p.scanner.next = (answer, scanner)) (hahead : answer.lookahead = .ok ahead) :
    Steps advance p [.scanned answer, .consumed p.current] [p] (pure p.current)
      { p with scanner := scanner, current := ahead } := by
  unfold Steps Parsing.advance
  rw [h]
  simp only [hahead]
  rfl

theorem advance_of_failed {e : LexError} {scanner : Scanner}
    (h : p.scanner.next = (.failed e, scanner)) :
    Steps Parsing.advance p [.scanned (.failed e)] [p] (fail (.lexical e))
      { p with scanner := scanner } := by
  unfold Steps Parsing.advance
  rw [h]
  rfl

end Steps

/-- A repetition that begins with one parser comes to a round that begins with another. -/
inductive Round (goesOn : Parser → Bool) (x : Parsing α) : Parser → Parser → Prop where
  | first {p : Parser} (h : goesOn p = true) : Round goesOn x p p
  | later {p q : Parser} {o : Outcome α} {a : α} (h : goesOn p = true) (done : x p = some o)
      (value : o.value = .ok a) (rest : Round goesOn x o.parser q) : Round goesOn x p q

/-- Steps carry over to where a stage stands, and so do errors, which are then dealt with. -/
structure Context (giveUp : ParseError → Parsing β) (y : Parsing α → Parsing β) : Prop where
  steps : ∀ {a b p q events asked}, Steps a p events asked b q →
    Steps (y a) p events asked (y b) q
  fail : ∀ e p, Steps (y (fail e)) p [] [] (giveUp e) p

theorem context_id : Context (β := α) fail fun x => x := ⟨id, fun e => .refl (fail e)⟩

theorem context_closing (f : α → Parsing β) :
    Context (fun e => closeScope >>= fun _ => fail e) fun x => closing x >>= f := by
  refine ⟨fun h => h.closing.bind f, fun e p => ?_⟩
  have h : Steps (closing (fail e : Parsing α)) p [] [] (closeScope >>= fun _ => fail e) p :=
    .of_done rfl fun value => closeScope >>= fun _ => ofExcept value
  have h' := h.bind f
  rw [bind_assoc] at h'
  exact h'

theorem Context.bind {giveUp : ParseError → Parsing γ} {y : Parsing β → Parsing γ}
    (hy : Context giveUp y) (f : α → Parsing β) : Context giveUp fun x => y (x >>= f) :=
  ⟨fun h => hy.steps (h.bind f), hy.fail⟩

end Parsing

end ProcLang
