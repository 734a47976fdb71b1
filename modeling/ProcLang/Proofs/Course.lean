import ProcLang.Proofs.Nesting

/-! # The course of a run

A run consumes tokens one after the other until it ends. The states in between are those of a
course; what holds at the start and is kept by each token holds at all of them. -/
namespace ProcLang

namespace ParseState

variable {s s' : ParseState} {t : Token} {events : List Event}

/-- Tokens are consumed with a reading behind them, none of them before an error. -/
inductive Course (r : Reading) : ParseState → List Token → List Event → ParseState → Prop where
  | nil (s : ParseState) : Course r s [] [] s
  | cons {s s₁ s' : ParseState} {t : Token} {ts : List Token} {events later : List Event}
      (consumed : s.consume? t = some (.ok ⟨events, s₁⟩))
      (scanned : ∀ e, Reading.prepend ts r ≠ .failed e) (rest : Course r s₁ ts later s') :
      Course r s (t :: ts)
        ([.scanned (Reading.prepend ts r).head, .consumed (.token t)] ++ (events ++ later)) s'

namespace Course

variable {r : Reading} {ts : List Token}

theorem steps_eq (h : Course r s ts events s') : s.steps ts = .ok s' := by
  induction h with
  | nil => rfl
  | cons consumed _ _ ih =>
    rw [steps_cons, advance, consumed]
    exact ih

theorem balanced (h : Course r s ts events s') (hb : s.Balanced) : s'.Balanced := by
  induction h with
  | nil => exact hb
  | cons consumed _ _ ih => exact ih (hb.consume? consumed)

theorem run_eq (h : Course r s ts events s') :
    s.run (.prepend ts r) = .after events (s'.run r) := by
  induction h with
  | nil => rfl
  | @cons s s₁ s' t ts events later consumed scanned _ ih =>
    rw [Reading.prepend_cons, run_of_ok consumed scanned, ih]
    simp only [Logged.after, List.append_assoc]

theorem append {us : List Token} {later : List Event} {s₁ : ParseState}
    (h : Course (.prepend us r) s ts events s₁) (h' : Course r s₁ us later s') :
    Course r s (ts ++ us) (events ++ later) s' := by
  induction h with
  | nil => exact h'
  | cons consumed scanned _ ih =>
    rw [← Reading.prepend_append] at scanned ⊢
    rw [List.append_assoc, List.append_assoc]
    exact .cons consumed scanned (ih h')

theorem split {us : List Token} (h : Course r s (ts ++ us) events s') :
    ∃ s₁ told later, Course (.prepend us r) s ts told s₁ ∧ Course r s₁ us later s' := by
  induction ts generalizing s events with
  | nil => exact ⟨s, [], events, .nil s, h⟩
  | cons t ts ih =>
    cases h with
    | cons consumed scanned rest =>
      obtain ⟨s₁, told, later, hfront, hback⟩ := ih rest
      rw [List.append_eq, Reading.prepend_append] at scanned
      exact ⟨s₁, _, later, .cons consumed scanned hfront, hback⟩

end Course

theorem exists_course_of_steps {ts : List Token} {r : Reading} (h : s.steps ts = .ok s')
    (hr : ∀ e, r ≠ .failed e) : ∃ events, Course r s ts events s' := by
  induction ts generalizing s with
  | nil =>
    cases h
    exact ⟨[], .nil _⟩
  | cons t ts ih =>
    rw [steps_cons] at h
    cases ha : s.advance t with
    | error e =>
      rw [ha] at h
      cases h
    | ok s₁ =>
      rw [ha] at h
      obtain ⟨told, hc⟩ := advance_eq_ok_iff.mp ha
      obtain ⟨later, hcourse⟩ := ih h
      refine ⟨_, .cons hc ?_ hcourse⟩
      cases ts with
      | nil => exact hr
      | cons u ts => exact fun e => nofun

/-- What is told at a state where a run takes no token and goes on, and what comes of it. -/
inductive Halts (s : ParseState) : Reading → List Event → Except ParseError Module → Prop where
  | whole (l : Location) (h : s.place.isEnd = true) :
      Halts s (.eof l) [.parsed s.module] (.ok s.module)
  | cut (l : Location) (h : s.place.isEnd = false) :
      Halts s (.eof l) s.close.events (.error (.unexpected s.place.expected .eof l))
  | broken (e : LexError) : Halts s (.failed e) s.close.events (.error (.lexical e))
  | refused {t : Token} (h : s.consume? t = none) (rest : Reading) :
      Halts s (.token t rest) s.close.events
        (.error (.unexpected s.place.expected t.kind t.location))
  | overtaken {t : Token} (h : s.consume? t ≠ none) (e : LexError) :
      Halts s (.token t (.failed e)) (.scanned (.failed e) :: s.close.events)
        (.error (.lexical e))
  | faulty {t : Token} {rest : Reading} {e : ParseError} (h : s.consume? t = some (.error e))
      (hr : ∀ f, rest ≠ .failed f) :
      Halts s (.token t rest) (.scanned rest.head :: .consumed (.token t) :: s.close.events)
        (.error e)

theorem Balanced.run_of_halts (hb : s.Balanced) {r : Reading} {closing : List Event}
    {x : Except ParseError Module} (h : Halts s r closing x) : s.run r = ⟨closing, x⟩ := by
  cases h with
  | whole l h => rw [run, if_pos h]
  | cut l h =>
    rw [run, if_neg (by simp [h]), hb.abandon_eq]
    rfl
  | broken e => exact hb.abandon_eq _
  | refused h rest =>
    rw [run, h, hb.abandon_eq]
    rfl
  | @overtaken t h e =>
    obtain ⟨c, hc⟩ := Option.ne_none_iff_exists'.mp h
    have hrun : s.run (.token t (.failed e)) =
        .after [.scanned (.failed e)] (s.abandon (.lexical e)) := by
      rw [run, hc]
      rfl
    rw [hrun, hb.abandon_eq]
    rfl
  | @faulty t rest e h hr =>
    rw [run_of_error h hr, hb.abandon_eq]
    rfl

/-- A token is taken and the parser goes on, or the run ends where it is. -/
theorem takes_or_halts (s : ParseState) (r : Reading) :
    (∃ t rest told s', r = .token t rest ∧ Course rest s [t] told s') ∨
      ∃ closing x, Halts s r closing x := by
  cases r with
  | eof l =>
    cases h : s.place.isEnd with
    | true => exact Or.inr ⟨_, _, .whole l h⟩
    | false => exact Or.inr ⟨_, _, .cut l h⟩
  | failed e => exact Or.inr ⟨_, _, .broken e⟩
  | token t rest =>
    cases hc : s.consume? t with
    | none => exact Or.inr ⟨_, _, .refused hc rest⟩
    | some c =>
      by_cases hrest : ∃ e, rest = .failed e
      · obtain ⟨e, rfl⟩ := hrest
        exact Or.inr ⟨_, _, .overtaken (by simp [hc]) e⟩
      · have hscanned : ∀ e, rest ≠ .failed e := fun e he => hrest ⟨e, he⟩
        rcases c with e | ⟨told, s'⟩
        · exact Or.inr ⟨_, _, .faulty hc hscanned⟩
        · exact Or.inl ⟨t, rest, _, s', rfl, .cons hc hscanned (.nil s')⟩

theorem exists_halt (s : ParseState) (r : Reading) : ∃ ts last events s' closing x,
    r = .prepend ts last ∧ Course last s ts events s' ∧ Halts s' last closing x := by
  have at_once {s : ParseState} {r : Reading}
      (h : ∃ closing x, Halts s r closing x) : ∃ ts last events s' closing x,
        r = .prepend ts last ∧ Course last s ts events s' ∧ Halts s' last closing x := by
    obtain ⟨closing, x, hhalt⟩ := h
    exact ⟨[], r, [], s, closing, x, rfl, .nil s, hhalt⟩
  induction r generalizing s with
  | eof l =>
    rcases s.takes_or_halts (.eof l) with ⟨_, _, _, _, heq, -⟩ | hhalt
    · cases heq
    · exact at_once hhalt
  | failed e => exact at_once ⟨_, _, .broken e⟩
  | token t rest ih =>
    rcases s.takes_or_halts (.token t rest) with ⟨u, _, told, s₁, heq, htaken⟩ | hhalt
    · cases heq
      obtain ⟨ts, last, later, s', closing, x, rfl, hcourse, hhalt⟩ := ih s₁
      exact ⟨t :: ts, last, _, s', closing, x, rfl, htaken.append hcourse, hhalt⟩
    · exact at_once hhalt

/-- What a run does at a state where it consumes nothing more. -/
inductive Ends (s : ParseState) : Logged (Except ParseError Module) → Prop where
  | parsed (h : s.place.isEnd = true) : Ends s ⟨[.parsed s.module], .ok s.module⟩
  | abandoned {looked e} (told : looked.filter Event.isScope = [])
      (h : ∀ f, e ≠ .internal f) : Ends s (.after looked (s.abandon e))

theorem Balanced.ends_of_close (hb : s.Balanced) {looked : List Event} {e : ParseError}
    (told : looked.filter Event.isScope = []) (h : ∀ f, e ≠ .internal f) :
    Ends s ⟨looked ++ s.close.events, .error e⟩ := by
  have hends : Ends s (.after looked (s.abandon e)) := .abandoned told h
  rw [hb.abandon_eq] at hends
  exact hends

theorem Balanced.ends_of_halts (hb : s.Balanced) {r : Reading} {closing : List Event}
    {x : Except ParseError Module} (h : Halts s r closing x) : Ends s ⟨closing, x⟩ := by
  have hclose {e : ParseError} (h : ∀ f, e ≠ .internal f) :
      Ends s ⟨s.close.events, .error e⟩ := by
    have hends : Ends s ⟨[] ++ s.close.events, .error e⟩ := hb.ends_of_close rfl h
    exact hends
  cases h with
  | whole l h => exact .parsed h
  | cut => exact hclose nofun
  | broken => exact hclose nofun
  | refused => exact hclose nofun
  | overtaken _ e =>
    have hends : Ends s ⟨[.scanned (.failed e)] ++ s.close.events, .error (.lexical e)⟩ :=
      hb.ends_of_close rfl nofun
    exact hends
  | @faulty t rest _ h hr =>
    obtain ⟨name, l, fault, rfl⟩ := hb.fault h
    have hends : Ends s ⟨[.scanned rest.head, .consumed (.token t)] ++ s.close.events,
      .error (.ofTypeFault name l fault)⟩ := hb.ends_of_close rfl nofun
    exact hends

theorem Balanced.exists_course (hb : s.Balanced) (r : Reading) : ∃ ts last events s',
    r = .prepend ts last ∧ Course last s ts events s' ∧ Ends s' (s'.run last) := by
  obtain ⟨ts, last, events, s', closing, x, hr, hcourse, hhalt⟩ := s.exists_halt r
  refine ⟨ts, last, events, s', hr, hcourse, ?_⟩
  have hb' := hcourse.balanced hb
  rw [hb'.run_of_halts hhalt]
  exact hb'.ends_of_halts hhalt

end ParseState

end ProcLang
