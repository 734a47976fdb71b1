import ProcLang.Proofs.Resumption

/-! # Draining

A scanner can be asked for one token after the other, for all tokens at once, or be stepped through
until it has finished. That it has finished concerns stepping only: it is neither set nor read by
the other two, and never reset. Until then all three come to the same. -/
namespace ProcLang

/-- What stepping gives of a reading: its tokens and its error, but not the end of the text. -/
def Reading.given : Reading → List Scanned
  | .eof _ => []
  | .failed e => [.failed e]
  | .token t rest => .token t :: rest.given

theorem Reading.given_prepend (ts : List Token) (r : Reading) :
    (prepend ts r).given = ts.map .token ++ r.given := by
  induction ts with
  | nil => rfl
  | cons t ts ih => rw [prepend_cons, given, ih, List.map_cons, List.cons_append]

namespace Scanner

theorem next_of_flag (s : Scanner) (b : Bool) :
    { s with finished := b }.next = (s.next.1, { s.next.2 with finished := b }) := by
  rcases blank_or_lexeme s.rest with hb | ⟨gap, x, rest, hrest, hg, hx⟩
  · rw [next_of_blank hb, next_of_blank (s := { s with finished := b }) hb]
    rfl
  · rw [next_of_lexeme hrest hg hx, next_of_lexeme (s := { s with finished := b }) hrest hg hx]
    rfl

theorem read_of_flag (s : Scanner) (b : Bool) :
    { s with finished := b }.read = (s.read.1, { s.read.2 with finished := b }) := by
  induction s using read.induct with
  | case1 s l s' h =>
    have hflag := s.next_of_flag b
    rw [h] at hflag
    rw [read_of_eof h, read_of_eof hflag]
  | case2 s e s' h =>
    have hflag := s.next_of_flag b
    rw [h] at hflag
    rw [read_of_failed h, read_of_failed hflag]
  | case3 s t s' h _ _ _ _ ih =>
    have hflag := s.next_of_flag b
    rw [h] at hflag
    rw [read_of_token h, read_of_token hflag, ih]

theorem tokenize_of_flag (s : Scanner) (b : Bool) :
    { s with finished := b }.tokenize = (s.tokenize.1, { s.tokenize.2 with finished := b }) := by
  simp only [tokenize, read_of_flag]

variable {s : Scanner}

theorem finished_next (s : Scanner) : s.next.2.finished = s.finished :=
  congrArg (·.2.finished) (s.next_of_flag s.finished)

theorem finished_read (s : Scanner) : s.read.2.finished = s.finished :=
  congrArg (·.2.finished) (s.read_of_flag s.finished)

theorem step_of_finished (h : s.finished = true) : s.step = (none, s) := by
  rw [step, if_pos h]

theorem finished_afterAll (h : s.finished = true) (rs : List Request) :
    (s.afterAll rs).finished = true := by
  induction rs generalizing s with
  | nil => exact h
  | cons r rs ih =>
    apply ih
    cases r with
    | next => exact s.finished_next.trans h
    | step =>
      simp only [serve, step_of_finished h, h]
    | drain =>
      simp only [serve, drain_of_finished h, h]
    | tokenize => exact s.finished_read.trans h

/-- Stepping stops where reading does, and the flag is then all that differs. -/
theorem drain_eq_read (h : s.finished = false) :
    s.drain = (s.read.1.given, { s.read.2 with finished := true }) := by
  induction s using read.induct with
  | case1 s l s' hn =>
    have hs : s.step = (none, { s' with finished := true }) := by simp [step, h, hn]
    rw [drain_of_step_none hs, read_of_eof hn]
    rfl
  | case2 s e s' hn =>
    have hs : s.step = (some (.failed e), { s' with finished := true }) := by simp [step, h, hn]
    rw [drain_of_step_some hs, drain_of_finished rfl, read_of_failed hn]
    rfl
  | case3 s t s' hn _ _ _ _ ih =>
    have hs : s.step = (some (.token t), s') := by simp [step, h, hn]
    have hs' : s'.finished = false := by
      have hkept := s.finished_next
      rwa [hn, h] at hkept
    rw [drain_of_step_some hs, ih hs', read_of_token hn]
    rfl

theorem drain_eq_map_answer (s : Scanner) :
    s.drain.1 = (List.range s.drain.1.length).map s.answer := by
  apply List.ext_getElem
  · simp
  · intro j hj _
    simp [answer_of_drain (List.getElem?_eq_getElem hj)]

end Scanner

open Scanner in
/-- As long as a scanner has not finished, draining it gives one answer after the other as asking
for tokens does: all tokens that `tokenize` gives, or those before the error that it gives and then
this error. Both end at the same place. From then on nothing is given by stepping, whatever else is
asked for; and asking for tokens goes the same way with the flag and without, and keeps it. -/
theorem draining_is_tokenizing {s : Scanner} (h : s.finished = false) :
    s.drain.1 = (List.range s.drain.1.length).map s.answer ∧
    (∀ ts l, s.tokenize.1 = .ok (ts, l) →
      s.drain.1 = ts.map .token ∧ s.answer ts.length = .eof l) ∧
    (∀ e, s.tokenize.1 = .error e → ∃ ts : List Token, s.drain.1 = ts.map .token ++ [.failed e]) ∧
    s.drain.2 = { s.tokenize.2 with finished := true } ∧
    (∀ rs, (s.drain.2.afterAll rs).step = (none, s.drain.2.afterAll rs)) ∧
    ∀ (u : Scanner) (b : Bool),
      { u with finished := b }.next = (u.next.1, { u.next.2 with finished := b }) ∧
      { u with finished := b }.tokenize = (u.tokenize.1, { u.tokenize.2 with finished := b }) := by
  have hdrain := drain_eq_read h
  refine ⟨s.drain_eq_map_answer, ?_, ?_, ?_, ?_, ?_⟩
  · intro ts l hok
    have hread : s.read.1 = .prepend ts (.eof l) := Reading.tokens_eq_ok_iff.mp hok
    constructor
    · rw [hdrain, hread, Reading.given_prepend]
      simp [Reading.given]
    · apply answer_of_read
      rw [hread, Reading.answers_prepend]
      simp [Reading.answers, Reading.head]
  · intro e herror
    obtain ⟨ts, hread⟩ : ∃ ts, s.read.1 = .prepend ts (.failed e) :=
      Reading.tokens_eq_error_iff.mp herror
    refine ⟨ts, ?_⟩
    rw [hdrain, hread, Reading.given_prepend]
    rfl
  · rw [hdrain]
    rfl
  · intro rs
    have hfinished : s.drain.2.finished = true := by rw [hdrain]
    exact step_of_finished (finished_afterAll hfinished rs)
  · intro u b
    exact ⟨u.next_of_flag b, u.tokenize_of_flag b⟩

/-- Behind an error that has been asked for, stepping is still possible; behind one that has been
stepped over it is not, though there are tokens left. -/
theorem draining_goes_on_behind_error :
    let s := (Scanner.ofSource (utf8 "a ? b 9 ! c")).afterAll [.next, .next]
    let b : Token := ⟨.identifier "b", ⟨1, 5⟩⟩
    let nine : Token := ⟨.intLiteral 9, ⟨1, 7⟩⟩
    let e : LexError := ⟨"unexpected character '!'", ⟨1, 9⟩⟩
    s.answer 0 = .token b ∧ s.tokenize.1 = .error e ∧
      s.drain.1 = [.token b, .token nine, .failed e] ∧
      s.drain.2 = { s.tokenize.2 with finished := true } ∧
      (s.drain.2.afterAll [.next, .tokenize]).step =
        (none, s.drain.2.afterAll [.next, .tokenize]) ∧
      s.drain.2.next.1 = .token ⟨.identifier "c", ⟨1, 11⟩⟩ := by
  intro s b nine e
  have hflag : s.finished = false := by decide +kernel
  have herror : s.tokenize.1 = .error e := by decide +kernel
  obtain ⟨-, -, -, hcursor, hsticky, hnext⟩ := draining_is_tokenizing hflag
  refine ⟨by decide +kernel, herror, by decide +kernel, hcursor, hsticky _, ?_⟩
  rw [hcursor, (hnext s.tokenize.2 true).1]
  decide +kernel

end ProcLang
