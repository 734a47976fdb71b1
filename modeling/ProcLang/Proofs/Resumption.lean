import ProcLang.Proofs.Concatenation

/-! # Resumption

A scanner may be asked in any order for one token or for all of them, stepped and drained. Whatever
it has been asked, its position tells its place, and what it answers from there on is what a fresh
scanner of the rest of the text answers, moved by what has been passed. -/
namespace ProcLang

/-- The place that `l` becomes when its text starts at `base`; only on the first line does the
column of `base` count. -/
def Location.offset (base l : Location) : Location where
  line := base.line + l.line - 1
  column := if l.line = 1 then base.column + l.column - 1 else l.column

theorem Location.moved_eq_offset (front : Bytes) : moved front = offset (behind front) := by
  funext l
  have hline : 1 + front.count 10 + l.line - 1 = l.line + front.count 10 := by omega
  have hcolumn (n : ℕ) : 1 + n + l.column - 1 = l.column + n := by omega
  simp only [moved, offset, behind, hline, hcolumn]

def Scanned.relocate (f : Location → Location) : Scanned → Scanned
  | .token t => .token (t.relocate f)
  | .eof l => .eof (f l)
  | .failed e => .failed (e.relocate f)

theorem Lexeme.answer_relocate (x : Lexeme) (f : Location → Location) (l : Location) :
    (x.answer l).relocate f = x.answer (f l) := by
  rw [answer_eq, answer_eq]
  cases x.verdict <;> rfl

theorem Reading.tokens_relocate (f : Location → Location) (r : Reading) :
    (∀ ts l, r.tokens = .ok (ts, l) →
      (r.relocate f).tokens = .ok (ts.map (Token.relocate f), f l)) ∧
    ∀ e, r.tokens = .error e → (r.relocate f).tokens = .error (e.relocate f) := by
  constructor
  · intro ts l h
    obtain rfl := tokens_eq_ok_iff.mp h
    exact tokens_eq_ok_iff.mpr (relocate_prepend f ts _)
  · intro e h
    obtain ⟨ts, rfl⟩ := tokens_eq_error_iff.mp h
    exact tokens_eq_error_iff.mpr ⟨_, relocate_prepend f ts _⟩

namespace Scanner

section

variable {s s' : Scanner}

theorem drain_of_step_none (h : s.step = (none, s')) : s.drain = ([], s') := by
  rw [drain]
  split <;> simp_all

theorem drain_of_step_some {x : Scanned} (h : s.step = (some x, s')) :
    s.drain = (x :: s'.drain.1, s'.drain.2) := by
  rw [drain]
  split <;> simp_all

theorem step_cases (s : Scanner) : s.step = (none, s) ∧ s.finished = true ∨
    (∃ t, s.next.1 = .token t ∧ s.step = (some (.token t), s.next.2)) ∨
    (∃ l, s.next.1 = .eof l ∧ s.step = (none, { s.next.2 with finished := true })) ∨
    ∃ e, s.next.1 = .failed e ∧
      s.step = (some (.failed e), { s.next.2 with finished := true }) := by
  by_cases hf : s.finished = true
  · exact Or.inl ⟨by rw [step, if_pos hf], hf⟩
  · right
    rw [step, if_neg hf]
    rcases s.next with ⟨t | l | e, s'⟩
    · exact Or.inl ⟨t, rfl, rfl⟩
    · exact Or.inr (Or.inl ⟨l, rfl, rfl⟩)
    · exact Or.inr (Or.inr ⟨e, rfl, rfl⟩)

theorem drain_of_finished (h : s.finished = true) : s.drain = ([], s) := by
  apply drain_of_step_none
  rw [step, if_pos h]

theorem answer_of_drain {j : ℕ} {x : Scanned} (h : s.drain.1[j]? = some x) : s.answer j = x := by
  induction j generalizing s with
  | zero =>
    rcases s.step_cases with ⟨hs, -⟩ | ⟨t, ht, hs⟩ | ⟨l, -, hs⟩ | ⟨e, he, hs⟩
    · simp [drain_of_step_none hs] at h
    · simp only [drain_of_step_some hs, List.getElem?_cons_zero, Option.some.injEq] at h
      rw [answer, ht, h]
    · simp [drain_of_step_none hs] at h
    · simp only [drain_of_step_some hs, List.getElem?_cons_zero, Option.some.injEq] at h
      rw [answer, he, h]
  | succ j ih =>
    rcases s.step_cases with ⟨hs, -⟩ | ⟨t, ht, hs⟩ | ⟨l, -, hs⟩ | ⟨e, he, hs⟩
    · simp [drain_of_step_none hs] at h
    · simp only [drain_of_step_some hs, List.getElem?_cons_succ] at h
      exact ih h
    · simp [drain_of_step_none hs] at h
    · simp only [drain_of_step_some hs, List.getElem?_cons_succ] at h
      simp [drain_of_finished] at h

theorem answer_of_serve {r : Request} {j : ℕ} {x : Scanned}
    (h : (s.serve r).1.answers[j]? = some x) : s.answer j = x := by
  cases r with
  | next =>
    obtain ⟨rfl, rfl⟩ : j = 0 ∧ s.next.1 = x := by
      cases j <;> simp_all [serve, Reply.answers]
    rfl
  | step =>
    have hstep : s.step.1 = some x ∧ j = 0 := by
      cases hs : s.step.1 <;> cases j <;> simp_all [serve, Reply.answers]
    obtain ⟨hx, rfl⟩ := hstep
    rcases s.step_cases with ⟨hs, -⟩ | ⟨t, ht, hs⟩ | ⟨l, -, hs⟩ | ⟨e, he, hs⟩ <;>
      rw [hs] at hx <;> cases hx
    · exact ht
    · exact he
  | drain => exact answer_of_drain h
  | tokenize => exact answer_of_read h

end

def afterAll (s : Scanner) (rs : List Request) : Scanner :=
  rs.foldl (fun s r => (s.serve r).2) s

section

variable {P : Scanner → Prop} {s : Scanner}

theorem read_keeps (hnext : ∀ s, P s → P s.next.2) (hs : P s) : P s.read.2 := by
  induction s using read.induct with
  | case1 s l s' h =>
    have hkept := hnext s hs
    rw [h] at hkept
    rw [read_of_eof h]
    exact hkept
  | case2 s e s' h =>
    have hkept := hnext s hs
    rw [h] at hkept
    rw [read_of_failed h]
    exact hkept
  | case3 s t s' h _ _ _ _ ih =>
    have hkept := hnext s hs
    rw [h] at hkept
    rw [read_of_token h]
    exact ih hkept

variable (hnext : ∀ s, P s → P s.next.2) (hflag : ∀ s b, P s → P { s with finished := b })

include hnext hflag

theorem step_keeps (hs : P s) : P s.step.2 := by
  rcases s.step_cases with ⟨h, -⟩ | ⟨t, -, h⟩ | ⟨l, -, h⟩ | ⟨e, -, h⟩ <;> rw [h]
  · exact hs
  · exact hnext s hs
  · exact hflag _ true (hnext s hs)
  · exact hflag _ true (hnext s hs)

theorem drain_keeps (hs : P s) : P s.drain.2 := by
  induction s using drain.induct with
  | case1 s s' h =>
    have hkept := step_keeps hnext hflag hs
    rw [h] at hkept
    rw [drain_of_step_none h]
    exact hkept
  | case2 s x s' h _ _ _ _ ih =>
    have hkept := step_keeps hnext hflag hs
    rw [h] at hkept
    rw [drain_of_step_some h]
    exact ih hkept

theorem afterAll_keeps (rs : List Request) (hs : P s) : P (s.afterAll rs) := by
  induction rs generalizing s with
  | nil => exact hs
  | cons r rs ih =>
    apply ih
    cases r with
    | next => exact hnext s hs
    | step => exact step_keeps hnext hflag hs
    | drain => exact drain_keeps hnext hflag hs
    | tokenize => exact read_keeps hnext hs

end

/-- The cursor is somewhere in the text, and the last lexeme is not behind it. -/
structure Within (s : Scanner) (source : Bytes) : Prop where
  passed : ∃ front, s.HasPassed front source
  tokenStart_le : s.tokenStart ≤ s.position

namespace Within

variable {s : Scanner} {source : Bytes}

theorem next (h : s.Within source) : s.next.2.Within source := by
  obtain ⟨front, hp⟩ := h.passed
  obtain ⟨gap, lexeme, rest, ht⟩ := hp.next
  refine ⟨⟨_, ht.passed⟩, ?_⟩
  rw [ht.tokenStart_eq, ht.passed.position_eq, @List.length_append _ _ lexeme]
  omega

theorem ofSource (source : Bytes) : (Scanner.ofSource source).Within source :=
  ⟨⟨[], hasPassed_ofSource source⟩, le_rfl⟩

theorem afterAll (source : Bytes) (rs : List Request) :
    ((Scanner.ofSource source).afterAll rs).Within source := by
  refine afterAll_keeps (P := (·.Within source)) (fun s h => h.next) ?_ rs (ofSource source)
  rintro s b ⟨⟨front, hp⟩, hle⟩
  exact ⟨⟨front, hp.text_eq, hp.position_eq, hp.location_eq⟩, hle⟩

theorem after (h : s.Within source) (j : ℕ) : (s.after j).Within source := by
  induction j with
  | zero => exact h
  | succ j ih =>
    rw [after_succ]
    exact ih.next

theorem location_answer (h : s.Within source) (j : ℕ) :
    (s.answer j).location = .behind (source.take (s.spanOf j).1) := by
  obtain ⟨front, hp⟩ := (h.after j).passed
  obtain ⟨gap, lexeme, rest, ht⟩ := hp.next
  have hfront : source.take (front ++ gap).length = front ++ gap := by
    rw [ht.text_eq, List.append_assoc, List.take_left]
  rw [answer_eq, spanOf, after_succ, span, ht.tokenStart_eq, hfront, ← Location.start_after]
  rcases ht.stated with ⟨-, -, ha⟩ | ⟨x, -, -, ha⟩ <;> rw [ha]
  · rfl
  · rw [x.answer_eq]
    cases x.verdict <;> rfl

end Within

/-- The first scanner stands as the second one does, with `front` put before its text. -/
structure Shifted (front : Bytes) (s fresh : Scanner) : Prop where
  rest_eq : s.rest = fresh.rest
  position_eq : s.position = front.length + fresh.position
  location_eq : s.location = fresh.location.moved front
  line_pos : 0 < fresh.location.line

namespace Shifted

variable {front : Bytes} {s fresh : Scanner}

theorem past (h : Shifted front s fresh) (gap lexeme rest : Bytes) :
    Shifted front (s.past gap lexeme rest) (fresh.past gap lexeme rest) where
  rest_eq := rfl
  position_eq := by simp only [Scanner.past, h.position_eq, Nat.add_assoc]
  location_eq := by
    simp only [Scanner.past]
    rw [← Location.after_append, ← Location.after_append, h.location_eq,
      Location.after_moved front h.line_pos]
  line_pos := Location.line_after_pos (Location.line_after_pos h.line_pos gap) lexeme

theorem next (h : Shifted front s fresh) :
    s.next.1 = fresh.next.1.relocate (.moved front) ∧ Shifted front s.next.2 fresh.next.2 ∧
      s.next.2.tokenStart = front.length + fresh.next.2.tokenStart := by
  have hlocation (gap : Bytes) : s.location.after gap = (fresh.location.after gap).moved front := by
    rw [h.location_eq, Location.after_moved front h.line_pos]
  have hstart (gap lexeme rest : Bytes) : (s.past gap lexeme rest).tokenStart =
      front.length + (fresh.past gap lexeme rest).tokenStart := by
    simp only [Scanner.past, h.position_eq, Nat.add_assoc]
  rcases blank_or_lexeme fresh.rest with hb | ⟨gap, x, rest, hrest, hg, hx⟩
  · have hs : Blank s.rest := h.rest_eq ▸ hb
    rw [next_of_blank hs, next_of_blank hb, h.rest_eq, hlocation]
    exact ⟨rfl, h.past _ _ _, hstart _ _ _⟩
  · have hs : s.rest = gap ++ (x.bytes ++ rest) := h.rest_eq.trans hrest
    rw [next_of_lexeme hs hg hx, next_of_lexeme hrest hg hx, hlocation, x.answer_relocate]
    exact ⟨rfl, h.past _ _ _, hstart _ _ _⟩

theorem after (h : Shifted front s fresh) (j : ℕ) : Shifted front (s.after j) (fresh.after j) := by
  induction j with
  | zero => exact h
  | succ j ih =>
    rw [after_succ, after_succ]
    exact ih.next.2.1

theorem answer (h : Shifted front s fresh) (j : ℕ) :
    s.answer j = (fresh.answer j).relocate (.moved front) := by
  rw [answer_eq, answer_eq]
  exact (h.after j).next.1

def Spans (front : Bytes) (s fresh : Scanner) : Prop :=
  s.span = (front.length + fresh.span.1, front.length + fresh.span.2)

theorem spans_next (h : Shifted front s fresh) : Spans front s.next.2 fresh.next.2 := by
  obtain ⟨-, hnext, hstart⟩ := h.next
  exact Prod.ext hstart hnext.position_eq

theorem spanOf (h : Shifted front s fresh) (j : ℕ) :
    s.spanOf j =
      (front.length + (fresh.spanOf j).1, front.length + (fresh.spanOf j).2) := by
  rw [Scanner.spanOf, Scanner.spanOf, after_succ, after_succ]
  exact (h.after j).spans_next

theorem read (h : Shifted front s fresh) :
    s.read.1 = fresh.read.1.relocate (.moved front) ∧ Spans front s.read.2 fresh.read.2 := by
  induction fresh using read.induct generalizing s with
  | case1 fresh l fresh' hf =>
    obtain ⟨hanswer, -, -⟩ := h.next
    have hspans := h.spans_next
    rw [hf] at hanswer hspans
    rw [read_of_eof hf, read_of_eof (Prod.ext hanswer rfl)]
    exact ⟨rfl, hspans⟩
  | case2 fresh e fresh' hf =>
    obtain ⟨hanswer, -, -⟩ := h.next
    have hspans := h.spans_next
    rw [hf] at hanswer hspans
    rw [read_of_failed hf, read_of_failed (Prod.ext hanswer rfl)]
    exact ⟨rfl, hspans⟩
  | case3 fresh t fresh' hf _ _ _ _ ih =>
    obtain ⟨hanswer, hnext, -⟩ := h.next
    rw [hf] at hanswer hnext
    obtain ⟨hread, hspans⟩ := ih hnext
    rw [read_of_token hf, read_of_token (Prod.ext hanswer rfl), hread]
    exact ⟨rfl, hspans⟩

end Shifted

end Scanner

open Scanner in
/-- However it has been used, a scanner stands in its text, and the part that it has passed tells
its place. From there on it answers as a fresh scanner of the rest does, but for the places. -/
theorem scanner_resumes (source : Bytes) (rs : List Scanner.Request) :
    let s := (Scanner.ofSource source).afterAll rs
    let fresh := Scanner.ofSource (source.drop s.position)
    let move := Location.offset s.location
    (s.tokenStart ≤ s.position ∧ s.position ≤ source.length ∧
      s.location = .behind (source.take s.position)) ∧
    (∀ r j x, (s.serve r).1.answers[j]? = some x →
      x = s.answer j ∧ x.location = .behind (source.take (s.spanOf j).1)) ∧
    (∀ j, s.answer j = (fresh.answer j).relocate move ∧
      s.spanOf j = (s.position + (fresh.spanOf j).1, s.position + (fresh.spanOf j).2)) ∧
    (∀ ts l, fresh.tokenize.1 = .ok (ts, l) →
      s.tokenize.1 = .ok (ts.map (Token.relocate move), move l)) ∧
    (∀ e, fresh.tokenize.1 = .error e → s.tokenize.1 = .error (e.relocate move)) ∧
    s.tokenize.2.span =
      (s.position + fresh.tokenize.2.span.1, s.position + fresh.tokenize.2.span.2) := by
  intro s fresh move
  have hwithin : s.Within source := .afterAll source rs
  obtain ⟨front, hp⟩ := hwithin.passed
  have hfront : source.take s.position = front := by
    rw [hp.position_eq, hp.text_eq, List.take_left]
  have hrest : source.drop s.position = s.rest := by
    rw [hp.position_eq]
    conv_lhs => rw [hp.text_eq, List.drop_left]
  have hlocation : s.location = .behind front := hp.location_eq.trans (Location.start_after front)
  have hmove : Location.moved front = move := by
    rw [Location.moved_eq_offset, ← hlocation]
  have hshifted : Shifted front s fresh := by
    refine ⟨hrest.symm, hp.position_eq, ?_, Nat.one_pos⟩
    exact hp.location_eq.trans (Location.start_moved front).symm
  have hposition : front.length = s.position := hp.position_eq.symm
  obtain ⟨hread, hspan⟩ := hshifted.read
  rw [hmove] at hread
  obtain ⟨hok, herror⟩ := fresh.read.1.tokens_relocate move
  refine ⟨⟨hwithin.tokenStart_le, ?_, ?_⟩, ?_, ?_, ?_, ?_, ?_⟩
  · rw [hp.position_eq, hp.text_eq, List.length_append]
    omega
  · rw [hfront, hlocation]
  · intro r j x hx
    obtain rfl := answer_of_serve hx
    exact ⟨rfl, hwithin.location_answer j⟩
  · intro j
    have hanswer := hshifted.answer j
    have hspanOf := hshifted.spanOf j
    rw [hmove] at hanswer
    rw [hposition] at hspanOf
    exact ⟨hanswer, hspanOf⟩
  · intro ts l h
    rw [tokenize, hread]
    exact hok ts l h
  · intro e h
    rw [tokenize, hread]
    exact herror e h
  · rw [Shifted.Spans, hposition] at hspan
    exact hspan

end ProcLang
