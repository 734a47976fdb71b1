import ProcLang.Proofs.Concatenation

/-! # Offsets

An offset of a text lies between two pieces or inside a lexeme. What is read up to an offset between
two pieces does not depend on what stands behind it, and as many answers as there are lexemes before
it are settled there. -/
namespace ProcLang

def Lexeme.front (x : Lexeme) (k : ℕ) : Lexeme where
  first := x.first
  more := x.more.take k
  visible := x.visible
  joined b hb := x.joined b (List.mem_of_mem_take hb)

theorem Lexeme.EndsAt.of_append {x : Lexeme} {first second : Bytes}
    (h : x.EndsAt (first ++ second)) : x.EndsAt first := by
  cases first with
  | nil => exact Lexeme.endsAt_nil
  | cons b first => exact h

namespace Piece

variable {ps qs rs : List Piece} {l : Location} {ts : List Token} {l' : Location}

theorem text_cons (p : Piece) (ps : List Piece) : text (p :: ps) = p.bytes ++ text ps :=
  List.flatMap_cons

theorem text_append_lexeme (ps : List Piece) (x : Lexeme) :
    text (ps ++ [.lexeme x]) = text ps ++ x.bytes := by
  rw [text_append]
  exact congrArg (text ps ++ ·) (List.append_nil _)

theorem Apart.of_append (h : Apart (ps ++ qs)) : Apart ps ∧ Apart qs := by
  induction ps with
  | nil => exact ⟨trivial, h⟩
  | cons p ps ih =>
    cases p with
    | blank b hb => exact ih h
    | lexeme x =>
      obtain ⟨hx, hrest⟩ : x.EndsAt (text (ps ++ qs)) ∧ Apart (ps ++ qs) := h
      obtain ⟨hps, hqs⟩ := ih hrest
      rw [text_append] at hx
      exact ⟨⟨hx.of_append, hps⟩, hqs⟩

theorem Apart.endsAt {x : Lexeme} (h : Apart ((ps ++ [.lexeme x]) ++ qs)) :
    x.EndsAt (text qs) := by
  rw [List.append_assoc] at h
  obtain ⟨-, hx, -⟩ := h.of_append
  exact hx

theorem Apart.cut {x : Lexeme} (h : Apart (qs ++ .lexeme x :: rs)) (k : ℕ) :
    Apart (qs ++ [.lexeme (x.front k)]) := by
  refine h.of_append.1.append ⟨Lexeme.endsAt_nil, trivial⟩ ?_
  rintro front y rfl
  exact h.endsAt

/-- How the text up to an offset is made up: of whole pieces, or of whole pieces and the front of
the lexeme behind them. -/
theorem exists_cut (ps : List Piece) (p : ℕ) :
    (∃ qs rs, ps = qs ++ rs ∧ (text ps).take p = text qs) ∨
    ∃ qs x rs k, ps = qs ++ .lexeme x :: rs ∧ k < x.more.length ∧
      p = (text qs).length + (k + 1) ∧
      (text ps).take p = text (qs ++ [.lexeme (x.front k)]) := by
  induction ps generalizing p with
  | nil => exact Or.inl ⟨[], [], rfl, List.take_nil⟩
  | cons q ps ih =>
    by_cases hlt : p < q.bytes.length
    · cases p with
      | zero => exact Or.inl ⟨[], q :: ps, rfl, rfl⟩
      | succ k =>
        cases q with
        | blank b hb => exact absurd hlt (Nat.not_lt.mpr (Nat.le_add_left 1 k))
        | lexeme x =>
          have hk : k < x.more.length := Nat.lt_of_succ_lt_succ hlt
          refine Or.inr ⟨[], x, ps, k, rfl, hk, (Nat.zero_add _).symm, ?_⟩
          rw [text_cons, List.take_append_of_le_length hlt.le]
          exact (List.append_nil _).symm
    · have hp : q.bytes.length + (p - q.bytes.length) = p := Nat.add_sub_cancel' (not_lt.mp hlt)
      have htake : (text (q :: ps)).take p =
          q.bytes ++ (text ps).take (p - q.bytes.length) := by
        conv_lhs => rw [← hp, text_cons, List.take_length_add_append]
      rcases ih (p - q.bytes.length) with ⟨qs, rs, rfl, h⟩ | ⟨qs, x, rs, k, rfl, hk, hpk, h⟩
      · refine Or.inl ⟨q :: qs, rs, rfl, ?_⟩
        rw [htake, h, text_cons]
      · refine Or.inr ⟨q :: qs, x, rs, k, rfl, hk, ?_, ?_⟩
        · rw [text_cons, List.length_append]
          omega
        · rw [htake, h, List.cons_append, text_cons]

theorem blank_or_last (ps : List Piece) : Blank (text ps) ∧ ps.filterMap lexeme? = [] ∨
    ∃ qs x gap, ps = (qs ++ [.lexeme x]) ++ gap ∧ Blank (text gap) ∧
      gap.filterMap lexeme? = [] := by
  induction ps with
  | nil => exact Or.inl ⟨List.forall_mem_nil _, rfl⟩
  | cons p ps ih =>
    rcases ih with ⟨hblank, hnone⟩ | ⟨qs, x, gap, rfl, hgap, hnone⟩
    · cases p with
      | blank b hb => exact Or.inl ⟨List.forall_mem_cons.mpr ⟨hb, hblank⟩, hnone⟩
      | lexeme x => exact Or.inr ⟨[], x, ps, rfl, hblank, hnone⟩
    · exact Or.inr ⟨p :: qs, x, gap, rfl, hgap, hnone⟩

theorem reading_split (h : reading l (ps ++ qs) = .prepend ts (.eof l')) :
    ∃ us vs, ts = us ++ vs ∧ us.length = (ps.filterMap lexeme?).length ∧
      reading l ps = .prepend us (.eof (l.after (text ps))) ∧
      reading (l.after (text ps)) qs = .prepend vs (.eof l') := by
  induction ps generalizing l ts with
  | nil => exact ⟨[], ts, rfl, rfl, rfl, h⟩
  | cons p ps ih =>
    cases p with
    | blank b hb => exact ih h
    | lexeme x =>
      have htext : l.after (text (.lexeme x :: ps)) = (l.after x.bytes).after (text ps) := by
        rw [text_cons, Location.after_append]
        rfl
      rw [List.cons_append, reading] at h
      rw [reading, htext]
      cases hv : x.verdict with
      | error f =>
        rw [hv] at h
        exact absurd h (failed_ne_prepend _ _ _)
      | ok t =>
        rw [hv] at h
        obtain ⟨ts, rfl, hts⟩ := exists_of_token_eq_prepend h
        obtain ⟨us, vs, rfl, hlength, hus, hvs⟩ := ih hts
        exact ⟨⟨t, l⟩ :: us, vs, rfl, congrArg (· + 1) hlength,
          congrArg (Reading.token _) hus, hvs⟩

theorem exists_lexeme_of_answer {n : ℕ} {a : Scanned} (h : (reading l ps).answers[n]? = some a) :
    (∃ l', a = .eof l') ∨ ∃ qs x rs, ps = qs ++ .lexeme x :: rs ∧
      (qs.filterMap lexeme?).length = n := by
  induction ps generalizing l n with
  | nil =>
    have ha : a = .eof l := by
      cases n <;> simp_all [reading, Reading.answers, Reading.head]
    exact Or.inl ⟨l, ha⟩
  | cons p ps ih =>
    cases p with
    | blank b hb =>
      rcases ih h with hend | ⟨qs, x, rs, rfl, hn⟩
      · exact Or.inl hend
      · exact Or.inr ⟨.blank b hb :: qs, x, rs, rfl, hn⟩
    | lexeme x =>
      cases n with
      | zero => exact Or.inr ⟨[], x, ps, rfl, rfl⟩
      | succ n =>
        rw [reading] at h
        cases hv : x.verdict with
        | error f =>
          rw [hv] at h
          cases h
        | ok t =>
          rw [hv] at h
          rcases ih h with hend | ⟨qs, y, rs, rfl, hn⟩
          · exact Or.inl hend
          · exact Or.inr ⟨.lexeme x :: qs, y, rs, rfl, congrArg (· + 1) hn⟩

theorem take_answers_append (l : Location) (ps qs rs : List Piece) :
    (reading l (ps ++ qs)).answers.take (ps.filterMap lexeme?).length =
      (reading l (ps ++ rs)).answers.take (ps.filterMap lexeme?).length := by
  induction ps generalizing l with
  | nil => rfl
  | cons p ps ih =>
    cases p with
    | blank b hb => exact ih _
    | lexeme x =>
      rw [List.cons_append, List.cons_append, reading, reading]
      cases x.verdict with
      | error f => rfl
      | ok t => exact congrArg (List.cons _) (ih _)

end Piece

namespace Scanner

theorem spanOf_of_lexeme {s : Scanner} {qs rs : List Piece} {x : Lexeme} {front source : Bytes}
    (ha : Piece.Apart (qs ++ .lexeme x :: rs)) (hs : s.rest = Piece.text (qs ++ .lexeme x :: rs))
    (hp : s.HasPassed front source) :
    s.spanOf (qs.filterMap Piece.lexeme?).length =
      ((front ++ Piece.text qs).length, (front ++ Piece.text qs ++ x.bytes).length) := by
  induction qs generalizing s front with
  | nil =>
    obtain ⟨-, hpassed, hstart, -⟩ := hp.next_of_lexeme_cons hs ha.1
    have hfront : front ++ Piece.text [] = front := List.append_nil front
    rw [hfront, ← hpassed.position_eq, ← hp.position_eq, ← hstart]
    rfl
  | cons q qs ih =>
    have htext : front ++ Piece.text (q :: qs) = front ++ q.bytes ++ Piece.text qs := by
      rw [Piece.text_cons, List.append_assoc]
    rw [htext]
    cases q with
    | blank b hb =>
      have hspan := ih ha rfl (hp.past_blank hs)
      rwa [← spanOf_of_next (next_of_blank_cons hs hb)] at hspan
    | lexeme y =>
      obtain ⟨hrest, hpassed, -, -⟩ := hp.next_of_lexeme_cons hs ha.1
      exact ih ha.2 hrest hpassed

end Scanner

theorem spanOf_of_pieces {qs rs : List Piece} {x : Lexeme}
    (h : Piece.Apart (qs ++ .lexeme x :: rs)) :
    (Scanner.ofSource (Piece.text (qs ++ .lexeme x :: rs))).spanOf
        (qs.filterMap Piece.lexeme?).length =
      ((Piece.text qs).length, (Piece.text qs).length + x.bytes.length) := by
  have hspan := Scanner.spanOf_of_lexeme h rfl (Scanner.hasPassed_ofSource _)
  rwa [List.nil_append, @List.length_append _ _ x.bytes] at hspan

/-- The offset is strictly inside a lexeme of the text. -/
def CutsLexeme (source : Bytes) (p : ℕ) : Prop :=
  ∃ i, ((Scanner.ofSource source).spanOf i).1 < p ∧ p < ((Scanner.ofSource source).spanOf i).2

theorem cutsLexeme_iff {source : Bytes} {p : ℕ} : CutsLexeme source p ↔
    ∃ i < source.length, ((Scanner.ofSource source).spanOf i).1 < p ∧
      p < ((Scanner.ofSource source).spanOf i).2 := by
  constructor
  · rintro ⟨i, hi⟩
    refine ⟨i, ?_, hi⟩
    obtain ⟨n, hn, ⟨l, hl⟩, -⟩ := Scanner.exists_first_eof source
    by_contra hlt
    have hspan := (Scanner.eof_of_le source i hl (by omega)).2
    rw [hspan] at hi
    omega
  · rintro ⟨i, -, hi⟩
    exact ⟨i, hi⟩

instance (source : Bytes) (p : ℕ) : Decidable (CutsLexeme source p) :=
  decidable_of_iff _ cutsLexeme_iff.symm

theorem cutsLexeme_of_pieces {qs rs : List Piece} {x : Lexeme} {k : ℕ}
    (h : Piece.Apart (qs ++ .lexeme x :: rs)) (hk : k < x.more.length) :
    CutsLexeme (Piece.text (qs ++ .lexeme x :: rs)) ((Piece.text qs).length + (k + 1)) := by
  have hlength : x.bytes.length = x.more.length + 1 := List.length_cons
  refine ⟨(qs.filterMap Piece.lexeme?).length, ?_⟩
  rw [spanOf_of_pieces h]
  omega

theorem Scanner.span_end_le (source : Bytes) {i j : ℕ} (h : i < j) :
    ((ofSource source).spanOf i).2 ≤ ((ofSource source).spanOf j).1 := by
  have hmono := positionAt_mono source (show i + 1 ≤ j from h)
  have hi := spanOf_bounds source i
  have hj := spanOf_bounds source j
  omega

theorem not_cutsLexeme_end (source : Bytes) (i : ℕ) :
    ¬ CutsLexeme source ((Scanner.ofSource source).spanOf i).2 := by
  rintro ⟨j, hbefore, hbehind⟩
  have hi := Scanner.spanOf_bounds source i
  rcases lt_trichotomy i j with hlt | rfl | hlt
  · have := Scanner.span_end_le source hlt
    omega
  · omega
  · have := Scanner.span_end_le source hlt
    omega

section

variable {name : String} {ps qs : List Piece} {us : List Token} {s : ParseState}

theorem steps_of_split {m : Module} (ha : Piece.Apart (ps ++ qs))
    (h : (Module.parse name (Piece.text (ps ++ qs))).value = .ok m) :
    ∃ us vs l s, Reading.ofSource (Piece.text (ps ++ qs)) = .prepend (us ++ vs) (.eof l) ∧
      Piece.reading .start ps = .prepend us (.eof (.behind (Piece.text ps))) ∧
      us.length = (ps.filterMap Piece.lexeme?).length ∧
      (ParseState.initial name).steps us = .ok s := by
  obtain ⟨ts, last, hread, -, ho⟩ := exists_ending name (Piece.text (ps ++ qs))
  rw [h] at ho
  cases ho with
  | @whole _ l hs =>
    rw [reading_of_pieces ha] at hread
    obtain ⟨us, vs, rfl, hlength, hus, -⟩ := Piece.reading_split hread
    obtain ⟨s, hs, -⟩ := ParseState.steps_split hs
    rw [Location.start_after] at hus
    exact ⟨us, vs, l, s, (reading_of_pieces ha).trans hread, hus, hlength, hs⟩

/-- Whatever stands behind it, the parse goes on from the state at the offset. -/
theorem parse_of_steps (ha : Piece.Apart (ps ++ qs))
    (hread : Piece.reading .start ps = .prepend us (.eof (.behind (Piece.text ps))))
    (hs : (ParseState.initial name).steps us = .ok s) :
    (Module.parse name (Piece.text (ps ++ qs))).value =
      (s.run (Piece.reading (.behind (Piece.text ps)) qs)).value := by
  rw [Module.parse_value, reading_of_pieces ha, Piece.reading_append hread, Location.start_after,
    (ParseState.balanced_initial name).run_steps hs]

end

end ProcLang
