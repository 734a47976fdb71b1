import ProcLang.Proofs.Balance
import ProcLang.Proofs.Offset
import ProcLang.Proofs.Precedence

/-! # Lookahead

A parse asks for one answer after the other and stops at its first error. What comes of it is told
by the answers that it has asked for, and these by the text up to the byte behind the last lexeme.
-/
namespace ProcLang

def Event.answer? : Event → Option Scanned
  | .scanned a => some a
  | _ => none

def Event.isTransfer : Event → Bool
  | .scanned _ => true
  | .consumed _ => true
  | _ => false

def Logged.answers {α : Type} (x : Logged α) : List Scanned := x.events.filterMap Event.answer?

theorem Logged.answers_after {α : Type} (events : List Event) (x : Logged α) :
    (x.after events).answers = events.filterMap Event.answer? ++ x.answers :=
  List.filterMap_append

/-- The answers that the parse of a source asks for. -/
def pulls (name : String) (source : Bytes) : List Scanned := (Module.parse name source).answers

/-- What the last of the answers is when a parse gives up: the lexeme that is no token, the token
that may not follow, or what is behind the name of a type. -/
inductive Culprit : ParseError → List Scanned → Prop where
  | lexical (before : List Scanned) (e : LexError) : Culprit (.lexical e) (before ++ [.failed e])
  | unexpected (before : List Scanned) {x : Scanned} {found : TokenKind}
      (h : x.kind? = some found) (expected : List TokenKind) :
      Culprit (.unexpected expected found x.location) (before ++ [x])
  | semantic (before : List Scanned) (name message : String) (l : Location) (behind : Scanned) :
      Culprit (.semantic name message l) (before ++ [.token ⟨.identifier name, l⟩, behind])

theorem Culprit.cons {e : ParseError} {answers : List Scanned} (h : Culprit e answers)
    (x : Scanned) : Culprit e (x :: answers) := by
  cases h with
  | lexical before e => exact .lexical (x :: before) e
  | unexpected before h expected => exact .unexpected (x :: before) h expected
  | semantic before name message l behind =>
    exact .semantic (x :: before) name message l behind

theorem Culprit.ne_nil {e : ParseError} {answers : List Scanned} (h : Culprit e answers) :
    answers ≠ [] := by
  cases h <;> simp

namespace ParseState

variable {s s' : ParseState} {t : Token} {events : List Event} {r r' rest : Reading}
  {answers : List Scanned} {x : Except ParseError Module}

theorem quiet_of_leaveBody {p : OpenProc} {b : OpenBlock}
    (h : s.leaveBody p b = .ok ⟨events, s'⟩) : events.any Event.isTransfer = false := by
  unfold leaveBody ScopeStack.leave at h
  cases hpop : s.scopes.pop with
  | error e =>
    rw [hpop] at h
    cases h
  | ok below =>
    rw [hpop] at h
    cases h
    rfl

theorem quiet_of_consume? (h : s.consume? t = some (.ok ⟨events, s'⟩)) :
    events.any Event.isTransfer = false := by
  obtain ⟨place, scopes, id, m⟩ := s
  obtain ⟨u, l⟩ := t
  cases place with
  | declarations z => cases z <;> cases u <;> cases h <;> rfl
  | group z =>
    cases u with
    | identifier x =>
      cases h
      rfl
    | _ => cases z <;> cases h <;> rfl
  | varColon z hd =>
    cases u with
    | identifier x =>
      obtain ⟨type, hn⟩ | ⟨fault, he⟩ := resolve_bind_cases (Option.some.inj h)
      · cases hn
        rfl
      · cases he
    | _ => cases h
  | varType z v => cases u <;> cases z <;> cases h <;> rfl
  | procColon hd =>
    cases u with
    | identifier x =>
      obtain ⟨type, hn⟩ | ⟨fault, he⟩ := resolve_bind_cases (Option.some.inj h)
      · cases hn
        rfl
      · cases he
    | _ => cases h
  | statements p b =>
    cases u with
    | rightBrace => exact quiet_of_leaveBody (Option.some.inj h)
    | identifier x =>
      cases h
      rfl
    | intLiteral n =>
      cases h
      rfl
    | _ => cases h
  | _ => cases u <;> cases h <;> rfl

theorem answers_of_quiet (h : events.any Event.isTransfer = false) :
    events.filterMap Event.answer? = [] := by
  rw [List.filterMap_eq_nil_iff]
  intro x hx
  have hquiet := List.any_eq_false.mp h x hx
  cases x with
  | scanned a => exact absurd rfl hquiet
  | _ => rfl

theorem quiet_close (s : ParseState) : s.close.events.any Event.isTransfer = false := by
  unfold close ScopeStack.leave
  cases s.place.region with
  | module => rfl
  | body p => cases s.scopes.pop <;> rfl

theorem advance_of_course (h : Course rest s [t] events s') : s.advance t = .ok s' := by
  cases h with
  | cons consumed _ behind =>
    cases behind
    rw [advance, consumed]
    rfl

theorem answers_of_course (h : Course rest s [t] events s') :
    (s.run (.token t rest)).answers = rest.head :: (s'.run rest).answers := by
  have htold : events.filterMap Event.answer? = [rest.head] := by
    cases h with
    | cons consumed _ behind =>
      cases behind
      rw [List.filterMap_append, List.append_nil, answers_of_quiet (quiet_of_consume? consumed)]
      rfl
  rw [show Reading.token t rest = .prepend [t] rest from rfl, h.run_eq, Logged.answers_after,
    htold]
  rfl

/-- The answers that a run uses, the first of which has been asked for, and what comes of it. -/
inductive Trace : ParseState → Reading → List Scanned → Except ParseError Module → Prop where
  | eof (s : ParseState) (l : Location) : Trace s (.eof l) [.eof l] (s.run (.eof l)).value
  | failed (s : ParseState) (e : LexError) :
      Trace s (.failed e) [.failed e] (.error (.lexical e))
  | refused {s : ParseState} {t : Token} (hc : s.consume? t = none) (rest : Reading) :
      Trace s (.token t rest) [.token t]
        (.error (.unexpected s.place.expected t.kind t.location))
  | overtaken {s : ParseState} {t : Token} (hc : s.consume? t ≠ none) (e : LexError) :
      Trace s (.token t (.failed e)) [.token t, .failed e] (.error (.lexical e))
  | faulty {s : ParseState} {t : Token} {rest : Reading} {e : ParseError}
      (hc : s.consume? t = some (.error e)) (hr : ∀ f, rest ≠ .failed f) :
      Trace s (.token t rest) [.token t, rest.head] (.error e)
  | consumed {s s' : ParseState} {t : Token} {rest : Reading} {answers : List Scanned}
      {x : Except ParseError Module} (ha : s.advance t = .ok s') (h : Trace s' rest answers x) :
      Trace s (.token t rest) (.token t :: answers) x

theorem Halts.trace {closing : List Event} (h : Halts s r closing x) (hb : s.Balanced) :
    Trace s r (r.head :: closing.filterMap Event.answer?) x := by
  have hclose := answers_of_quiet s.quiet_close
  have hvalue : (s.run r).value = x := congrArg Logged.value (hb.run_of_halts h)
  cases h with
  | whole l => exact hvalue ▸ .eof s l
  | cut l =>
    rw [hclose]
    exact hvalue ▸ .eof s l
  | broken e =>
    rw [hclose]
    exact .failed s e
  | refused hc rest =>
    rw [hclose]
    exact .refused hc rest
  | overtaken hc e =>
    rw [List.filterMap_cons, hclose]
    exact .overtaken hc e
  | faulty hc hr =>
    rw [List.filterMap_cons, List.filterMap_cons, hclose]
    exact .faulty hc hr

theorem Balanced.trace (hb : s.Balanced) (r : Reading) :
    Trace s r (r.head :: (s.run r).answers) (s.run r).value := by
  have of_halts {s : ParseState} {r : Reading} (hb : s.Balanced)
      (h : ∃ closing x, Halts s r closing x) :
      Trace s r (r.head :: (s.run r).answers) (s.run r).value := by
    obtain ⟨closing, x, hhalt⟩ := h
    rw [hb.run_of_halts hhalt]
    exact hhalt.trace hb
  induction r generalizing s with
  | eof l =>
    rcases s.takes_or_halts (.eof l) with ⟨_, _, _, _, heq, -⟩ | hhalt
    · cases heq
    · exact of_halts hb hhalt
  | failed e => exact of_halts hb ⟨_, _, .broken e⟩
  | token t rest ih =>
    rcases s.takes_or_halts (.token t rest) with ⟨u, _, told, s', heq, htaken⟩ | hhalt
    · cases heq
      have ha := advance_of_course htaken
      rw [answers_of_course htaken, hb.run_advance ha]
      exact .consumed ha (ih (hb.advance ha))
    · exact of_halts hb hhalt

theorem head_eq_of_front {a : Scanned} (h : a :: answers <+: r.answers) : r.head = a := by
  cases r <;> exact (List.cons_prefix_cons.mp h).1.symm

theorem eq_eof_of_head {l : Location} (h : r.head = .eof l) : r = .eof l := by
  cases r <;> cases h
  rfl

theorem eq_failed_of_head {e : LexError} (h : r.head = .failed e) : r = .failed e := by
  cases r <;> cases h
  rfl

theorem exists_of_token_front (h : .token t :: answers <+: r.answers) :
    ∃ rest, r = .token t rest ∧ answers <+: rest.answers := by
  cases r with
  | token u rest =>
    obtain ⟨hu, hrest⟩ := List.cons_prefix_cons.mp h
    obtain rfl := Scanned.token.inj hu
    exact ⟨rest, rfl, hrest⟩
  | eof l => cases (List.cons_prefix_cons.mp h).1
  | failed e => cases (List.cons_prefix_cons.mp h).1

namespace Trace

theorem prefix_answers (h : Trace s r answers x) : answers <+: r.answers := by
  have only_head (r : Reading) : [r.head] <+: r.answers := by
    cases r <;> exact List.cons_prefix_cons.mpr ⟨rfl, List.nil_prefix⟩
  induction h with
  | eof s l => exact List.prefix_rfl
  | failed s e => exact List.prefix_rfl
  | @refused s t hc rest => exact only_head (.token t rest)
  | overtaken hc e => exact List.prefix_rfl
  | @faulty s t rest e hc hr => exact List.cons_prefix_cons.mpr ⟨rfl, only_head rest⟩
  | consumed ha _ ih => exact List.cons_prefix_cons.mpr ⟨rfl, ih⟩

/-- Where the same answers are given, the same comes of the run. -/
theorem run_of_front (h : Trace s r answers x) (hb : s.Balanced) (hr : answers <+: r'.answers) :
    (s.run r').value = x := by
  induction h generalizing r' with
  | eof s l => rw [eq_eof_of_head (head_eq_of_front hr)]
  | failed s e => rw [eq_failed_of_head (head_eq_of_front hr), hb.run_failed]
  | refused hc rest =>
    obtain ⟨rest', rfl, -⟩ := exists_of_token_front hr
    exact hb.run_refused hc
  | overtaken hc e =>
    obtain ⟨rest', rfl, hrest⟩ := exists_of_token_front hr
    rw [eq_failed_of_head (head_eq_of_front hrest), hb.run_before_failed hc]
  | @faulty s t rest e hc hne =>
    obtain ⟨rest', rfl, hrest⟩ := exists_of_token_front hr
    apply hb.run_faulty hc
    rintro f rfl
    exact hne f (eq_failed_of_head (head_eq_of_front hrest).symm)
  | consumed ha _ ih =>
    obtain ⟨rest', rfl, hrest⟩ := exists_of_token_front hr
    rw [hb.run_advance ha]
    exact ih (hb.advance ha) hrest

/-- An error tells the last answer that the run has used. -/
theorem culprit {name : String} {before : List Token} {e : ParseError}
    (h : Trace s r answers (.error e)) (hs : (initial name).steps before = .ok s) :
    Culprit e answers := by
  generalize hx : Except.error e = x at h
  induction h generalizing before with
  | eof s l =>
    rw [((balanced_initial name).steps hs).run_eof] at hx
    split at hx <;> cases hx
    exact .unexpected [] (x := .eof l) rfl _
  | failed s f =>
    cases hx
    exact .lexical [] f
  | @refused s t hc rest =>
    cases hx
    exact .unexpected [] (x := .token t) rfl _
  | @overtaken s t hc f =>
    cases hx
    exact .lexical [.token t] f
  | @faulty s t rest f hc hr =>
    cases hx
    obtain ⟨d, past, o, name, l, rfl, -, -, -, rfl⟩ := exists_unresolved hs hc
    exact .semantic [] name _ l rest.head
  | @consumed s s' t rest answers x ha _ ih =>
    have hsteps : (initial name).steps (before ++ [t]) = .ok s' := by
      rw [steps_append, hs]
      change s.steps [t] = _
      rw [steps_cons, ha]
      rfl
    exact (ih hsteps hx).cons _

end Trace

end ParseState

theorem trace_of_parse (name : String) (source : Bytes) :
    (ParseState.initial name).Trace (Reading.ofSource source) (pulls name source)
      (Module.parse name source).value := by
  have h := (ParseState.balanced_initial name).trace (Reading.ofSource source)
  rw [pulls, Module.parse_eq]
  exact h

theorem pulls_eq (name : String) (source : Bytes) : pulls name source =
    (List.range (pulls name source).length).map (Scanner.ofSource source).answer := by
  have hprefix := (trace_of_parse name source).prefix_answers
  apply List.ext_getElem?
  intro i
  by_cases hi : i < (pulls name source).length
  · have hanswer := List.getElem?_eq_getElem hi
    have hread : (Reading.ofSource source).answers[i]? = some (pulls name source)[i] := by
      rw [← hanswer]
      exact (List.prefix_iff_getElem?.mp hprefix i hi) ▸ hanswer.symm
    rw [hanswer, ← Scanner.answer_of_read hread]
    simp [hi]
  · rw [List.getElem?_eq_none (not_lt.mp hi), List.getElem?_eq_none (by simpa using hi)]

theorem take_answers_of_spanOf {p : Bytes} (r₁ r₂ : Bytes) {n : ℕ} {a : Scanned}
    (ha : (Reading.ofSource (p ++ r₁)).answers[n]? = some a)
    (hn : ((Scanner.ofSource (p ++ r₁)).spanOf n).2 < p.length) :
    (Reading.ofSource (p ++ r₁)).answers.take (n + 1) =
      (Reading.ofSource (p ++ r₂)).answers.take (n + 1) := by
  obtain ⟨ps, hps, hapart⟩ := Piece.exists_pieces (p ++ r₁)
  have hread : Reading.ofSource (p ++ r₁) = Piece.reading .start ps :=
    hps ▸ reading_of_pieces hapart
  rw [hread] at ha ⊢
  rcases Piece.exists_lexeme_of_answer ha with ⟨l, rfl⟩ | ⟨qs, x, rs, rfl, rfl⟩
  · rw [← hread] at ha
    have hspan := (Scanner.eof_of_answer_eof _ _ (Scanner.answer_of_read ha)).2
    rw [hspan, List.length_append] at hn
    omega
  · rw [← hps, spanOf_of_pieces hapart] at hn
    rw [List.append_cons] at hps hapart ⊢
    rw [Piece.text_append] at hps
    have hlength : (Piece.text (qs ++ [.lexeme x])).length < p.length := by
      rwa [Piece.text_append_lexeme, List.length_append]
    obtain ⟨more, rfl⟩ : ∃ more, p = Piece.text (qs ++ [.lexeme x]) ++ more := by
      have hfront := List.prefix_of_prefix_length_le (List.prefix_append _ _)
        (hps ▸ List.prefix_append p r₁) hlength.le
      obtain ⟨more, hmore⟩ := hfront
      exact ⟨more, hmore.symm⟩
    have hends : x.EndsAt (more ++ r₂) := by
      have hmore : more ≠ [] := by
        rintro rfl
        simp at hlength
      have hx := hapart.endsAt
      rw [List.append_assoc] at hps
      rw [List.append_cancel_left hps] at hx
      rw [Lexeme.EndsAt, List.head?_append_of_ne_nil _ hmore] at hx ⊢
      exact hx
    obtain ⟨rs', hrs', hapart'⟩ := Piece.exists_pieces (more ++ r₂)
    have hboth : Piece.Apart ((qs ++ [.lexeme x]) ++ rs') := by
      apply hapart.of_append.1.append hapart'
      intro front y hy
      obtain ⟨-, hlast⟩ := List.append_inj' hy rfl
      cases hlast
      rwa [hrs']
    have hcount : ((qs ++ [Piece.lexeme x]).filterMap Piece.lexeme?).length =
        (qs.filterMap Piece.lexeme?).length + 1 := by
      rw [List.filterMap_append, List.length_append]
      rfl
    have hread' : Reading.ofSource ((Piece.text (qs ++ [.lexeme x]) ++ more) ++ r₂) =
        Piece.reading .start ((qs ++ [.lexeme x]) ++ rs') := by
      rw [List.append_assoc, ← hrs', ← Piece.text_append, reading_of_pieces hboth]
    rw [hread', ← hcount]
    exact Piece.take_answers_append _ _ _ _

/-- A parse that gives up has asked for the answers up to the one that is to blame. Where that one
ends before the end of a text, it gives up likewise whatever stands behind the text. -/
theorem error_depends_on_front {name : String} {p r₁ : Bytes} {e : ParseError}
    (h : (Module.parse name (p ++ r₁)).value = .error e) :
    let s := Scanner.ofSource (p ++ r₁)
    let answers := pulls name (p ++ r₁)
    answers = (List.range answers.length).map s.answer ∧ Culprit e answers ∧
      ((s.spanOf (answers.length - 1)).2 < p.length →
        ∀ r₂, (Module.parse name (p ++ r₂)).value = .error e) := by
  intro s answers
  have htrace := trace_of_parse name (p ++ r₁)
  rw [h] at htrace
  have hculprit : Culprit e answers :=
    htrace.culprit (show (ParseState.initial name).steps [] = .ok _ from rfl)
  refine ⟨pulls_eq name (p ++ r₁), hculprit, ?_⟩
  intro hend r₂
  have hprefix := htrace.prefix_answers
  have hpos : 0 < answers.length := List.length_pos_iff.mpr hculprit.ne_nil
  have hlast : answers.length - 1 < answers.length := by omega
  have hanswer := List.prefix_iff_getElem?.mp hprefix _ hlast
  have htake := take_answers_of_spanOf r₁ r₂ hanswer hend
  rw [Nat.sub_add_cancel hpos, ← List.prefix_iff_eq_take.mp hprefix] at htake
  rw [Module.parse_value]
  apply htrace.run_of_front (ParseState.balanced_initial name)
  rw [htake]
  exact List.take_prefix _ _

/-- The name of a type is looked up once the token behind it is there. -/
theorem unknown_type_is_reported_anyway :
    let p := "var x: y; z".toUTF8.toList
    let e : ParseError := .semantic "y" "unknown type 'y'" ⟨1, 8⟩
    pulls "m" p = [.token ⟨.var, ⟨1, 1⟩⟩, .token ⟨.identifier "x", ⟨1, 5⟩⟩,
      .token ⟨.colon, ⟨1, 6⟩⟩, .token ⟨.identifier "y", ⟨1, 8⟩⟩,
      .token ⟨.semicolon, ⟨1, 9⟩⟩] ∧
    ∀ r, (Module.parse "m" (p ++ r)).value = .error e := by
  intro p e
  have hpulls : pulls "m" p = [.token ⟨.var, ⟨1, 1⟩⟩, .token ⟨.identifier "x", ⟨1, 5⟩⟩,
      .token ⟨.colon, ⟨1, 6⟩⟩, .token ⟨.identifier "y", ⟨1, 8⟩⟩,
      .token ⟨.semicolon, ⟨1, 9⟩⟩] := by
    rw [pulls, Module.parse_eq]
    decide +kernel
  have herror : (Module.parse "m" (p ++ [])).value = .error e := by
    rw [Module.parse_value]
    decide +kernel
  have hend : ((Scanner.ofSource (p ++ [])).spanOf ((pulls "m" (p ++ [])).length - 1)).2 <
      p.length := by
    rw [List.append_nil, hpulls]
    decide +kernel
  obtain ⟨-, -, hrest⟩ := error_depends_on_front herror
  exact ⟨hpulls, hrest hend⟩

end ProcLang
