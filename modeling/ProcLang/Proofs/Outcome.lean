import ProcLang.Proofs.Replay
import ProcLang.Proofs.Simulation

/-! # How a run ends

The tokens of a source are consumed up to the first one that the parser does not get past. What is
consumed is the beginning of a derivation whose type names resolve so far, so the token at fault is
either one that cannot follow there, or a type name that does not resolve. -/
namespace ProcLang

open ProcLang.Derivation

theorem Mark.check_eq_error {past : List Mark} {m : Mark} {e : ParseError}
    (h : m.check past = .error e) : ∃ o x l, m = ⟨⟨.identifier x, l⟩, .typeName o⟩ ∧
      ¬ Resolves past o x ∧ e = .ofTypeFault x l (typeFault past o x) := by
  have hm : m.Unresolved past := by
    by_contra hn
    rw [check_eq_ok_iff.mpr hn] at h
    cases h
  obtain ⟨⟨u, l⟩, r⟩ := m
  obtain ⟨o, x, rfl, rfl, hx⟩ := hm
  rw [check_of_unresolved rfl rfl hx] at h
  exact ⟨o, x, l, rfl, hx, (Except.error.inj h).symm⟩

/-- The tokens are the first ones of a derivation that is marked as given. -/
def Begins (ts : List Token) (past : List Mark) : Prop :=
  past.map Mark.token = ts ∧ ∃ d : Derivation, past <+: d.marks

theorem Begins.exists_iff {ts : List Token} : (∃ past, Begins ts past) ↔
    ∃ p, Point.start.follow (ts.map Token.kind) = some p := by
  rw [← exists_prefix_iff]
  constructor
  · intro h
    obtain ⟨past, rfl, d, hd⟩ := h
    exact ⟨d, d.marks_token ▸ hd.map _⟩
  · intro h
    obtain ⟨d, rest, hd⟩ := h
    rw [← d.marks_token] at hd
    obtain ⟨past, after, hm, hp, -⟩ := List.map_eq_append_iff.mp hd.symm
    exact ⟨past, hp, d, after, hm.symm⟩

section

variable {name : String} {ts : List Token} {past : List Mark} {s : ParseState}

theorem follow_of_steps (hs : (ParseState.initial name).steps ts = .ok s) :
    Point.start.follow (ts.map Token.kind) = some s.place.point :=
  ParseState.point_of_steps hs

/-- Consumed tokens have resolved type names, and the parser goes on along any derivation that they
begin. -/
theorem Begins.follows (h : Begins ts past) (hs : (ParseState.initial name).steps ts = .ok s)
    {d : Derivation} {after : List Mark} (hd : d.marks = past ++ after) :
    AllResolve [] past ∧ ∃ s', Follows past s after s' := by
  obtain ⟨rfl, -⟩ := h
  obtain ⟨s', hf, -⟩ := d.follows name
  rw [hd] at hf
  obtain ⟨s₁, h₁, h₂⟩ := hf.split
  have hr := h₁.allResolve_of_steps hs
  rw [h₁.steps_eq_ok hr] at hs
  cases hs
  exact ⟨hr, s', h₂⟩

theorem Begins.allResolve (h : Begins ts past)
    (hs : (ParseState.initial name).steps ts = .ok s) : AllResolve [] past := by
  obtain ⟨d, after, hd⟩ := h.2
  exact (h.follows hs hd.symm).1

theorem exists_unresolved {t : Token} {e : ParseError}
    (hs : (ParseState.initial name).steps ts = .ok s) (hc : s.consume? t = some (.error e)) :
    ∃ (d : Derivation) (past : List Mark) (o : Owner) (x : String) (l : Location),
      t = ⟨.identifier x, l⟩ ∧ Begins ts past ∧ d.NamesType past o x l ∧
        ¬ Resolves past o x ∧ e = .ofTypeFault x l (typeFault past o x) := by
  have hnext : s.place.point.next? t.kind ≠ none := by
    rw [ne_eq, ← ParseState.consume?_eq_none_iff, hc]
    exact Option.some_ne_none _
  obtain ⟨p, hp⟩ := Option.ne_none_iff_exists'.mp hnext
  have hpath : Point.start.follow ((ts ++ [t]).map Token.kind) = some p := by
    rw [List.map_append, Point.follow_append, follow_of_steps hs]
    simpa [Point.follow_cons] using hp
  -- Any derivation that goes so far will do: the parser follows each of them.
  obtain ⟨all, hall, d, after, hd⟩ := Begins.exists_iff.mpr ⟨p, hpath⟩
  obtain ⟨past, tail, rfl, hpast, htail⟩ := List.map_eq_append_iff.mp hall
  obtain ⟨m, rfl, rfl⟩ := List.map_eq_singleton_iff.mp htail
  rw [List.append_assoc] at hd
  have hb : Begins ts past := ⟨hpast, d, [m] ++ after, hd⟩
  obtain ⟨-, s', hf⟩ := hb.follows hs hd.symm
  have hm : m.check past = .error e := by
    cases hf with
    | cons step _ _ =>
      rw [ParseState.advance, hc] at step
      cases hk : m.check past with
      | ok =>
        rw [hk] at step
        cases step
      | error f =>
        rw [hk] at step
        cases step
        rfl
  obtain ⟨o, x, l, rfl, hn, he⟩ := Mark.check_eq_error hm
  exact ⟨d, past, o, x, l, rfl, hb, ⟨after, hd.symm⟩, hn, he⟩

theorem Derivation.NamesType.consume?_eq (name : String) {d : Derivation} {o : Owner} {x : String}
    {l : Location} (h : d.NamesType past o x l) (hp : AllResolve [] past)
    (hn : ¬ Resolves past o x) :
    ∃ s, (ParseState.initial name).steps (past.map Mark.token) = .ok s ∧
      s.consume? ⟨.identifier x, l⟩ =
        some (.error (.ofTypeFault x l (typeFault past o x))) := by
  obtain ⟨after, hd⟩ := h
  obtain ⟨s', hf, -⟩ := d.follows name
  rw [hd] at hf
  obtain ⟨s, h₁, h₂⟩ := hf.split
  refine ⟨s, h₁.steps_eq_ok hp, ?_⟩
  cases h₂ with
  | cons step _ _ =>
    rw [List.nil_append, Mark.check_of_unresolved rfl rfl hn, ParseState.advance] at step
    cases hc : s.consume? ⟨.identifier x, l⟩ with
    | none =>
      rw [hc] at step
      cases step
    | some c =>
      rw [hc] at step
      cases c with
      | ok => cases step
      | error e =>
        cases step
        rfl

end

theorem ParseState.steps_cases (s : ParseState) (ts : List Token) :
    (∃ s', s.steps ts = .ok s') ∨ ∃ before t after s', ts = before ++ t :: after ∧
      s.steps before = .ok s' ∧
        (s'.consume? t = none ∨ ∃ e, s'.consume? t = some (.error e)) := by
  induction ts generalizing s with
  | nil => exact Or.inl ⟨s, rfl⟩
  | cons t ts ih =>
    cases hc : s.consume? t with
    | none => exact Or.inr ⟨[], t, ts, s, rfl, rfl, Or.inl hc⟩
    | some c =>
      cases c with
      | error e => exact Or.inr ⟨[], t, ts, s, rfl, rfl, Or.inr ⟨e, hc⟩⟩
      | ok x =>
        have ha : s.advance t = .ok x.value := by
          rw [ParseState.advance, hc]
          rfl
        rcases ih x.value with ⟨s', hs⟩ | ⟨before, u, after, s', rfl, hs, hu⟩
        · exact Or.inl ⟨s', by rw [steps_cons, ha]; exact hs⟩
        · exact Or.inr ⟨t :: before, u, after, s', rfl, by rw [steps_cons, ha]; exact hs, hu⟩

/-- How a parse can end when `ts` are the tokens of the source and `last` is what is behind them. -/
inductive Ending (name : String) (ts : List Token) :
    Reading → Except ParseError Module → Prop where
  | whole {s l} (hs : (ParseState.initial name).steps ts = .ok s) (he : s.place.isEnd = true) :
      Ending name ts (.eof l) (.ok s.module)
  | cut {s l} (hs : (ParseState.initial name).steps ts = .ok s) (he : s.place.isEnd = false) :
      Ending name ts (.eof l) (.error (.unexpected s.place.expected .eof l))
  | broken {s f} (hs : (ParseState.initial name).steps ts = .ok s) :
      Ending name ts (.failed f) (.error (.lexical f))
  | refused {before t after s last} (ht : ts = before ++ t :: after)
      (hs : (ParseState.initial name).steps before = .ok s) (hc : s.consume? t = none) :
      Ending name ts last (.error (.unexpected s.place.expected t.kind t.location))
  | faulty {before t after s last e} (ht : ts = before ++ t :: after)
      (hs : (ParseState.initial name).steps before = .ok s) (hc : s.consume? t = some (.error e))
      (hl : after = [] → ∀ f, last ≠ .failed f) : Ending name ts last (.error e)
  | overtaken {before t s e f} (ht : ts = before ++ [t])
      (hs : (ParseState.initial name).steps before = .ok s)
      (hc : s.consume? t = some (.error e)) :
      Ending name ts (.failed f) (.error (.lexical f))

theorem ending_of_prepend (name : String) (ts : List Token) {last : Reading}
    (hl : last.IsLast) :
    Ending name ts last ((ParseState.initial name).run (.prepend ts last)).value := by
  have hb := ParseState.balanced_initial name
  rcases ParseState.steps_cases (.initial name) ts with
    ⟨s, hs⟩ | ⟨before, t, after, s, rfl, hs, hc⟩
  · rw [hb.run_steps hs]
    cases hl with
    | failed f => exact (hb.steps hs).run_failed f ▸ .broken hs
    | eof l =>
      rw [(hb.steps hs).run_eof]
      cases he : s.place.isEnd with
      | true => exact .whole hs he
      | false => exact .cut hs he
  · rw [Reading.prepend_append, hb.run_steps hs, Reading.prepend_cons]
    rcases hc with hc | ⟨e, hc⟩
    · exact (hb.steps hs).run_refused hc ▸ .refused rfl hs hc
    · by_cases hf : ∃ f, Reading.prepend after last = .failed f
      · obtain ⟨f, hf⟩ := hf
        cases after with
        | cons u after => cases hf
        | nil =>
          obtain rfl : last = .failed f := hf
          have hn : s.consume? t ≠ none := by simp [hc]
          exact (hb.steps hs).run_before_failed hn ▸ .overtaken rfl hs hc
      · have hr := (hb.steps hs).run_faulty hc fun f h => hf ⟨f, h⟩
        refine hr ▸ .faulty rfl hs hc ?_
        rintro rfl f rfl
        exact hf ⟨f, rfl⟩

theorem exists_ending (name : String) (source : Bytes) : ∃ ts last,
    Reading.ofSource source = .prepend ts last ∧ last.IsLast ∧
      Ending name ts last (Module.parse name source).value := by
  obtain ⟨ts, last, h, hl⟩ := (Reading.ofSource source).exists_eq_prepend
  refine ⟨ts, last, h, hl, ?_⟩
  rw [Module.parse_value, h]
  exact ending_of_prepend name ts hl

end ProcLang
