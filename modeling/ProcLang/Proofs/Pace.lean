import ProcLang.Proofs.Lookahead

/-! # Pace

A parse is one token ahead of what it has taken. It takes a token only when the answer behind it is
there, and asks for nothing behind the end of the text or behind an error, so it comes to an end
with every text, and at the latest where the scanner does. -/
namespace ProcLang

namespace Event

/-- The scanner has given a token, the end of the text being one here. -/
def isPull : Event → Bool
  | .scanned (.failed _) => false
  | .scanned _ => true
  | _ => false

def isConsumption : Event → Bool
  | .consumed _ => true
  | _ => false

end Event

/-- Where no token is just being taken, as many have been pulled as taken. -/
def InStep (events : List Event) : Prop :=
  ∀ before after, events = before ++ after → (∀ x, after.head? ≠ some (.consumed x)) →
    before.countP Event.isPull = before.countP Event.isConsumption

namespace InStep

variable {events later : List Event}

theorem of_quiet (h : events.any Event.isTransfer = false) : InStep events := by
  intro before after heq _
  have hnone {p : Event → Bool} (hp : ∀ x, p x = true → x.isTransfer = true) :
      before.countP p = 0 := by
    rw [List.countP_eq_zero]
    intro x hx hpx
    exact List.any_eq_false.mp h x (heq ▸ List.mem_append_left _ hx) (hp x hpx)
  have hpull : ∀ x : Event, x.isPull = true → x.isTransfer = true := by
    intro x h
    cases x with
    | scanned a => rfl
    | _ => cases h
  have hconsumption : ∀ x : Event, x.isConsumption = true → x.isTransfer = true := by
    intro x h
    cases x with
    | consumed t => rfl
    | _ => cases h
  rw [hnone hpull, hnone hconsumption]

theorem failed (e : LexError) : InStep [.scanned (.failed e)] := by
  intro before after heq _
  rcases List.prefix_cons_iff.mp ⟨after, heq.symm⟩ with rfl | ⟨rest, rfl, hrest⟩
  · rfl
  · obtain rfl := List.prefix_nil.mp hrest
    rfl

theorem taken {a : Scanned} (ha : ∀ e, a ≠ .failed e) (x : Lookahead) :
    InStep [.scanned a, .consumed x] := by
  have hpull : (Event.scanned a).isPull = true := by
    cases a with
    | failed e => exact absurd rfl (ha e)
    | _ => rfl
  intro before after heq hafter
  rcases List.prefix_cons_iff.mp ⟨after, heq.symm⟩ with rfl | ⟨rest, rfl, hrest⟩
  · rfl
  rcases List.prefix_cons_iff.mp hrest with rfl | ⟨rest', rfl, hrest'⟩
  · obtain rfl : [Event.consumed x] = after := (List.cons.inj heq).2
    exact absurd rfl (hafter x)
  · obtain rfl := List.prefix_nil.mp hrest'
    rw [List.countP_cons_of_pos hpull]
    rfl

theorem append (h : InStep events) (h' : InStep later) : InStep (events ++ later) := by
  have hwhole : events.countP Event.isPull = events.countP Event.isConsumption :=
    h events [] (List.append_nil _).symm fun _ => nofun
  intro before after heq hafter
  rcases List.append_eq_append_iff.mp heq with ⟨front, rfl, hlater⟩ | ⟨rest, rfl, hafter'⟩
  · rw [List.countP_append, List.countP_append, hwhole, h' front after hlater hafter]
  · cases rest with
    | nil =>
      rw [List.append_nil] at hwhole
      exact hwhole
    | cons x rest =>
      apply h before (x :: rest) rfl
      rw [hafter'] at hafter
      exact hafter

end InStep

namespace ParseState

variable {s s' : ParseState} {t : Token} {ts : List Token} {events closing : List Event}
  {r : Reading} {x : Except ParseError Module}

theorem head_ne_failed (h : ∀ e, r ≠ .failed e) (e : LexError) : r.head ≠ .failed e := by
  intro he
  exact h e (eq_failed_of_head he)

theorem Course.inStep (h : Course r s ts events s') : InStep events := by
  induction h with
  | nil => exact .of_quiet rfl
  | cons consumed scanned _ ih =>
    exact (InStep.taken (head_ne_failed scanned) _).append
      ((InStep.of_quiet (quiet_of_consume? consumed)).append ih)

theorem Halts.inStep (h : Halts s r closing x) : InStep closing := by
  have hclose := InStep.of_quiet s.quiet_close
  cases h with
  | whole => exact .of_quiet rfl
  | overtaken _ e => exact (InStep.failed e).append hclose
  | @faulty t _ _ _ hr => exact (InStep.taken (head_ne_failed hr) (.token t)).append hclose
  | _ => exact hclose

theorem consumed_of_quiet (h : events.any Event.isTransfer = false) :
    events.filterMap Event.consumed? = [] := by
  rw [List.filterMap_eq_nil_iff]
  intro e he
  have hquiet := List.any_eq_false.mp h e he
  cases e with
  | consumed t => exact absurd rfl hquiet
  | _ => rfl

theorem Course.consumed_eq (h : Course r s ts events s') :
    events.filterMap Event.consumed? = ts := by
  induction h with
  | nil => rfl
  | cons consumed _ _ ih =>
    rw [List.filterMap_append, List.filterMap_append,
      consumed_of_quiet (quiet_of_consume? consumed), ih]
    rfl

theorem eof_not_mem_of_quiet (h : events.any Event.isTransfer = false) (l : Location) :
    .consumed (.eof l) ∉ events :=
  fun hmem => List.any_eq_false.mp h _ hmem rfl

theorem Course.eof_not_mem (h : Course r s ts events s') (l : Location) :
    .consumed (.eof l) ∉ events := by
  induction h with
  | nil => exact List.not_mem_nil
  | cons consumed _ _ ih => simp [eof_not_mem_of_quiet (quiet_of_consume? consumed) l, ih]

theorem Halts.eof_not_mem (h : Halts s r closing x) (l : Location) :
    .consumed (.eof l) ∉ closing := by
  have hclose := eof_not_mem_of_quiet s.quiet_close l
  cases h <;> simp [hclose]

theorem Halts.consumed_isPrefix (h : Halts s r closing x) :
    (closing.filterMap Event.consumed?).map .token <+: r.answers := by
  have hclose := consumed_of_quiet s.quiet_close
  cases h with
  | whole => exact List.nil_prefix
  | overtaken =>
    rw [List.filterMap_cons, hclose]
    exact List.nil_prefix
  | faulty =>
    rw [List.filterMap_cons, List.filterMap_cons, hclose]
    exact List.cons_prefix_cons.mpr ⟨rfl, List.nil_prefix⟩
  | _ =>
    rw [hclose]
    exact List.nil_prefix

end ParseState

namespace ParseState

variable {name : String} {source : Bytes} {s s' : ParseState} {ts : List Token} {r : Reading}
  {before events closing : List Event} {x : Except ParseError Module}

theorem Reached.parse_eq (h : Reached name source ts r before s) (hs : Halts s r closing x) :
    Module.parse name source =
      ⟨.scanned (Reading.ofSource source).head :: (before ++ closing), x⟩ := by
  have hrun : (initial name).run (Reading.ofSource source) = ⟨before ++ closing, x⟩ := by
    rw [h.1, h.2.run_eq, h.balanced.run_of_halts hs, Logged.after]
  rw [Module.parse_eq, hrun]
  rfl

theorem Reached.consumed_eq (h : Reached name source ts r before s) (hs : Halts s r closing x) :
    (Module.parse name source).events.filterMap Event.consumed? =
      ts ++ closing.filterMap Event.consumed? := by
  rw [h.parse_eq hs]
  simp only [List.filterMap_cons, Event.consumed?, List.filterMap_append, h.2.consumed_eq]

theorem exists_reached_halt (name : String) (source : Bytes) : ∃ ts r before s closing x,
    Reached name source ts r before s ∧ Halts s r closing x := by
  obtain ⟨ts, r, before, s, closing, x, hr, hcourse, hhalt⟩ :=
    (initial name).exists_halt (Reading.ofSource source)
  exact ⟨ts, r, before, s, closing, x, ⟨hr, hcourse⟩, hhalt⟩

end ParseState

def lexerRecords (threshold : Threshold) (events : List Event) : List Record :=
  (threshold.records events).filter (·.target = "plume::parser::lexer")

theorem lexerRecords_eq_filterMap (threshold : Threshold) (events : List Event) :
    lexerRecords threshold events = events.filterMap fun e => e.record?.filter
      fun r => decide (r.target = "plume::parser::lexer") && threshold.admits r.level := by
  rw [lexerRecords, Threshold.records, List.filter_filter, List.filter_filterMap]

theorem lexerRecords_eq (threshold : Threshold) (events : List Event) :
    lexerRecords threshold events =
      lexerRecords threshold ((events.filterMap Event.answer?).map .scanned) := by
  rw [lexerRecords_eq_filterMap, lexerRecords_eq_filterMap, List.filterMap_map,
    List.filterMap_filterMap]
  congr 1
  funext e
  cases e with
  | scanned a => rfl
  | _ => simp [Event.record?, Event.answer?]

theorem lexerRecords_isPrefix (threshold : Threshold) {first second : List Scanned}
    (h : first <+: second) : lexerRecords threshold (first.map .scanned) <+:
      lexerRecords threshold (second.map .scanned) :=
  (((h.map _).filterMap _).filter _).filter _

namespace ParseState

theorem Trace.answers_eq {s : ParseState} {r : Reading} {answers : List Scanned}
    {x : Except ParseError Module} (h : Trace s r answers x) {m : Module} (hx : x = .ok m) :
    answers = r.answers := by
  induction h with
  | eof s l => rfl
  | consumed _ _ ih => exact congrArg (List.cons _) (ih hx)
  | _ => cases hx

end ParseState

section

variable {source : Bytes} {ts : List Token} {last : Scanned}
  (h : (Reading.ofSource source).answers = ts.map .token ++ [last])

include h

theorem map_answer_of_answers :
    (List.range ts.length).map (Scanner.ofSource source).answer = ts.map .token := by
  apply List.ext_getElem
  · simp
  · intro i hi _
    have hlt : i < ts.length := by simpa using hi
    have hread : (Reading.ofSource source).answers[i]? = some (.token ts[i]) := by
      rw [h, List.getElem?_append_left (by simpa using hlt)]
      simp [hlt]
    simp [Scanner.answer_of_read hread]

theorem answer_length_of_answers : (Scanner.ofSource source).answer ts.length = last := by
  apply Scanner.answer_of_read
  change (Reading.ofSource source).answers[ts.length]? = _
  rw [h]
  simp

theorem exists_token_of_answers {i : ℕ} (hi : i < ts.length) :
    ∃ t, (Scanner.ofSource source).answer i = .token t := by
  have hmem := List.mem_map_of_mem (f := (Scanner.ofSource source).answer) (List.mem_range.mpr hi)
  rw [map_answer_of_answers h] at hmem
  obtain ⟨t, -, ht⟩ := List.mem_map.mp hmem
  exact ⟨t, ht.symm⟩

theorem length_le_of_answers : ts.length ≤ source.length := by
  obtain ⟨n, hn, ⟨l, hl⟩, -⟩ := Scanner.exists_first_eof source
  refine le_trans (not_lt.mp fun hlt => ?_) hn
  obtain ⟨t, ht⟩ := exists_token_of_answers h hlt
  rw [ht] at hl
  cases hl

end

theorem exists_last_answer (source : Bytes) : ∃ (ts : List Token) (last : Scanned),
    (Reading.ofSource source).answers = ts.map .token ++ [last] ∧ ∀ t, last ≠ .token t := by
  obtain ⟨ts, last, hread, hlast⟩ := (Reading.ofSource source).exists_eq_prepend
  refine ⟨ts, last.head, answers_of_prepend hread hlast, ?_⟩
  intro t
  cases hlast <;> exact nofun

theorem pulls_isPrefix (name : String) (source : Bytes) :
    pulls name source <+: (Reading.ofSource source).answers :=
  (trace_of_parse name source).prefix_answers

theorem consumed_isPrefix (name : String) {source : Bytes} {ts : List Token} {last : Scanned}
    (h : (Reading.ofSource source).answers = ts.map .token ++ [last])
    (hlast : ∀ t, last ≠ .token t) :
    (Module.parse name source).events.filterMap Event.consumed? <+: ts := by
  obtain ⟨us, r, before, s, closing, x, hreached, hhalt⟩ :=
    ParseState.exists_reached_halt name source
  have hconsumed := hreached.consumed_eq hhalt
  have hprefix := List.prefix_append_right_inj (us.map .token) |>.mpr hhalt.consumed_isPrefix
  rw [← Reading.answers_prepend, ← hreached.1, h, ← List.map_append, ← hconsumed] at hprefix
  rcases List.prefix_concat_iff.mp hprefix with hwhole | hfront
  · have hmem : last ∈ ((Module.parse name source).events.filterMap Event.consumed?).map
        Scanned.token := by
      rw [hwhole]
      exact List.mem_append_right _ (List.mem_singleton_self _)
    obtain ⟨t, -, ht⟩ := List.mem_map.mp hmem
    exact absurd ht.symm (hlast t)
  · exact (List.prefix_map_iff_of_injective fun _ _ => Scanned.token.inj).mp hfront

/-- Once the first answer is there and is no error, one more token has been pulled than taken. -/
theorem one_pulled_ahead {name : String} {source : Bytes} {p : Parser}
    (hp : (Parser.start name source).value = .ok p) {before after : List Event}
    (h : (Module.parse name source).events = before ++ after) (hbefore : before ≠ [])
    (hafter : ∀ x, after.head? ≠ some (.consumed x)) :
    before.countP Event.isPull = before.countP Event.isConsumption + 1 := by
  obtain ⟨us, r, told, s, closing, x, hreached, hhalt⟩ :=
    ParseState.exists_reached_halt name source
  have hhead : (Event.scanned (Reading.ofSource source).head).isPull = true := by
    obtain ⟨-, hreading, -⟩ := Parser.agrees_start hp
    rw [← hreading, Parser.reading]
    cases p.current <;> rfl
  obtain ⟨e, before, rfl⟩ := List.exists_cons_of_ne_nil hbefore
  rw [hreached.parse_eq hhalt, List.cons_append] at h
  obtain ⟨rfl, hrest⟩ := List.cons.inj h
  have hstep := hreached.2.inStep.append hhalt.inStep before after hrest hafter
  rw [List.countP_cons_of_pos hhead, hstep]
  rfl

theorem eof_not_consumed (name : String) (source : Bytes) (l : Location) :
    .consumed (.eof l) ∉ (Module.parse name source).events := by
  obtain ⟨us, r, told, s, closing, x, hreached, hhalt⟩ :=
    ParseState.exists_reached_halt name source
  rw [hreached.parse_eq hhalt]
  have hcourse := hreached.2.eof_not_mem l
  have hclosing := hhalt.eof_not_mem l
  simp [hcourse, hclosing]

namespace Parsing

/-- In the course of a stage another one is gone through, from a parser on. -/
inductive Passes {α : Type} (x : Parsing α) (q : Parser) :
    {β : Type} → Parsing β → Parser → Prop where
  | here : Passes x q x q
  | first {β γ : Type} {y : Parsing β} {p : Parser} (h : Passes x q y p) (f : β → Parsing γ) :
      Passes x q (y >>= f) p
  | second {β γ : Type} {y : Parsing β} {f : β → Parsing γ} {p : Parser} {o : Outcome β} {b : β}
      (done : y p = some o) (value : o.value = .ok b) (h : Passes x q (f b) o.parser) :
      Passes x q (y >>= f) p
  | closing {β : Type} {y : Parsing β} {p : Parser} (h : Passes x q y p) :
      Passes x q (closing y) p

def Fails {α : Type} (x : Parsing α) (p : Parser) : Prop :=
  ∃ o e, x p = some o ∧ o.value = .error e

variable {α β : Type} {x : Parsing α} {p q : Parser}

theorem Fails.bind (h : Fails x p) (f : α → Parsing β) : Fails (x >>= f) p := by
  obtain ⟨o, e, ho, he⟩ := h
  refine ⟨o.followedBy ⟨[], [], o.parser, .error e⟩, e, ?_, rfl⟩
  rw [bind_apply, ho, Option.bind_some, he]
  rfl

theorem Fails.of_done {f : α → Parsing β} {o : Outcome α} {a : α} (done : x p = some o)
    (value : o.value = .ok a) (h : Fails (f a) o.parser) : Fails (x >>= f) p := by
  obtain ⟨o', e, ho', he⟩ := h
  refine ⟨o.followedBy o', e, ?_, he⟩
  rw [bind_apply, done, Option.bind_some, value, andThen, ho']
  rfl

theorem Fails.closing (h : Fails x p) : Fails (closing x) p := by
  obtain ⟨o, e, ho, he⟩ := h
  have hattempt : attempt x p = some ⟨o.events, o.asked, o.parser, .ok (.error e)⟩ := by
    rw [attempt, ho, ← he]
    rfl
  refine .of_done hattempt rfl ?_
  cases hleave : o.parser.scopes.leave with
  | error fault => exact .bind ⟨_, _, closeScope_of_error hleave, rfl⟩ _
  | ok left =>
    obtain ⟨events, top, below⟩ := left
    exact .of_done (closeScope_of_ok hleave) rfl ⟨_, e, rfl, rfl⟩

theorem Passes.fails {y : Parsing β} (h : Passes x q y p) (hx : Fails x q) : Fails y p := by
  induction h with
  | here => exact hx
  | first _ f ih => exact ih.bind f
  | second done value _ ih => exact .of_done done value ih
  | closing _ ih => exact ih.closing

theorem Round.passes {goesOn : Parser → Bool} (h : Round goesOn x p q) :
    Passes x q (repeatWhile goesOn x) p := by
  induction h with
  | first h =>
    rw [repeatWhile_eq]
    refine .second (y := get) rfl rfl ?_
    rw [if_pos h]
    exact .first .here _
  | later h done value _ ih =>
    rw [repeatWhile_eq]
    refine .second (y := get) rfl rfl ?_
    rw [if_pos h]
    exact .second done value (.first ih _)

theorem Passes.trans {γ : Type} {y : Parsing β} {z : Parsing γ} {r : Parser}
    (h : Passes x r y q) (h' : Passes y q z p) : Passes x r z p := by
  induction h' with
  | here => exact h
  | first _ f ih => exact .first ih f
  | second done value _ ih => exact .second done value ih
  | closing _ ih => exact .closing ih

end Parsing

open Parsing in
/-- Where a repetition is part of the parse, each of its rounds takes a token or fails, and then the
parse fails. -/
def Parser.Progresses {α : Type} (start : Parser) (goesOn : Parser → Bool) (x : Parsing α) : Prop :=
  ∀ p q, Passes (repeatWhile goesOn x) p Parsing.module start → Round goesOn x p q →
    ∃ o, x q = some o ∧
      (1 ≤ o.taken.length ∨ Fails x q ∧ ∃ e, start.module.value = .error e)

open Parsing in
theorem Parser.progresses_of_takes {α : Type} {goesOn : Parser → Bool} {x : Parsing α}
    (hx : ∀ q, Takes 1 x q) (start : Parser) : start.Progresses goesOn x := by
  intro p q hloop hround
  obtain ⟨o, ho, -, htaken⟩ := hx q
  refine ⟨o, ho, htaken.imp_right ?_⟩
  rintro ⟨e, he⟩
  have hfails : Fails x q := ⟨o, e, ho, he⟩
  obtain ⟨o', e', ho', he'⟩ := (hround.passes.trans hloop).fails hfails
  refine ⟨hfails, e', ?_⟩
  simp only [Parser.module, ho', Option.get_some, he']

open Parsing in
/-- A parse is one token ahead of what it has taken, and with every text it comes to an end. -/
theorem one_token_ahead (name : String) (source : Bytes) :
    let s := Scanner.ofSource source
    let log := (Module.parse name source).events
    (∀ p, (Parser.start name source).value = .ok p → ∃ o, module p = some o ∧
      Module.parse name source = .after (Parser.start name source).events ⟨o.events, o.value⟩ ∧
      (∀ i q, o.asked[i]? = some q → ∃ ts, ts.length = i ∧
        Reading.ofSource source = .prepend ts q.reading) ∧
      p.Progresses (!·.check .eof) item ∧ p.Progresses (·.check .identifier) group ∧
      p.Progresses (·.check .var) varDeclaration ∧
      p.Progresses (!·.check .rightBrace) statement) ∧
    (∃ k ≤ source.length, (∀ i < k, ∃ t, s.answer i = .token t) ∧
      (∀ t, s.answer k ≠ .token t) ∧ (pulls name source).length ≤ k + 1 ∧
      pulls name source = (List.range (pulls name source).length).map s.answer ∧
      (log.filterMap Event.consumed?).map .token <+: (List.range k).map s.answer) ∧
    (∀ l, .consumed (.eof l) ∉ log) ∧
    (∀ p, (Parser.start name source).value = .ok p → ∀ before after, log = before ++ after →
      before ≠ [] → (∀ x, after.head? ≠ some (.consumed x)) →
        before.countP Event.isPull = before.countP Event.isConsumption + 1) ∧
    ∀ threshold, let all := lexerRecords threshold ((s.serve .tokenize).1.answers.map .scanned)
      lexerRecords threshold log <+: all ∧
        ∀ m, (Module.parse name source).value = .ok m → lexerRecords threshold log = all := by
  intro s log
  refine ⟨fun p hp => ?_, ?_, eof_not_consumed name source, fun _ hp _ _ h => one_pulled_ahead hp h,
    ?_⟩
  · obtain ⟨o, ho, -⟩ := takes_module p
    refine ⟨o, ho, Module.parse_of_start hp ho, fun i q hi => ?_,
      Parser.progresses_of_takes takes_item p, Parser.progresses_of_takes takes_group p,
      Parser.progresses_of_takes takes_varDeclaration p,
      Parser.progresses_of_takes takes_statement p⟩
    obtain ⟨ts, _, _, hlength, hreached, -⟩ := Parser.reached_of_asked hp ho hi
    exact ⟨ts, hlength, hreached.1⟩
  · obtain ⟨ts, last, hanswers, hlast⟩ := exists_last_answer source
    refine ⟨ts.length, length_le_of_answers hanswers,
      fun i hi => exists_token_of_answers hanswers hi,
      answer_length_of_answers hanswers ▸ hlast, ?_, pulls_eq name source, ?_⟩
    · have hpulls := (pulls_isPrefix name source).length_le
      rw [hanswers] at hpulls
      simpa using hpulls
    · rw [map_answer_of_answers hanswers]
      exact (consumed_isPrefix name hanswers hlast).map _
  · intro threshold all
    have hlog : lexerRecords threshold log =
        lexerRecords threshold ((pulls name source).map .scanned) :=
      lexerRecords_eq threshold log
    refine ⟨hlog ▸ lexerRecords_isPrefix threshold (pulls_isPrefix name source), fun m hm => ?_⟩
    rw [hlog, (trace_of_parse name source).answers_eq hm]
    rfl

/-- The end of the text stands where a block has to go on. -/
theorem parse_of_unfinished_block :
    let source := utf8 "proc f(): int \x7b x"
    ∃ p o, (Parser.start "m" source).value = .ok p ∧ Parsing.module p = some o ∧
      (∃ o', Parsing.item p = some o' ∧
        (1 ≤ o'.taken.length ∨ Parsing.Fails Parsing.item p ∧ ∃ e, p.module.value = .error e)) ∧
      (pulls "m" source).length = 9 ∧
      (∃ k, (pulls "m" source).length ≤ k + 1 ∧ ∀ t, (Scanner.ofSource source).answer k ≠ .token t) ∧
      ∀ l, .consumed (.eof l) ∉ (Module.parse "m" source).events := by
  intro source
  obtain ⟨hparse, ⟨k, -, -, hlast, hpulls, -⟩, heof, -⟩ := one_token_ahead "m" source
  obtain ⟨p, hp⟩ : ∃ p, (Parser.start "m" source).value = .ok p := ⟨_, rfl⟩
  obtain ⟨o, ho, -, -, hitem, -⟩ := hparse p hp
  have hcheck : (!p.check .eof) = true := by
    cases hp
    rfl
  refine ⟨p, o, hp, ho, hitem p p (.first .here _) (.first hcheck), ?_, ⟨k, hpulls, hlast⟩, heof⟩
  rw [pulls, Module.parse_eq]
  decide +kernel

end ProcLang
