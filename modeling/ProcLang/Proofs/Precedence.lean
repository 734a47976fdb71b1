import Mathlib.Data.Prod.Lex
import ProcLang.Proofs.Coverage
import ProcLang.Proofs.Outcome

/-! # Which error comes first

A text can have an error of scanning, a type name that does not resolve and a token that cannot
follow, all at once. One is reported, told by where each is and, where two meet, by its sort. A type
name counts for the place behind it, since the next token is scanned before it is resolved. -/
namespace ProcLang

open ProcLang.Derivation

theorem Scanner.answer_of_read {s : Scanner} {i : ℕ} {x : Scanned}
    (h : s.read.1.answers[i]? = some x) : s.answer i = x := by
  induction i generalizing s with
  | zero =>
    rw [read] at h
    split at h <;> rename_i hn <;> simp [Reading.answers, Reading.head] at h <;>
      rw [answer, hn, h]
  | succ i ih =>
    rw [read] at h
    split at h
    · simp [Reading.answers, Reading.head] at h
    · simp [Reading.answers, Reading.head] at h
    · rename_i t s' hn
      rw [answer, hn]
      exact ih h

namespace Scanned

/-- The kind of an answer; an error of scanning has none. -/
def kind? : Scanned → Option TokenKind
  | .token t => some t.kind
  | .eof _ => some .eof
  | .failed _ => none

def location : Scanned → Location
  | .token t => t.location
  | .eof l => l
  | .failed e => e.location

end Scanned

/-- A place in the text and the order of what may be wrong there. -/
def rank (place order : ℕ) : ℕ ×ₗ ℕ := toLex (place, order)

theorem rank_le_iff {a b c d : ℕ} : rank a b ≤ rank c d ↔ a < c ∨ a = c ∧ b ≤ d :=
  Prod.Lex.toLex_le_toLex

/-- What is wrong with a list of answers, with its rank and the errors that report it. -/
inductive Defect (answers : List Scanned) : ℕ ×ₗ ℕ → ParseError → Prop where
  /-- A lexeme is no token. -/
  | lexical {before : List Scanned} {e : LexError} {after : List Scanned}
      (ha : answers = before ++ .failed e :: after) :
      Defect answers (rank before.length 0) (.lexical e)
  /-- A type name is the first one that does not resolve, in a derivation that goes so far. -/
  | semantic {d : Derivation} {past : List Mark} {o : Owner} {x : String} {l : Location}
      {after : List Scanned} (hd : d.NamesType past o x l) (hp : AllResolve [] past)
      (hn : ¬ Resolves past o x)
      (ha : answers = past.map (.token ∘ Mark.token) ++ .token ⟨.identifier x, l⟩ :: after) :
      Defect answers (rank (past.length + 1) 1) (.ofTypeFault x l (typeFault past o x))
  /-- A token, or the end, is the first thing that no module goes on with. The list of what could
  have come instead is left open. -/
  | unexpected {before : List Token} {x : Scanned} {after : List Scanned} {k : TokenKind}
      {expected : List TokenKind} (ha : answers = before.map .token ++ x :: after)
      (hk : x.kind? = some k) (hv : Grammar.Viable (before.map Token.kind))
      (hn : ¬ Grammar.Viable (before.map Token.kind ++ [k])) :
      Defect answers (rank before.length 2) (.unexpected expected k x.location)

theorem tokens_of_answers {ts us : List Token} {l m : List Scanned}
    (h : ts.map Scanned.token ++ l = us.map .token ++ m) (hle : us.length ≤ ts.length) :
    ∃ vs, ts = us ++ vs ∧ m = vs.map .token ++ l := by
  induction us generalizing ts with
  | nil => exact ⟨ts, rfl, h.symm⟩
  | cons u us ih =>
    cases ts with
    | nil => simp at hle
    | cons t ts =>
      obtain ⟨ht, hts⟩ := List.cons.inj h
      obtain ⟨vs, rfl, hm⟩ := ih hts (Nat.le_of_succ_le_succ hle)
      exact ⟨vs, by rw [Scanned.token.inj ht]; rfl, hm⟩

theorem token_of_answers {ts us : List Token} {x : Scanned} {l m : List Scanned}
    (h : ts.map Scanned.token ++ l = us.map .token ++ x :: m) (hlt : us.length < ts.length) :
    ∃ t vs, x = .token t ∧ ts = us ++ t :: vs := by
  obtain ⟨vs, rfl, hm⟩ := tokens_of_answers h (le_of_lt hlt)
  cases vs with
  | nil => simp at hlt
  | cons t vs =>
    obtain ⟨rfl, -⟩ := List.cons.inj hm
    exact ⟨t, vs, rfl, rfl⟩

section

variable {name : String} {before : List Token} {s : ParseState} {rest : List Scanned}

theorem viable_of_steps (hs : (ParseState.initial name).steps before = .ok s) :
    Grammar.Viable (before.map Token.kind) :=
  Grammar.viable_of_follow (follow_of_steps hs)

theorem viable_append_of_steps {k : TokenKind}
    (hs : (ParseState.initial name).steps before = .ok s) :
    Grammar.Viable (before.map Token.kind ++ [k]) ↔ s.place.point.admits k = true := by
  rw [Grammar.viable_append_iff, follow_of_steps hs]
  simp

theorem ParseState.steps_split {s s' : ParseState} {first second : List Token}
    (h : s.steps (first ++ second) = .ok s') :
    ∃ u, s.steps first = .ok u ∧ u.steps second = .ok s' := by
  rw [steps_append] at h
  cases hu : s.steps first with
  | error e =>
    rw [hu] at h
    cases h
  | ok u =>
    rw [hu] at h
    exact ⟨u, rfl, h⟩

theorem length_le_of_unexpected (hs : (ParseState.initial name).steps before = .ok s)
    {us : List Token} {x : Scanned} {after : List Scanned} {k : TokenKind}
    (ha : before.map Scanned.token ++ rest = us.map .token ++ x :: after)
    (hk : x.kind? = some k) (hn : ¬ Grammar.Viable (us.map Token.kind ++ [k])) :
    before.length ≤ us.length := by
  by_contra hlt
  obtain ⟨t, vs, rfl, rfl⟩ := token_of_answers ha (not_le.mp hlt)
  have htail : us ++ t :: vs = (us ++ [t]) ++ vs := by simp
  rw [htail] at hs
  obtain ⟨u, hu, -⟩ := ParseState.steps_split hs
  obtain rfl : t.kind = k := Option.some.inj hk
  apply hn
  have hv := viable_of_steps hu
  rwa [List.map_append] at hv

theorem length_le_of_unresolved (hs : (ParseState.initial name).steps before = .ok s)
    {d : Derivation} {past : List Mark} {o : Owner} {x : String} {l : Location}
    {after : List Scanned} (hd : d.NamesType past o x l) (hp : AllResolve [] past)
    (hn : ¬ Resolves past o x) (ha : before.map Scanned.token ++ rest =
      past.map (.token ∘ Mark.token) ++ .token ⟨.identifier x, l⟩ :: after) :
    before.length ≤ past.length := by
  by_contra hlt
  rw [← List.map_map] at ha
  obtain ⟨t, vs, ht, rfl⟩ := token_of_answers ha (by simpa using hlt)
  obtain rfl := Scanned.token.inj ht
  obtain ⟨u, hu, hc⟩ := hd.consume?_eq name hp hn
  obtain ⟨u', hu', hv⟩ := ParseState.steps_split hs
  rw [hu] at hu'
  cases hu'
  rw [ParseState.steps_cons, ParseState.advance, hc] at hv
  cases hv

theorem lexical_of_answers {ts : List Token} {x : Scanned} {us after : List Scanned}
    {e : LexError} (h : ts.map Scanned.token ++ [x] = us ++ .failed e :: after) :
    us.length = ts.length ∧ x = .failed e := by
  induction ts generalizing us with
  | nil =>
    cases us with
    | nil => exact ⟨rfl, (List.cons.inj h).1⟩
    | cons u us => simp at h
  | cons t ts ih =>
    cases us with
    | nil => cases (List.cons.inj h).1
    | cons u us =>
      obtain ⟨hu, hx⟩ := ih (List.cons.inj h).2
      exact ⟨by rw [List.length_cons, List.length_cons, hu], hx⟩

theorem Defect.behind {after : List Token} {last : Scanned} {key : ℕ ×ₗ ℕ} {e : ParseError}
    (h : Defect ((before ++ after).map .token ++ [last]) key e)
    (hs : (ParseState.initial name).steps before = .ok s) (hl : ∀ t, last ≠ .token t) :
    (∃ f, last = .failed f ∧ key = rank (before ++ after).length 0) ∨
    (∃ j, before.length ≤ j ∧ j < (before ++ after).length ∧ key = rank (j + 1) 1) ∨
    ∃ i, before.length ≤ i ∧ i ≤ (before ++ after).length ∧ key = rank i 2 ∧
      (i = before.length → ∃ x others k, after.map .token ++ [last] = x :: others ∧
        x.kind? = some k ∧ s.place.point.admits k = false) := by
  cases h with
  | @lexical us f others ha =>
    obtain ⟨hl, hx⟩ := lexical_of_answers ha
    exact Or.inl ⟨f, hx, by rw [hl]⟩
  | @semantic d past o x l others hd hp hn ha =>
    have hlt : past.length < (before ++ after).length := by
      by_contra hge
      rw [← List.map_map] at ha
      obtain ⟨vs, -, hv⟩ := tokens_of_answers ha.symm (by simpa using not_lt.mp hge)
      cases vs with
      | nil => exact hl _ (List.cons.inj hv).1
      | cons v vs => simp at hv
    rw [List.map_append, List.append_assoc] at ha
    exact Or.inr (Or.inl ⟨past.length, length_le_of_unresolved hs hd hp hn ha, hlt, rfl⟩)
  | @unexpected us x others k _ ha hk hv hn =>
    have hlength := congrArg List.length ha
    simp only [List.length_append, List.length_map, List.length_cons, List.length_nil] at hlength
    rw [List.map_append, List.append_assoc] at ha
    have hle := length_le_of_unexpected hs ha hk hn
    refine Or.inr (Or.inr ⟨us.length, hle, by rw [List.length_append]; omega, rfl, ?_⟩)
    intro heq
    obtain ⟨vs, rfl, hx⟩ := tokens_of_answers ha (le_of_eq heq)
    obtain rfl : vs = [] := by simpa using heq
    refine ⟨x, others, k, hx.symm, hk, ?_⟩
    rw [List.append_nil] at hs
    rw [viable_append_of_steps hs] at hn
    exact Bool.eq_false_of_not_eq_true hn

end

theorem Reading.IsLast.answers {last : Reading} (h : last.IsLast) :
    last.answers = [last.head] ∧ ∀ t, last.head ≠ .token t := by
  cases h <;> exact ⟨rfl, fun t => nofun⟩

theorem Place.admits_eof (p : Place) : p.point.admits .eof = p.isEnd := by
  rw [Point.admits, if_pos rfl, p.isEnd_point]

theorem ParseState.admits_iff {s : ParseState} {t : Token} :
    s.place.point.admits t.kind = true ↔ s.consume? t ≠ none := by
  have hk : t.kind ≠ .eof := t.terminal.kind_ne_eof
  rw [Point.admits, if_neg hk, ne_eq, consume?_eq_none_iff, Option.isSome_iff_ne_none]

theorem Defect.behind_admitted {name : String} {before after : List Token} {t : Token}
    {s : ParseState} {last : Scanned} {key : ℕ ×ₗ ℕ} {e : ParseError}
    (h : Defect ((before ++ t :: after).map .token ++ [last]) key e)
    (hs : (ParseState.initial name).steps before = .ok s) (hl : ∀ t, last ≠ .token t)
    (hc : s.consume? t ≠ none) :
    (∃ f, last = .failed f ∧ key = rank (before ++ t :: after).length 0) ∨
    (∃ j, before.length ≤ j ∧ key = rank (j + 1) 1) ∨
    ∃ i, before.length < i ∧ key = rank i 2 := by
  rcases h.behind hs hl with hf | ⟨j, hj, -, hkey⟩ | ⟨i, hi, -, hkey, hx⟩
  · exact Or.inl hf
  · exact Or.inr (Or.inl ⟨j, hj, hkey⟩)
  · refine Or.inr (Or.inr ⟨i, lt_of_le_of_ne hi ?_, hkey⟩)
    intro heq
    obtain ⟨x, others, k, hnext, hk, ha⟩ := hx heq.symm
    obtain ⟨rfl, -⟩ := List.cons.inj hnext
    cases hk
    rw [ParseState.admits_iff.mpr hc] at ha
    cases ha

/-- The error reports the defect of least rank. -/
def Prevails (answers : List Scanned) (e : ParseError) : Prop :=
  ∃ key, Defect answers key e ∧ IsLeast {key | ∃ e, Defect answers key e} key

theorem prevails_of_le {answers : List Scanned} {key : ℕ ×ₗ ℕ} {e : ParseError}
    (h : Defect answers key e) (hle : ∀ key' e', Defect answers key' e' → key ≤ key') :
    Prevails answers e := by
  refine ⟨key, h, ⟨e, h⟩, ?_⟩
  intro key' hkey'
  obtain ⟨e', h'⟩ := hkey'
  exact hle key' e' h'

section

variable {name : String} {before after : List Token} {s : ParseState} {last : Scanned}

theorem prevails_of_refused (hs : (ParseState.initial name).steps before = .ok s)
    (hl : ∀ t, last ≠ .token t) {x : Scanned} {others : List Scanned} {k : TokenKind}
    (ha : after.map .token ++ [last] = x :: others) (hk : x.kind? = some k)
    (hn : s.place.point.admits k = false) (expected : List TokenKind) :
    Prevails ((before ++ after).map .token ++ [last]) (.unexpected expected k x.location) := by
  have hanswers : (before ++ after).map .token ++ [last] = before.map .token ++ x :: others := by
    rw [List.map_append, List.append_assoc, ha]
  have hviable : ¬ Grammar.Viable (before.map Token.kind ++ [k]) := by
    rw [viable_append_of_steps hs, hn]
    exact Bool.false_ne_true
  apply prevails_of_le (.unexpected hanswers hk (viable_of_steps hs) hviable)
  intro key' e' hd
  rcases hd.behind hs hl with ⟨f, rfl, rfl⟩ | ⟨j, hj, -, rfl⟩ | ⟨i, hi, -, rfl, -⟩
  · have hafter : after ≠ [] := by
      intro he
      rw [he] at ha
      obtain ⟨rfl, -⟩ := List.cons.inj ha
      cases hk
    have hpos := List.length_pos_iff.mpr hafter
    rw [rank_le_iff, List.length_append]
    omega
  · rw [rank_le_iff]
    omega
  · rw [rank_le_iff]
    omega

theorem prevails_of_failed (hs : (ParseState.initial name).steps before = .ok s) (f : LexError) :
    Prevails (before.map .token ++ [.failed f]) (.lexical f) := by
  apply prevails_of_le (.lexical rfl)
  intro key' e' hd
  rw [List.length_map]
  rw [← List.append_nil before] at hd
  rcases hd.behind hs (fun t => nofun) with
    ⟨f, -, rfl⟩ | ⟨j, hj, -, rfl⟩ | ⟨i, hi, -, rfl, -⟩
  · rw [List.append_nil]
  · rw [rank_le_iff]
    omega
  · rw [rank_le_iff]
    omega

/-- It also comes before a type name directly in front of it. -/
theorem prevails_of_overtaken (hs : (ParseState.initial name).steps before = .ok s) {t : Token}
    (hc : s.consume? t ≠ none) (f : LexError) :
    Prevails ((before ++ [t]).map .token ++ [.failed f]) (.lexical f) := by
  apply prevails_of_le (.lexical rfl)
  intro key' e' hd
  rw [List.length_map, List.length_append, List.length_singleton]
  rcases hd.behind_admitted hs (fun t => nofun) hc with
    ⟨f, -, rfl⟩ | ⟨j, hj, rfl⟩ | ⟨i, hi, rfl⟩
  · rw [List.length_append, List.length_singleton]
  · rw [rank_le_iff]
    omega
  · rw [rank_le_iff]
    omega

theorem prevails_of_faulty (hs : (ParseState.initial name).steps before = .ok s) {t : Token}
    {e : ParseError} (hc : s.consume? t = some (.error e)) (hl : ∀ t, last ≠ .token t)
    (hf : after = [] → ∀ f, last ≠ .failed f) :
    Prevails ((before ++ t :: after).map .token ++ [last]) e := by
  have hadmitted : s.consume? t ≠ none := by simp [hc]
  obtain ⟨d, past, o, x, l, rfl, hb, hd, hn, rfl⟩ := exists_unresolved hs hc
  have hp := hb.allResolve hs
  obtain ⟨rfl, -⟩ := hb
  have ha : (past.map Mark.token ++ ⟨.identifier x, l⟩ :: after).map Scanned.token ++ [last] =
      past.map (.token ∘ Mark.token) ++ .token ⟨.identifier x, l⟩ ::
        (after.map .token ++ [last]) := by simp
  apply prevails_of_le (.semantic hd hp hn ha)
  intro key' e' hdefect
  rcases hdefect.behind_admitted hs hl hadmitted with
    ⟨f, hlast, rfl⟩ | ⟨j, hj, rfl⟩ | ⟨i, hi, rfl⟩
  · have hafter : after ≠ [] := fun he => hf he f hlast
    have hpos := List.length_pos_iff.mpr hafter
    rw [rank_le_iff, List.length_append, List.length_map, List.length_cons]
    omega
  · rw [List.length_map] at hj
    rw [rank_le_iff]
    omega
  · rw [List.length_map] at hi
    rw [rank_le_iff]
    omega

end

namespace Ending

variable {name : String} {ts : List Token} {last : Reading}

theorem no_defect {m : Module} (h : Ending name ts last (.ok m)) {key : ℕ ×ₗ ℕ}
    {e : ParseError} : ¬ Defect (ts.map .token ++ [last.head]) key e := by
  intro hd
  cases h with
  | @whole s l hs he =>
    rw [← List.append_nil ts] at hd
    rcases hd.behind hs (fun t => nofun) with
      ⟨f, hf, -⟩ | ⟨j, hj, hlt, -⟩ | ⟨i, hi, hle, -, hx⟩
    · cases hf
    · rw [List.append_nil] at hlt
      omega
    · rw [List.append_nil] at hle
      obtain ⟨x, others, k, hend, hk, ha⟩ := hx (le_antisymm hle hi)
      obtain ⟨rfl, -⟩ := List.cons.inj hend
      cases hk
      rw [Place.admits_eof, he] at ha
      cases ha

theorem prevails {e : ParseError} (h : Ending name ts last (.error e)) (hl : last.IsLast) :
    Prevails (ts.map .token ++ [last.head]) e := by
  cases h with
  | @cut s l hs he =>
    have hn : s.place.point.admits .eof = false := by rw [Place.admits_eof, he]
    have ha : [].map Scanned.token ++ [Scanned.eof l] = .eof l :: [] := rfl
    have hend := prevails_of_refused hs hl.answers.2 ha rfl hn s.place.expected
    rwa [List.append_nil] at hend
  | @broken s f hs => exact prevails_of_failed hs f
  | @refused before t after s _ ht hs hc =>
    subst ht
    have hn : s.place.point.admits t.kind = false := by
      rw [Bool.eq_false_iff, ne_eq, ParseState.admits_iff, hc, not_not]
    exact prevails_of_refused (x := .token t) hs hl.answers.2 rfl rfl hn _
  | @faulty before t after s _ _ ht hs hc hf =>
    subst ht
    refine prevails_of_faulty hs hc hl.answers.2 ?_
    intro he f hlast
    cases hl with
    | eof l => cases hlast
    | failed f' => exact hf he f' rfl
  | @overtaken before t s e f ht hs hc =>
    subst ht
    have hadmitted : s.consume? t ≠ none := by simp [hc]
    exact prevails_of_overtaken hs hadmitted f

end Ending

theorem answers_of_prepend {source : Bytes} {ts : List Token} {last : Reading}
    (h : Reading.ofSource source = .prepend ts last) (hl : last.IsLast) :
    (Reading.ofSource source).answers = ts.map .token ++ [last.head] := by
  rw [h, Reading.answers_prepend, hl.answers.1]

theorem tokenize_of_lexical {source : Bytes} {key : ℕ ×ₗ ℕ} {f : LexError}
    (h : Defect (Reading.ofSource source).answers key (.lexical f)) :
    (Scanner.ofSource source).tokenize.1 = .error f := by
  obtain ⟨ts, last, hsource, hl⟩ := (Reading.ofSource source).exists_eq_prepend
  rw [answers_of_prepend hsource hl] at h
  generalize hlast : last.head = x at h
  cases h with
  | lexical ha =>
    obtain ⟨-, rfl⟩ := lexical_of_answers ha
    apply Reading.tokens_eq_error_iff.mpr
    refine ⟨ts, hsource.trans ?_⟩
    cases hl with
    | eof l => cases hlast
    | failed f' =>
      cases hlast
      rfl

theorem start_eq_error_iff (name : String) (source : Bytes) (e : ParseError) :
    (Parser.start name source).value = .error e ↔
      ∃ f, (Reading.ofSource source).answers[0]? = some (.failed f) ∧ e = .lexical f := by
  constructor
  · intro h
    obtain ⟨f, rfl, hreading, -⟩ := Parser.start_of_error h
    exact ⟨f, by rw [hreading]; rfl, rfl⟩
  · rintro ⟨f, hf, rfl⟩
    cases hstart : (Parser.start name source).value with
    | error e =>
      obtain ⟨f', rfl, hreading, -⟩ := Parser.start_of_error hstart
      rw [hreading] at hf
      cases hf
      rfl
    | ok p =>
      obtain ⟨-, hreading, -⟩ := Parser.agrees_start hstart
      rw [← hreading, Parser.reading] at hf
      cases hcurrent : p.current <;> rw [hcurrent] at hf <;> cases hf

theorem module_of_start {name : String} {source : Bytes} {p : Parser}
    (h : (Parser.start name source).value = .ok p) :
    p.module.value = (Module.parse name source).value := by
  unfold Module.parse
  cases hstart : Parser.start name source with
  | mk events value =>
    rw [hstart] at h
    obtain rfl : value = .ok p := h
    rfl

/-- The answers of a fresh scanner tell which error there is. Without a defect there is a module;
otherwise the defect of least rank is reported, and by the start of the parser only if the first
answer is an error already. -/
theorem least_defect_is_reported (name : String) (source : Bytes) :
    let answers := (Reading.ofSource source).answers
    (∃ (ts : List Token) (last : Scanned), answers = ts.map .token ++ [last] ∧
      (∀ t, last ≠ .token t) ∧
      ∀ i x, answers[i]? = some x → (Scanner.ofSource source).answer i = x) ∧
    ((∃ m, (Module.parse name source).value = .ok m) ↔ ∀ key e, ¬ Defect answers key e) ∧
    (∀ e, (Module.parse name source).value = .error e → Prevails answers e) ∧
    (∀ f, (Module.parse name source).value = .error (.lexical f) →
      (Scanner.ofSource source).tokenize.1 = .error f) ∧
    (∀ e, (Parser.start name source).value = .error e ↔
      ∃ f, answers[0]? = some (.failed f) ∧ e = .lexical f) ∧
    ∀ p, (Parser.start name source).value = .ok p →
      p.module.value = (Module.parse name source).value := by
  intro answers
  obtain ⟨ts, last, hsource, hl, ho⟩ := exists_ending name source
  have ha : answers = ts.map .token ++ [last.head] := answers_of_prepend hsource hl
  have hprevails : ∀ e, (Module.parse name source).value = .error e → Prevails answers e := by
    intro e he
    rw [he] at ho
    rw [ha]
    exact ho.prevails hl
  refine ⟨⟨ts, last.head, ha, hl.answers.2, fun i x => Scanner.answer_of_read⟩, ?_, hprevails, ?_,
    start_eq_error_iff name source, fun p => module_of_start⟩
  · constructor
    · intro h key e
      obtain ⟨m, hm⟩ := h
      rw [hm] at ho
      rw [ha]
      exact ho.no_defect
    · intro h
      cases hp : (Module.parse name source).value with
      | ok m => exact ⟨m, rfl⟩
      | error e =>
        obtain ⟨key, hd, -⟩ := hprevails e hp
        exact absurd hd (h key e)
  · intro f hf
    obtain ⟨key, hd, -⟩ := hprevails _ hf
    exact tokenize_of_lexical hd

theorem stray_byte_overtakes_type_name :
    let source := "var x: y $".toUTF8.toList
    Prevails (Reading.ofSource source).answers
      (.lexical ⟨"unexpected character '$'", ⟨1, 10⟩⟩) := by
  intro source
  obtain ⟨-, -, hprevails, -⟩ := least_defect_is_reported "m" source
  apply hprevails
  rw [Module.parse_value]
  decide +kernel

end ProcLang
