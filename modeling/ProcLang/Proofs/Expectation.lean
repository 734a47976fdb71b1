import ProcLang.Proofs.Precedence

/-! # What a syntax error expects

Each place says what is expected there in a list of its own. Against the grammar, only the two kinds
that go on with a repetition are missing: a name behind a group, and the brace that closes a block
where a statement may begin. -/
namespace ProcLang

open ProcLang.Derivation

namespace Grammar

def AfterGroup (kinds : List TokenKind) : Prop := ∃ g ∈ group, g <:+ kinds

def BeforeStatement (kinds : List TokenKind) : Prop := ∃ w ∈ statement, Viable (kinds ++ w)

/-- The list holds each kind once that may follow, but for the two exceptions. -/
def Expects (kinds expected : List TokenKind) : Prop :=
  expected.Nodup ∧ ∀ k, k ∈ expected ↔ Viable (kinds ++ [k]) ∧
    ¬ (k = .identifier ∧ AfterGroup kinds) ∧ ¬ (k = .rightBrace ∧ BeforeStatement kinds)

end Grammar

namespace Point

variable {p q r : Point} {k : TokenKind} {kinds : List TokenKind}

/-- The kinds of a group that stand before a point within or directly behind it. -/
def behind : Point → List TokenKind
  | .varName _ => [.identifier]
  | .varColon _ => [.identifier, .colon]
  | .varType _ => [.identifier, .colon, .identifier]
  | .group _ => [.identifier, .colon, .identifier, .semicolon]
  | _ => []

theorem behind_suffix_of_next? (h : p.next? k = some q) : q.behind <:+ p.behind ++ [k] := by
  rcases p with (_ | _) | _ | _ | _ | _ | (_ | _) | _ <;> cases k <;> cases h <;>
    first
    | exact List.nil_suffix
    | exact List.suffix_rfl
    | exact List.suffix_append [_, _, _, _] [_]

theorem behind_suffix_of_follow (h : start.follow kinds = some q) : q.behind <:+ kinds :=
  suffix_of_follow rfl behind_suffix_of_next? h

theorem eq_group_of_follow
    (h : p.follow [.identifier, .colon, .identifier, .semicolon] = some q) :
    ∃ z, q = .group z := by
  rcases p with (_ | _) | z | _ | _ | _ | (_ | _) | _ <;> cases h
  all_goals exact ⟨_, rfl⟩

theorem eq_statements_of_next? (h : p.next? k = some q) (he : q.next? .equals = some r) :
    p = .statements := by
  rcases p with (_ | _) | _ | _ | _ | _ | (_ | _) | _ <;> cases k <;> cases h <;> cases he
  all_goals rfl

end Point

namespace Grammar

variable {kinds : List TokenKind} {q : Point}

theorem afterGroup_iff (h : Point.start.follow kinds = some q) :
    AfterGroup kinds ↔ ∃ z, q = .group z := by
  constructor
  · intro h
    obtain ⟨_, rfl, front, rfl⟩ := h
    rw [Point.follow_append, Option.bind_eq_some_iff] at h
    obtain ⟨p, -, hp⟩ := h
    exact Point.eq_group_of_follow hp
  · intro h
    obtain ⟨z, rfl⟩ := h
    exact ⟨_, rfl, Point.behind_suffix_of_follow h⟩

theorem Viable.of_append {first second : List TokenKind} (h : Viable (first ++ second)) :
    Viable first := by
  obtain ⟨w, hw, hp⟩ := h
  exact ⟨w, hw, (List.prefix_append _ _).trans hp⟩

theorem exists_of_mem_statement {w : List TokenKind} (h : w ∈ statement) :
    ∃ k rest, w = k :: .equals :: rest := by
  rw [statement, mul_assoc, mul_assoc, Language.mem_mul] at h
  obtain ⟨u, hu, v, hv, rfl⟩ := h
  obtain ⟨rest, -, rfl⟩ := mem_word_mul.mp hv
  rcases (Language.mem_add _ _ _).mp hu with rfl | rfl
  · exact ⟨_, rest, rfl⟩
  · exact ⟨_, rest, rfl⟩

theorem beforeStatement_iff (h : Point.start.follow kinds = some q) :
    BeforeStatement kinds ↔ q = .statements := by
  constructor
  · intro h
    obtain ⟨w, hw, hv⟩ := h
    obtain ⟨k, rest, rfl⟩ := exists_of_mem_statement hw
    have hw : kinds ++ k :: .equals :: rest = ((kinds ++ [k]) ++ [.equals]) ++ rest := by simp
    rw [hw] at hv
    obtain ⟨p, hp, he⟩ := viable_append_iff.mp hv.of_append
    obtain ⟨r, hr⟩ := Option.isSome_iff_exists.mp he
    rw [Point.follow_append, h, Option.bind_some, Point.follow_cons,
      Option.bind_eq_some_iff] at hp
    obtain ⟨p', hp', hpp⟩ := hp
    cases hpp
    exact Point.eq_statements_of_next? hp' hr
  · rintro rfl
    let s : Derivation.Statement := ⟨.literal 0 .start, .start, .literal 0 .start, .start⟩
    refine ⟨s.tokens.map Token.kind, (Derivation.Statement.spells _).mpr ⟨s, rfl⟩, ?_⟩
    apply viable_of_follow (q := .statements)
    rw [Point.follow_append, h]
    rfl

end Grammar

namespace Place

theorem expected_nodup (p : Place) : p.expected.Nodup := by
  cases p with
  | declarations r => cases r <;> simp [expected, Region.expected]
  | group r => cases r <;> simp [expected, Region.expected]
  | _ => simp [expected]

theorem mem_expected_iff (p : Place) (k : TokenKind) : k ∈ p.expected ↔
    p.point.admits k = true ∧ ¬ (k = .identifier ∧ ∃ z, p.point = .group z) ∧
      ¬ (k = .rightBrace ∧ p.point = .statements) := by
  rcases p with (_ | _) | _ | _ | _ | _ | (_ | _) | _ <;> cases k <;>
    simp [expected, Region.expected, point, Region.zone, Point.admits, Point.next?, Point.isEnd,
      Zone.next?]

theorem expects_of_follow {p : Place} {kinds : List TokenKind}
    (h : Point.start.follow kinds = some p.point) : Grammar.Expects kinds p.expected := by
  refine ⟨p.expected_nodup, ?_⟩
  intro k
  rw [mem_expected_iff, Grammar.afterGroup_iff h, Grammar.beforeStatement_iff h,
    Grammar.viable_append_iff, h]
  simp

end Place

/-- The tokens `before` begin a module and have type names that resolve, and `x` is the first answer
that no module goes on with. -/
structure Impasse (answers : List Scanned) (before : List Token) (x : Scanned) (k : TokenKind) :
    Prop where
  answers_eq : ∃ after, answers = before.map .token ++ x :: after
  kind_eq : x.kind? = some k
  viable : Grammar.Viable (before.map Token.kind)
  not_viable : ¬ Grammar.Viable (before.map Token.kind ++ [k])
  begins : ∃ past, Begins before past
  resolved : ∀ past, Begins before past → AllResolve [] past

theorem impasse_of_steps {name : String} {before : List Token} {s : ParseState}
    (hs : (ParseState.initial name).steps before = .ok s) {answers after : List Scanned}
    {x : Scanned} {k : TokenKind} (ha : answers = before.map .token ++ x :: after)
    (hk : x.kind? = some k) (hn : s.place.point.admits k = false) :
    Impasse answers before x k where
  answers_eq := ⟨after, ha⟩
  kind_eq := hk
  viable := viable_of_steps hs
  not_viable := by
    rw [viable_append_of_steps hs, hn]
    exact Bool.false_ne_true
  begins := Begins.exists_iff.mpr ⟨_, follow_of_steps hs⟩
  resolved := fun _ hb => hb.allResolve hs

/-- A syntax error is reported at the first token, or at the end, that no module goes on with, and
what is expected there is told by the grammar. -/
theorem unexpected_at_impasse {name : String} {source : Bytes} {expected : List TokenKind}
    {found : TokenKind} {l : Location}
    (h : (Module.parse name source).value = .error (.unexpected expected found l)) :
    ∃ before x, Impasse (Reading.ofSource source).answers before x found ∧ x.location = l ∧
      Grammar.Expects (before.map Token.kind) expected := by
  obtain ⟨ts, last, hsource, hl, ho⟩ := exists_ending name source
  rw [h] at ho
  rw [answers_of_prepend hsource hl]
  cases ho with
  | @cut s _ hs he =>
    have hn : s.place.point.admits .eof = false := by rw [Place.admits_eof, he]
    exact ⟨ts, .eof l, impasse_of_steps hs rfl rfl hn, rfl,
      Place.expects_of_follow (follow_of_steps hs)⟩
  | @refused before t after s _ ht hs hc =>
    subst ht
    have hn : s.place.point.admits t.kind = false := by
      rw [Bool.eq_false_iff, ne_eq, ParseState.admits_iff, hc, not_not]
    have ha : (before ++ t :: after).map Scanned.token ++ [last.head] =
        before.map .token ++ .token t :: (after.map .token ++ [last.head]) := by simp
    exact ⟨before, .token t, impasse_of_steps hs ha rfl hn, rfl,
      Place.expects_of_follow (follow_of_steps hs)⟩
  | @faulty before t after s _ _ ht hs hc hf =>
    obtain ⟨d, past, o, x, l', -, -, -, -, he⟩ := exists_unresolved hs hc
    cases he

theorem group_is_not_expected_again :
    let source := "var x: int; 5".toUTF8.toList
    ∃ before x, Impasse (Reading.ofSource source).answers before x .intLiteral ∧
      x.location = ⟨1, 13⟩ ∧
      Grammar.Expects (before.map Token.kind) [.var, .proc, .exports, .eof] := by
  intro source
  have h : (Module.parse "m" source).value =
      .error (.unexpected [.var, .proc, .exports, .eof] .intLiteral ⟨1, 13⟩) := by
    rw [Module.parse_value]
    decide +kernel
  exact unexpected_at_impasse h

end ProcLang
