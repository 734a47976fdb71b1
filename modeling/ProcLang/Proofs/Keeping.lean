import Mathlib.Order.Defs.Unbundled
import ProcLang.Proofs.Stage

/-! # What stages do to scopes

Inside a body nothing but the innermost scope changes, whether a stage succeeds or fails. So the
scope that is opened for a body is the one that is closed behind it, and a procedure leaves nothing
but its own name. -/
namespace ProcLang

/-- The same scopes are open, and nothing has changed outside the innermost one. -/
structure ScopeStack.Covers (s s' : ScopeStack) : Prop where
  length : s'.inner.length = s.inner.length
  below : s'.inner.tail = s.inner.tail
  global : s.inner ≠ [] → s'.global = s.global

namespace ScopeStack

variable {s s' : ScopeStack}

theorem covers_declare (s : ScopeStack) (x : String) (b : Binding) : Covers s (s.declare x b) := by
  obtain ⟨_ | ⟨top, inner⟩, global⟩ := s
  · exact ⟨rfl, rfl, fun h => absurd rfl h⟩
  · exact ⟨rfl, rfl, fun _ => rfl⟩

instance : IsPreorder ScopeStack Covers where
  refl _ := ⟨rfl, rfl, fun _ => rfl⟩
  trans s t u h h' := by
    refine ⟨h'.length.trans h.length, h'.below.trans h.below, fun hs => ?_⟩
    have ht : t.inner ≠ [] := by
      rwa [← List.length_pos_iff, h.length, List.length_pos_iff]
    exact (h'.global ht).trans (h.global hs)

theorem Covers.leave (h : Covers s.push s') :
    ∃ top, s'.leave = .ok ⟨[.scopePopped s.depth], (top, s)⟩ := by
  obtain ⟨inner, global⟩ := s
  obtain ⟨_ | ⟨top, inner'⟩, global'⟩ := s'
  · cases h.length
  · obtain rfl : inner' = inner := h.below
    obtain rfl : global' = global := h.global (List.cons_ne_nil _ _)
    exact ⟨top, rfl⟩

theorem Covers.depth_eq (h : Covers s s') : s'.depth = s.depth := by
  rw [ScopeStack.depth_eq, ScopeStack.depth_eq, h.length]

end ScopeStack

namespace Parsing

variable {α β : Type} {p : Parser} {x : Parsing α} {f : α → Parsing β}

theorem exists_of_bind {o : Outcome β} (h : (x >>= f) p = some o) :
    ∃ o₁ o₂, x p = some o₁ ∧ andThen o₁.value f o₁.parser = some o₂ ∧ o = o₁.followedBy o₂ := by
  rw [bind_apply, Option.bind_eq_some_iff] at h
  obtain ⟨o₁, h₁, h⟩ := h
  obtain ⟨o₂, h₂, rfl⟩ := Option.map_eq_some_iff.mp h
  exact ⟨o₁, o₂, h₁, h₂, rfl⟩

/-- Before and behind a stage the scopes are related, and no scope is missing in it. -/
def Keeps (R : ScopeStack → ScopeStack → Prop) (x : Parsing α) : Prop :=
  ∀ p o, x p = some o → R p.scopes o.parser.scopes ∧ ∀ e, o.value ≠ .error (.internal e)

variable {R : ScopeStack → ScopeStack → Prop}

theorem keeps_modify {f : Parser → Parser} (h : ∀ p, R p.scopes (f p).scopes) :
    Keeps R (modify f) := by
  rintro p o ⟨⟩
  exact ⟨h p, nofun⟩

theorem Keeps.get_bind {f : Parser → Parsing β} (hf : ∀ q, Keeps R (f q)) :
    Keeps R (get >>= f) := by
  intro p o h
  rw [Parsing.get_bind] at h
  exact hf p p o h

theorem Keeps.ite {c : Prop} [Decidable c] {y : Parsing α} (hx : Keeps R x) (hy : Keeps R y) :
    Keeps R (if c then x else y) := by
  split
  · exact hx
  · exact hy

section

variable [IsPreorder ScopeStack R]

theorem keeps_pure (a : α) : Keeps R (pure a) := by
  rintro p o ⟨⟩
  exact ⟨refl _, nofun⟩

theorem keeps_fail {e : ParseError} (h : ∀ fault, e ≠ .internal fault) :
    Keeps R (fail e : Parsing α) := by
  rintro p o ⟨⟩
  exact ⟨refl _, fun fault he => h fault (Except.error.inj he)⟩

theorem keeps_newId : Keeps R newId := by
  rintro p o ⟨⟩
  exact ⟨refl _, nofun⟩

theorem keeps_tell (e : Event) : Keeps R (tell e) := by
  rintro p o ⟨⟩
  exact ⟨refl _, nofun⟩

theorem keeps_advance : Keeps R advance := by
  intro p o h
  unfold advance at h
  cases hnext : p.scanner.next with
  | mk answer scanner =>
    rw [hnext] at h
    cases answer <;> cases h <;> exact ⟨refl _, nofun⟩

theorem Keeps.bind (hx : Keeps R x) (hf : ∀ a, Keeps R (f a)) : Keeps R (x >>= f) := by
  intro p o h
  obtain ⟨o₁, o₂, h₁, h₂, rfl⟩ := exists_of_bind h
  obtain ⟨hscopes, hvalue⟩ := hx p o₁ h₁
  cases hv : o₁.value with
  | error e =>
    rw [hv] at h₂ hvalue
    cases h₂
    exact ⟨hscopes, fun fault he => hvalue fault (congrArg _ (Except.error.inj he))⟩
  | ok a =>
    rw [hv] at h₂
    obtain ⟨hlater, hvalue⟩ := hf a o₁.parser o₂ h₂
    exact ⟨trans_of R hscopes hlater, hvalue⟩

theorem keeps_unexpected (expected : List TokenKind) (found : Lookahead) :
    Keeps R (unexpected expected found : Parsing α) :=
  keeps_fail nofun

theorem keeps_expect (k : TokenKind) : Keeps R (expect k) :=
  .get_bind fun _ => .ite keeps_advance (keeps_unexpected _ _)

theorem keeps_expectIdentifier : Keeps R expectIdentifier := by
  refine .get_bind fun _ => .ite (keeps_advance.bind fun ahead => ?_) (keeps_unexpected _ _)
  split
  · exact keeps_pure _
  · exact keeps_unexpected _ _

theorem keeps_typeName : Keeps R typeName := by
  refine keeps_expectIdentifier.bind fun _ => .get_bind fun _ => ?_
  split
  · exact keeps_pure _
  · exact keeps_fail nofun
  · exact keeps_fail nofun

theorem Keeps.repeatWhile (hx : Keeps R x) (goesOn : Parser → Bool) :
    Keeps R (repeatWhile goesOn x) := by
  apply rounds.partial_correctness
  intro rounds ih p o h
  split at h
  · obtain ⟨o₁, h₁, h⟩ := Option.bind_eq_some_iff.mp h
    obtain ⟨hscopes, hvalue⟩ := hx p o₁ h₁
    cases hv : o₁.value with
    | error e =>
      rw [hv] at h hvalue
      cases h
      exact ⟨hscopes, fun fault he => hvalue fault (congrArg _ (Except.error.inj he))⟩
    | ok a =>
      rw [hv] at h
      obtain ⟨o₂, h₂, h⟩ := Option.bind_eq_some_iff.mp h
      cases h
      obtain ⟨hlater, hvalue⟩ := ih _ _ h₂
      refine ⟨trans_of R hscopes hlater, fun fault he => ?_⟩
      change o₂.value.map _ = _ at he
      cases hv₂ : o₂.value with
      | ok as =>
        rw [hv₂] at he
        cases he
      | error e =>
        rw [hv₂] at he hvalue
        exact hvalue fault (congrArg _ (Except.error.inj he))
  · cases h
    exact ⟨refl _, nofun⟩

theorem Keeps.round (hx : Keeps R x) {goesOn : Parser → Bool} {q : Parser}
    (h : Round goesOn x p q) : R p.scopes q.scopes := by
  induction h with
  | first => exact refl _
  | later _ done _ _ ih => exact trans_of R (hx _ _ done).1 ih

theorem keeps_expression : Keeps R expression := by
  refine .get_bind fun p => .ite (keeps_newId.bind fun id => keeps_advance.bind fun ahead => ?_)
    (keeps_unexpected _ _)
  split
  · exact keeps_pure _
  · exact keeps_pure _
  · exact keeps_unexpected _ _

theorem keeps_statement : Keeps R statement := by
  refine Keeps.bind (.get_bind fun _ => ?_) fun _ => (keeps_expect _).bind fun _ => keeps_pure _
  refine keeps_newId.bind fun _ => keeps_expression.bind fun _ => ?_
  exact (keeps_expect _).bind fun _ => keeps_expression.bind fun _ => keeps_pure _

theorem keeps_block : Keeps R block := by
  refine (keeps_expect _).bind fun _ => keeps_newId.bind fun _ => ?_
  exact (keeps_statement.repeatWhile _).bind fun _ => (keeps_expect _).bind fun _ => keeps_pure _

theorem keeps_exportName : Keeps R exportName := by
  refine (keeps_expect _).bind fun _ => keeps_expectIdentifier.bind fun _ => ?_
  exact (keeps_expect _).bind fun _ => (keeps_tell _).bind fun _ => keeps_modify fun _ => refl _

end

theorem keeps_declare (name : String) (b : Binding) : Keeps ScopeStack.Covers (declare name b) :=
  keeps_modify fun p => p.scopes.covers_declare name b

theorem keeps_group : Keeps ScopeStack.Covers group := by
  refine keeps_expectIdentifier.bind fun _ => keeps_newId.bind fun _ => ?_
  refine (keeps_declare _ _).bind fun _ => (keeps_expect _).bind fun _ => ?_
  refine keeps_typeName.bind fun _ => (keeps_expect _).bind fun _ => ?_
  exact (keeps_tell _).bind fun _ => keeps_pure _

theorem keeps_varDeclaration : Keeps ScopeStack.Covers varDeclaration :=
  (keeps_expect _).bind fun _ => .get_bind fun _ =>
    .ite (keeps_group.repeatWhile _) (keeps_unexpected _ _)

theorem keeps_body : Keeps ScopeStack.Covers body :=
  (keeps_varDeclaration.repeatWhile _).bind fun _ => .get_bind fun _ =>
    .ite (keeps_block.bind fun _ => keeps_pure _) (keeps_unexpected _ _)

/-- The scope that is opened before a stage is there to be closed behind it. -/
theorem keeps_openScope_closing (hx : Keeps ScopeStack.Covers x) :
    Keeps Eq (openScope >>= fun _ => closing x) := by
  intro p o h
  obtain ⟨o₁, o₂, h₁, h₂, rfl⟩ := exists_of_bind h
  cases h₁
  obtain ⟨o₃, o₄, h₃, h₄, rfl⟩ := exists_of_bind h₂
  obtain ⟨o₅, h₅, rfl⟩ := Option.map_eq_some_iff.mp h₃
  obtain ⟨hscopes, hvalue⟩ := hx _ _ h₅
  obtain ⟨top, hleave⟩ := hscopes.leave
  obtain ⟨o₆, o₇, h₆, h₇, rfl⟩ := exists_of_bind h₄
  unfold closeScope at h₆
  rw [hleave] at h₆
  cases h₆
  cases h₇
  exact ⟨rfl, hvalue⟩

theorem Keeps.covers (hx : Keeps Eq x) : Keeps ScopeStack.Covers x := by
  intro p o h
  obtain ⟨hscopes, hvalue⟩ := hx p o h
  exact ⟨hscopes ▸ refl _, hvalue⟩

theorem keeps_procedure_rest (id : NodeId) (name : String) (location : Location) :
    Keeps Eq do
      let _ ← expect .leftParen
      let _ ← expect .rightParen
      let _ ← expect .colon
      let returnType ← typeName
      openScope
      let (locals, body) ← closing body
      let p : Proc := ⟨id, name, [], locals, returnType, body, location⟩
      tell (.declaredProc p)
      return p := by
  refine (keeps_expect _).bind fun _ => (keeps_expect _).bind fun _ => ?_
  refine (keeps_expect _).bind fun _ => keeps_typeName.bind fun _ => ?_
  rw [← bind_assoc]
  refine (keeps_openScope_closing keeps_body).bind fun _ => ?_
  exact (keeps_tell _).bind fun _ => keeps_pure _

theorem keeps_procedure : Keeps ScopeStack.Covers procedure := by
  refine (keeps_expect _).bind fun ahead => keeps_expectIdentifier.bind fun x => ?_
  refine keeps_newId.bind fun id => (keeps_declare _ _).bind fun _ => ?_
  exact (keeps_procedure_rest id x.1 ahead.location).covers

theorem keeps_item : Keeps ScopeStack.Covers item := by
  refine .get_bind fun p => ?_
  split
  · exact keeps_varDeclaration.bind fun _ => keeps_modify fun _ => refl _
  · exact keeps_procedure.bind fun _ => keeps_modify fun _ => refl _
  · exact keeps_exportName
  · exact keeps_unexpected _ _

theorem keeps_module : Keeps ScopeStack.Covers module :=
  (keeps_item.repeatWhile _).bind fun _ => .get_bind fun _ =>
    (keeps_tell _).bind fun _ => keeps_pure _

theorem taken_followedBy (o : Outcome α) (o' : Outcome β) :
    (o.followedBy o').taken = o.taken ++ o'.taken :=
  List.filterMap_append

theorem taken_of_advance {t : Token} {o : Outcome Lookahead} {ahead : Lookahead}
    (hp : p.current = .token t) (h : advance p = some o) (ha : o.value = .ok ahead) :
    o.taken = [t] ∧ ahead = .token t := by
  unfold advance at h
  cases hnext : p.scanner.next with
  | mk answer scanner =>
    rw [hnext, hp] at h
    cases answer <;> cases h <;> cases ha <;> exact ⟨rfl, rfl⟩

theorem exists_taken_of_expect {k : TokenKind} (hk : k ≠ .eof) {o : Outcome Lookahead}
    {ahead : Lookahead} (h : expect k p = some o) (ha : o.value = .ok ahead) :
    ∃ t, o.taken = [t] := by
  rw [expect, get_bind] at h
  split at h
  · rename_i hcheck
    obtain ⟨t, hp, -⟩ := exists_token_of_check hk hcheck
    exact ⟨t, (taken_of_advance hp h ha).1⟩
  · cases h
    cases ha

theorem taken_of_expectIdentifier {o : Outcome (String × Location)} {name : String} {l : Location}
    (h : expectIdentifier p = some o) (ha : o.value = .ok (name, l)) :
    o.taken = [⟨.identifier name, l⟩] := by
  rw [expectIdentifier, get_bind] at h
  split at h
  · rename_i hcheck
    obtain ⟨⟨u, l'⟩, hp, hu⟩ := exists_token_of_check (by decide) hcheck
    obtain ⟨o₁, o₂, h₁, h₂, rfl⟩ := exists_of_bind h
    cases hv : o₁.value with
    | error e =>
      rw [hv] at h₂
      cases h₂
      cases ha
    | ok ahead =>
      obtain ⟨htaken, rfl⟩ := taken_of_advance hp h₁ hv
      cases u <;> cases hu
      rw [hv] at h₂
      cases h₂
      cases ha
      rw [taken_followedBy, htaken]
      rfl
  · cases h
    cases ha

/-- Whether it succeeds or fails, a procedure binds its own name at most. -/
theorem scopes_of_procedure {o : Outcome Proc} (h : procedure p = some o) :
    o.parser.scopes = p.scopes ∨ ∃ name id, o.taken[1]?.map Token.terminal =
      some (.identifier name) ∧ o.parser.scopes = p.scopes.declare name (.proc id) := by
  obtain ⟨o₁, o₂, h₁, h₂, rfl⟩ := exists_of_bind h
  have hfirst := (keeps_expect (R := Eq) _ _ _ h₁).1
  cases hv₁ : o₁.value with
  | error e =>
    rw [hv₁] at h₂
    cases h₂
    exact Or.inl hfirst.symm
  | ok ahead =>
    obtain ⟨t, ht⟩ := exists_taken_of_expect (by decide) h₁ hv₁
    rw [hv₁] at h₂
    obtain ⟨o₃, o₄, h₃, h₄, rfl⟩ := exists_of_bind h₂
    have hsecond := hfirst.trans (keeps_expectIdentifier (R := Eq) _ _ h₃).1
    cases hv₃ : o₃.value with
    | error e =>
      rw [hv₃] at h₄
      cases h₄
      exact Or.inl hsecond.symm
    | ok x =>
      obtain ⟨name, l⟩ := x
      have htaken := taken_of_expectIdentifier h₃ hv₃
      rw [hv₃] at h₄
      change (newId >>= fun id => declare name (.proc id) >>= fun _ => _) o₃.parser = _ at h₄
      rw [bind_of_silent (a := o₃.parser.nextId) rfl, bind_of_silent (a := ()) rfl] at h₄
      have hrest := (keeps_procedure_rest _ _ _ _ _ h₄).1
      refine Or.inr ⟨name, o₃.parser.nextId, ?_, ?_⟩
      · rw [taken_followedBy, taken_followedBy, ht, htaken]
        rfl
      · rw [hsecond]
        exact hrest.symm

end Parsing

end ProcLang
