import ProcLang.Proofs.Resolution
import ProcLang.Proofs.Machine

/-! # Scopes mirror what has been declared

The global scope binds the names that the module has declared, and those built-in types that it has
not; the scope of a body binds the names that the body has declared. Looking a name up then finds a
type exactly where the rule says that it resolves. -/
namespace ProcLang

def Mark.bindingFor? (o : Owner) (name : String) (m : Mark) : Option Binding :=
  m.declaration?.bind fun d => if d.1 = o ∧ d.2.1 = name then some d.2.2 else none

/-- What the latest declaration of a name by an owner binds it to. -/
def latest? (past : List Mark) (o : Owner) (name : String) : Option Binding :=
  past.reverse.findSome? (Mark.bindingFor? o name)

def builtin? (name : String) : Option Binding := (TypeName.ofText? name).map .type

theorem Mark.bindingFor?_eq_some_iff {m : Mark} {o : Owner} {name : String} {b : Binding} :
    m.bindingFor? o name = some b ↔ m.declaration? = some (o, name, b) := by
  unfold bindingFor?
  rcases m.declaration? with _ | ⟨o', other, b'⟩
  · simp
  · simp [and_assoc]

theorem latest?_append_singleton (past : List Mark) (m : Mark) (o : Owner) (name : String) :
    latest? (past ++ [m]) o name = (m.bindingFor? o name).or (latest? past o name) := by
  cases h : m.bindingFor? o name <;> simp [latest?, h]

theorem latest?_isSome_iff {past : List Mark} {o : Owner} {name : String} :
    (latest? past o name).isSome ↔ Declared past o name := by
  rw [latest?, List.findSome?_isSome_iff]
  simp only [Declared, Mark.Declares, Option.isSome_iff_exists, List.mem_reverse,
    Mark.bindingFor?_eq_some_iff]

theorem latest?_ne_type (past : List Mark) (o : Owner) (name : String) (t : TypeName) :
    latest? past o name ≠ some (.type t) := by
  intro h
  obtain ⟨m, -, hm⟩ := List.exists_of_findSome?_eq_some h
  rw [Mark.bindingFor?_eq_some_iff] at hm
  unfold Mark.declaration? at hm
  split at hm <;> cases hm

theorem get?_builtin (name : String) : Scope.builtin.get? name = builtin? name := by
  simp only [Scope.builtin, TypeName.all, List.foldl_cons, List.foldl_nil, Table.get?_insert,
    Table.get?_empty, builtin?, TypeName.ofText?, List.find?_cons, List.find?_nil]
  by_cases hv : name = TypeName.void.text
  · subst hv
    rfl
  by_cases hi : name = TypeName.int.text
  · subst hi
    rfl
  by_cases hf : name = TypeName.float.text
  · subst hf
    rfl
  by_cases hc : name = TypeName.char.text
  · subst hc
    rfl
  simp [hv, hi, hf, hc, eq_comm]

/-- The scope binds what an owner has declared, and other names as `base` says. -/
def Binds (scope : Scope) (past : List Mark) (o : Owner) (base : String → Option Binding) : Prop :=
  ∀ name, scope.get? name = (latest? past o name).or (base name)

namespace Binds

variable {scope : Scope} {past : List Mark} {m : Mark} {o : Owner}
  {base : String → Option Binding} {name : String} {b : Binding}

theorem skip (hm : ∀ name, m.bindingFor? o name = none) (h : Binds scope past o base) :
    Binds scope (past ++ [m]) o base := by
  intro name
  rw [latest?_append_singleton, hm, Option.none_or]
  exact h name

theorem insert (hm : m.declaration? = some (o, name, b)) (h : Binds scope past o base) :
    Binds (scope.insert name b) (past ++ [m]) o base := by
  intro other
  rw [latest?_append_singleton, Table.get?_insert]
  by_cases he : other = name
  · rw [if_pos he, he, Mark.bindingFor?_eq_some_iff.mpr hm]
    rfl
  · have hn : m.bindingFor? o other = none := by
      simp [Mark.bindingFor?, hm, Ne.symm he]
    rw [if_neg he, hn]
    exact h other

end Binds

/-- The scopes hold what the module has declared and, in a body, what the body has. -/
def Mirrors (past : List Mark) : Owner → ScopeStack → Prop
  | none, s => s.inner = [] ∧ Binds s.global past none builtin?
  | some k, s => ∃ top, s.inner = [top] ∧ Binds top past (some k) (fun _ => none) ∧
      Binds s.global past none builtin?

theorem mirrors_initial : Mirrors [] none .initial := ⟨rfl, get?_builtin⟩

namespace Mirrors

variable {past : List Mark} {m : Mark} {o : Owner} {s : ScopeStack} {k : Nat}

theorem skip (hm : m.declaration? = none) (h : Mirrors past o s) : Mirrors (past ++ [m]) o s := by
  have hb (o : Owner) (name : String) : m.bindingFor? o name = none := by
    simp [Mark.bindingFor?, hm]
  cases o with
  | none => exact ⟨h.1, h.2.skip (hb none)⟩
  | some k =>
    obtain ⟨top, hi, ht, hg⟩ := h
    exact ⟨top, hi, ht.skip (hb _), hg.skip (hb none)⟩

theorem declare {name : String} {b : Binding} (hm : m.declaration? = some (o, name, b))
    (h : Mirrors past o s) : Mirrors (past ++ [m]) o (s.declare name b) := by
  cases o with
  | none =>
    obtain ⟨hi, hg⟩ := h
    simp only [Mirrors, ScopeStack.declare, hi]
    exact ⟨trivial, hg.insert hm⟩
  | some k =>
    obtain ⟨top, hi, ht, hg⟩ := h
    have hn (other : String) : m.bindingFor? none other = none := by
      simp [Mark.bindingFor?, hm]
    simp only [Mirrors, ScopeStack.declare, hi]
    exact ⟨_, rfl, ht.insert hm, hg.skip hn⟩

theorem push (hk : ∀ name, ¬ Declared past (some k) name) (h : Mirrors past none s) :
    Mirrors past (some k) s.push := by
  obtain ⟨hi, hg⟩ := h
  refine ⟨.empty, by simp [ScopeStack.push, hi], ?_, hg⟩
  intro name
  have hn : latest? past (some k) name = none := by
    simpa [← latest?_isSome_iff] using hk name
  simp [hn]

theorem leave (h : Mirrors past (some k) s) : ∃ top,
    s.leave = .ok ⟨[.scopePopped 1], (top, ⟨[], s.global⟩)⟩ ∧
      Mirrors past none ⟨[], s.global⟩ := by
  obtain ⟨top, hi, -, hg⟩ := h
  refine ⟨top, ?_, rfl, hg⟩
  simp only [ScopeStack.leave, ScopeStack.pop, hi]
  rfl

theorem lookup (h : Mirrors past o s) (name : String) : s.lookup name =
    ((latest? past o name).or (latest? past none name)).or (builtin? name) := by
  cases o with
  | none =>
    obtain ⟨hi, hg⟩ := h
    simp only [ScopeStack.lookup, ScopeStack.scopes, hi, List.nil_append, List.findSome?_cons,
      List.findSome?_nil, hg name]
    cases latest? past none name <;> cases builtin? name <;> rfl
  | some k =>
    obtain ⟨top, hi, ht, hg⟩ := h
    simp only [ScopeStack.lookup, ScopeStack.scopes, hi, List.cons_append, List.nil_append,
      List.findSome?_cons, List.findSome?_nil, ht name, hg name]
    cases latest? past (some k) name <;> cases latest? past none name <;>
      cases builtin? name <;> rfl

theorem resolve {s : ParseState} {name : String} {l : Location} (h : Mirrors past o s.scopes)
    (hr : m.role = .typeName o) (ht : m.token = ⟨.identifier name, l⟩) :
    s.resolve name l = (m.check past).map fun _ => TypeName.named name := by
  have hl := h.lookup name
  by_cases hh : Hidden past o name
  · have hn : ¬ Resolves past o name := fun hres => hres.2 hh
    have hc := m.check_of_unresolved hr (by rw [ht]) hn
    obtain ⟨b, hb⟩ : ∃ b, (latest? past o name).or (latest? past none name) = some b := by
      rw [← Option.isSome_iff_exists, Option.isSome_or, Bool.or_eq_true, latest?_isSome_iff,
        latest?_isSome_iff]
      exact hh.symm
    have hbt (t : TypeName) : b ≠ .type t := by
      rintro rfl
      rcases Option.or_eq_some_iff.mp hb with hb | ⟨-, hb⟩
      · exact latest?_ne_type _ _ _ _ hb
      · exact latest?_ne_type _ _ _ _ hb
    rw [hb] at hl
    rw [hc, ht, typeFault, if_pos hh, ParseState.resolve, hl]
    cases b with
    | type t => exact absurd rfl (hbt t)
    | _ => rfl
  · have hd (o' : Owner) (hd : ¬ Declared past o' name) : latest? past o' name = none := by
      simpa [← latest?_isSome_iff] using hd
    obtain ⟨hg, ho⟩ := not_or.mp hh
    rw [hd o ho, hd none hg, Option.or_none, Option.none_or, builtin?] at hl
    cases hf : TypeName.ofText? name with
    | none =>
      have hn : ¬ Resolves past o name := by
        rw [resolves_iff, not_not]
        exact Or.inr hf
      rw [m.check_of_unresolved hr (by rw [ht]) hn, ht, typeFault, if_neg hh,
        ParseState.resolve, hl, hf]
      rfl
    | some t =>
      have hc : m.check past = .ok () := by
        rw [Mark.check_eq_ok_iff]
        intro h
        obtain ⟨o', other, hr', ht', hn⟩ := h
        obtain rfl : o' = o := Role.typeName.inj (hr'.symm.trans hr)
        obtain rfl : other = name := by simpa [ht] using ht'.symm
        exact hn (resolves_iff.mpr (by simp [hh, hf]))
      rw [hc, ParseState.resolve, hl, hf, TypeName.named, hf]
      rfl

end Mirrors

end ProcLang
