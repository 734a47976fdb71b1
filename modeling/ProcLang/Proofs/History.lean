import Mathlib.Data.Set.Card
import Mathlib.Order.Bounds.Basic
import ProcLang.Program.Scope

/-! # Histories of scopes

Requests made of a scope stack one after the other open and close scopes as brackets do. Which
scopes are open at a time, and what is declared in each of them, is told here by the requests alone:
by how many scopes are open after so many of them. The stack agrees with that. -/
namespace ProcLang

namespace ScopeStack

inductive Request where
  | push
  | pop
  | declare (name : String) (b : Binding)
  | lookup (name : String)
  deriving DecidableEq, Repr

inductive Reply where
  | done
  | popped (result : Except ScopeError Scope)
  | found (b : Option Binding)

/-- A stack that refuses to be popped stays as it is. -/
def serve (s : ScopeStack) : Request → Reply × ScopeStack
  | .push => (.done, s.push)
  | .pop =>
    match s.pop with
    | .ok (top, below) => (.popped (.ok top), below)
    | .error e => (.popped (.error e), s)
  | .declare name b => (.done, s.declare name b)
  | .lookup name => (.found (s.lookup name), s)

def after (s : ScopeStack) (rs : List Request) : ScopeStack :=
  rs.foldl (fun s r => (s.serve r).2) s

def replies (s : ScopeStack) : List Request → List Reply
  | [] => []
  | r :: rs => (s.serve r).1 :: (s.serve r).2.replies rs

def Reply.isPopped : Reply → Bool
  | .popped (.ok _) => true
  | _ => false

def bare : ScopeStack := ⟨[], .empty⟩

/-- The declarations that a fresh stack begins with. -/
def seeding : List Request := TypeName.all.map fun t => .declare t.text (.type t)

theorem after_append (s : ScopeStack) (first second : List Request) :
    s.after (first ++ second) = (s.after first).after second :=
  List.foldl_append

theorem initial_after (rs : List Request) : initial.after rs = bare.after (seeding ++ rs) := by
  rw [after_append]
  rfl

section

variable {s : ScopeStack} {t : Scope} {ts : List Scope}

theorem scopes_ne_nil (s : ScopeStack) : s.scopes ≠ [] := by simp [scopes]

theorem lookup_of_scopes (h : s.scopes = t :: ts) (x : String) :
    s.lookup x = (t.get? x).or (ts.findSome? (·.get? x)) := by
  rw [lookup, h, List.findSome?_cons]
  cases t.get? x <;> rfl

theorem scopes_push (s : ScopeStack) : s.push.scopes = .empty :: s.scopes := rfl

theorem scopes_declare (h : s.scopes = t :: ts) (x : String) (b : Binding) :
    (s.declare x b).scopes = t.insert x b :: ts := by
  obtain ⟨inner, global⟩ := s
  cases inner <;> cases h <;> rfl

theorem pop_eq_error_iff {e : ScopeError} : s.pop = .error e ↔ s.depth = 1 := by
  obtain ⟨_ | ⟨top, inner⟩, global⟩ := s
  · exact iff_of_true rfl rfl
  · simp [pop]

theorem scopes_of_pop {top : Scope} {below : ScopeStack} (h : s.pop = .ok (top, below)) :
    s.scopes = top :: below.scopes := by
  obtain ⟨_ | ⟨_, inner⟩, global⟩ := s <;> cases h
  rfl

theorem serve_pop_of_depth (h : s.depth = 1) : (s.serve .pop).2 = s := by
  have hpop : s.pop = .error .leavingGlobal := pop_eq_error_iff.mpr h
  simp only [serve, hpop]

theorem scopes_serve_pop (h : s.scopes = t :: ts) (hne : ts ≠ []) :
    (s.serve .pop).2.scopes = ts := by
  obtain ⟨_ | ⟨top, inner⟩, global⟩ := s
  · cases h
    exact absurd rfl hne
  · exact (List.cons.inj h).2

theorem depth_declare (s : ScopeStack) (x : String) (b : Binding) :
    (s.declare x b).depth = s.depth := by
  obtain ⟨_ | ⟨top, inner⟩, global⟩ := s <;> rfl

theorem depth_serve (s : ScopeStack) (r : Request) :
    (s.serve r).2.depth + (if (s.serve r).1.isPopped then 1 else 0) =
      s.depth + if r = .push then 1 else 0 := by
  cases r with
  | push => exact depth_push s
  | pop => obtain ⟨_ | ⟨top, inner⟩, global⟩ := s <;> simp [serve, pop, Reply.isPopped]
  | declare x b => exact depth_declare s x b
  | lookup x => rfl

theorem depth_after (s : ScopeStack) (rs : List Request) :
    (s.after rs).depth + (s.replies rs).countP Reply.isPopped = s.depth + rs.count .push := by
  induction rs generalizing s with
  | nil => rfl
  | cons r rs ih =>
    have hstep := depth_serve s r
    have hrest := ih (s.serve r).2
    have hafter : s.after (r :: rs) = (s.serve r).2.after rs := rfl
    rw [hafter, replies, List.countP_cons, List.count_cons]
    simp only [beq_iff_eq]
    omega

end

abbrev History := List Request

namespace History

def move (n : ℕ) : Request → ℕ
  | .push => n + 1
  | .pop => n - 1
  | _ => n

/-- How many scopes besides the global one are open after the first `n` requests. -/
def heightAt (h : History) (n : ℕ) : ℕ := (h.take n).foldl move 0

/-- A scope is known by the number of requests up to its opening; the global one is always there. -/
def Opens (h : History) : ℕ → Prop
  | 0 => True
  | i + 1 => h[i]? = some .push

/-- The scopes that are open after `n` requests, as the height has not been less since. -/
def openAt (h : History) (n : ℕ) : Set ℕ :=
  {p | h.Opens p ∧ p ≤ n ∧ ∀ k, p ≤ k → k ≤ n → h.heightAt p ≤ h.heightAt k}

/-- Among the first `n` requests, request `j` declares the name in the scope, which is the innermost
one that is open then. -/
def DeclaredIn (h : History) (n p : ℕ) (x : String) (j : ℕ) (b : Binding) : Prop :=
  j < n ∧ h[j]? = some (.declare x b) ∧ IsGreatest (h.openAt j) p

/-- The name is declared in the scope, the last time with the given binding. -/
def LastIn (h : History) (n p : ℕ) (x : String) (b : Binding) : Prop :=
  ∃ j, h.DeclaredIn n p x j b ∧ ∀ k c, h.DeclaredIn n p x k c → k ≤ j

def namesIn (h : History) (n p : ℕ) : Set String := {x | ∃ j b, h.DeclaredIn n p x j b}

def declaring (h : History) (n : ℕ) (x : String) : Set ℕ := {p ∈ h.openAt n | x ∈ h.namesIn n p}

/-- What a name means after `n` requests: what the innermost open scope that declares it does at
last. -/
def Means (h : History) (n : ℕ) (x : String) (b : Binding) : Prop :=
  ∃ p, IsGreatest (h.declaring n x) p ∧ h.LastIn n p x b

variable {h : History} {n p q i : ℕ} {r : Request}

theorem heightAt_succ (hr : h[n]? = some r) : h.heightAt (n + 1) = move (h.heightAt n) r := by
  rw [heightAt, List.take_add_one, hr, List.foldl_append]
  rfl

theorem heightAt_opened (hi : h.Opens (i + 1)) : h.heightAt (i + 1) = h.heightAt i + 1 :=
  heightAt_succ hi

theorem zero_mem_openAt (n : ℕ) : 0 ∈ h.openAt n :=
  ⟨trivial, Nat.zero_le n, fun k _ _ => Nat.zero_le (h.heightAt k)⟩

theorem self_mem_openAt (hp : h.Opens p) : p ∈ h.openAt p := by
  refine ⟨hp, le_rfl, fun k hk hle => ?_⟩
  rw [le_antisymm hle hk]

theorem openAt_of_le (hp : p ∈ h.openAt n) (hpi : p ≤ i) (hin : i ≤ n) : p ∈ h.openAt i :=
  ⟨hp.1, hpi, fun k hk hle => hp.2.2 k hk (hle.trans hin)⟩

theorem openAt_succ (hp : p ∈ h.openAt n) (hle : h.heightAt p ≤ h.heightAt (n + 1)) :
    p ∈ h.openAt (n + 1) := by
  refine ⟨hp.1, Nat.le_succ_of_le hp.2.1, fun k hk hkn => ?_⟩
  rcases Nat.le_or_eq_of_le_succ hkn with hkn | rfl
  · exact hp.2.2 k hk hkn
  · exact hle

theorem heightAt_lt_of_lt (hp : p ∈ h.openAt n) (hq : q ∈ h.openAt n) (hlt : p < q) :
    h.heightAt p < h.heightAt q := by
  obtain ⟨i, rfl⟩ := Nat.exists_eq_add_of_lt hlt
  rw [heightAt_opened hq.1]
  exact Nat.lt_succ_of_le (hp.2.2 _ (by omega) (by have := hq.2.1; omega))

theorem openAt_outer (hi : i + 1 ∈ h.openAt n) (hq : q ∈ h.openAt i) : q ∈ h.openAt n := by
  refine ⟨hq.1, by have := hi.2.1; have := hq.2.1; omega, fun k hk hkn => ?_⟩
  rcases Nat.lt_or_ge i k with hik | hik
  · have houter := hq.2.2 i hq.2.1 le_rfl
    have hinner := hi.2.2 k hik hkn
    rw [heightAt_opened hi.1] at hinner
    omega
  · exact hq.2.2 k hk hik

theorem exists_openAt_top (hn : n ≤ h.length) : ∃ p ∈ h.openAt n, h.heightAt p = h.heightAt n := by
  induction n using Nat.strongRecOn with
  | ind n ih =>
    cases n with
    | zero => exact ⟨0, zero_mem_openAt 0, rfl⟩
    | succ n =>
      obtain ⟨p, hp, hpn⟩ := ih n (Nat.lt_succ_self n) (Nat.le_of_succ_le hn)
      obtain ⟨r, hr⟩ : ∃ r, h[n]? = some r := ⟨_, List.getElem?_eq_getElem hn⟩
      have hheight := heightAt_succ hr
      cases r with
      | push => exact ⟨n + 1, self_mem_openAt hr, rfl⟩
      | pop =>
        change h.heightAt (n + 1) = h.heightAt n - 1 at hheight
        cases p with
        | zero =>
          have hzero : h.heightAt 0 = 0 := rfl
          exact ⟨0, zero_mem_openAt _, by omega⟩
        | succ i =>
          obtain ⟨q, hq, hqi⟩ := ih i (by have := hp.2.1; omega) (by have := hp.2.1; omega)
          rw [heightAt_opened hp.1] at hpn
          exact ⟨q, openAt_succ (openAt_outer hp hq) (by omega), by omega⟩
      | _ =>
        change h.heightAt (n + 1) = h.heightAt n at hheight
        exact ⟨p, openAt_succ hp (by omega), by omega⟩

theorem isGreatest_openAt_iff (hn : n ≤ h.length) :
    IsGreatest (h.openAt n) p ↔ p ∈ h.openAt n ∧ h.heightAt p = h.heightAt n := by
  constructor
  · intro hp
    obtain ⟨q, hq, hqn⟩ := exists_openAt_top hn
    rcases Nat.eq_or_lt_of_le (hp.2 hq) with rfl | hlt
    · exact ⟨hq, hqn⟩
    · have hlt := heightAt_lt_of_lt hq hp.1 hlt
      have hle := hp.1.2.2 n hp.1.2.1 le_rfl
      omega
  · rintro ⟨hp, hpn⟩
    refine ⟨hp, fun q hq => ?_⟩
    by_contra hlt
    have hlt := heightAt_lt_of_lt hp hq (not_le.mp hlt)
    have hle := hq.2.2 n hq.2.1 le_rfl
    omega

theorem mem_openAt_iff_of_innermost (hi : IsGreatest (h.openAt n) (i + 1)) :
    q ∈ h.openAt n ↔ q = i + 1 ∨ q ∈ h.openAt i := by
  constructor
  · intro hq
    rcases Nat.le_or_eq_of_le_succ (hi.2 hq) with hle | rfl
    · exact Or.inr (openAt_of_le hq hle (by have := hi.1.2.1; omega))
    · exact Or.inl rfl
  · rintro (rfl | hq)
    · exact hi.1
    · exact openAt_outer hi.1 hq

def stackAt (h : History) (n : ℕ) : ScopeStack := bare.after (h.take n)

/-- The scopes that a scope was opened on. -/
def under (h : History) : ℕ → List Scope
  | 0 => []
  | i + 1 => (h.stackAt i).scopes

structure Holds (h : History) (n p : ℕ) (t : Scope) : Prop where
  some_iff : ∀ x b, t.get? x = some b ↔ h.LastIn n p x b
  none_iff : ∀ x, t.get? x = none ↔ x ∉ h.namesIn n p

variable {x y : String} {b c : Binding} {j : ℕ} {t : Scope}

theorem stackAt_succ (hr : h[n]? = some r) : h.stackAt (n + 1) = ((h.stackAt n).serve r).2 := by
  rw [stackAt, List.take_add_one, hr, after_append]
  rfl

theorem declaredIn_succ : h.DeclaredIn (n + 1) p x j b ↔ h.DeclaredIn n p x j b ∨
    j = n ∧ h[n]? = some (.declare x b) ∧ IsGreatest (h.openAt n) p := by
  constructor
  · rintro ⟨hj, hd⟩
    rcases Nat.lt_succ_iff_lt_or_eq.mp hj with hj | rfl
    · exact Or.inl ⟨hj, hd⟩
    · exact Or.inr ⟨rfl, hd⟩
  · rintro (⟨hj, hd⟩ | ⟨rfl, hd⟩)
    · exact ⟨Nat.lt_succ_of_lt hj, hd⟩
    · exact ⟨Nat.lt_succ_self j, hd⟩

theorem holds_empty (h : History) (p : ℕ) : h.Holds p p .empty := by
  have hnone (x : String) (j : ℕ) (b : Binding) : ¬ h.DeclaredIn p p x j b := by
    rintro ⟨hj, -, hp⟩
    exact absurd hp.1.2.1 (not_le.mpr hj)
  refine ⟨fun x b => iff_of_false (Option.some_ne_none b).symm ?_, fun x => iff_of_true rfl ?_⟩
  · rintro ⟨j, hd, -⟩
    exact hnone x j b hd
  · rintro ⟨j, b, hd⟩
    exact hnone x j b hd

namespace Holds

theorem skip (hd : ∀ x b, h[n]? = some (.declare x b) → ¬ IsGreatest (h.openAt n) p)
    (ht : h.Holds n p t) : h.Holds (n + 1) p t := by
  have hsame (x : String) (j : ℕ) (b : Binding) :
      h.DeclaredIn (n + 1) p x j b ↔ h.DeclaredIn n p x j b := by
    rw [declaredIn_succ, or_iff_left]
    rintro ⟨-, hn, hp⟩
    exact hd x b hn hp
  constructor
  · intro x b
    simp only [ht.some_iff, LastIn, hsame]
  · intro x
    simp only [ht.none_iff, namesIn, hsame]

theorem insert (hn : h[n]? = some (.declare y c)) (hp : IsGreatest (h.openAt n) p)
    (ht : h.Holds n p t) : h.Holds (n + 1) p (t.insert y c) := by
  have hlast : h.DeclaredIn (n + 1) p y n c := ⟨Nat.lt_succ_self n, hn, hp⟩
  have hother {x : String} (hx : x ≠ y) (j : ℕ) (b : Binding) :
      h.DeclaredIn (n + 1) p x j b ↔ h.DeclaredIn n p x j b := by
    rw [declaredIn_succ, or_iff_left]
    rintro ⟨-, hn', -⟩
    rw [hn] at hn'
    cases hn'
    exact hx rfl
  constructor
  · intro x b
    rw [Table.get?_insert]
    by_cases hx : x = y
    · subst hx
      rw [if_pos rfl, Option.some_inj]
      constructor
      · rintro rfl
        exact ⟨n, hlast, fun k c hk => Nat.le_of_lt_succ hk.1⟩
      · rintro ⟨j, hj, hmax⟩
        obtain rfl : j = n := le_antisymm (Nat.le_of_lt_succ hj.1) (hmax n c hlast)
        have hb := hj.2.1
        rw [hn] at hb
        cases hb
        rfl
    · simp only [if_neg hx, ht.some_iff, LastIn, hother hx]
  · intro x
    rw [Table.get?_insert]
    by_cases hx : x = y
    · subst hx
      rw [if_pos rfl]
      exact iff_of_false (Option.some_ne_none c) fun hnot => hnot ⟨n, c, hlast⟩
    · simp only [if_neg hx, ht.none_iff, namesIn, Set.mem_ofPred_eq, hother hx]

end Holds

theorem eq_zero_of_heightAt (hp : h.Opens p) (hzero : h.heightAt p = 0) : p = 0 := by
  cases p with
  | zero => rfl
  | succ i =>
    rw [heightAt_opened hp] at hzero
    omega

/-- In the stack an open scope has a table of its own, on what the scope was opened on. -/
theorem exists_table (hn : n ≤ h.length) (hp : p ∈ h.openAt n) : ∃ upper t,
    (h.stackAt n).scopes = upper ++ t :: h.under p ∧
      h.heightAt n = h.heightAt p + upper.length ∧ h.Holds n p t := by
  have hle := hp.2.1
  induction n, hle using Nat.le_induction with
  | base =>
    refine ⟨[], .empty, ?_, rfl, holds_empty h p⟩
    cases p with
    | zero => rfl
    | succ i => rw [stackAt_succ hp.1, serve, scopes_push]; rfl
  | succ n hpn ih =>
    obtain ⟨upper, t, hs, hheight, ht⟩ := ih (Nat.le_of_succ_le hn) (openAt_of_le hp hpn n.le_succ)
    obtain ⟨r, hr⟩ : ∃ r, h[n]? = some r := ⟨_, List.getElem?_eq_getElem hn⟩
    have hstep := heightAt_succ hr
    have hstays := hp.2.2 (n + 1) hp.2.1 le_rfl
    rw [stackAt_succ hr]
    cases r with
    | push =>
      change h.heightAt (n + 1) = h.heightAt n + 1 at hstep
      refine ⟨.empty :: upper, t, by rw [serve, scopes_push, hs]; rfl, ?_, ht.skip ?_⟩
      · rw [List.length_cons]
        omega
      · intro x b hd
        rw [hr] at hd
        cases hd
    | pop =>
      change h.heightAt (n + 1) = h.heightAt n - 1 at hstep
      have hskip : h.Holds (n + 1) p t := ht.skip fun x b hd => by rw [hr] at hd; cases hd
      cases upper with
      | nil =>
        obtain rfl := eq_zero_of_heightAt hp.1 (by rw [List.length_nil] at hheight; omega)
        have hdepth : (h.stackAt n).depth = 1 := by rw [depth, hs]; rfl
        rw [serve_pop_of_depth hdepth]
        refine ⟨[], t, hs, ?_, hskip⟩
        have hzero : h.heightAt 0 = 0 := rfl
        rw [List.length_nil] at hheight ⊢
        omega
      | cons u us =>
        refine ⟨us, t, scopes_serve_pop hs (by simp), ?_, hskip⟩
        rw [List.length_cons] at hheight
        omega
    | declare y c =>
      change h.heightAt (n + 1) = h.heightAt n at hstep
      cases upper with
      | nil =>
        have htop : IsGreatest (h.openAt n) p := (isGreatest_openAt_iff (Nat.le_of_succ_le hn)).mpr
          ⟨openAt_of_le hp hpn n.le_succ, hheight.symm⟩
        exact ⟨[], t.insert y c, scopes_declare hs y c, hstep.trans hheight, ht.insert hr htop⟩
      | cons u us =>
        refine ⟨u.insert y c :: us, t, scopes_declare hs y c, hstep.trans hheight, ht.skip ?_⟩
        intro x b _ htop
        have htop := ((isGreatest_openAt_iff (Nat.le_of_succ_le hn)).mp htop).2
        rw [List.length_cons] at hheight
        omega
    | lookup x =>
      refine ⟨upper, t, hs, hstep.trans hheight, ht.skip ?_⟩
      intro x b hd
      rw [hr] at hd
      cases hd

theorem declaredIn_outer (hi : i + 1 ∈ h.openAt n) (hq : q ∈ h.openAt i) :
    h.DeclaredIn n q x j b ↔ h.DeclaredIn i q x j b := by
  have hin := hi.2.1
  constructor
  · rintro ⟨hj, hd, htop⟩
    refine ⟨?_, hd, htop⟩
    by_contra hij
    rcases Nat.eq_or_lt_of_le (not_lt.mp hij) with rfl | hlt
    · have hpush : h[i]? = some .push := hi.1
      rw [hd] at hpush
      cases hpush
    · have hle := htop.2 (openAt_of_le hi hlt hj.le)
      have := hq.2.1
      omega
  · rintro ⟨hj, hd⟩
    exact ⟨by omega, hd⟩

theorem declaring_of_innermost (hp : IsGreatest (h.openAt n) p) (hx : x ∈ h.namesIn n p) :
    IsGreatest (h.declaring n x) p :=
  ⟨⟨hp.1, hx⟩, fun _ hq => hp.2 hq.1⟩

/-- A name that is not declared in the innermost scope is declared where it was before. -/
theorem declaring_of_outer (hi : IsGreatest (h.openAt n) (i + 1))
    (hx : x ∉ h.namesIn n (i + 1)) : h.declaring n x = h.declaring i x := by
  have hnames {q : ℕ} (hq : q ∈ h.openAt i) : x ∈ h.namesIn n q ↔ x ∈ h.namesIn i q :=
    exists₂_congr fun j c => declaredIn_outer hi.1 hq
  ext q
  constructor
  · rintro ⟨hq, hqx⟩
    rcases (mem_openAt_iff_of_innermost hi).mp hq with rfl | hq
    · exact absurd hqx hx
    · exact ⟨hq, (hnames hq).mp hqx⟩
  · rintro ⟨hq, hqx⟩
    exact ⟨openAt_outer hi.1 hq, (hnames hq).mpr hqx⟩

theorem means_of_outer (hi : IsGreatest (h.openAt n) (i + 1)) (hx : x ∉ h.namesIn n (i + 1)) :
    h.Means n x b ↔ h.Means i x b := by
  have hlast {q : ℕ} (hq : q ∈ h.openAt i) : h.LastIn n q x b ↔ h.LastIn i q x b :=
    exists_congr fun j => and_congr (declaredIn_outer hi.1 hq)
      (forall₂_congr fun k c => imp_congr (declaredIn_outer hi.1 hq) Iff.rfl)
  rw [Means, Means, declaring_of_outer hi hx]
  exact exists_congr fun q => and_congr_right fun hq => hlast hq.1.1

theorem lookup_stackAt (hn : n ≤ h.length) (x : String) :
    (∀ b, (h.stackAt n).lookup x = some b ↔ h.Means n x b) ∧
      ((h.stackAt n).lookup x = none ↔ h.declaring n x = ∅) := by
  induction n using Nat.strongRecOn with
  | ind n ih =>
    obtain ⟨p, hp, hpn⟩ := exists_openAt_top hn
    have htop := (isGreatest_openAt_iff hn).mpr ⟨hp, hpn⟩
    obtain ⟨upper, t, hs, hheight, ht⟩ := exists_table hn hp
    obtain rfl : upper = [] := List.eq_nil_of_length_eq_zero (by omega)
    rw [lookup_of_scopes hs]
    cases hx : t.get? x with
    | some b =>
      have hname : x ∈ h.namesIn n p := by
        by_contra hnot
        rw [(ht.none_iff x).mpr hnot] at hx
        cases hx
      have hgreatest := declaring_of_innermost htop hname
      refine ⟨fun c => ?_, iff_of_false (Option.some_ne_none b) hgreatest.nonempty.ne_empty⟩
      rw [Option.some_or, ← hx, ht.some_iff]
      constructor
      · exact fun hlast => ⟨p, hgreatest, hlast⟩
      · rintro ⟨q, hq, hlast⟩
        rwa [hgreatest.unique hq]
    | none =>
      have hname := (ht.none_iff x).mp hx
      rw [Option.none_or]
      cases p with
      | zero =>
        have hempty : h.declaring n x = ∅ := by
          rw [Set.eq_empty_iff_forall_notMem]
          rintro q ⟨hq, hqx⟩
          obtain rfl := Nat.le_zero.mp (htop.2 hq)
          exact hname hqx
        refine ⟨fun c => iff_of_false (Option.some_ne_none c).symm ?_, iff_of_true rfl hempty⟩
        rintro ⟨q, hq, -⟩
        exact hq.nonempty.ne_empty hempty
      | succ i =>
        have hin := hp.2.1
        have hi := ih i (by omega) (by omega)
        rw [declaring_of_outer htop hname]
        exact ⟨fun c => (hi.1 c).trans (means_of_outer htop hname).symm, hi.2⟩

end History

theorem size_eq_ncard (t : Scope) : t.size = {x | t.get? x ≠ none}.ncard := by
  have hkeys : {x | t.get? x ≠ none} = ↑t.keys.toFinset := by
    ext x
    rw [List.coe_toFinset, Set.mem_ofPred_eq, Set.mem_ofPred_eq, Table.mem_keys]
  rw [hkeys, Set.ncard_coe_finset, List.toFinset_card_of_nodup t.nodup_keys, Table.length_keys]

theorem push_of_seeded {rs : List Request} {i : ℕ} (h : (seeding ++ rs)[i]? = some .push) :
    ∃ j, i = seeding.length + j ∧ rs[j]? = some .push := by
  rcases Nat.lt_or_ge i seeding.length with hlt | hle
  · rw [List.getElem?_append_left hlt] at h
    have hmem : Request.push ∈ seeding := List.mem_of_getElem? h
    exact absurd hmem (by decide)
  · rw [List.getElem?_append_right hle] at h
    exact ⟨i - seeding.length, by omega, h⟩

/-- Whatever is requested, the stack is as deep as its history says, a name means in it what the
history makes it mean, and leaving a scope gives what was declared in it and what was before. -/
theorem scopes_agree_with_history (rs : List Request) :
    let h : History := seeding ++ rs
    let s := initial.after rs
    s.depth + (initial.replies rs).countP Reply.isPopped = 1 + rs.count .push ∧ 1 ≤ s.depth ∧
    (∀ e, s.pop = .error e ↔ s.depth = 1) ∧
    (∀ e, s.pop = .error e →
      (s.serve .pop).2.depth = s.depth ∧ ∀ x, (s.serve .pop).2.lookup x = s.lookup x) ∧
    (∀ x, (∀ b, s.lookup x = some b ↔ h.Means h.length x b) ∧
      (s.lookup x = none ↔ h.declaring h.length x = ∅)) ∧
    ∀ top below, s.pop = .ok (top, below) → (s.serve .pop).2 = below ∧
      ∃ i, rs[i]? = some .push ∧ IsGreatest (h.openAt h.length) (seeding.length + i + 1) ∧
        (∀ x b, top.get? x = some b ↔ h.LastIn h.length (seeding.length + i + 1) x b) ∧
        (∀ x, top.get? x = none ↔ x ∉ h.namesIn h.length (seeding.length + i + 1)) ∧
        top.size = (h.namesIn h.length (seeding.length + i + 1)).ncard ∧
        ∀ x, below.lookup x = (initial.after (rs.take i)).lookup x := by
  intro h s
  have hs : s = h.stackAt h.length := by
    rw [History.stackAt, List.take_length]
    exact initial_after rs
  have hdepth : 1 ≤ s.depth := by
    rw [depth_eq]
    omega
  refine ⟨depth_after initial rs, hdepth, fun e => pop_eq_error_iff, ?_, ?_, ?_⟩
  · intro e he
    rw [serve_pop_of_depth (pop_eq_error_iff.mp he)]
    exact ⟨rfl, fun x => rfl⟩
  · intro x
    rw [hs]
    exact History.lookup_stackAt le_rfl x
  · intro top below hpop
    refine ⟨by rw [serve, hpop], ?_⟩
    obtain ⟨p, hp, hpn⟩ := History.exists_openAt_top (h := h) le_rfl
    obtain ⟨upper, t, hscopes, hheight, ht⟩ := History.exists_table le_rfl hp
    obtain rfl : upper = [] := List.eq_nil_of_length_eq_zero (by omega)
    rw [← hs, scopes_of_pop hpop, List.nil_append] at hscopes
    obtain ⟨rfl, hbelow⟩ := List.cons.inj hscopes
    cases p with
    | zero => exact absurd hbelow (scopes_ne_nil below)
    | succ i =>
      obtain ⟨j, rfl, hj⟩ := push_of_seeded hp.1
      refine ⟨j, hj, (History.isGreatest_openAt_iff le_rfl).mpr ⟨hp, hpn⟩, ht.some_iff,
        ht.none_iff, ?_, fun x => ?_⟩
      · rw [size_eq_ncard]
        congr 1
        ext x
        rw [Set.mem_ofPred_eq, ne_eq, ht.none_iff, not_not]
      · rw [initial_after, lookup, hbelow, lookup, History.under, History.stackAt,
          List.take_length_add_append]

/-- The inner declaration and the refused request leave nothing behind. -/
example : (initial.after [.declare "int" (.var 0), .push, .declare "int" (.var 1), .pop,
    .pop]).lookup "int" = some (.var 0) := by decide

end ScopeStack

end ProcLang
