import Mathlib.Data.Finset.Card
import ProcLang.Proofs.Unfolding

/-! # Equal numbers

In a tree that is built by hand nodes of every kind can share a number, a node and the nodes below
it too. Of these only the one that is entered last can be found, yet no reference leads nowhere. -/
namespace ProcLang

/-- Behind this node there is none with its number. -/
def Part.LastIn (p : Part) (ps : List Part) : Prop :=
  ∃ front back, ps = front ++ p :: back ∧ ∀ q ∈ back, q.id ≠ p.id

theorem Part.LastIn.mem {p : Part} {ps : List Part} (h : p.LastIn ps) : p ∈ ps := by
  obtain ⟨front, back, rfl, -⟩ := h
  exact List.mem_append_right front List.mem_cons_self

namespace Lowering

variable {m : Module} {id : NodeId} {n : LoweredNode}

theorem find?_reverse_eq_some_iff {ps : List Part} {p : Part} :
    ps.reverse.find? (·.id = id) = some p ↔ p.LastIn ps ∧ p.id = id := by
  rw [List.find?_eq_some_iff_append]
  constructor
  · rintro ⟨hid, back, front, hps, hback⟩
    obtain rfl : p.id = id := by simpa using hid
    refine ⟨⟨front.reverse, back.reverse, ?_, ?_⟩, rfl⟩
    · rw [← List.reverse_inj, hps]
      simp
    · intro q hq
      simpa using hback q (List.mem_reverse.mp hq)
  · rintro ⟨⟨front, back, rfl, hback⟩, rfl⟩
    refine ⟨by simp, back.reverse, front.reverse, by simp, ?_⟩
    intro q hq
    simpa using hback q (List.mem_reverse.mp hq)

theorem get?_eq_some_iff_lastIn :
    (ofModule m).get? id = some n ↔ ∃ p : Part, p.LastIn m.visits ∧ p.id = id ∧ p.lowered = n := by
  rw [get?, nodes_ofModule, get?_entered, Option.map_eq_some_iff]
  simp only [find?_reverse_eq_some_iff, and_assoc]

theorem get?_eq_none_iff_notMem :
    (ofModule m).get? id = none ↔ id ∉ m.visits.map Part.id := by
  rw [get?, nodes_ofModule, get?_entered, Option.map_eq_none_iff, List.find?_eq_none]
  simp

theorem get?_ne_none_of_mem {p : Part} (h : p ∈ m.visits) : (ofModule m).get? p.id ≠ none := by
  intro habsent
  exact get?_eq_none_iff_notMem.mp habsent (List.mem_map_of_mem h)

theorem size_eq_card : (ofModule m).size = (m.visits.map Part.id).toFinset.card := by
  have hkeys : (ofModule m).nodes.keys.toFinset = (m.visits.map Part.id).toFinset := by
    ext id
    rw [List.mem_toFinset, List.mem_toFinset, Table.mem_keys]
    exact get?_eq_none_iff_notMem.not_left
  rw [size, ← Table.length_keys, ← hkeys, List.toFinset_card_of_nodup (Table.nodup_keys _)]

theorem get?_ne_none_of_mem_roots (h : id ∈ (ofModule m).globals ++ (ofModule m).procs) :
    (ofModule m).get? id ≠ none := by
  rcases List.mem_append.mp h with h | h
  · obtain ⟨v, hv, rfl⟩ := List.mem_map.mp h
    exact get?_ne_none_of_mem (p := .var v) (List.mem_append_left _ (List.mem_map_of_mem hv))
  · obtain ⟨p, hp, rfl⟩ := List.mem_map.mp h
    have hlast : Part.proc p ∈ p.visits := List.mem_append_right _ List.mem_cons_self
    exact get?_ne_none_of_mem (p := .proc p)
      (List.mem_append_right _ (List.mem_flatMap.mpr ⟨p, hp, hlast⟩))

theorem get?_ne_none_of_mem_references {r : Slot × NodeId} (hn : (ofModule m).get? id = some n)
    (hr : r ∈ n.references) : (ofModule m).get? r.2 ≠ none := by
  obtain ⟨p, hlast, -, rfl⟩ := get?_eq_some_iff_lastIn.mp hn
  have hp : p ∈ m.parts := m.visits_perm.mem_iff.mp hlast.mem
  rw [p.references_lowered] at hr
  obtain ⟨q, hq, rfl⟩ := List.mem_map.mp hr
  exact get?_ne_none_of_mem (m.visits_perm.mem_iff.mpr (m.closed p hp hq))

end Lowering

/-- Whatever the numbers of a tree are: the table holds under a number the node that is entered
last, it has as many entries as there are numbers, and all numbers in it and in the two lists of
roots lead to an entry. -/
theorem last_entered_is_found (m : Module) :
    let l := m.lower.value
    (∀ id n, l.get? id = some n ↔ ∃ p : Part, p.LastIn m.visits ∧ p.id = id ∧ p.lowered = n) ∧
    (∀ id, l.get? id = none ↔ id ∉ m.visits.map Part.id) ∧
    l.size = (m.visits.map Part.id).toFinset.card ∧
    l.globals = m.vars.map Var.id ∧ l.procs = m.procs.map Proc.id ∧
    (∀ id ∈ l.globals ++ l.procs, l.get? id ≠ none) ∧
    ∀ id n, l.get? id = some n → ∀ r ∈ n.references, l.get? r.2 ≠ none := by
  intro l
  refine ⟨?_, ?_, Lowering.size_eq_card, rfl, rfl, ?_, ?_⟩
  · intro id n
    exact Lowering.get?_eq_some_iff_lastIn
  · intro id
    exact Lowering.get?_eq_none_iff_notMem
  · intro id hid
    exact Lowering.get?_ne_none_of_mem_roots hid
  · intro id n hn r hr
    exact Lowering.get?_ne_none_of_mem_references hn hr

/-- A variable gives way to a local and this to a constant, an operand to its own assignment, and a
procedure to the block of another one; the number of a parameter stands for nothing. -/
theorem numbers_shared_by_all_kinds :
    let f : Proc := ⟨1, "f", [⟨9, .start⟩], [⟨0, "y", .char, .start⟩], .void,
      ⟨2, [⟨3, .ref 3 "x" .start, .const 0 7 .start, .start⟩], .start⟩, .start⟩
    let g : Proc := ⟨4, "g", [], [], .int, ⟨1, [], .start⟩, .start⟩
    let m : Module := ⟨"m", [⟨0, "x", .int, .start⟩, ⟨0, "z", .int, .start⟩], [f, g], [], .start⟩
    let l := m.lower.value
    (Part.expr (.const 0 7 .start)).LastIn m.visits ∧ l.get? 0 = some (.const 7) ∧
      l.get? 1 = some (.block []) ∧ l.get? 3 = some (.assign 3 0) ∧ l.get? 9 = none ∧
      l.size = 5 ∧ l.globals = [0, 0] ∧ l.procs = [1, 4] ∧
      (∀ id ∈ [0, 0, 1, 4], l.get? id ≠ none) ∧
      ∀ r ∈ [(Slot.operand, 3), (Slot.operand, 0)], l.get? r.2 ≠ none := by
  intro f g m l
  obtain ⟨hfound, habsent, hsize, hglobals, hprocs, hroots, hreferences⟩ := last_entered_is_found m
  have hlast : (Part.expr (.const 0 7 .start)).LastIn m.visits :=
    ⟨[.var ⟨0, "x", .int, .start⟩, .var ⟨0, "z", .int, .start⟩, .var ⟨0, "y", .char, .start⟩,
      .expr (.ref 3 "x" .start)], [.assignment ⟨3, .ref 3 "x" .start, .const 0 7 .start, .start⟩,
      .block f.body, .proc f, .block g.body, .proc g], rfl, by decide⟩
  have hassign : l.get? 3 = some (.assign 3 0) := by decide
  exact ⟨hlast, (hfound 0 _).mpr ⟨_, hlast, rfl, rfl⟩, by decide, hassign,
    (habsent 9).mpr (by decide), hsize.trans (by decide), hglobals, hprocs, hroots,
    hreferences 3 _ hassign⟩

end ProcLang
