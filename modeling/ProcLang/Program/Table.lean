/-! Finite tables with one entry for each key. Inserting at a key that has an entry replaces the
entry, so a look-up finds what was inserted last. -/

namespace ProcLang

structure Table (κ ν : Type) where
  entries : List (κ × ν)
  distinct : (entries.map Prod.fst).Nodup

namespace Table

variable {κ ν : Type} [DecidableEq κ]

def empty : Table κ ν := ⟨[], .nil⟩

def insert (t : Table κ ν) (key : κ) (value : ν) : Table κ ν where
  entries := (key, value) :: t.entries.filter (·.1 ≠ key)
  distinct := by
    rw [List.map_cons, List.nodup_cons]
    refine ⟨?_, ?_⟩
    · simp
    · exact t.distinct.sublist (List.filter_sublist.map _)

def get? (t : Table κ ν) (key : κ) : Option ν := t.entries.lookup key

def size (t : Table κ ν) : Nat := t.entries.length

def isEmpty (t : Table κ ν) : Bool := t.entries.isEmpty

def keys (t : Table κ ν) : List κ := t.entries.map Prod.fst

@[simp] theorem get?_empty (key : κ) : (empty : Table κ ν).get? key = none := rfl

theorem lookup_filter_ne {key other : κ} (h : other ≠ key) (entries : List (κ × ν)) :
    (entries.filter (·.1 ≠ key)).lookup other = entries.lookup other := by
  induction entries with
  | nil => rfl
  | cons e entries ih =>
    by_cases he : e.1 = key
    · have hne : (other == e.1) = false := by simp [he, h]
      rw [List.filter_cons_of_neg (by simpa using he), ih, List.lookup_cons, hne]
    · rw [List.filter_cons_of_pos (by simpa using he), List.lookup_cons, List.lookup_cons, ih]

theorem get?_insert (t : Table κ ν) (key other : κ) (value : ν) :
    (t.insert key value).get? other = if other = key then some value else t.get? other := by
  unfold get? insert
  rw [List.lookup_cons]
  by_cases h : other = key
  · simp [h]
  · have hne : (other == key) = false := by simp [h]
    rw [hne, if_neg h]
    exact lookup_filter_ne h t.entries

omit [DecidableEq κ] in
theorem length_keys (t : Table κ ν) : t.keys.length = t.size := List.length_map _

omit [DecidableEq κ] in
theorem nodup_keys (t : Table κ ν) : t.keys.Nodup := t.distinct

theorem mem_keys {t : Table κ ν} {key : κ} : key ∈ t.keys ↔ t.get? key ≠ none := by
  rw [ne_eq, get?, List.lookup_eq_none_iff, keys, List.mem_map]
  constructor
  · rintro ⟨e, he, rfl⟩ hnone
    simpa using hnone e he
  · intro hsome
    apply Classical.byContradiction
    intro habsent
    apply hsome
    intro e he
    rw [bne_iff_ne]
    rintro rfl
    exact habsent ⟨e, he, rfl⟩

end Table

end ProcLang
