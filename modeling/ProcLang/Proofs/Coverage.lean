import Mathlib.Data.Nat.Find
import Mathlib.Order.Monotone.Basic
import Mathlib.Tactic.Tauto
import ProcLang.Proofs.Lexeme

/-! # Coverage

Asked again and again, past errors too, the scanner goes through the whole text. The bytes that its
answers span are those that are not blank, each of them spanned once and in order. -/
namespace ProcLang

def blanks : Bytes := [32, 9, 13, 10]

theorem mem_blanks {b : UInt8} : b ∈ blanks ↔ Byte.isBlank b = true := by
  simp only [blanks, Byte.isBlank, List.mem_cons, List.not_mem_nil, or_false, Bool.or_eq_true,
    beq_iff_eq]
  tauto

def slice (text : Bytes) (span : ℕ × ℕ) : Bytes := text.extract span.1 span.2

theorem slice_append (front middle rest : Bytes) :
    slice (front ++ middle ++ rest) (front.length, (front ++ middle).length) = middle := by
  simp [slice, List.extract_eq_take_drop]

namespace Scanner

/-- The answer to a request that comes after so many others. -/
def answer (s : Scanner) : ℕ → Scanned
  | 0 => s.next.1
  | i + 1 => s.next.2.answer i

def after (s : Scanner) : ℕ → Scanner
  | 0 => s
  | i + 1 => s.next.2.after i

/-- The span of the answer of the same number. -/
def spanOf (s : Scanner) (i : ℕ) : ℕ × ℕ := (s.after (i + 1)).span

theorem answer_eq (s : Scanner) (i : ℕ) : s.answer i = (s.after i).next.1 := by
  induction i generalizing s with
  | zero => rfl
  | succ i ih => exact ih s.next.2

theorem after_succ (s : Scanner) (i : ℕ) : s.after (i + 1) = (s.after i).next.2 := by
  induction i generalizing s with
  | zero => rfl
  | succ i ih => exact ih s.next.2

/-- The scanner has the front of a text behind it and the rest before it. -/
structure HasPassed (s : Scanner) (front text : Bytes) : Prop where
  text_eq : text = front ++ s.rest
  position_eq : s.position = front.length
  location_eq : s.location = Location.start.after front

theorem hasPassed_ofSource (source : Bytes) : (ofSource source).HasPassed [] source :=
  ⟨rfl, rfl, rfl⟩

theorem HasPassed.past {s : Scanner} {front text gap lexeme rest : Bytes}
    (h : s.HasPassed front text) (hr : s.rest = gap ++ (lexeme ++ rest)) :
    (s.past gap lexeme rest).HasPassed (front ++ gap ++ lexeme) text := by
  constructor
  · rw [h.text_eq, hr]
    simp [Scanner.past]
  · simp [Scanner.past, h.position_eq, Nat.add_assoc]
  · simp [Scanner.past, h.location_eq, Location.after_append]

/-- An answer is the end of the text, where there is no lexeme, or what a lexeme says. -/
inductive Says (lexeme rest : Bytes) (l : Location) (a : Scanned) : Prop where
  | eof (hlexeme : lexeme = []) (hrest : rest = []) (ha : a = .eof l)
  | lexeme (x : Lexeme) (hlexeme : lexeme = x.bytes) (hx : x.EndsAt rest) (ha : a = x.answer l)

/-- What comes of a request behind the front of a text: the answer and the scanner after it. -/
structure Taken (text front gap lexeme rest : Bytes) (a : Scanned) (s : Scanner) : Prop where
  blank : Blank gap
  text_eq : text = front ++ gap ++ lexeme ++ rest
  tokenStart_eq : s.tokenStart = (front ++ gap).length
  passed : s.HasPassed (front ++ gap ++ lexeme) text
  stated : Says lexeme rest (Location.start.after (front ++ gap)) a

theorem HasPassed.next {s : Scanner} {front text : Bytes} (h : s.HasPassed front text) :
    ∃ gap lexeme rest, Taken text front gap lexeme rest s.next.1 s.next.2 := by
  have hlocation (gap : Bytes) :
      s.location.after gap = Location.start.after (front ++ gap) := by
    rw [Location.after_append, h.location_eq]
  have hstart (gap lexeme rest : Bytes) :
      (s.past gap lexeme rest).tokenStart = (front ++ gap).length := by
    simp [Scanner.past, h.position_eq]
  rcases blank_or_lexeme s.rest with hb | ⟨gap, x, rest, hr, hg, hx⟩
  · refine ⟨s.rest, [], [], ?_⟩
    rw [next_of_blank hb, hlocation]
    exact ⟨hb, by simp [h.text_eq], hstart _ _ _, h.past (by simp), .eof rfl rfl rfl⟩
  · refine ⟨gap, x.bytes, rest, ?_⟩
    rw [next_of_lexeme hr hg hx, hlocation]
    exact ⟨hg, by simp [h.text_eq, hr], hstart _ _ _, h.past hr, .lexeme x rfl hx rfl⟩

section

variable (source : Bytes) (i : ℕ)

theorem exists_taken : ∃ front gap lexeme rest,
    ((ofSource source).after i).HasPassed front source ∧
      Taken source front gap lexeme rest ((ofSource source).answer i)
        ((ofSource source).after (i + 1)) := by
  have passed : ∃ front, ((ofSource source).after i).HasPassed front source := by
    induction i with
    | zero => exact ⟨[], hasPassed_ofSource source⟩
    | succ i ih =>
      obtain ⟨front, h⟩ := ih
      obtain ⟨gap, lexeme, rest, ht⟩ := h.next
      rw [after_succ]
      exact ⟨_, ht.passed⟩
  obtain ⟨front, h⟩ := passed
  obtain ⟨gap, lexeme, rest, ht⟩ := h.next
  rw [answer_eq, after_succ]
  exact ⟨front, gap, lexeme, rest, h, ht⟩

variable {source i} {front gap lexeme rest : Bytes} {a : Scanned}

theorem Taken.spanOf_eq
    (h : Taken source front gap lexeme rest a ((ofSource source).after (i + 1))) :
    (ofSource source).spanOf i = ((front ++ gap).length, (front ++ gap ++ lexeme).length) := by
  rw [spanOf, span, h.tokenStart_eq, h.passed.position_eq]

theorem Taken.slice_eq
    (h : Taken source front gap lexeme rest a ((ofSource source).after (i + 1))) :
    slice source ((ofSource source).spanOf i) = lexeme := by
  rw [h.spanOf_eq, h.text_eq, slice_append]

variable (source i)

def positionAt : ℕ := ((ofSource source).after i).position

theorem spanOf_bounds : positionAt source i ≤ ((ofSource source).spanOf i).1 ∧
    ((ofSource source).spanOf i).1 ≤ ((ofSource source).spanOf i).2 ∧
    ((ofSource source).spanOf i).2 = positionAt source (i + 1) ∧
    positionAt source (i + 1) ≤ source.length := by
  obtain ⟨front, gap, lexeme, rest, h, ht⟩ := exists_taken source i
  have hlength := congrArg List.length ht.text_eq
  rw [ht.spanOf_eq, positionAt, positionAt, h.position_eq, ht.passed.position_eq]
  simp only [List.length_append] at hlength ⊢
  exact ⟨by omega, by omega, trivial, by omega⟩

theorem positionAt_mono : Monotone (positionAt source) := by
  apply monotone_nat_of_le_succ
  intro i
  obtain ⟨hgap, hspan, hend, -⟩ := spanOf_bounds source i
  omega

theorem mem_blanks_of_lt_span {p : ℕ} {b : UInt8} (hb : source[p]? = some b)
    (hle : positionAt source i ≤ p) (hlt : p < ((ofSource source).spanOf i).1) : b ∈ blanks := by
  obtain ⟨front, gap, lexeme, rest, h, ht⟩ := exists_taken source i
  rw [positionAt, h.position_eq] at hle
  rw [ht.spanOf_eq, List.length_append] at hlt
  rw [ht.text_eq, List.append_assoc, List.append_assoc, List.getElem?_append_right hle,
    List.getElem?_append_left (by omega)] at hb
  exact mem_blanks.mpr (ht.blank b (List.mem_of_getElem? hb))

theorem notMem_blanks_of_mem_span {b : UInt8}
    (hb : b ∈ slice source ((ofSource source).spanOf i)) : b ∉ blanks := by
  obtain ⟨front, gap, lexeme, rest, -, ht⟩ := exists_taken source i
  rw [ht.slice_eq] at hb
  rw [mem_blanks, Bool.not_eq_true]
  rcases ht.stated with ⟨rfl, -, -⟩ | ⟨x, rfl, -, -⟩
  · cases hb
  · exact x.isBlank_of_mem hb

/-- Up to each request the spans hold what has been passed, less the blanks. -/
theorem flatMap_slice_eq :
    (List.range i).flatMap (fun j => slice source ((ofSource source).spanOf j)) =
      (source.take (positionAt source i)).filter (· ∉ blanks) := by
  induction i with
  | zero => rfl
  | succ i ih =>
    obtain ⟨front, gap, lexeme, rest, h, ht⟩ := exists_taken source i
    have hgap : gap.filter (· ∉ blanks) = [] := by
      rw [List.filter_eq_nil_iff]
      intro b hb
      simp [mem_blanks, ht.blank b hb]
    have hlexeme : lexeme.filter (· ∉ blanks) = lexeme := by
      rw [List.filter_eq_self]
      intro b hb
      rw [← ht.slice_eq] at hb
      simpa using notMem_blanks_of_mem_span source i hb
    have hfront : source.take front.length = front := by
      rw [ht.text_eq, List.append_assoc, List.append_assoc, List.take_left]
    have hpassed : source.take (front ++ gap ++ lexeme).length = front ++ gap ++ lexeme := by
      rw [ht.text_eq, List.take_left]
    rw [List.range_succ, List.flatMap_append, ih, List.flatMap_singleton, ht.slice_eq, positionAt,
      positionAt, h.position_eq, ht.passed.position_eq, hfront, hpassed, List.filter_append,
      List.filter_append, hgap, hlexeme, List.append_nil]

theorem span_nonempty (h : ∀ l, (ofSource source).answer i ≠ .eof l) :
    ((ofSource source).spanOf i).1 < ((ofSource source).spanOf i).2 := by
  obtain ⟨front, gap, lexeme, rest, -, ht⟩ := exists_taken source i
  rw [ht.spanOf_eq, @List.length_append UInt8 (front ++ gap)]
  rcases ht.stated with ⟨-, -, ha⟩ | ⟨x, rfl, -, -⟩
  · exact absurd ha (h _)
  · have := x.length_bytes_pos
    omega

theorem eof_or_le_positionAt :
    (∃ j < i, ∃ l, (ofSource source).answer j = .eof l) ∨ i ≤ positionAt source i := by
  induction i with
  | zero => exact Or.inr (Nat.zero_le _)
  | succ i ih =>
    by_cases he : ∃ l, (ofSource source).answer i = .eof l
    · exact Or.inl ⟨i, Nat.lt_succ_self i, he⟩
    · rcases ih with ⟨j, hj, h⟩ | h
      · exact Or.inl ⟨j, Nat.lt_succ_of_lt hj, h⟩
      · have hspan := span_nonempty source i fun l hl => he ⟨l, hl⟩
        have hbounds := spanOf_bounds source i
        exact Or.inr (by omega)

theorem eof_of_answer_eof {l : Location} (h : (ofSource source).answer i = .eof l) :
    (ofSource source).answer i = .eof (Location.start.after source) ∧
      (ofSource source).spanOf i = (source.length, source.length) := by
  obtain ⟨front, gap, lexeme, rest, -, ht⟩ := exists_taken source i
  rw [ht.spanOf_eq]
  rcases ht.stated with ⟨rfl, rfl, ha⟩ | ⟨x, -, -, ha⟩
  · have htext : source = front ++ gap := by simpa using ht.text_eq
    rw [ha, List.append_nil, ← htext]
    exact ⟨rfl, rfl⟩
  · rw [h] at ha
    exact absurd ha.symm (x.answer_ne_eof _ l)

theorem positionAt_succ_of_eof {l : Location} (h : (ofSource source).answer i = .eof l) :
    positionAt source (i + 1) = source.length := by
  have hspan := (eof_of_answer_eof source i h).2
  have hbounds := spanOf_bounds source i
  rw [hspan] at hbounds
  exact hbounds.2.2.1.symm

theorem eof_of_le {n : ℕ} {l : Location} (hn : (ofSource source).answer n = .eof l) (hi : n ≤ i) :
    (ofSource source).answer i = .eof (Location.start.after source) ∧
      (ofSource source).spanOf i = (source.length, source.length) := by
  suffices h : ∃ l, (ofSource source).answer i = .eof l by
    obtain ⟨l, hl⟩ := h
    exact eof_of_answer_eof source i hl
  rcases Nat.eq_or_lt_of_le hi with rfl | hlt
  · exact ⟨l, hn⟩
  · by_contra hnot
    have hend := positionAt_succ_of_eof source n hn
    have hmono := positionAt_mono source (show n + 1 ≤ i from hlt)
    have hspan := span_nonempty source i fun l hl => hnot ⟨l, hl⟩
    have hbounds := spanOf_bounds source i
    omega

theorem mem_blanks_of_outside {p : ℕ} {b : UInt8} (hb : source[p]? = some b)
    (hp : p < positionAt source i)
    (h : ∀ j < i, ¬ (((ofSource source).spanOf j).1 ≤ p ∧ p < ((ofSource source).spanOf j).2)) :
    b ∈ blanks := by
  induction i with
  | zero => exact absurd hp (Nat.not_lt_zero p)
  | succ i ih =>
    have hbounds := spanOf_bounds source i
    by_cases hearlier : p < positionAt source i
    · exact ih hearlier fun j hj => h j (Nat.lt_succ_of_lt hj)
    · have hspan := h i (Nat.lt_succ_self i)
      exact mem_blanks_of_lt_span source i hb (by omega) (by omega)

/-- There is a first request that is answered by the end, and it does not come late. -/
theorem exists_first_eof : ∃ n ≤ source.length,
    (∃ l, (ofSource source).answer n = .eof l) ∧
      ∀ i < n, ∀ l, (ofSource source).answer i ≠ .eof l := by
  have hex : ∃ n, ∃ l, (ofSource source).answer n = .eof l := by
    rcases eof_or_le_positionAt source (source.length + 1) with ⟨n, -, h⟩ | hle
    · exact ⟨n, h⟩
    · have hbounds := spanOf_bounds source source.length
      omega
  classical
  refine ⟨Nat.find hex, ?_, Nat.find_spec hex, fun i hi l hl => Nat.find_min hex hi ⟨l, hl⟩⟩
  rcases eof_or_le_positionAt source (Nat.find hex) with ⟨j, hj, hl⟩ | hle
  · exact absurd hl (Nat.find_min hex hj)
  · have hbounds := spanOf_bounds source (Nat.find hex)
    omega

variable {i} {l : Location} (h : (ofSource source).answer i = .eof l)

include h

theorem flatMap_slice_of_eof :
    (List.range i).flatMap (fun j => slice source ((ofSource source).spanOf j)) =
      source.filter (· ∉ blanks) := by
  have hconcat := flatMap_slice_eq source (i + 1)
  have hspan := (eof_of_answer_eof source i h).2
  have hlexeme : slice source ((ofSource source).spanOf i) = [] := by
    simp [hspan, slice, List.extract_eq_take_drop]
  rw [positionAt_succ_of_eof source i h, List.take_length, List.range_succ, List.flatMap_append,
    List.flatMap_singleton, hlexeme, List.append_nil] at hconcat
  exact hconcat

theorem mem_blanks_of_eof {p : ℕ} {b : UInt8} (hb : source[p]? = some b)
    (hout : ∀ j < i, ¬ (((ofSource source).spanOf j).1 ≤ p ∧ p < ((ofSource source).spanOf j).2)) :
    b ∈ blanks := by
  have hp : p < source.length := (List.getElem?_eq_some_iff.mp hb).1
  refine mem_blanks_of_outside source (i + 1) hb (positionAt_succ_of_eof source i h ▸ hp) ?_
  intro j hj
  rcases Nat.lt_succ_iff_lt_or_eq.mp hj with hj | rfl
  · exact hout j hj
  · simp [(eof_of_answer_eof source j h).2]

end

end Scanner

open Scanner

/-- Within as many requests as the text has bytes, and one more, the scanner comes to the end of the
text and stays there. Until then each answer spans bytes that are not blank, behind those of the
answers before it, and all that no answer spans is blank. -/
theorem lexemes_cover_source (source : Bytes) :
    let s := Scanner.ofSource source
    ∃ n ≤ source.length,
      (∀ i < n, (∀ l, s.answer i ≠ .eof l) ∧ (s.spanOf i).1 < (s.spanOf i).2 ∧
        (s.spanOf i).2 ≤ source.length ∧ ∀ b ∈ slice source (s.spanOf i), b ∉ blanks) ∧
      (∀ i j, i < j → j < n → (s.spanOf i).2 ≤ (s.spanOf j).1) ∧
      (∀ p b, source[p]? = some b →
        (∀ i < n, ¬ ((s.spanOf i).1 ≤ p ∧ p < (s.spanOf i).2)) → b ∈ blanks) ∧
      (List.range n).flatMap (fun i => slice source (s.spanOf i)) =
        source.filter (· ∉ blanks) ∧
      ∀ i ≥ n, s.answer i = .eof (Location.start.after source) ∧
        s.spanOf i = (source.length, source.length) := by
  dsimp only
  obtain ⟨n, hn, ⟨l, hl⟩, hbefore⟩ := exists_first_eof source
  refine ⟨n, hn, ?_, ?_, ?_, flatMap_slice_of_eof source hl,
    fun i hi => eof_of_le source i hl hi⟩
  · intro i hi
    have hbounds := spanOf_bounds source i
    exact ⟨hbefore i hi, span_nonempty source i (hbefore i hi), by omega,
      fun b hb => notMem_blanks_of_mem_span source i hb⟩
  · intro i j hij _
    have hmono := positionAt_mono source (show i + 1 ≤ j from hij)
    have hi := spanOf_bounds source i
    have hj := spanOf_bounds source j
    omega
  · intro p b hb hout
    exact mem_blanks_of_eof source hl hb hout

end ProcLang
