import Mathlib.Data.List.TakeWhile
import ProcLang.Source.Scanner

/-! # Lexemes

Asked for the next token, the scanner passes over blanks and then over a lexeme, which is as long as
its bytes join the first of them. What it answers is told by the lexeme. -/
namespace ProcLang

/-- Decided along the text, not by trying all bytes. -/
instance (priority := high) decidableForallMem (text : Bytes) (p : UInt8 → Prop)
    [DecidablePred p] : Decidable (∀ b ∈ text, p b) := List.decidableBAll p text

def Blank (text : Bytes) : Prop := ∀ b ∈ text, Byte.isBlank b = true

theorem Byte.isBlank_of_joins {first b : UInt8} (h : joins first b = true) : isBlank b = false := by
  have hpart : isWordPart b = true := by
    unfold joins at h
    split at h
    · simp [isWordPart, h]
    · split at h
      · exact h
      · cases h
  by_contra hb
  have blank : b = 32 ∨ b = 9 ∨ b = 10 ∨ b = 13 := by
    rw [Bool.not_eq_false] at hb
    simpa [isBlank, or_assoc] using hb
  rcases blank with rfl | rfl | rfl | rfl <;> revert hpart <;> decide

structure Lexeme where
  first : UInt8
  more : Bytes
  visible : Byte.isBlank first = false
  joined : ∀ b ∈ more, Byte.joins first b = true

namespace Lexeme

def bytes (x : Lexeme) : Bytes := x.first :: x.more

/-- The text behind the lexeme does not go on with it. -/
def EndsAt (x : Lexeme) (rest : Bytes) : Prop := ∀ b ∈ rest.head?, Byte.joins x.first b = false

def answer (x : Lexeme) (l : Location) : Scanned :=
  match Terminal.ofLexeme x.first x.more with
  | .ok t => .token ⟨t, l⟩
  | .error fault => .failed ⟨fault.message, l⟩

theorem isBlank_of_mem (x : Lexeme) {b : UInt8} (h : b ∈ x.bytes) : Byte.isBlank b = false := by
  rcases List.mem_cons.mp h with rfl | h
  · exact x.visible
  · exact Byte.isBlank_of_joins (x.joined b h)

theorem length_bytes_pos (x : Lexeme) : 0 < x.bytes.length := Nat.succ_pos _

theorem answer_ne_eof (x : Lexeme) (l l' : Location) : x.answer l ≠ .eof l' := by
  unfold answer
  split <;> exact nofun

end Lexeme

section

variable {α : Type} {p : α → Bool} {front rest : List α}

theorem takeWhile_of_stop (hf : ∀ b ∈ front, p b = true) (hr : ∀ b ∈ rest.head?, p b = false) :
    (front ++ rest).takeWhile p = front := by
  rw [List.takeWhile_append_of_pos hf]
  cases rest with
  | nil => simp
  | cons b rest => simp [hr b rfl]

theorem dropWhile_of_stop (hf : ∀ b ∈ front, p b = true) (hr : ∀ b ∈ rest.head?, p b = false) :
    (front ++ rest).dropWhile p = rest := by
  rw [List.dropWhile_append_of_pos hf]
  cases rest with
  | nil => rfl
  | cons b rest => simp [hr b rfl]

theorem stop_of_dropWhile (p : UInt8 → Bool) (text : Bytes) :
    ∀ b ∈ (text.dropWhile p).head?, p b = false := by
  intro b hb
  have h := List.head?_dropWhile_not p text
  rw [Option.mem_def.mp hb] at h
  exact h

end

theorem blank_or_lexeme (text : Bytes) : Blank text ∨ ∃ gap x rest,
    text = gap ++ (Lexeme.bytes x ++ rest) ∧ Blank gap ∧ x.EndsAt rest := by
  have hgap : Blank (text.takeWhile Byte.isBlank) := fun b hb => (List.mem_takeWhile_imp hb)
  have hsplit := List.takeWhile_append_dropWhile (p := Byte.isBlank) (l := text)
  have hstop := stop_of_dropWhile Byte.isBlank text
  cases h : text.dropWhile Byte.isBlank with
  | nil =>
    rw [h, List.append_nil] at hsplit
    exact Or.inl (hsplit ▸ hgap)
  | cons b bs =>
    rw [h] at hsplit hstop
    let x : Lexeme := ⟨b, bs.takeWhile (Byte.joins b), hstop b rfl,
      fun c hc => List.mem_takeWhile_imp hc⟩
    refine Or.inr ⟨_, x, bs.dropWhile (Byte.joins b), ?_, hgap, stop_of_dropWhile _ bs⟩
    rw [Lexeme.bytes, List.cons_append, List.takeWhile_append_dropWhile, hsplit]

namespace Scanner

variable {s : Scanner}

def past (s : Scanner) (gap lexeme rest : Bytes) : Scanner where
  rest := rest
  position := s.position + gap.length + lexeme.length
  location := (s.location.after gap).after lexeme
  tokenStart := s.position + gap.length
  finished := s.finished

theorem next_of_blank (h : Blank s.rest) :
    s.next = (.eof (s.location.after s.rest), s.past s.rest [] []) := by
  have htake : s.rest.takeWhile Byte.isBlank = s.rest := List.takeWhile_eq_self_iff.mpr h
  have hdrop : s.rest.dropWhile Byte.isBlank = [] := List.dropWhile_eq_nil_iff.mpr h
  simp [next, settle, passWhile, past, htake, hdrop]

theorem next_of_lexeme {gap rest : Bytes} {x : Lexeme} (h : s.rest = gap ++ (x.bytes ++ rest))
    (hg : Blank gap) (hx : x.EndsAt rest) :
    s.next = (x.answer (s.location.after gap), s.past gap x.bytes rest) := by
  have hstop : ∀ b ∈ (x.bytes ++ rest).head?, Byte.isBlank b = false := by
    rintro b ⟨⟩
    exact x.visible
  have hgap : s.rest.takeWhile Byte.isBlank = gap := h ▸ takeWhile_of_stop hg hstop
  have hdrop : s.rest.dropWhile Byte.isBlank = x.bytes ++ rest := h ▸ dropWhile_of_stop hg hstop
  have hmore := takeWhile_of_stop x.joined hx
  have hrest := dropWhile_of_stop x.joined hx
  simp only [next, settle, passWhile, hgap, hdrop, Lexeme.bytes, List.cons_append, hmore, hrest,
    past, Location.after_cons, List.length_cons, Prod.mk.injEq, Scanner.mk.injEq, and_true,
    true_and]
  exact ⟨rfl, by omega⟩

end Scanner

end ProcLang
