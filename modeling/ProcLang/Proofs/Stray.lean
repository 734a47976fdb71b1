import ProcLang.Proofs.Offset

/-! # Stray bytes

A stray byte goes on with no lexeme, and nothing goes on with it. So it is a lexeme by itself
wherever it is put, and an error; and the parser, which looks at one token more than it has
consumed, cannot come past it. -/
namespace ProcLang

open Lexicon

variable {b : UInt8}

theorem Lexicon.Stray.isWordStart (hb : Stray b) : Byte.isWordStart b = false := by
  have h := hb.1
  rw [cons_mem_word, and_iff_left (List.forall_mem_nil _)] at h
  exact Bool.not_eq_true _ ▸ h

theorem Lexicon.Stray.isDigit (hb : Stray b) : Byte.isDigit b = false := by
  have h := hb.2.1
  rw [cons_mem_number, and_iff_left (List.forall_mem_nil _)] at h
  exact Bool.not_eq_true _ ▸ h

theorem Lexicon.Stray.joins_left (hb : Stray b) (c : UInt8) : Byte.joins b c = false := by
  rw [Byte.joins, hb.isDigit, hb.isWordStart]
  rfl

theorem Lexicon.Stray.joins_right (hb : Stray b) (a : UInt8) : Byte.joins a b = false := by
  rw [Byte.joins, Byte.isWordPart, hb.isDigit, hb.isWordStart]
  split
  · rfl
  · split <;> rfl

def Lexeme.alone (b : UInt8) (hv : Byte.isBlank b = false) : Lexeme :=
  ⟨b, [], hv, List.forall_mem_nil _⟩

theorem Lexeme.endsAt_stray (x : Lexeme) (hb : Stray b) (rest : Bytes) : x.EndsAt (b :: rest) := by
  rintro c ⟨⟩
  exact hb.joins_right _

theorem Lexeme.alone_endsAt (hb : Stray b) (hv : Byte.isBlank b = false) (rest : Bytes) :
    (alone b hv).EndsAt rest := fun c _ => hb.joins_left c

namespace Piece

variable {ps : List Piece}

theorem reading_stray (hb : Stray b) (hv : Byte.isBlank b = false) (l : Location)
    (ps : List Piece) : reading l (.lexeme (.alone b hv) :: ps) =
      .failed ⟨"unexpected character " ++ Byte.quoted b, l⟩ := by
  rw [reading, Lexeme.verdict_of_stray hb rfl]
  rfl

theorem Apart.append_stray (h : Apart ps) (hb : Stray b) (hv : Byte.isBlank b = false)
    {rs : List Piece} (hr : Apart rs) : Apart (ps ++ .lexeme (.alone b hv) :: rs) := by
  refine h.append ⟨Lexeme.alone_endsAt hb hv _, hr⟩ ?_
  rintro front x -
  exact x.endsAt_stray hb _

end Piece

theorem ParseState.Balanced.run_before_stray {s : ParseState} (hs : s.Balanced) (x : Lexeme)
    (hb : Stray b) (hv : Byte.isBlank b = false) (l : Location) (ps : List Piece) :
    ∃ e l', (s.run (Piece.reading l (.lexeme x :: .lexeme (.alone b hv) :: ps))).value = .error e ∧
      e.location? = some l' ∧ l' ≤ l.after x.bytes := by
  rw [Piece.reading, Piece.reading_stray hb hv]
  cases x.verdict with
  | error f => exact ⟨_, l, hs.run_failed _, rfl, l.le_after _⟩
  | ok t =>
    by_cases hc : s.consume? ⟨t, l⟩ = none
    · exact ⟨_, l, hs.run_refused hc, rfl, l.le_after _⟩
    · exact ⟨_, _, hs.run_before_failed hc, rfl, le_rfl⟩

/-- Put into an accepted text, a stray byte is what the parse fails with, whatever stands behind it,
unless it cuts a lexeme; then the front of the lexeme may be an error, too. -/
theorem stray_byte_is_not_passed {name : String} {source : Bytes} {m : Module}
    (h : (Module.parse name source).value = .ok m) (hb : Stray b) (hv : b ∉ blanks) (p : ℕ)
    (rest : Bytes) :
    let l := Location.behind (source.take p)
    let result := (Module.parse name (source.take p ++ b :: rest)).value
    (¬ CutsLexeme source p → ∃ shown, Shows b shown ∧
      result = .error (.lexical ⟨"unexpected character " ++ shown, l⟩)) ∧
    (CutsLexeme source p → ∃ e l', result = .error e ∧ e.location? = some l' ∧ l' ≤ l) := by
  intro l result
  rw [mem_blanks, Bool.not_eq_true] at hv
  obtain ⟨ps, rfl, hps⟩ := Piece.exists_pieces source
  obtain ⟨rs', rfl, hrs'⟩ := Piece.exists_pieces rest
  rcases Piece.exists_cut ps p with ⟨qs, rs, rfl, htake⟩ | ⟨qs, x, rs, k, rfl, hk, rfl, htake⟩
  · obtain ⟨us, -, -, s, -, hread, -, hs⟩ := steps_of_split hps h
    have hbalanced := (ParseState.balanced_initial name).steps hs
    have hapart := hps.of_append.1.append_stray hb hv hrs'
    have hresult : result =
        .error (.lexical ⟨"unexpected character " ++ Byte.quoted b, l⟩) := by
      have hparse := parse_of_steps hapart hread hs
      rw [Piece.reading_stray hb hv, hbalanced.run_failed, ← htake, Piece.text_append,
        ← htake] at hparse
      exact hparse
    exact ⟨fun _ => ⟨_, Byte.shows_quoted b, hresult⟩, fun _ => ⟨_, l, hresult, rfl, le_rfl⟩⟩
  · obtain ⟨us, -, -, s, -, hread, -, hs⟩ := steps_of_split hps h
    have hbalanced := (ParseState.balanced_initial name).steps hs
    refine ⟨fun hcut => absurd (cutsLexeme_of_pieces hps hk) hcut, fun _ => ?_⟩
    have hapart := (hps.cut k).append_stray hb hv hrs'
    rw [List.append_assoc] at hapart
    have hparse := parse_of_steps hapart hread hs
    rw [← List.append_assoc, Piece.text_append, ← htake] at hparse
    have hl : l = (Location.behind (Piece.text qs)).after (x.front k).bytes := by
      rw [← Location.start_after, ← Location.after_append, ← Piece.text_append_lexeme,
        Location.start_after, ← htake]
    obtain ⟨e, l', he, hloc, hle⟩ := hbalanced.run_before_stray (x.front k) hb hv
      (.behind (Piece.text qs)) rs'
    exact ⟨e, l', hparse.trans he, hloc, hl ▸ hle⟩

/-- The byte stands behind the name of a type, and behind the front of a keyword. -/
theorem stray_byte_in_variable :
    let source := utf8 "var x: int;"
    let result (p : ℕ) (rest : Bytes) := (Module.parse "m" (source.take p ++ 36 :: rest)).value
    (∀ rest, ∃ shown, Shows 36 shown ∧
      result 10 rest = .error (.lexical ⟨"unexpected character " ++ shown, ⟨1, 11⟩⟩)) ∧
    ∀ rest, ∃ e l', result 2 rest = .error e ∧ e.location? = some l' ∧ l' ≤ ⟨1, 3⟩ := by
  intro source result
  have h : (Module.parse "m" source).value =
      .ok ⟨"m", [⟨0, "x", .int, ⟨1, 5⟩⟩], [], [], .start⟩ := by
    rw [Module.parse_value]
    decide +kernel
  have hb : Stray 36 := by
    rw [Stray, cons_mem_word, cons_mem_number]
    decide
  constructor
  · intro rest
    have hcut : ¬ CutsLexeme source 10 := by decide +kernel
    exact (stray_byte_is_not_passed h hb (by decide) 10 rest).1 hcut
  · intro rest
    have hcut : CutsLexeme source 2 := by decide +kernel
    exact (stray_byte_is_not_passed h hb (by decide) 2 rest).2 hcut

end ProcLang
