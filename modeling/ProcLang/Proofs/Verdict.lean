import ProcLang.Proofs.Lexicon

/-! # Verdicts

Which text of the lexicon a lexeme is tells what the scanner answers: the terminal that the text
stands for, or an error where it stands for none. No lexeme could have been longer. -/
namespace ProcLang

open Lexicon
open scoped Computability

/-- The texts that stand for nothing: numbers too great and stray bytes. -/
inductive LexFault.Spelled : LexFault → Bytes → Prop where
  | outOfRange {w : Bytes} (h : w ∈ number) (hmax : maxLiteral < Byte.decimal w) :
      Spelled (.outOfRange w) w
  | strayByte {b : UInt8} (h : Stray b) : Spelled (.strayByte b) [b]

namespace Lexeme

variable (x : Lexeme)

/-- What the lexeme stands for, or why it stands for nothing. -/
def verdict : Except LexFault Terminal := Terminal.ofLexeme x.first x.more

theorem bytes_mem_number : x.bytes ∈ number ↔ Byte.isDigit x.first = true := by
  rw [bytes, cons_mem_number, and_iff_left_iff_imp]
  intro h b hb
  simpa [Byte.joins, h] using x.joined b hb

theorem bytes_mem_word : x.bytes ∈ word ↔ Byte.isWordStart x.first = true := by
  rw [bytes, cons_mem_word, and_iff_left_iff_imp]
  intro h b hb
  simpa [Byte.joins, h, Byte.isDigit_of_isWordStart h] using x.joined b hb

variable {x}

theorem verdict_of_number (h : x.bytes ∈ number) : x.verdict =
    if Byte.decimal x.bytes ≤ maxLiteral then .ok (.intLiteral (Byte.decimal x.bytes))
    else .error (.outOfRange x.bytes) := by
  rw [verdict, Terminal.ofLexeme, if_pos (x.bytes_mem_number.mp h)]
  rfl

theorem verdict_of_word {y : String} (h : utf8 y ∈ word) (hx : x.bytes = utf8 y) :
    x.verdict = .ok (.ofWord y) := by
  have hw := x.bytes_mem_word.mp (hx ▸ h)
  have htext : Byte.text x.bytes = y := hx ▸ text_utf8_of_mem_word h
  rw [verdict, Terminal.ofLexeme, Byte.isDigit_of_isWordStart hw, hw, ← htext]
  rfl

theorem verdict_of_punctuation {t : Terminal} {y : String} (h : (t, y) ∈ punctuation)
    (hx : x.bytes = utf8 y) : x.verdict = .ok t := by
  obtain ⟨b, hb, hd, hw, hp⟩ := exists_byte_of_punctuation h
  obtain ⟨rfl, -⟩ := List.cons.inj (hx.trans hb)
  rw [verdict, Terminal.ofLexeme, hd, hw, hp]
  rfl

theorem verdict_of_stray {b : UInt8} (h : Stray b) (hx : x.bytes = [b]) :
    x.verdict = .error (.strayByte b) := by
  obtain ⟨hw, hn, hp⟩ := h
  rw [← hx, bytes_mem_word, Bool.not_eq_true] at hw
  rw [← hx, bytes_mem_number, Bool.not_eq_true] at hn
  obtain ⟨rfl, -⟩ := List.cons.inj hx
  have hnone : Terminal.ofPunctuation? x.first = none := by
    rw [Option.eq_none_iff_forall_ne_some]
    intro t ht
    obtain ⟨y, hy, hby⟩ := ofPunctuation?_eq_some_iff.mp ht
    exact hp (List.mem_map.mpr ⟨_, hy, hby.symm⟩)
  rw [verdict, Terminal.ofLexeme, hn, hw, hnone]
  rfl

theorem more_eq_nil (hn : x.bytes ∉ number) (hw : x.bytes ∉ word) : x.more = [] := by
  rw [bytes_mem_number, Bool.not_eq_true] at hn
  rw [bytes_mem_word, Bool.not_eq_true] at hw
  rw [List.eq_nil_iff_forall_not_mem]
  intro b hb
  have h := x.joined b hb
  rw [Byte.joins, hn, hw] at h
  cases h

variable (x)

theorem sorts : x.bytes ∈ number ∨ x.bytes ∈ word ∨
    (∃ t y, (t, y) ∈ punctuation ∧ x.bytes = utf8 y) ∨ ∃ b, Stray b ∧ x.bytes = [b] := by
  by_cases hn : x.bytes ∈ number
  · exact Or.inl hn
  by_cases hw : x.bytes ∈ word
  · exact Or.inr (Or.inl hw)
  have hx : x.bytes = [x.first] := by rw [bytes, more_eq_nil hn hw]
  by_cases hp : x.bytes ∈ punctuation.map (utf8 ·.2)
  · obtain ⟨⟨t, y⟩, hy, hb⟩ := List.mem_map.mp hp
    exact Or.inr (Or.inr (Or.inl ⟨t, y, hy, hb.symm⟩))
  · exact Or.inr (Or.inr (Or.inr ⟨x.first, ⟨hx ▸ hw, hx ▸ hn, hx ▸ hp⟩, hx⟩))

variable {x}

theorem verdict_eq_ok_iff {t : Terminal} : x.verdict = .ok t ↔ t.Spelled x.bytes := by
  constructor
  · intro h
    rcases x.sorts with hx | hx | ⟨u, y, hy, hx⟩ | ⟨b, hb, hx⟩
    · rw [verdict_of_number hx] at h
      split at h
      · cases h
        exact Terminal.spelled_intLiteral_iff.mpr ⟨hx, ‹_›, rfl⟩
      · cases h
    · obtain ⟨y, hy⟩ := exists_utf8_of_mem_word hx
      rw [verdict_of_word (hy ▸ hx) hy] at h
      cases h
      rw [hy]
      rcases ofWord_cases y with hk | ⟨hi, hk⟩
      · exact .fixed (List.mem_append_left _ hk)
      · exact hi ▸ .identifier ⟨hy ▸ hx, hk⟩
    · rw [verdict_of_punctuation hy hx] at h
      cases h
      exact hx ▸ .fixed (List.mem_append_right _ hy)
    · rw [verdict_of_stray hb hx] at h
      cases h
  · intro h
    generalize hx : x.bytes = w at h
    cases h with
    | fixed h =>
      rcases List.mem_append.mp h with h | h
      · rw [verdict_of_word (utf8_mem_word_of_keyword h) hx, ofWord_of_keyword h]
      · exact verdict_of_punctuation h hx
    | identifier h => rw [verdict_of_word h.1 hx, ofWord_of_notMem_keywords h.2]
    | @intLiteral zeros n h =>
      obtain ⟨hnumber, hvalue⟩ := Byte.zeros_printed zeros n
      have hmax : n ≤ maxLiteral := Nat.le_of_lt_succ h
      rw [verdict_of_number (hx ▸ hnumber), hx, hvalue, if_pos hmax]

theorem verdict_eq_error_iff {f : LexFault} : x.verdict = .error f ↔ f.Spelled x.bytes := by
  constructor
  · intro h
    rcases x.sorts with hx | hx | ⟨u, y, hy, hx⟩ | ⟨b, hb, hx⟩
    · rw [verdict_of_number hx] at h
      split at h
      · cases h
      · cases h
        exact .outOfRange hx (not_le.mp ‹_›)
    · obtain ⟨y, hy⟩ := exists_utf8_of_mem_word hx
      rw [verdict_of_word (hy ▸ hx) hy] at h
      cases h
    · rw [verdict_of_punctuation hy hx] at h
      cases h
    · rw [verdict_of_stray hb hx] at h
      cases h
      exact hx ▸ .strayByte hb
  · intro h
    generalize hx : x.bytes = w at h
    cases h with
    | outOfRange h hmax => rw [verdict_of_number (hx ▸ h), hx, if_neg (not_le.mpr hmax)]
    | strayByte h => exact verdict_of_stray h hx

theorem answer_eq (l : Location) : x.answer l = match x.verdict with
    | .ok t => .token ⟨t, l⟩
    | .error f => .failed ⟨f.message, l⟩ := rfl

theorem token_iff {t : Terminal} {l : Location} :
    (∃ l', x.answer l = .token ⟨t, l'⟩) ↔ t.Spelled x.bytes := by
  rw [← verdict_eq_ok_iff, answer_eq]
  cases x.verdict <;> simp

theorem failed_iff {message : String} {l : Location} :
    (∃ l', x.answer l = .failed ⟨message, l'⟩) ↔
      ∃ f : LexFault, f.Spelled x.bytes ∧ f.message = message := by
  simp only [← verdict_eq_error_iff, answer_eq]
  cases x.verdict <;> simp

end Lexeme

theorem LexFault.Spelled.ne_nil {f : LexFault} {w : Bytes} (h : f.Spelled w) : w ≠ [] := by
  cases h with
  | outOfRange h _ => exact fun hw => empty_notMem_number (hw ▸ h)
  | strayByte => exact List.cons_ne_nil _ _

namespace Scanner

variable {source : Bytes} {i : ℕ}

theorem token_iff_spelled {t : Terminal} :
    (∃ l, (ofSource source).answer i = .token ⟨t, l⟩) ↔
      t.Spelled (slice source ((ofSource source).spanOf i)) := by
  obtain ⟨front, gap, lexeme, rest, -, ht⟩ := exists_taken source i
  rw [ht.slice_eq]
  rcases ht.stated with ⟨rfl, -, ha⟩ | ⟨x, rfl, -, ha⟩ <;> rw [ha]
  · exact iff_of_false nofun fun h => h.ne_nil rfl
  · exact x.token_iff

theorem failed_iff_spelled {message : String} :
    (∃ l, (ofSource source).answer i = .failed ⟨message, l⟩) ↔ ∃ f : LexFault,
      f.Spelled (slice source ((ofSource source).spanOf i)) ∧ f.message = message := by
  obtain ⟨front, gap, lexeme, rest, -, ht⟩ := exists_taken source i
  rw [ht.slice_eq]
  rcases ht.stated with ⟨rfl, -, ha⟩ | ⟨x, rfl, -, ha⟩ <;> rw [ha]
  · exact iff_of_false nofun fun ⟨f, h, _⟩ => h.ne_nil rfl
  · exact x.failed_iff

theorem notMem_of_next {b : UInt8}
    (hb : source[((ofSource source).spanOf i).2]? = some b) :
    (slice source ((ofSource source).spanOf i) ∈ word → [b] ∉ letter + digit) ∧
      (slice source ((ofSource source).spanOf i) ∈ number → [b] ∉ digit) := by
  obtain ⟨front, gap, lexeme, rest, -, ht⟩ := exists_taken source i
  rw [ht.spanOf_eq] at hb
  simp only [ht.text_eq, List.getElem?_append_right le_rfl, Nat.sub_self] at hb
  rw [ht.slice_eq]
  rcases ht.stated with ⟨rfl, -, -⟩ | ⟨x, rfl, hx, -⟩
  · exact ⟨fun h => absurd h empty_notMem_word, fun h => absurd h empty_notMem_number⟩
  · have hstop : Byte.joins x.first b = false := hx b (by rwa [List.head?_eq_getElem?])
    rw [letter_add_digit_eq, digit_eq, mem_single, mem_single, Bool.not_eq_true,
      Bool.not_eq_true, x.bytes_mem_word, x.bytes_mem_number]
    refine ⟨fun h => ?_, fun h => ?_⟩
    · simpa [Byte.joins, h, Byte.isDigit_of_isWordStart h] using hstop
    · simpa [Byte.joins, h] using hstop

end Scanner

namespace LexFault

variable {f : LexFault} {b : UInt8} {w : Bytes}

theorem messages_differ (x y : String) :
    "unexpected character " ++ x ≠ "integer literal out of range: " ++ y := by
  intro h
  have bytes := congrArg (fun z => (utf8 z).head?) h
  simp only [utf8_append] at bytes
  cases bytes

theorem message_outOfRange_iff {x : String} :
    f.message = "integer literal out of range: " ++ x ↔
      ∃ w, f = .outOfRange w ∧ Byte.text w = x := by
  cases f with
  | strayByte b =>
    refine iff_of_false (messages_differ (Byte.quoted b) x) ?_
    rintro ⟨w, h, -⟩
    cases h
  | outOfRange u =>
    have cancel : (outOfRange u).message = "integer literal out of range: " ++ x ↔
        Byte.text u = x := String.append_right_inj _
    rw [cancel]
    simp only [outOfRange.injEq, exists_eq_left']

theorem message_strayByte_iff {x : String} :
    f.message = "unexpected character " ++ x ↔ ∃ b, f = .strayByte b ∧ Byte.quoted b = x := by
  cases f with
  | strayByte b =>
    have cancel : (strayByte b).message = "unexpected character " ++ x ↔ Byte.quoted b = x :=
      String.append_right_inj _
    rw [cancel]
    simp only [strayByte.injEq, exists_eq_left']
  | outOfRange u =>
    refine iff_of_false (messages_differ x (Byte.text u)).symm ?_
    rintro ⟨b, h, -⟩
    cases h

theorem spelled_outOfRange_iff {u : Bytes} :
    (outOfRange u).Spelled w ↔ w ∈ number ∧ maxLiteral < Byte.decimal w ∧ u = w := by
  constructor
  · intro h
    cases h with
    | outOfRange h hmax => exact ⟨h, hmax, rfl⟩
  · rintro ⟨h, hmax, rfl⟩
    exact .outOfRange h hmax

theorem spelled_strayByte_iff : (strayByte b).Spelled w ↔ w = [b] ∧ Stray b := by
  constructor
  · intro h
    cases h with
    | strayByte h => exact ⟨rfl, h⟩
  · rintro ⟨rfl, h⟩
    exact .strayByte h

end LexFault

theorem Byte.shows_quoted (b : UInt8) : Shows b (quoted b) := by
  have graphic : isGraphic b = true ↔ 33 ≤ b ∧ b ≤ 126 := by simp [isGraphic]
  unfold quoted
  by_cases h : isGraphic b = true
  · have ascii : b.toNat < 128 := by
      have := UInt8.le_iff_toNat_le.mp (graphic.mp h).2
      exact Nat.lt_succ_of_le (this.trans (by decide))
    rw [if_pos h]
    refine ⟨text [b], rfl, ?_⟩
    rw [if_pos (graphic.mp h)]
    exact utf8_text (by simpa using ascii)
  · have digits : ∀ n < 16, hexDigits[n]? = some (Nat.digitChar n) := by decide
    have high : b.toNat / 16 < 16 := by
      have := b.toNat_lt
      omega
    rw [if_neg h]
    refine ⟨"\\x" ++ hex b, ?_, ?_⟩
    · simp [← String.append_assoc]
    · rw [if_neg (mt graphic.mpr h)]
      exact ⟨_, _, rfl, digits _ high, digits _ (Nat.mod_lt _ (by decide))⟩

namespace Scanner

variable {source : Bytes} {i : ℕ} {x : String}

theorem outOfRange_iff :
    (∃ l, (ofSource source).answer i = .failed ⟨"integer literal out of range: " ++ x, l⟩) ↔
      slice source ((ofSource source).spanOf i) ∈ number ∧
        maxLiteral < Byte.decimal (slice source ((ofSource source).spanOf i)) ∧
        Byte.text (slice source ((ofSource source).spanOf i)) = x := by
  rw [failed_iff_spelled]
  simp only [LexFault.message_outOfRange_iff]
  constructor
  · rintro ⟨_, h, u, rfl, rfl⟩
    obtain ⟨hn, hmax, rfl⟩ := LexFault.spelled_outOfRange_iff.mp h
    exact ⟨hn, hmax, rfl⟩
  · rintro ⟨hn, hmax, rfl⟩
    exact ⟨_, .outOfRange hn hmax, _, rfl, rfl⟩

theorem strayByte_iff :
    (∃ l, (ofSource source).answer i = .failed ⟨"unexpected character " ++ x, l⟩) ↔
      ∃ b, slice source ((ofSource source).spanOf i) = [b] ∧ Stray b ∧ Byte.quoted b = x := by
  rw [failed_iff_spelled]
  simp only [LexFault.message_strayByte_iff]
  constructor
  · rintro ⟨_, h, b, rfl, rfl⟩
    obtain ⟨hw, hb⟩ := LexFault.spelled_strayByte_iff.mp h
    exact ⟨b, hw, hb, rfl⟩
  · rintro ⟨b, hw, hb, rfl⟩
    exact ⟨_, LexFault.spelled_strayByte_iff.mpr ⟨hw, hb⟩, b, rfl, rfl⟩

end Scanner

/-- The bytes that an answer spans tell what it is, and where they are a word or a number they are
as many as can be. -/
theorem lexeme_decides_answer (source : Bytes) (i : ℕ) :
    let s := Scanner.ofSource source
    let w := slice source (s.spanOf i)
    (∀ y, (∃ l, s.answer i = .token ⟨.identifier y, l⟩) ↔ IsIdentifier y ∧ utf8 y = w) ∧
    (∀ t y, (t, y) ∈ keywords ++ punctuation →
      ((∃ l, s.answer i = .token ⟨t, l⟩) ↔ w = utf8 y)) ∧
    ((∃ v l, s.answer i = .token ⟨.intLiteral v, l⟩) ∨
      (∃ d l, s.answer i = .failed ⟨"integer literal out of range: " ++ d, l⟩) ↔ w ∈ number) ∧
    (∀ d l, s.answer i = .failed ⟨"integer literal out of range: " ++ d, l⟩ → utf8 d = w) ∧
    ((∃ shown l, s.answer i = .failed ⟨"unexpected character " ++ shown, l⟩) ↔
      ∃ b, w = [b] ∧ Stray b) ∧
    (∀ shown l, s.answer i = .failed ⟨"unexpected character " ++ shown, l⟩ →
      ∃ b, w = [b] ∧ Shows b shown) ∧
    ∀ b, source[(s.spanOf i).2]? = some b →
      (w ∈ word → [b] ∉ letter + digit) ∧ (w ∈ number → [b] ∉ digit) := by
  intro s w
  have token {t : Terminal} : (∃ l, s.answer i = .token ⟨t, l⟩) ↔ t.Spelled w :=
    Scanner.token_iff_spelled
  have outOfRange {d : String} :
      (∃ l, s.answer i = .failed ⟨"integer literal out of range: " ++ d, l⟩) ↔
        w ∈ number ∧ maxLiteral < Byte.decimal w ∧ Byte.text w = d := Scanner.outOfRange_iff
  have stray {shown : String} :
      (∃ l, s.answer i = .failed ⟨"unexpected character " ++ shown, l⟩) ↔
        ∃ b, w = [b] ∧ Stray b ∧ Byte.quoted b = shown := Scanner.strayByte_iff
  refine ⟨?_, ?_, ?_, ?_, ?_, ?_, fun b => Scanner.notMem_of_next⟩
  · intro y
    rw [token, Terminal.spelled_identifier_iff]
  · intro t y hy
    rw [token, Terminal.spelled_fixed_iff hy]
  · simp only [token, outOfRange, Terminal.spelled_intLiteral_iff]
    constructor
    · rintro (⟨v, hn, -⟩ | ⟨d, hn, -⟩) <;> exact hn
    · intro hn
      by_cases hmax : Byte.decimal w ≤ maxLiteral
      · exact Or.inl ⟨_, hn, hmax, rfl⟩
      · exact Or.inr ⟨_, hn, not_le.mp hmax, rfl⟩
  · intro d l h
    obtain ⟨hn, -, rfl⟩ := outOfRange.mp ⟨l, h⟩
    exact Byte.utf8_text (toNat_lt_of_mem_number hn)
  · simp only [stray]
    constructor
    · rintro ⟨shown, b, hw, hb, -⟩
      exact ⟨b, hw, hb⟩
    · rintro ⟨b, hw, hb⟩
      exact ⟨_, b, hw, hb, rfl⟩
  · intro shown l h
    obtain ⟨b, hw, -, rfl⟩ := stray.mp ⟨l, h⟩
    exact ⟨b, hw, Byte.shows_quoted b⟩

end ProcLang
