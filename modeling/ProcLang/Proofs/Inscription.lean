import Mathlib.Data.List.Chain
import ProcLang.Proofs.Step
import ProcLang.Proofs.Verdict

/-! # Inscriptions

Terminals written out one behind the other, with blanks between them where they would otherwise run
together, are read back as they were written and where they were written. -/
namespace ProcLang

open Lexicon

/-- The place behind a text: as many lines as it has line feeds, and then as many columns as there
are bytes behind the last of these. -/
def Location.behind (text : Bytes) : Location :=
  ⟨1 + text.count 10, 1 + (text.reverse.takeWhile (· ≠ 10)).length⟩

theorem Location.start_after (text : Bytes) : start.after text = behind text := by
  induction text using List.reverseRecOn with
  | nil => rfl
  | append_singleton text b ih =>
    have hstep : start.after (text ++ [b]) = (start.after text).step b := after_append _ _ _
    rw [hstep, ih]
    by_cases hb : b = 10
    · simp [step, behind, hb, Nat.add_assoc]
    · simp [step, behind, hb, List.count_append, Nat.add_comm]

namespace Terminal

def IsWord (t : Terminal) : Prop := t.kind ∈ [.identifier, .exports, .proc, .var]

def IsNumber (t : Terminal) : Prop := t.kind = .intLiteral

/-- Without a gap between them the two would be read as something else. -/
def Clashes (t u : Terminal) : Prop :=
  t.IsWord ∧ (u.IsWord ∨ u.IsNumber) ∨ t.IsNumber ∧ u.IsNumber

instance (t : Terminal) : Decidable t.IsWord := inferInstanceAs (Decidable (_ ∈ _))

instance (t : Terminal) : Decidable t.IsNumber := inferInstanceAs (Decidable (_ = _))

instance (t u : Terminal) : Decidable (t.Clashes u) := inferInstanceAs (Decidable (_ ∨ _))

variable {t u : Terminal} {w : Bytes}

theorem isWord_of_keyword {y : String} (h : (t, y) ∈ keywords) : t.IsWord := by
  rcases keyword_cases h with ⟨rfl, -⟩ | ⟨rfl, -⟩ | ⟨rfl, -⟩ <;> decide

theorem Spelled.sort (h : t.Spelled w) : t.IsWord ∧ w ∈ word ∨ t.IsNumber ∧ w ∈ number ∨
    ∃ b, w = [b] ∧ Byte.isDigit b = false ∧ Byte.isWordStart b = false ∧
      ofPunctuation? b = some t := by
  cases h with
  | fixed h =>
    rcases List.mem_append.mp h with h | h
    · exact Or.inl ⟨isWord_of_keyword h, utf8_mem_word_of_keyword h⟩
    · exact Or.inr (Or.inr (exists_byte_of_punctuation h))
  | identifier h => exact Or.inl ⟨List.mem_cons_self, h.1⟩
  | intLiteral zeros _ => exact Or.inr (Or.inl ⟨rfl, (Byte.zeros_printed zeros _).1⟩)

end Terminal

namespace Lexeme

variable {x y : Lexeme} {t u : Terminal} {w : Bytes}

theorem exists_of_joins {b : UInt8} {bs : Bytes} (h : ∀ c ∈ b :: bs, Byte.joins b c = true) :
    ∃ x : Lexeme, x.bytes = b :: bs :=
  ⟨⟨b, bs, Byte.isBlank_of_joins (h b List.mem_cons_self),
    fun c hc => h c (List.mem_cons_of_mem b hc)⟩, rfl⟩

theorem exists_of_spelled (h : t.Spelled w) : ∃ x : Lexeme, x.bytes = w := by
  rcases h.sort with ⟨-, hw⟩ | ⟨-, hn⟩ | ⟨b, rfl, -, -, hb⟩
  · cases w with
    | nil => exact absurd hw empty_notMem_word
    | cons b bs =>
      obtain ⟨hb, hbs⟩ := cons_mem_word.mp hw
      apply exists_of_joins
      intro c hc
      have hpart : Byte.isWordPart c = true := by
        rcases List.mem_cons.mp hc with rfl | hc
        · exact Byte.isWordPart_iff.mpr (Or.inl hb)
        · exact hbs c hc
      simp [Byte.joins, Byte.isDigit_of_isWordStart hb, hb, hpart]
  · cases w with
    | nil => exact absurd hn empty_notMem_number
    | cons b bs =>
      obtain ⟨hb, -⟩ := cons_mem_number.mp hn
      apply exists_of_joins
      intro c hc
      simp [Byte.joins, hb, (mem_number.mp hn).2 c hc]
  · have visible : Byte.isBlank b = false := by
      by_contra hblank
      rw [Bool.not_eq_false, ← mem_blanks] at hblank
      have none_of_blank : ∀ b ∈ blanks, Terminal.ofPunctuation? b = none := by decide
      rw [none_of_blank b hblank] at hb
      cases hb
    exact ⟨⟨b, [], visible, List.forall_mem_nil _⟩, rfl⟩

theorem isWord_of_spelled (h : t.Spelled x.bytes) (hx : Byte.isWordStart x.first = true) :
    t.IsWord := by
  rcases h.sort with ⟨ht, -⟩ | ⟨-, hn⟩ | ⟨b, hb, -, hs, -⟩
  · exact ht
  · rw [bytes_mem_number, Byte.isDigit_of_isWordStart hx] at hn
    cases hn
  · rw [(List.cons.inj hb).1, hs] at hx
    cases hx

theorem isNumber_of_spelled (h : t.Spelled x.bytes) (hx : Byte.isDigit x.first = true) :
    t.IsNumber := by
  rcases h.sort with ⟨-, hw⟩ | ⟨ht, -⟩ | ⟨b, hb, hd, -, -⟩
  · rw [bytes_mem_word] at hw
    rw [Byte.isDigit_of_isWordStart hw] at hx
    cases hx
  · exact ht
  · rw [(List.cons.inj hb).1, hd] at hx
    cases hx

/-- One lexeme ends where the next one starts, unless the terminals clash. -/
theorem endsAt_of_not_clashes (hx : t.Spelled x.bytes) (hy : u.Spelled y.bytes)
    (h : ¬ t.Clashes u) (rest : Bytes) : x.EndsAt (y.bytes ++ rest) := by
  rintro b ⟨⟩
  by_contra hj
  rw [Bool.not_eq_false, Byte.joins] at hj
  apply h
  by_cases hd : Byte.isDigit x.first = true
  · rw [if_pos hd] at hj
    exact Or.inr ⟨isNumber_of_spelled hx hd, isNumber_of_spelled hy hj⟩
  · rw [if_neg hd] at hj
    split at hj
    · rename_i hw
      refine Or.inl ⟨isWord_of_spelled hx hw, ?_⟩
      rcases Byte.isWordPart_iff.mp hj with hj | hj
      · exact Or.inl (isWord_of_spelled hy hj)
      · exact Or.inr (isNumber_of_spelled hy hj)
    · cases hj

theorem endsAt_of_blank {gap : Bytes} (hg : Blank gap) (hne : gap ≠ []) (rest : Bytes) :
    x.EndsAt (gap ++ rest) := by
  cases gap with
  | nil => exact absurd rfl hne
  | cons b gap =>
    rintro c ⟨⟩
    have hb := hg b List.mem_cons_self
    by_contra hj
    rw [Bool.not_eq_false] at hj
    rw [Byte.isBlank_of_joins hj] at hb
    cases hb

theorem endsAt_nil : x.EndsAt [] := by
  intro b hb
  cases hb

end Lexeme

/-- A terminal as it is written, with the blanks behind it. -/
structure Inscription where
  terminal : Terminal
  text : Bytes
  gap : Bytes
  spelled : terminal.Spelled text
  blank : ∀ b ∈ gap, b ∈ blanks

namespace Inscription

def bytes (i : Inscription) : Bytes := i.text ++ i.gap

/-- There are blanks wherever two terminals would run together. -/
def Separated (is : List Inscription) : Prop :=
  is.IsChain fun i j => i.gap = [] → ¬ i.terminal.Clashes j.terminal

/-- The terminals behind a text, each at the place where it is written. -/
def tokens (before : Bytes) : List Inscription → List Token
  | [] => []
  | i :: is => ⟨i.terminal, .behind before⟩ :: tokens (before ++ i.bytes) is

theorem tokens_terminal (before : Bytes) (is : List Inscription) :
    (tokens before is).map Token.terminal = is.map terminal := by
  induction is generalizing before with
  | nil => rfl
  | cons i is ih => simp [tokens, ih]

theorem Separated.endsAt {i : Inscription} {is : List Inscription} {x : Lexeme}
    (h : Separated (i :: is)) (hx : x.bytes = i.text) :
    x.EndsAt (i.gap ++ is.flatMap bytes) := by
  have hspelled : i.terminal.Spelled x.bytes := hx ▸ i.spelled
  by_cases hgap : i.gap = []
  · cases is with
    | nil =>
      rw [hgap]
      exact Lexeme.endsAt_nil
    | cons j js =>
      obtain ⟨y, hy⟩ := Lexeme.exists_of_spelled j.spelled
      have hclash := (List.isChain_cons_cons.mp h).1 hgap
      rw [hgap, List.flatMap_cons, bytes, ← hy, List.nil_append, List.append_assoc]
      exact Lexeme.endsAt_of_not_clashes hspelled (hy ▸ j.spelled) hclash _
  · exact Lexeme.endsAt_of_blank (fun b hb => mem_blanks.mp (i.blank b hb)) hgap _

end Inscription

namespace Scanner

/-- What has been written behind the cursor is read as it was written. -/
theorem read_of_inscriptions {is : List Inscription} (hs : Inscription.Separated is)
    (s : Scanner) (front gap : Bytes) (hg : Blank gap)
    (hrest : s.rest = gap ++ is.flatMap Inscription.bytes)
    (hl : s.location = Location.start.after front) :
    s.read.1 = .prepend (Inscription.tokens (front ++ gap) is)
      (.eof (.behind (front ++ gap ++ is.flatMap Inscription.bytes))) := by
  -- The cursor stands before a gap: the lead at first, then the one behind what was read last.
  induction is generalizing s front gap with
  | nil =>
    rw [List.flatMap_nil, List.append_nil] at hrest
    have hnext := next_of_blank (s := s) (hrest ▸ hg)
    rw [hrest, hl, ← Location.after_append, Location.start_after] at hnext
    rw [read_of_eof hnext, List.flatMap_nil, List.append_nil]
    rfl
  | cons i is ih =>
    obtain ⟨x, hx⟩ := Lexeme.exists_of_spelled i.spelled
    have hends := hs.endsAt hx
    rw [List.flatMap_cons, Inscription.bytes, List.append_assoc, ← hx] at hrest
    have hverdict : x.verdict = .ok i.terminal := Lexeme.verdict_eq_ok_iff.mpr (hx ▸ i.spelled)
    have hnext := next_of_lexeme hrest hg hends
    rw [Lexeme.answer_eq, hverdict, hl, ← Location.after_append, Location.start_after] at hnext
    have hgap : Blank i.gap := fun b hb => mem_blanks.mp (i.blank b hb)
    have htail := ih (List.IsChain.tail hs)
      (s.past gap x.bytes (i.gap ++ is.flatMap Inscription.bytes)) (front ++ gap ++ x.bytes) i.gap
      hgap rfl (by simp [Scanner.past, hl, Location.after_append])
    rw [read_of_token hnext, htail, Inscription.tokens, Reading.prepend_cons, hx]
    simp [Inscription.bytes]

end Scanner

/-- Whatever list of terminals is written out, with any zeros and any blanks, is what is read. -/
theorem tokenize_undoes_writing {lead : Bytes} {is : List Inscription}
    (hl : ∀ b ∈ lead, b ∈ blanks) (hs : Inscription.Separated is) :
    (Scanner.ofSource (lead ++ is.flatMap Inscription.bytes)).tokenize.1 =
      .ok (Inscription.tokens lead is, .behind (lead ++ is.flatMap Inscription.bytes)) := by
  rw [Scanner.tokenize, Reading.tokens_eq_ok_iff]
  exact Scanner.read_of_inscriptions hs (.ofSource _) [] lead
    (fun b hb => mem_blanks.mp (hl b hb)) rfl rfl

theorem number_may_touch_word :
    let number : Inscription := ⟨.intLiteral 12, utf8 "0012", [],
      Terminal.spelled_intLiteral_iff.mpr ⟨cons_mem_number.mpr (by decide), by decide, by decide⟩,
      List.forall_mem_nil _⟩
    let identifier : Inscription := ⟨.identifier "ab", utf8 "ab", utf8 "\r\n\t",
      .identifier ⟨cons_mem_word.mpr (by decide), by decide⟩, by decide⟩
    let keyword : Inscription := ⟨.var, utf8 "var", [], .fixed (by decide), List.forall_mem_nil _⟩
    (∀ b ∈ utf8 " ", b ∈ blanks) ∧ Inscription.Separated [number, identifier, keyword] ∧
      (Scanner.ofSource (utf8 " 0012ab\r\n\tvar")).tokenize.1 =
        .ok ([⟨.intLiteral 12, ⟨1, 2⟩⟩, ⟨.identifier "ab", ⟨1, 6⟩⟩, ⟨.var, ⟨2, 2⟩⟩], ⟨2, 5⟩) := by
  intro number identifier keyword
  have hl : ∀ b ∈ utf8 " ", b ∈ blanks := by decide
  have hs : Inscription.Separated [number, identifier, keyword] := by
    simp [Inscription.Separated, number, identifier, keyword]
    decide
  exact ⟨hl, hs, tokenize_undoes_writing hl hs⟩

end ProcLang
