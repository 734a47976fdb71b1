import Mathlib.Computability.Language
import ProcLang.Proofs.Coverage

/-! # The lexicon

Words and numbers are given by regular expressions, keywords and punctuation by their texts. Each
terminal has its spellings among these. -/
namespace ProcLang

open scoped Computability

def utf8 (x : String) : Bytes := x.toUTF8.data.toList

@[simp] theorem utf8_append (x y : String) : utf8 (x ++ y) = utf8 x ++ utf8 y := by
  simp [utf8]

theorem utf8_injective {x y : String} (h : utf8 x = utf8 y) : x = y :=
  String.toByteArray_inj.mp (ByteArray.ext (Array.toList_inj.mp h))

theorem utf8_ofList (cs : List Char) :
    utf8 (String.ofList cs) = cs.flatMap String.utf8EncodeChar := by
  induction cs with
  | nil => rfl
  | cons c cs ih =>
    rw [List.flatMap_cons, ← ih, utf8, utf8, String.toUTF8, String.toUTF8,
      String.toByteArray_ofList, String.toByteArray_ofList, List.utf8Encode_cons,
      List.utf8Encode_singleton, ByteArray.toList_data_append, List.toList_data_toByteArray]

namespace Byte

theorem toNat_char (b : UInt8) : (char b).toNat = b.toNat := by
  have valid : b.toNat.isValidChar := Or.inl (by have := b.toNat_lt; omega)
  rw [char, Char.ofNat, dif_pos valid]
  rfl

theorem utf8EncodeChar_char {b : UInt8} (h : b.toNat < 128) :
    String.utf8EncodeChar (char b) = [b] := by
  have value : (char b).val.toNat = b.toNat := toNat_char b
  simp only [String.utf8EncodeChar, value]
  rw [if_pos (by omega), UInt8.ofNat_toNat]

theorem utf8_text {bs : Bytes} (h : ∀ b ∈ bs, b.toNat < 128) : utf8 (text bs) = bs := by
  rw [text, utf8_ofList, List.flatMap_map]
  induction bs with
  | nil => rfl
  | cons b bs ih =>
    rw [List.flatMap_cons, utf8EncodeChar_char (h b List.mem_cons_self),
      ih fun c hc => h c (List.mem_cons_of_mem _ hc)]
    rfl

theorem isDigit_iff {b : UInt8} : isDigit b = true ↔ 48 ≤ b.toNat ∧ b.toNat ≤ 57 := by
  simp [isDigit, UInt8.le_iff_toNat_le]

theorem isLetter_iff {b : UInt8} : isLetter b = true ↔
    65 ≤ b.toNat ∧ b.toNat ≤ 90 ∨ 97 ≤ b.toNat ∧ b.toNat ≤ 122 := by
  simp [isLetter, UInt8.le_iff_toNat_le]

theorem isWordStart_iff {b : UInt8} : isWordStart b = true ↔
    65 ≤ b.toNat ∧ b.toNat ≤ 90 ∨ 97 ≤ b.toNat ∧ b.toNat ≤ 122 ∨ b.toNat = 95 := by
  rw [isWordStart, Bool.or_eq_true, isLetter_iff, or_assoc, beq_iff_eq, ← UInt8.toNat_inj]
  rfl

theorem isWordPart_iff {b : UInt8} : isWordPart b = true ↔
    isWordStart b = true ∨ isDigit b = true := by
  simp [isWordPart]

theorem isDigit_of_isWordStart {b : UInt8} (h : isWordStart b = true) : isDigit b = false := by
  rw [← Bool.not_eq_true, isDigit_iff]
  rw [isWordStart_iff] at h
  omega

theorem toNat_lt_of_isWordPart {b : UInt8} (h : isWordPart b = true) : b.toNat < 128 := by
  rw [isWordPart_iff, isWordStart_iff, isDigit_iff] at h
  omega

end Byte

namespace Lexicon

/-- The bytes from one character up to another, each of them as a text of its own. -/
def range (a z : Char) : Language UInt8 :=
  {w | ∃ b : UInt8, w = [b] ∧ a.toNat ≤ b.toNat ∧ b.toNat ≤ z.toNat}

def letter : Language UInt8 := range 'A' 'Z' + range 'a' 'z' + range '_' '_'

def digit : Language UInt8 := range '0' '9'

def word : Language UInt8 := letter * (letter + digit)∗

def number : Language UInt8 := digit * digit∗

def keywords : List (Terminal × String) := [(.exports, "exports"), (.proc, "proc"), (.var, "var")]

def punctuation : List (Terminal × String) :=
  [(.leftParen, "("), (.rightParen, ")"), (.leftBrace, "\x7b"), (.rightBrace, "\x7d"),
    (.colon, ":"), (.semicolon, ";"), (.equals, "=")]

def IsIdentifier (x : String) : Prop := utf8 x ∈ word ∧ x ∉ keywords.map Prod.snd

/-- A byte that is nothing for itself. -/
def Stray (b : UInt8) : Prop :=
  [b] ∉ word ∧ [b] ∉ number ∧ [b] ∉ punctuation.map (utf8 ·.2)

def hexDigits : List Char := "0123456789abcdef".toList

/-- What a byte looks like in a message: itself if it is printable, otherwise its two digits. -/
def Shows (b : UInt8) (shown : String) : Prop :=
  ∃ inner, shown = "'" ++ inner ++ "'" ∧
    if 33 ≤ b ∧ b ≤ 126 then utf8 inner = [b]
    else ∃ high low, inner = "\\x" ++ String.ofList [high, low] ∧
      hexDigits[b.toNat / 16]? = some high ∧ hexDigits[b.toNat % 16]? = some low

def single (p : UInt8 → Bool) : Language UInt8 := {w | ∃ b, w = [b] ∧ p b = true}

variable {p q : UInt8 → Bool} {b : UInt8} {bs : Bytes}

theorem mem_single : [b] ∈ single p ↔ p b = true := by
  constructor
  · rintro ⟨c, hc, hp⟩
    obtain rfl := List.singleton_inj.mp hc
    exact hp
  · intro h
    exact ⟨b, rfl, h⟩

theorem letter_eq : letter = single Byte.isWordStart := by
  ext w
  simp only [letter, Language.mem_add]
  constructor
  · rintro ((⟨b, rfl, h⟩ | ⟨b, rfl, h⟩) | ⟨b, rfl, h⟩)
    · exact ⟨b, rfl, Byte.isWordStart_iff.mpr (Or.inl h)⟩
    · exact ⟨b, rfl, Byte.isWordStart_iff.mpr (Or.inr (Or.inl h))⟩
    · exact ⟨b, rfl, Byte.isWordStart_iff.mpr (Or.inr (Or.inr (le_antisymm h.2 h.1)))⟩
  · rintro ⟨b, rfl, h⟩
    rcases Byte.isWordStart_iff.mp h with h | h | h
    · exact Or.inl (Or.inl ⟨b, rfl, h⟩)
    · exact Or.inl (Or.inr ⟨b, rfl, h⟩)
    · exact Or.inr ⟨b, rfl, h.ge, h.le⟩

theorem digit_eq : digit = single Byte.isDigit := by
  ext w
  constructor
  · rintro ⟨b, rfl, h⟩
    exact ⟨b, rfl, Byte.isDigit_iff.mpr h⟩
  · rintro ⟨b, rfl, h⟩
    exact ⟨b, rfl, Byte.isDigit_iff.mp h⟩

theorem letter_add_digit_eq : letter + digit = single Byte.isWordPart := by
  rw [letter_eq, digit_eq]
  ext w
  rw [Language.mem_add]
  constructor
  · rintro (⟨b, rfl, h⟩ | ⟨b, rfl, h⟩)
    · exact ⟨b, rfl, Byte.isWordPart_iff.mpr (Or.inl h)⟩
    · exact ⟨b, rfl, Byte.isWordPart_iff.mpr (Or.inr h)⟩
  · rintro ⟨b, rfl, h⟩
    rcases Byte.isWordPart_iff.mp h with h | h
    · exact Or.inl ⟨b, rfl, h⟩
    · exact Or.inr ⟨b, rfl, h⟩

theorem mem_kstar_single : bs ∈ (single q)∗ ↔ ∀ b ∈ bs, q b = true := by
  rw [Language.mem_kstar]
  constructor
  · rintro ⟨ws, rfl, h⟩ b hb
    obtain ⟨w, hw, hbw⟩ := List.mem_flatten.mp hb
    obtain ⟨c, rfl, hc⟩ := h w hw
    rw [List.mem_singleton.mp hbw]
    exact hc
  · intro h
    refine ⟨bs.map fun b => [b], (List.flatMap_singleton' bs).symm, ?_⟩
    intro w hw
    obtain ⟨b, hb, rfl⟩ := List.mem_map.mp hw
    exact ⟨b, rfl, h b hb⟩

theorem cons_mem_single_mul_kstar :
    b :: bs ∈ single p * (single q)∗ ↔ p b = true ∧ ∀ c ∈ bs, q c = true := by
  rw [Language.mem_mul]
  constructor
  · rintro ⟨u, ⟨c, rfl, hc⟩, v, hv, h⟩
    obtain ⟨rfl, rfl⟩ := List.cons.inj h
    exact ⟨hc, mem_kstar_single.mp hv⟩
  · rintro ⟨hb, hbs⟩
    exact ⟨[b], ⟨b, rfl, hb⟩, bs, mem_kstar_single.mpr hbs, rfl⟩

theorem nil_notMem_single_mul {l : Language UInt8} : [] ∉ single p * l := by
  rw [Language.mem_mul]
  rintro ⟨u, ⟨c, rfl, -⟩, v, -, h⟩
  cases h

theorem cons_mem_word :
    b :: bs ∈ word ↔ Byte.isWordStart b = true ∧ ∀ c ∈ bs, Byte.isWordPart c = true := by
  rw [word, letter_add_digit_eq, letter_eq, cons_mem_single_mul_kstar]

theorem cons_mem_number :
    b :: bs ∈ number ↔ Byte.isDigit b = true ∧ ∀ c ∈ bs, Byte.isDigit c = true := by
  rw [number, digit_eq, cons_mem_single_mul_kstar]

theorem empty_notMem_word : [] ∉ word := by
  rw [word, letter_eq]
  exact nil_notMem_single_mul

theorem empty_notMem_number : [] ∉ number := by
  rw [number, digit_eq]
  exact nil_notMem_single_mul

theorem mem_number {w : Bytes} :
    w ∈ number ↔ w ≠ [] ∧ ∀ b ∈ w, Byte.isDigit b = true := by
  cases w with
  | nil => exact iff_of_false empty_notMem_number fun h => h.1 rfl
  | cons b bs => simp [cons_mem_number]

end Lexicon

open Lexicon

namespace Byte

theorem decimal_append_singleton (w : Bytes) (d : UInt8) :
    decimal (w ++ [d]) = 10 * decimal w + (d.toNat - 48) := by
  simp [decimal]

theorem decimal_zeros_append (k : ℕ) (w : Bytes) :
    decimal (List.replicate k 48 ++ w) = decimal w := by
  induction k with
  | zero => rfl
  | succ k ih => exact ih

theorem utf8_toString_of_lt {n : ℕ} (h : n < 10) : utf8 (toString n) = [UInt8.ofNat (48 + n)] := by
  have all : ∀ n < 10, utf8 (toString n) = [UInt8.ofNat (48 + n)] := by decide
  exact all n h

theorem utf8_toString_append {m n : ℕ} (hm : 0 < m) (hn : n < 10) :
    utf8 (toString (10 * m + n)) = utf8 (toString m) ++ utf8 (toString n) := by
  simp only [Nat.toString_eq_ofList_toDigits, ← Nat.toDigits_append_toDigits (by decide) hm hn,
    String.ofList_append, utf8_append]

theorem toNat_ofNat_of_lt {n : ℕ} (h : n < 10) : (UInt8.ofNat (48 + n)).toNat = 48 + n := by
  rw [UInt8.toNat_ofNat']
  omega

theorem printed (n : ℕ) : utf8 (toString n) ∈ number ∧ decimal (utf8 (toString n)) = n := by
  induction n using Nat.strongRecOn with
  | ind n ih =>
    by_cases hn : n < 10
    · rw [utf8_toString_of_lt hn, mem_number]
      refine ⟨⟨List.cons_ne_nil _ _, ?_⟩, ?_⟩
      · intro b hb
        rw [List.mem_singleton.mp hb, isDigit_iff, toNat_ofNat_of_lt hn]
        omega
      · rw [decimal, List.foldl_cons, List.foldl_nil, toNat_ofNat_of_lt hn]
        omega
    · have hlast : n % 10 < 10 := Nat.mod_lt n (by decide)
      have hsplit := utf8_toString_append (m := n / 10) (by omega) hlast
      rw [Nat.div_add_mod, utf8_toString_of_lt hlast] at hsplit
      obtain ⟨hnumber, hvalue⟩ := ih (n / 10) (by omega)
      rw [mem_number] at hnumber
      rw [hsplit, mem_number, decimal_append_singleton, hvalue, toNat_ofNat_of_lt hlast]
      refine ⟨⟨by simp, ?_⟩, by omega⟩
      intro b hb
      rcases List.mem_append.mp hb with hb | hb
      · exact hnumber.2 b hb
      · rw [List.mem_singleton.mp hb, isDigit_iff, toNat_ofNat_of_lt hlast]
        omega

theorem zeros_printed (k n : ℕ) : List.replicate k 48 ++ utf8 (toString n) ∈ number ∧
    decimal (List.replicate k 48 ++ utf8 (toString n)) = n := by
  obtain ⟨hnumber, hvalue⟩ := printed n
  rw [mem_number] at hnumber
  rw [decimal_zeros_append, mem_number]
  refine ⟨⟨List.append_ne_nil_of_right_ne_nil _ hnumber.1, ?_⟩, hvalue⟩
  intro b hb
  rcases List.mem_append.mp hb with hb | hb
  · rw [List.eq_of_mem_replicate hb]
    decide
  · exact hnumber.2 b hb

theorem exists_zeros {w : Bytes} (h : w ∈ number) :
    ∃ k, w = List.replicate k 48 ++ utf8 (toString (decimal w)) := by
  induction w using List.reverseRecOn with
  | nil => exact absurd h empty_notMem_number
  | append_singleton w d ih =>
    rw [mem_number] at h
    obtain ⟨hlow, hhigh⟩ := isDigit_iff.mp (h.2 d (by simp))
    have hd : d.toNat - 48 < 10 := by omega
    have hdigit : [d] = utf8 (toString (d.toNat - 48)) := by
      rw [utf8_toString_of_lt hd, Nat.add_sub_cancel' hlow, UInt8.ofNat_toNat]
    rw [decimal_append_singleton]
    by_cases hw : w = []
    · subst hw
      exact ⟨0, by simpa [decimal] using hdigit⟩
    · obtain ⟨k, hk⟩ := ih (mem_number.mpr ⟨hw, fun b hb => h.2 b (by simp [hb])⟩)
      by_cases hzero : decimal w = 0
      · have hzeros : w = List.replicate (k + 1) 48 := by
          rw [hzero] at hk
          rw [List.replicate_succ']
          exact hk
        exact ⟨k + 1, by rw [hzero, Nat.mul_zero, Nat.zero_add, ← hdigit, ← hzeros]⟩
      · refine ⟨k, ?_⟩
        rw [utf8_toString_append (Nat.pos_of_ne_zero hzero) hd, ← hdigit, ← List.append_assoc, ← hk]

end Byte

namespace Lexicon

variable {w : Bytes} {t : Terminal} {y : String}

theorem isWordPart_of_mem_word (h : w ∈ word) : ∀ b ∈ w, Byte.isWordPart b = true := by
  cases w with
  | nil => exact absurd h empty_notMem_word
  | cons b bs =>
    obtain ⟨hb, hbs⟩ := cons_mem_word.mp h
    exact List.forall_mem_cons.mpr ⟨Byte.isWordPart_iff.mpr (Or.inl hb), hbs⟩

theorem toNat_lt_of_mem_word (h : w ∈ word) : ∀ b ∈ w, b.toNat < 128 := fun b hb =>
  Byte.toNat_lt_of_isWordPart (isWordPart_of_mem_word h b hb)

theorem toNat_lt_of_mem_number (h : w ∈ number) : ∀ b ∈ w, b.toNat < 128 := by
  cases w with
  | nil => exact absurd h empty_notMem_number
  | cons b bs =>
    obtain ⟨hb, hbs⟩ := cons_mem_number.mp h
    intro c hc
    rcases List.mem_cons.mp hc with rfl | hc
    · exact Byte.toNat_lt_of_isWordPart (Byte.isWordPart_iff.mpr (Or.inr hb))
    · exact Byte.toNat_lt_of_isWordPart (Byte.isWordPart_iff.mpr (Or.inr (hbs c hc)))

theorem exists_utf8_of_mem_word (h : w ∈ word) : ∃ y, w = utf8 y :=
  ⟨Byte.text w, (Byte.utf8_text (toNat_lt_of_mem_word h)).symm⟩

theorem text_utf8_of_mem_word (h : utf8 y ∈ word) : Byte.text (utf8 y) = y :=
  utf8_injective (Byte.utf8_text (toNat_lt_of_mem_word h))

theorem keyword_cases (h : (t, y) ∈ keywords) :
    t = .exports ∧ y = "exports" ∨ t = .proc ∧ y = "proc" ∨ t = .var ∧ y = "var" := by
  simpa [keywords] using h

theorem utf8_mem_word_of_keyword (h : (t, y) ∈ keywords) : utf8 y ∈ word := by
  rcases keyword_cases h with ⟨-, rfl⟩ | ⟨-, rfl⟩ | ⟨-, rfl⟩ <;>
    exact cons_mem_word.mpr (by decide)

theorem ofWord_cases (x : String) :
    (Terminal.ofWord x, x) ∈ keywords ∨
      Terminal.ofWord x = .identifier x ∧ x ∉ keywords.map Prod.snd := by
  unfold Terminal.ofWord
  split_ifs with he hp hv
  · exact Or.inl (he ▸ by decide)
  · exact Or.inl (hp ▸ by decide)
  · exact Or.inl (hv ▸ by decide)
  · exact Or.inr ⟨rfl, by simp [keywords, he, hp, hv]⟩

theorem ofWord_of_keyword (h : (t, y) ∈ keywords) : Terminal.ofWord y = t := by
  rcases keyword_cases h with ⟨rfl, rfl⟩ | ⟨rfl, rfl⟩ | ⟨rfl, rfl⟩ <;> rfl

theorem ofWord_of_notMem_keywords (h : y ∉ keywords.map Prod.snd) :
    Terminal.ofWord y = .identifier y := by
  rcases ofWord_cases y with hk | hi
  · exact absurd (List.mem_map.mpr ⟨_, hk, rfl⟩) h
  · exact hi.1

theorem ofPunctuation?_eq_some_iff {b : UInt8} :
    Terminal.ofPunctuation? b = some t ↔ ∃ y, (t, y) ∈ punctuation ∧ [b] = utf8 y := by
  constructor
  · intro h
    have listed (y : String) (hy : (t, y) ∈ punctuation) (hb : [b] = utf8 y) :
        ∃ y, (t, y) ∈ punctuation ∧ [b] = utf8 y := ⟨y, hy, hb⟩
    unfold Terminal.ofPunctuation? at h
    split_ifs at h <;> obtain rfl := Option.some.inj h <;> subst b
    · exact listed "(" (by decide) rfl
    · exact listed ")" (by decide) rfl
    · exact listed "\x7b" (by decide) rfl
    · exact listed "\x7d" (by decide) rfl
    · exact listed ":" (by decide) rfl
    · exact listed ";" (by decide) rfl
    · exact listed "=" (by decide) rfl
  · rintro ⟨y, hy, hb⟩
    simp only [punctuation, List.mem_cons, Prod.mk.injEq, List.not_mem_nil, or_false] at hy
    rcases hy with ⟨rfl, rfl⟩ | ⟨rfl, rfl⟩ | ⟨rfl, rfl⟩ | ⟨rfl, rfl⟩ | ⟨rfl, rfl⟩ | ⟨rfl, rfl⟩ |
      ⟨rfl, rfl⟩ <;> cases hb <;> rfl

theorem exists_byte_of_punctuation (h : (t, y) ∈ punctuation) : ∃ b, utf8 y = [b] ∧
    Byte.isDigit b = false ∧ Byte.isWordStart b = false ∧
      Terminal.ofPunctuation? b = some t := by
  simp only [punctuation, List.mem_cons, Prod.mk.injEq, List.not_mem_nil, or_false] at h
  rcases h with ⟨rfl, rfl⟩ | ⟨rfl, rfl⟩ | ⟨rfl, rfl⟩ | ⟨rfl, rfl⟩ | ⟨rfl, rfl⟩ | ⟨rfl, rfl⟩ |
    ⟨rfl, rfl⟩ <;> exact ⟨_, rfl, by decide, by decide, rfl⟩

end Lexicon

/-- The texts that stand for a terminal. A number is written in decimal and may have zeros in
front. -/
inductive Terminal.Spelled : Terminal → Bytes → Prop where
  | fixed {t : Terminal} {y : String} (h : (t, y) ∈ keywords ++ punctuation) : Spelled t (utf8 y)
  | identifier {y : String} (h : IsIdentifier y) : Spelled (.identifier y) (utf8 y)
  | intLiteral (zeros : ℕ) {n : ℕ} (h : n < 2 ^ 63) :
      Spelled (.intLiteral n) (List.replicate zeros 48 ++ utf8 (toString n))

theorem Terminal.spelled_identifier_iff {y : String} {w : Bytes} :
    (Terminal.identifier y).Spelled w ↔ IsIdentifier y ∧ utf8 y = w := by
  constructor
  · intro h
    generalize ht : Terminal.identifier y = t at h
    cases h with
    | fixed h => simp [keywords, punctuation, ← ht] at h
    | identifier h =>
      obtain rfl := Terminal.identifier.inj ht
      exact ⟨h, rfl⟩
    | intLiteral => cases ht
  · rintro ⟨h, rfl⟩
    exact .identifier h

theorem Terminal.spelled_fixed_iff {t : Terminal} {y : String} {w : Bytes}
    (hy : (t, y) ∈ keywords ++ punctuation) : t.Spelled w ↔ w = utf8 y := by
  have texts_differ : ∀ p ∈ keywords ++ punctuation, ∀ q ∈ keywords ++ punctuation,
      p.1 = q.1 → p = q := by decide
  constructor
  · intro h
    cases h with
    | fixed h => exact congrArg (utf8 ·.2) (texts_differ _ h _ hy rfl)
    | identifier => simp [keywords, punctuation] at hy
    | intLiteral => simp [keywords, punctuation] at hy
  · rintro rfl
    exact .fixed hy

theorem Terminal.spelled_intLiteral_iff {v : Int} {w : Bytes} :
    (Terminal.intLiteral v).Spelled w ↔
      w ∈ number ∧ Byte.decimal w ≤ maxLiteral ∧ v = Byte.decimal w := by
  constructor
  · intro h
    generalize ht : Terminal.intLiteral v = t at h
    cases h with
    | fixed h => simp [keywords, punctuation, ← ht] at h
    | identifier => cases ht
    | @intLiteral zeros n h =>
      obtain ⟨hnumber, hvalue⟩ := Byte.zeros_printed zeros n
      rw [hvalue]
      exact ⟨hnumber, Nat.le_of_lt_succ h, Terminal.intLiteral.inj ht⟩
  · rintro ⟨h, hmax, rfl⟩
    obtain ⟨zeros, hw⟩ := Byte.exists_zeros h
    have hspelled := Terminal.Spelled.intLiteral zeros (Nat.lt_succ_of_le hmax)
    rwa [← hw] at hspelled

theorem Terminal.Spelled.ne_nil {t : Terminal} {w : Bytes} (h : t.Spelled w) : w ≠ [] := by
  rintro rfl
  generalize hw : ([] : Bytes) = w at h
  cases h with
  | fixed h =>
    rcases List.mem_append.mp h with h | h
    · exact empty_notMem_word (hw ▸ utf8_mem_word_of_keyword h)
    · obtain ⟨b, hb, -⟩ := exists_byte_of_punctuation h
      rw [hb] at hw
      cases hw
  | identifier h => exact empty_notMem_word (hw ▸ h.1)
  | intLiteral zeros _ => exact empty_notMem_number (hw ▸ (Byte.zeros_printed zeros _).1)

end ProcLang
