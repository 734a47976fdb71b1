import Mathlib.Logic.Equiv.Basic
import ProcLang.Proofs.Layout

/-! # Renaming

Each identifier of a text is written with another name in its place, all else being kept. The other
names may be longer or shorter; as they are words again, they end where the old ones did and join
with nothing. So the text is read as it was, but for the names. -/
namespace ProcLang

open Lexicon

/-- Identifiers get names of their own, and built-in types keep theirs. -/
structure IsRenaming (r : String → String) : Prop where
  isIdentifier : ∀ {x}, IsIdentifier x → IsIdentifier (r x)
  injOn : ∀ {x y}, IsIdentifier x → IsIdentifier y → r x = r y → x = y
  fixes : ∀ t : TypeName, r t.text = t.text

theorem isRenaming_swap {x y : String} (hx : IsIdentifier x) (hy : IsIdentifier y)
    (hfree : ∀ t : TypeName, t.text ≠ x ∧ t.text ≠ y) : IsRenaming (Equiv.swap x y) where
  isIdentifier := by
    intro z hz
    rw [Equiv.swap_apply_def]
    split_ifs
    · exact hy
    · exact hx
    · exact hz
  injOn _ _ h := (Equiv.swap x y).injective h
  fixes t := Equiv.swap_apply_of_ne_of_ne (hfree t).1 (hfree t).2

namespace Scanner

variable (r : String → String) (s : Scanner) (source : Bytes)

/-- The bytes of a text that are passed over before what a request spans. -/
def gapAt (i : ℕ) : Bytes := slice source ((s.after i).position, (s.spanOf i).1)

/-- What a request spans, or the other name where it is answered with an identifier. -/
def renamedAt (i : ℕ) : Bytes :=
  match s.answer i with
  | .token ⟨.identifier x, _⟩ => utf8 (r x)
  | _ => s.lexemeAt source i

def renamedWithin (n : ℕ) : Bytes :=
  (List.range n).flatMap fun i => s.gapAt source i ++ s.renamedAt r source i

end Scanner

/-- The text with other names for its identifiers, past errors too. -/
def renamed (r : String → String) (source : Bytes) : Bytes :=
  (Scanner.ofSource source).renamedWithin r source (source.length + 1)

def Lexeme.renamed (r : String → String) (x : Lexeme) : Bytes :=
  match x.verdict with
  | .ok (.identifier y) => utf8 (r y)
  | _ => x.bytes

def Piece.renamed (r : String → String) : Piece → Bytes
  | .blank b _ => [b]
  | .lexeme x => x.renamed r

namespace Scanner

variable {r : String → String} {s s' : Scanner} {source front : Bytes}

theorem tokenStart_next (s : Scanner) :
    s.next.2.tokenStart = s.position + (s.rest.takeWhile Byte.isBlank).length := by
  unfold next
  simp only [settle_rest]
  split <;> rfl

theorem HasPassed.gapAt_zero (h : s.HasPassed front source) :
    s.gapAt source 0 = s.rest.takeWhile Byte.isBlank := by
  have hsource : source =
      front ++ s.rest.takeWhile Byte.isBlank ++ s.rest.dropWhile Byte.isBlank := by
    rw [h.text_eq, List.append_assoc, List.takeWhile_append_dropWhile]
  change slice source (s.position, s.next.2.tokenStart) = _
  rw [tokenStart_next, h.position_eq, ← List.length_append]
  conv_lhs => rw [hsource]
  exact slice_append _ _ _

theorem renamedWithin_succ (n : ℕ) : s.renamedWithin r source (n + 1) =
    s.gapAt source 0 ++ s.renamedAt r source 0 ++ s.next.2.renamedWithin r source n := by
  simp only [renamedWithin, List.range_succ_eq_map, List.flatMap_cons, List.flatMap_map]
  rfl

theorem renamedAt_of_next (h : s.next = s'.next) :
    s.renamedAt r source 0 = s'.renamedAt r source 0 := by
  unfold renamedAt lexemeAt
  rw [answer_of_next h, spanOf_of_next h]

theorem HasPassed.renamedWithin_blank {b : UInt8} {bs : Bytes} (h : s.HasPassed front source)
    (hs : s.rest = b :: bs) (hb : Byte.isBlank b = true) (n : ℕ) :
    s.renamedWithin r source (n + 1) = b :: (s.past [b] [] bs).renamedWithin r source (n + 1) := by
  have hnext := next_of_blank_cons hs hb
  rw [renamedWithin_succ, renamedWithin_succ, renamedAt_of_next hnext, hnext, h.gapAt_zero,
    (h.past_blank hs).gapAt_zero, hs, List.takeWhile_cons_of_pos hb]
  rfl

theorem renamedAt_of_lexeme {x : Lexeme} {rest : Bytes} (hs : s.rest = x.bytes ++ rest)
    (hx : x.EndsAt rest) (hslice : slice source s.next.2.span = x.bytes) :
    s.renamedAt r source 0 = x.renamed r := by
  have hanswer : s.answer 0 = x.answer s.location :=
    congrArg Prod.fst (next_of_lexeme_cons hs hx)
  unfold renamedAt Lexeme.renamed
  rw [hanswer, Lexeme.answer_eq]
  rcases x.verdict with f | t
  · exact hslice
  · cases t <;> first | rfl | exact hslice

theorem HasPassed.renamedWithin_lexeme {x : Lexeme} {rest : Bytes} (h : s.HasPassed front source)
    (hs : s.rest = x.bytes ++ rest) (hx : x.EndsAt rest) (n : ℕ) :
    s.renamedWithin r source (n + 1) = x.renamed r ++ s.next.2.renamedWithin r source n := by
  obtain ⟨-, -, -, hslice⟩ := h.next_of_lexeme_cons hs hx
  have hgap : s.rest.takeWhile Byte.isBlank = [] := by
    rw [hs, Lexeme.bytes, List.cons_append, List.takeWhile_cons_of_neg]
    simp [x.visible]
  rw [renamedWithin_succ, h.gapAt_zero, hgap, renamedAt_of_lexeme hs hx hslice, List.nil_append]

theorem HasPassed.next_of_nil (h : s.HasPassed front source) (hs : s.rest = []) :
    s.next.1 = .eof s.location ∧ s.next.2.rest = [] ∧ s.next.2.HasPassed front source ∧
      slice source s.next.2.span = [] := by
  have hblank : Blank s.rest := hs ▸ List.forall_mem_nil _
  have hpassed : (s.past [] [] []).HasPassed (front ++ [] ++ []) source := h.past hs
  rw [List.append_nil, List.append_nil] at hpassed
  have hslice : slice source (s.position, s.position) = [] := by simp [slice]
  rw [next_of_blank hblank, hs]
  exact ⟨rfl, rfl, hpassed, hslice⟩

theorem HasPassed.renamedWithin_nil (h : s.HasPassed front source) (hs : s.rest = []) (n : ℕ) :
    s.renamedWithin r source n = [] := by
  induction n generalizing s with
  | zero => rfl
  | succ n ih =>
    obtain ⟨heof, hrest, hpassed, hslice⟩ := h.next_of_nil hs
    have hat : s.renamedAt r source 0 = [] := by
      have hanswer : s.answer 0 = .eof s.location := heof
      rw [renamedAt, hanswer]
      exact hslice
    rw [renamedWithin_succ, h.gapAt_zero, hs, hat, ih hpassed hrest]
    rfl

theorem renamedWithin_of_pieces {ps : List Piece} (ha : Piece.Apart ps)
    (hs : s.rest = Piece.text ps) (hp : s.HasPassed front source) {n : ℕ} (hn : ps.length < n) :
    s.renamedWithin r source n = ps.flatMap (Piece.renamed r) := by
  induction ps generalizing s front n with
  | nil => exact hp.renamedWithin_nil hs n
  | cons p ps ih =>
    obtain ⟨n, rfl⟩ := Nat.exists_eq_add_one_of_ne_zero (Nat.ne_zero_of_lt hn)
    cases p with
    | blank b hb =>
      rw [hp.renamedWithin_blank hs hb, ih ha rfl (hp.past_blank hs) (Nat.lt_of_succ_lt hn)]
      rfl
    | lexeme x =>
      obtain ⟨hrest, hpassed, -, -⟩ := hp.next_of_lexeme_cons hs ha.1
      rw [hp.renamedWithin_lexeme hs ha.1,
        ih ha.2 hrest hpassed (Nat.lt_of_succ_lt_succ hn)]
      rfl

end Scanner

theorem renamed_of_pieces {r : String → String} {ps : List Piece} (h : Piece.Apart ps) :
    renamed r (Piece.text ps) = ps.flatMap (Piece.renamed r) :=
  Scanner.renamedWithin_of_pieces h rfl (Scanner.hasPassed_ofSource _)
    (Nat.lt_succ_of_le (Piece.length_le_text ps))

def Terminal.rename (r : String → String) : Terminal → Terminal
  | .identifier x => .identifier (r x)
  | t => t

theorem Terminal.kind_rename (r : String → String) (t : Terminal) : (t.rename r).kind = t.kind := by
  cases t <;> rfl

def Byte.Alike (b c : UInt8) : Prop := isDigit b = isDigit c ∧ isWordStart b = isWordStart c

theorem Byte.Alike.joins_eq {b b' c c' : UInt8} (hb : Alike b b') (hc : Alike c c') :
    joins b c = joins b' c' := by
  simp only [joins, isWordPart, hb.1, hb.2, hc.1, hc.2]

/-- The second lexeme is the first one with its name replaced. -/
structure Lexeme.Renames (r : String → String) (x y : Lexeme) : Prop where
  bytes : y.bytes = x.renamed r
  verdict : y.verdict = x.verdict.map (Terminal.rename r)
  alike : Byte.Alike x.first y.first

inductive Piece.Renames (r : String → String) : Piece → Piece → Prop where
  | blank (b : UInt8) (h : Byte.isBlank b = true) : Renames r (.blank b h) (.blank b h)
  | lexeme {x y : Lexeme} (h : x.Renames r y) : Renames r (.lexeme x) (.lexeme y)

section

variable {r : String → String} {x y : Lexeme} {ps qs : List Piece}

theorem Lexeme.isIdentifier_of_verdict {name : String}
    (h : x.verdict = .ok (.identifier name)) : IsIdentifier name ∧ x.bytes = utf8 name := by
  obtain ⟨hname, hbytes⟩ := Terminal.spelled_identifier_iff.mp (Lexeme.verdict_eq_ok_iff.mp h)
  exact ⟨hname, hbytes.symm⟩

theorem Lexeme.alike_of_words (hx : x.bytes ∈ word) (hy : y.bytes ∈ word) :
    Byte.Alike x.first y.first := by
  rw [Lexeme.bytes_mem_word] at hx hy
  exact ⟨by rw [Byte.isDigit_of_isWordStart hx, Byte.isDigit_of_isWordStart hy], by rw [hx, hy]⟩

theorem Lexeme.renames_self (h : ∀ name, x.verdict ≠ .ok (.identifier name)) : x.Renames r x := by
  have hsame : x.verdict.map (Terminal.rename r) = x.verdict := by
    rcases hv : x.verdict with f | t
    · rfl
    · cases t with
      | identifier name => exact absurd hv (h name)
      | _ => rfl
  refine ⟨?_, hsame.symm, rfl, rfl⟩
  unfold Lexeme.renamed
  split
  · exact absurd ‹_› (h _)
  · rfl

theorem Lexeme.exists_renames (hr : IsRenaming r) (x : Lexeme) : ∃ y, x.Renames r y := by
  by_cases hx : ∃ name, x.verdict = .ok (.identifier name)
  · obtain ⟨name, hname⟩ := hx
    obtain ⟨hid, hbytes⟩ := Lexeme.isIdentifier_of_verdict hname
    have hspelled := Terminal.Spelled.identifier (hr.isIdentifier hid)
    obtain ⟨y, hy⟩ := Lexeme.exists_of_spelled hspelled
    have hrenamed : x.renamed r = utf8 (r name) := by rw [Lexeme.renamed, hname]
    refine ⟨y, hy.trans hrenamed.symm, ?_, Lexeme.alike_of_words ?_ ?_⟩
    · rw [hname, Lexeme.verdict_eq_ok_iff.mpr (hy ▸ hspelled)]
      rfl
    · rw [hbytes]
      exact hid.1
    · rw [hy]
      exact (hr.isIdentifier hid).1
  · exact ⟨x, Lexeme.renames_self fun name h => hx ⟨name, h⟩⟩

namespace Piece

theorem exists_renames (hr : IsRenaming r) (ps : List Piece) :
    ∃ qs, List.Forall₂ (Renames r) ps qs := by
  induction ps with
  | nil => exact ⟨[], .nil⟩
  | cons p ps ih =>
    obtain ⟨qs, hqs⟩ := ih
    cases p with
    | blank b h => exact ⟨.blank b h :: qs, .cons (.blank b h) hqs⟩
    | lexeme x =>
      obtain ⟨y, hy⟩ := x.exists_renames hr
      exact ⟨.lexeme y :: qs, .cons (.lexeme hy) hqs⟩

theorem text_of_renames (h : List.Forall₂ (Renames r) ps qs) :
    text qs = ps.flatMap (Piece.renamed r) := by
  induction h with
  | nil => rfl
  | cons hp _ ih =>
    rw [List.flatMap_cons, ← ih]
    cases hp with
    | blank => rfl
    | lexeme hx =>
      rw [Piece.renamed, ← hx.bytes]
      rfl

theorem exists_alike (h : List.Forall₂ (Renames r) ps qs) {c : UInt8}
    (hc : c ∈ (text qs).head?) : ∃ b ∈ (text ps).head?, Byte.Alike b c := by
  cases h with
  | nil => cases hc
  | cons hp _ =>
    cases hp with
    | blank b => exact ⟨b, rfl, by cases hc; exact ⟨rfl, rfl⟩⟩
    | @lexeme x y hx => exact ⟨x.first, rfl, by cases hc; exact hx.alike⟩

theorem apart_of_renames (h : List.Forall₂ (Renames r) ps qs) (ha : Apart ps) : Apart qs := by
  induction h with
  | nil => trivial
  | cons hp hps ih =>
    cases hp with
    | blank => exact ih ha
    | lexeme hx =>
      refine ⟨?_, ih ha.2⟩
      intro c hc
      obtain ⟨b, hb, hbc⟩ := exists_alike hps hc
      rw [← hx.alike.joins_eq hbc]
      exact ha.1 b hb

end Piece

end

def Token.rename (r : String → String) (t : Token) : Token :=
  { t with terminal := t.terminal.rename r }

def Reading.rename (r : String → String) : Reading → Reading
  | .eof l => .eof l
  | .failed e => .failed e
  | .token t rest => .token (t.rename r) (rest.rename r)

def Reading.Named : Reading → Prop
  | .token t rest => (∀ x, t.terminal = .identifier x → IsIdentifier x) ∧ rest.Named
  | _ => True

theorem Lexeme.reading_named (xs : List Lexeme) : (Lexeme.reading xs).Named := by
  induction xs with
  | nil => trivial
  | cons x xs ih =>
    rw [Lexeme.reading]
    cases hv : x.verdict with
    | error f => trivial
    | ok t =>
      refine ⟨?_, ih⟩
      rintro name rfl
      exact (Lexeme.isIdentifier_of_verdict hv).1

theorem Lexeme.reading_of_renames {r : String → String} {ps qs : List Piece}
    (h : List.Forall₂ (Piece.Renames r) ps qs) :
    Lexeme.reading (qs.filterMap Piece.lexeme?) =
      (Lexeme.reading (ps.filterMap Piece.lexeme?)).rename r := by
  induction h with
  | nil => rfl
  | @cons _ _ ps qs hp _ ih =>
    cases hp with
    | blank => exact ih
    | @lexeme x y hx =>
      have hy : (Piece.lexeme y :: qs).filterMap Piece.lexeme? =
          y :: qs.filterMap Piece.lexeme? := rfl
      have hx' : (Piece.lexeme x :: ps).filterMap Piece.lexeme? =
          x :: ps.filterMap Piece.lexeme? := rfl
      rw [hy, hx', Lexeme.reading, Lexeme.reading, hx.verdict]
      rcases x.verdict with f | t
      · rfl
      · exact congrArg (Reading.token _) ih

/-- The renamed text is read as the text is, but for the places and with the other names. -/
theorem unplaced_renamed {r : String → String} (hr : IsRenaming r) (source : Bytes) :
    (Reading.ofSource (renamed r source)).unplaced =
        (Reading.ofSource source).unplaced.rename r ∧
      (Reading.ofSource source).unplaced.Named := by
  obtain ⟨ps, rfl, hps⟩ := Piece.exists_pieces source
  obtain ⟨qs, hqs⟩ := Piece.exists_renames hr ps
  rw [renamed_of_pieces hps, ← Piece.text_of_renames hqs, reading_of_pieces hps,
    reading_of_pieces (Piece.apart_of_renames hqs hps), Piece.unplaced_reading,
    Piece.unplaced_reading]
  exact ⟨Lexeme.reading_of_renames hqs, Lexeme.reading_named _⟩

end ProcLang
