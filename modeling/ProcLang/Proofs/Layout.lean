import ProcLang.Proofs.Transcript

/-! # Layout

Every text is a list of blanks and lexemes. The lexemes alone tell what is read from it, and the
blanks only where; since the parser never looks at places, they change nothing else. -/
namespace ProcLang

inductive Piece where
  | blank (b : UInt8) (h : Byte.isBlank b = true)
  | lexeme (x : Lexeme)

namespace Piece

def bytes : Piece → Bytes
  | .blank b _ => [b]
  | .lexeme x => x.bytes

def lexeme? : Piece → Option Lexeme
  | .blank _ _ => none
  | .lexeme x => some x

def text (ps : List Piece) : Bytes := ps.flatMap bytes

/-- No lexeme goes on with what stands behind it. -/
def Apart : List Piece → Prop
  | [] => True
  | .blank _ _ :: ps => Apart ps
  | .lexeme x :: ps => x.EndsAt (text ps) ∧ Apart ps

theorem length_le_text (ps : List Piece) : ps.length ≤ (text ps).length := by
  induction ps with
  | nil => exact le_rfl
  | cons p ps ih =>
    have hp : 0 < p.bytes.length := by
      cases p with
      | blank => exact Nat.one_pos
      | lexeme x => exact x.length_bytes_pos
    have htext : text (p :: ps) = p.bytes ++ text ps := rfl
    rw [htext, List.length_append, List.length_cons]
    omega

theorem exists_pieces (source : Bytes) : ∃ ps, text ps = source ∧ Apart ps := by
  induction hlength : source.length using Nat.strongRecOn generalizing source with
  | ind n ih =>
    cases source with
    | nil => exact ⟨[], rfl, trivial⟩
    | cons b bs =>
      by_cases hb : Byte.isBlank b = true
      · obtain ⟨ps, rfl, hps⟩ := ih bs.length (by simp [← hlength]) bs rfl
        exact ⟨.blank b hb :: ps, rfl, hps⟩
      · rcases blank_or_lexeme (b :: bs) with hblank | ⟨gap, x, rest, hsplit, hgap, hx⟩
        · exact absurd (hblank b List.mem_cons_self) hb
        · cases gap with
          | cons c gap =>
            obtain ⟨rfl, -⟩ := List.cons.inj hsplit
            exact absurd (hgap b List.mem_cons_self) hb
          | nil =>
            have hshorter := congrArg List.length hsplit
            have hpos := x.length_bytes_pos
            simp only [List.nil_append, List.length_append] at hshorter
            obtain ⟨ps, rfl, hps⟩ := ih rest.length (by omega) rest rfl
            exact ⟨.lexeme x :: ps, hsplit.symm, hx, hps⟩

/-- What is read from pieces that start at a place. -/
def reading (l : Location) : List Piece → Reading
  | [] => .eof l
  | .blank b _ :: ps => reading (l.step b) ps
  | .lexeme x :: ps =>
    match x.verdict with
    | .ok t => .token ⟨t, l⟩ (reading (l.after x.bytes) ps)
    | .error f => .failed ⟨f.message, l⟩

end Piece

namespace Scanner

variable {s s' : Scanner}

theorem read_of_next (h : s.next = s'.next) : s.read.1 = s'.read.1 := by
  rcases hn : s'.next with ⟨t | l | e, u⟩ <;> rw [hn] at h
  · rw [read_of_token h, read_of_token hn]
  · rw [read_of_eof h, read_of_eof hn]
  · rw [read_of_failed h, read_of_failed hn]

theorem next_of_blank_cons {b : UInt8} {bs : Bytes} (h : s.rest = b :: bs)
    (hb : Byte.isBlank b = true) : s.next = (s.past [b] [] bs).next := by
  rcases blank_or_lexeme bs with hbs | ⟨gap, x, rest, rfl, hgap, hx⟩
  · have hblank : Blank s.rest := h ▸ List.forall_mem_cons.mpr ⟨hb, hbs⟩
    rw [next_of_blank hblank, next_of_blank (s := s.past [b] [] bs) hbs, h]
    simp [past, Nat.add_assoc, Nat.add_comm 1]
  · have hblank : Blank (b :: gap) := List.forall_mem_cons.mpr ⟨hb, hgap⟩
    rw [next_of_lexeme h hblank hx, next_of_lexeme (s := s.past [b] [] _) rfl hgap hx]
    simp [past, Nat.add_assoc, Nat.add_comm 1]

theorem next_of_lexeme_cons {x : Lexeme} {rest : Bytes} (h : s.rest = x.bytes ++ rest)
    (hx : x.EndsAt rest) : s.next = (x.answer s.location, s.past [] x.bytes rest) := by
  rw [← List.nil_append (x.bytes ++ rest)] at h
  exact next_of_lexeme h (List.forall_mem_nil _) hx

theorem HasPassed.past_blank {b : UInt8} {bs front source : Bytes}
    (h : s.HasPassed front source) (hs : s.rest = b :: bs) :
    (s.past [b] [] bs).HasPassed (front ++ [b]) source := by
  have hpassed : (s.past [b] [] bs).HasPassed (front ++ [b] ++ []) source := h.past hs
  rwa [List.append_nil] at hpassed

theorem HasPassed.next_of_lexeme_cons {x : Lexeme} {front rest source : Bytes}
    (h : s.HasPassed front source) (hs : s.rest = x.bytes ++ rest) (hx : x.EndsAt rest) :
    s.next.2.rest = rest ∧ s.next.2.HasPassed (front ++ x.bytes) source ∧
      s.next.2.tokenStart = s.position ∧ slice source s.next.2.span = x.bytes := by
  have hpassed : (s.past [] x.bytes rest).HasPassed (front ++ [] ++ x.bytes) source := h.past hs
  rw [List.append_nil] at hpassed
  have hsource : source = front ++ x.bytes ++ rest := by rw [h.text_eq, hs, List.append_assoc]
  rw [Scanner.next_of_lexeme_cons hs hx]
  refine ⟨rfl, hpassed, rfl, ?_⟩
  rw [span, hpassed.position_eq, hsource]
  change slice _ (s.position, _) = _
  rw [h.position_eq, slice_append]

theorem read_of_pieces {ps : List Piece} (ha : Piece.Apart ps) (hs : s.rest = Piece.text ps) :
    s.read.1 = Piece.reading s.location ps := by
  induction ps generalizing s with
  | nil =>
    have hblank : Blank s.rest := hs ▸ List.forall_mem_nil _
    rw [read_of_eof (next_of_blank hblank), hs]
    rfl
  | cons p ps ih =>
    cases p with
    | blank b hb =>
      rw [read_of_next (next_of_blank_cons hs hb), ih ha rfl]
      rfl
    | lexeme x =>
      have hnext := next_of_lexeme_cons hs ha.1
      rw [Lexeme.answer_eq] at hnext
      cases hv : x.verdict with
      | ok t =>
        rw [hv] at hnext
        rw [read_of_token hnext, ih ha.2 rfl, Piece.reading, hv]
        rfl
      | error f =>
        rw [hv] at hnext
        rw [read_of_failed hnext, Piece.reading, hv]

end Scanner

theorem reading_of_pieces {ps : List Piece} (h : Piece.Apart ps) :
    Reading.ofSource (Piece.text ps) = Piece.reading .start ps :=
  Scanner.read_of_pieces (s := .ofSource (Piece.text ps)) h rfl

def Scanned.isEof : Scanned → Bool
  | .eof _ => true
  | _ => false

theorem Lexeme.isEof_answer (x : Lexeme) (l : Location) : (x.answer l).isEof = false := by
  unfold answer
  split <;> rfl

namespace Scanner

def lexemeAt (s : Scanner) (source : Bytes) (i : ℕ) : Bytes := slice source (s.spanOf i)

def lexemesWithin (s : Scanner) (source : Bytes) (n : ℕ) : List Bytes :=
  ((List.range n).takeWhile fun i => !(s.answer i).isEof).map (s.lexemeAt source)

end Scanner

/-- The bytes that one answer after the other spans, past errors too, up to the end of the text. It
is told within one request more than there are bytes. -/
def lexemes (source : Bytes) : List Bytes :=
  (Scanner.ofSource source).lexemesWithin source (source.length + 1)

namespace Scanner

variable {s s' : Scanner} {source : Bytes}

theorem answer_of_next (h : s.next = s'.next) (i : ℕ) : s.answer i = s'.answer i := by
  cases i with
  | zero => exact congrArg Prod.fst h
  | succ i => rw [answer, answer, h]

theorem spanOf_of_next (h : s.next = s'.next) (i : ℕ) : s.spanOf i = s'.spanOf i := by
  rw [spanOf, spanOf, after, after, h]

theorem lexemesWithin_of_next (h : s.next = s'.next) (n : ℕ) :
    s.lexemesWithin source n = s'.lexemesWithin source n := by
  have hlexeme : s.lexemeAt source = s'.lexemeAt source :=
    funext fun i => congrArg (slice source) (spanOf_of_next h i)
  simp only [lexemesWithin, answer_of_next h, hlexeme]

theorem lexemesWithin_of_eof {l : Location} (h : s.next.1 = .eof l) (n : ℕ) :
    s.lexemesWithin source (n + 1) = [] := by
  simp [lexemesWithin, List.range_succ_eq_map, answer, h, Scanned.isEof]

theorem lexemesWithin_succ (h : s.next.1.isEof = false) (n : ℕ) :
    s.lexemesWithin source (n + 1) =
      slice source s.next.2.span :: s.next.2.lexemesWithin source n := by
  simp only [lexemesWithin, List.range_succ_eq_map, List.takeWhile_cons, answer, h, Bool.not_false,
    if_true, List.map_cons, List.takeWhile_map, List.map_map]
  rfl

theorem lexemesWithin_of_pieces {ps : List Piece} {front : Bytes} (ha : Piece.Apart ps)
    (hs : s.rest = Piece.text ps) (hp : s.HasPassed front source) {n : ℕ} (hn : ps.length < n) :
    s.lexemesWithin source n = (ps.filterMap Piece.lexeme?).map Lexeme.bytes := by
  induction ps generalizing s front n with
  | nil =>
    obtain ⟨n, rfl⟩ := Nat.exists_eq_add_one_of_ne_zero (Nat.ne_zero_of_lt hn)
    have hblank : Blank s.rest := hs ▸ List.forall_mem_nil _
    exact lexemesWithin_of_eof (congrArg Prod.fst (next_of_blank hblank)) n
  | cons p ps ih =>
    cases p with
    | blank b hb =>
      rw [lexemesWithin_of_next (next_of_blank_cons hs hb),
        ih ha rfl (hp.past_blank hs) (Nat.lt_of_succ_lt hn)]
      rfl
    | lexeme x =>
      obtain ⟨n, rfl⟩ := Nat.exists_eq_add_one_of_ne_zero (Nat.ne_zero_of_lt hn)
      obtain ⟨hrest, hpassed, -, hslice⟩ := hp.next_of_lexeme_cons hs ha.1
      have heof : s.next.1.isEof = false := by
        rw [next_of_lexeme_cons hs ha.1, x.isEof_answer]
      rw [lexemesWithin_succ heof, hslice, ih ha.2 hrest hpassed (Nat.lt_of_succ_lt_succ hn)]
      rfl

end Scanner

theorem lexemes_of_pieces {ps : List Piece} (h : Piece.Apart ps) :
    lexemes (Piece.text ps) = (ps.filterMap Piece.lexeme?).map Lexeme.bytes := by
  exact Scanner.lexemesWithin_of_pieces h rfl (Scanner.hasPassed_ofSource _)
    (Nat.lt_succ_of_le (Piece.length_le_text ps))

theorem Lexeme.bytes_injective : Function.Injective Lexeme.bytes := by
  intro x y h
  obtain ⟨first, more, _, _⟩ := x
  obtain ⟨first', more', _, _⟩ := y
  obtain ⟨rfl, rfl⟩ := List.cons.inj h
  rfl

/-- What is read with all places forgotten. -/
def Reading.unplaced (r : Reading) : Reading := r.relocate fun _ => .start

def ParseError.unplaced (e : ParseError) : ParseError := e.relocate fun _ => .start

/-- What lexemes are read as when places do not matter. -/
def Lexeme.reading : List Lexeme → Reading
  | [] => .eof .start
  | x :: xs =>
    match x.verdict with
    | .ok t => .token ⟨t, .start⟩ (reading xs)
    | .error f => .failed ⟨f.message, .start⟩

theorem Piece.unplaced_reading (l : Location) (ps : List Piece) :
    (reading l ps).unplaced = Lexeme.reading (ps.filterMap lexeme?) := by
  induction ps generalizing l with
  | nil => rfl
  | cons p ps ih =>
    cases p with
    | blank b hb => exact ih _
    | lexeme x =>
      have hfirst : (lexeme x :: ps).filterMap lexeme? = x :: ps.filterMap lexeme? := rfl
      rw [reading, hfirst, Lexeme.reading]
      cases x.verdict with
      | error f => rfl
      | ok t => exact congrArg (Reading.token ⟨t, .start⟩) (ih _)

/-- What comes of parsing, with all places forgotten, is what comes of the reading without them. -/
theorem parse_unplaced (name : String) (source : Bytes) :
    ParseError.orMoved (fun _ => .start) Module.unplaced (Module.parse name source).value =
      ((ParseState.initial name).run (Reading.ofSource source).unplaced).value := by
  rw [Module.parse_value]
  exact (ParseState.run_initial_relocate _ name _).symm

theorem unplaced_of_lexemes {a b : Bytes} (h : lexemes a = lexemes b) :
    (Reading.ofSource a).unplaced = (Reading.ofSource b).unplaced := by
  obtain ⟨ps, rfl, hps⟩ := Piece.exists_pieces a
  obtain ⟨qs, rfl, hqs⟩ := Piece.exists_pieces b
  rw [lexemes_of_pieces hps, lexemes_of_pieces hqs] at h
  have hsame := List.map_injective_iff.mpr Lexeme.bytes_injective h
  rw [reading_of_pieces hps, reading_of_pieces hqs, Piece.unplaced_reading,
    Piece.unplaced_reading, hsame]

/-- Two texts with the same lexemes are both parsed to one tree or both to one error, but for the
places, whatever blanks there are between the lexemes. -/
theorem layout_is_immaterial (name : String) {a b : Bytes} (h : lexemes a = lexemes b) :
    (∃ m m', (Module.parse name a).value = .ok m ∧ (Module.parse name b).value = .ok m' ∧
      m.unplaced = m'.unplaced) ∨
    ∃ e e', (Module.parse name a).value = .error e ∧ (Module.parse name b).value = .error e' ∧
      e.unplaced = e'.unplaced := by
  have hsame := parse_unplaced name a
  rw [unplaced_of_lexemes h, ← parse_unplaced name b] at hsame
  cases ha : (Module.parse name a).value with
  | ok m =>
    cases hb : (Module.parse name b).value with
    | ok m' =>
      rw [ha, hb] at hsame
      exact Or.inl ⟨m, m', rfl, rfl, Except.ok.inj hsame⟩
    | error e' =>
      rw [ha, hb] at hsame
      cases hsame
  | error e =>
    cases hb : (Module.parse name b).value with
    | ok m' =>
      rw [ha, hb] at hsame
      cases hsame
    | error e' =>
      rw [ha, hb] at hsame
      exact Or.inr ⟨e, e', rfl, rfl, Except.error.inj hsame⟩

/-- The second text has blanks at other places, and its error is in another column. -/
theorem layout_of_hidden_type :
    let a := utf8 "proc x(): int\r\n\tvar int : int ; \x7b 12ab # \x7d"
    let b := utf8 "\n proc x():int var int:int;\x7b12 ab#\x7d"
    let e := ParseError.semantic "int" "'int' is not a type" ⟨2, 12⟩
    let e' := ParseError.semantic "int" "'int' is not a type" ⟨2, 23⟩
    lexemes a = lexemes b ∧ (Module.parse "m" a).value = .error e ∧
      (Module.parse "m" b).value = .error e' ∧ e.unplaced = e'.unplaced := by
  intro a b e e'
  have hlexemes : lexemes a = lexemes b := by decide +kernel
  have ha : (Module.parse "m" a).value = .error e := by
    rw [Module.parse_value]
    decide +kernel
  have hb : (Module.parse "m" b).value = .error e' := by
    rw [Module.parse_value]
    decide +kernel
  refine ⟨hlexemes, ha, hb, ?_⟩
  obtain ⟨m, -, hm, -⟩ | ⟨f, f', hf, hf', hsame⟩ := layout_is_immaterial "m" hlexemes
  · rw [ha] at hm
    cases hm
  · rw [ha] at hf
    rw [hb] at hf'
    cases hf
    cases hf'
    exact hsame

end ProcLang
