import ProcLang.Source.Byte
import ProcLang.Source.Token

/-! A scanner stands at a position of a source text and hands out one token at a time. It can be
asked for the next token whether or not an earlier one failed, stepped through until it has
finished, or drained. All of these share one cursor, so they may be mixed freely. -/

namespace ProcLang

instance decidableEqExcept {ε α : Type} [DecidableEq ε] [DecidableEq α] :
    DecidableEq (Except ε α)
  | .ok a, .ok b => decidable_of_iff (a = b) (by simp)
  | .error e, .error f => decidable_of_iff (e = f) (by simp)
  | .ok _, .error _ => isFalse nofun
  | .error _, .ok _ => isFalse nofun

inductive LexFault where
  | strayByte (b : UInt8)
  | outOfRange (digits : Bytes)
  deriving DecidableEq, Repr

def LexFault.message : LexFault → String
  | .strayByte b => "unexpected character " ++ Byte.quoted b
  | .outOfRange digits => "integer literal out of range: " ++ Byte.text digits

structure LexError where
  message : String
  location : Location
  deriving DecidableEq, Repr

def LexError.describe (e : LexError) : String :=
  "lexical error at " ++ e.location.describe ++ ": " ++ e.message

inductive Scanned where
  | token (t : Token)
  | eof (location : Location)
  | failed (e : LexError)
  deriving DecidableEq, Repr

/-- What a parser has ahead of it: a token that has been pulled and not taken, or the end. -/
inductive Lookahead where
  | token (t : Token)
  | eof (location : Location)
  deriving DecidableEq, Repr

namespace Lookahead

def kind : Lookahead → TokenKind
  | .token t => t.kind
  | .eof _ => .eof

def location : Lookahead → Location
  | .token t => t.location
  | .eof l => l

end Lookahead

def Scanned.lookahead : Scanned → Except LexError Lookahead
  | .token t => .ok (.token t)
  | .eof l => .ok (.eof l)
  | .failed e => .error e

/-- The greatest value of an integer literal, that of a signed word of 64 bits. -/
def maxLiteral : Nat := 9223372036854775807

/-- What a lexeme stands for, told from its bytes alone. -/
def Terminal.ofLexeme (first : UInt8) (more : Bytes) : Except LexFault Terminal :=
  if Byte.isDigit first then
    if Byte.decimal (first :: more) ≤ maxLiteral then
      .ok (.intLiteral (Byte.decimal (first :: more)))
    else .error (.outOfRange (first :: more))
  else if Byte.isWordStart first then .ok (.ofWord (Byte.text (first :: more)))
  else match Terminal.ofPunctuation? first with
    | some t => .ok t
    | none => .error (.strayByte first)

/-- The cursor of a source text. The bytes already passed are known only by their number and by
the place they lead to. -/
structure Scanner where
  rest : Bytes
  position : Nat
  location : Location
  /-- Where the lexeme of the last answer starts; it ends at the position. -/
  tokenStart : Nat
  /-- Set by stepping over the end of the text or over an error. -/
  finished : Bool
  deriving DecidableEq, Repr

namespace Scanner

def ofSource (source : Bytes) : Scanner := ⟨source, 0, .start, 0, false⟩

def span (s : Scanner) : Nat × Nat := (s.tokenStart, s.position)

def passWhile (s : Scanner) (p : UInt8 → Bool) : Scanner :=
  { s with
    rest := s.rest.dropWhile p
    position := s.position + (s.rest.takeWhile p).length
    location := s.location.after (s.rest.takeWhile p) }

/-- Pass over blanks and mark the start of a lexeme. -/
def settle (s : Scanner) : Scanner :=
  let s := s.passWhile Byte.isBlank
  { s with tokenStart := s.position }

/-- Answer with the lexeme at the cursor, blanks before it ignored, and pass over it. -/
def next (s : Scanner) : Scanned × Scanner :=
  let s := s.settle
  match s.rest with
  | [] => (.eof s.location, s)
  | b :: bs =>
    let passed : Scanner :=
      { s with rest := bs, position := s.position + 1, location := s.location.step b }
    (match Terminal.ofLexeme b (bs.takeWhile (Byte.joins b)) with
      | .ok t => .token ⟨t, s.location⟩
      | .error fault => .failed ⟨fault.message, s.location⟩,
     passed.passWhile (Byte.joins b))

/-- As `next`, but the end of the text and an error finish the scanner, and a finished scanner
has nothing more to give. The end of the text is itself not given. -/
def step (s : Scanner) : Option Scanned × Scanner :=
  if s.finished then (none, s)
  else match s.next with
    | (.token t, s') => (some (.token t), s')
    | (.eof _, s') => (none, { s' with finished := true })
    | (.failed e, s') => (some (.failed e), { s' with finished := true })

@[simp] theorem settle_rest (s : Scanner) : s.settle.rest = s.rest.dropWhile Byte.isBlank := rfl

theorem next_shorter (s : Scanner) :
    (∃ l, s.next.1 = .eof l) ∨ s.next.2.rest.length < s.rest.length := by
  unfold next
  simp only [settle_rest]
  split
  · exact .inl ⟨_, rfl⟩
  · rename_i b bs h
    right
    have whole := (List.dropWhile_sublist (l := s.rest) Byte.isBlank).length_le
    have tail := (List.dropWhile_sublist (l := bs) (Byte.joins b)).length_le
    rw [h, List.length_cons] at whole
    simp only [passWhile]
    omega

theorem length_rest_next_le (s : Scanner) : s.next.2.rest.length ≤ s.rest.length := by
  rcases next_shorter s with ⟨l, hl⟩ | h
  · unfold next at hl ⊢
    simp only [settle_rest] at hl ⊢
    split
    · exact (List.dropWhile_sublist Byte.isBlank).length_le
    · rename_i h
      simp only [h] at hl
      split at hl <;> cases hl
  · exact Nat.le_of_lt h

theorem next_shorter_of_token {s s' : Scanner} {t : Token} (h : s.next = (.token t, s')) :
    s'.rest.length < s.rest.length := by
  rcases next_shorter s with ⟨l, hl⟩ | hl
  · simp [h] at hl
  · simpa [h] using hl

theorem step_shorter {s s' : Scanner} {x : Scanned} (h : s.step = (some x, s')) :
    s'.rest.length < s.rest.length := by
  have moved := next_shorter s
  unfold step at h
  split at h
  · simp at h
  · split at h
    · rename_i hn
      obtain ⟨_, rfl⟩ : _ ∧ _ = s' := by simpa using h
      simpa [hn] using moved
    · simp at h
    · rename_i hn
      obtain ⟨_, rfl⟩ : _ ∧ _ = s' := by simpa using h
      simpa [hn] using moved

/-- Everything that stepping still gives. -/
def drain (s : Scanner) : List Scanned × Scanner :=
  match h : s.step with
  | (none, s') => ([], s')
  | (some x, s') =>
    have := step_shorter h
    let (xs, last) := s'.drain
    (x :: xs, last)
termination_by s.rest.length

end Scanner

end ProcLang
