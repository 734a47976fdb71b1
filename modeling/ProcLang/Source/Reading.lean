import ProcLang.Source.Scanner

/-! A reading is everything that a scanner hands out from where it stands, up to the end of the
text or to the first error. -/

namespace ProcLang

inductive Reading where
  | eof (location : Location)
  | failed (e : LexError)
  | token (t : Token) (rest : Reading)
  deriving DecidableEq, Repr

namespace Reading

def head : Reading → Scanned
  | .eof l => .eof l
  | .failed e => .failed e
  | .token t _ => .token t

/-- All answers in order, the last of which is the end or the error. -/
def answers : Reading → List Scanned
  | .token t rest => .token t :: rest.answers
  | r => [r.head]

def tokens : Reading → Except LexError (List Token × Location)
  | .eof l => .ok ([], l)
  | .failed e => .error e
  | .token t rest => rest.tokens.map fun (ts, l) => (t :: ts, l)

end Reading

namespace Scanner

def read (s : Scanner) : Reading × Scanner :=
  match h : s.next with
  | (.eof l, s') => (.eof l, s')
  | (.failed e, s') => (.failed e, s')
  | (.token t, s') =>
    have := next_shorter_of_token h
    let (rest, last) := s'.read
    (.token t rest, last)
termination_by s.rest.length

theorem read_of_eof {s s' : Scanner} {l : Location} (h : s.next = (.eof l, s')) :
    s.read = (.eof l, s') := by
  rw [read]
  split <;> simp_all

theorem read_of_failed {s s' : Scanner} {e : LexError} (h : s.next = (.failed e, s')) :
    s.read = (.failed e, s') := by
  rw [read]
  split <;> simp_all

theorem read_of_token {s s' : Scanner} {t : Token} (h : s.next = (.token t, s')) :
    s.read = (.token t s'.read.1, s'.read.2) := by
  rw [read]
  split <;> simp_all

/-- All tokens from the cursor on. The cursor stays behind the first error. -/
def tokenize (s : Scanner) : Except LexError (List Token × Location) × Scanner :=
  (s.read.1.tokens, s.read.2)

inductive Request where
  | next
  | step
  | drain
  | tokenize
  deriving DecidableEq, Repr

inductive Reply where
  | next (answer : Scanned)
  | step (answer : Option Scanned)
  | drain (answers : List Scanned)
  | tokenize (reading : Reading)
  deriving DecidableEq, Repr

def serve (s : Scanner) : Request → Reply × Scanner
  | .next => (.next s.next.1, s.next.2)
  | .step => (.step s.step.1, s.step.2)
  | .drain => (.drain s.drain.1, s.drain.2)
  | .tokenize => (.tokenize s.read.1, s.read.2)

end Scanner

/-- The answers that were taken from the text to form a reply. -/
def Scanner.Reply.answers : Scanner.Reply → List Scanned
  | .next x => [x]
  | .step x => x.toList
  | .drain xs => xs
  | .tokenize r => r.answers

def Reading.ofSource (source : Bytes) : Reading := (Scanner.ofSource source).read.1

end ProcLang
