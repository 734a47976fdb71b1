/-! What is left of a text that is not written to a terminal. Control characters other than blanks
are left out, and so are whole control sequences, by which a text would steer a terminal: one begins
with an escape character, its form says where it ends, and one that does not end takes the rest of
the text with it. Of characters beyond ASCII each is a letter like any other, also where its number
is that of a control character. -/

namespace ProcLang.ControlSequence

/-- Where in a text or in a sequence a character stands. -/
inductive Mode where
  | text
  /-- Behind an escape character. -/
  | escape
  /-- Behind an escape character and characters that call for one more. -/
  | designation
  /-- In a sequence of parameters, which a letter ends. -/
  | parameters
  /-- In an operating system command, which a bell ends. -/
  | command
  /-- At the head of a device control string, with or without parameters before. -/
  | deviceHead
  | deviceParameters
  | deviceDesignation
  /-- In a string that has only a terminator for its end. -/
  | string
  deriving DecidableEq, Repr

def within (c : Char) (least most : Nat) : Bool := least ≤ c.toNat && c.toNat ≤ most

def isAscii (c : Char) : Bool := c.toNat < 128

def isBlankControl (c : Char) : Bool := c = '\t' || c = '\n' || c = '\x0c' || c = '\r'

/-- The terminator of a string is a single byte, which is also found inside of characters. -/
def terminates (c : Char) : Bool := (String.utf8EncodeChar c).contains 0x9c

/-- Whether a character is kept. Short sequences let control characters through, so the blanks among
these are kept inside of them; strings and commands take everything up to their end. -/
def Mode.keeps (m : Mode) (c : Char) : Bool :=
  match m with
  | .text => within c 0x20 0x7e || !isAscii c || isBlankControl c
  | .escape | .designation | .parameters => isBlankControl c
  | _ => false

/-- The mode behind a character that is not kept. An escape character begins a sequence wherever it
stands, and the characters for cancelling and for substituting end any. -/
def Mode.next (m : Mode) (c : Char) : Mode :=
  if c = '\x1b' then .escape
  else if c = '\x18' ∨ c = '\x1a' then .text
  else match m with
  | .text => .text
  | .escape =>
    if within c 0x20 0x2f then .designation
    else if c = '[' then .parameters
    else if c = ']' then .command
    else if c = 'P' then .deviceHead
    else if c = 'X' ∨ c = '^' ∨ c = '_' then .string
    else if within c 0x30 0x7e then .text
    else .escape
  | .designation => if within c 0x30 0x7e then .text else .designation
  | .parameters => if within c 0x40 0x7e then .text else .parameters
  | .command => if c = '\x07' then .text else .command
  | .deviceHead =>
    if within c 0x20 0x2f then .deviceDesignation
    else if within c 0x30 0x3f then .deviceParameters
    else if within c 0x40 0x7e then .string
    else .deviceHead
  | .deviceParameters =>
    if within c 0x20 0x2f then .deviceDesignation
    else if within c 0x3c 0x7e then .string
    else .deviceParameters
  | .deviceDesignation => if within c 0x30 0x7e then .string else .deviceDesignation
  | .string => if terminates c then .text else .string

/-- What a blank does to the sequence that it stands in: it ends the sequence, or it puts off the
rest of it until the next control character, unless a character beyond ASCII comes first and ends
it. -/
inductive AtBlank where
  | ends
  | putsOff
  deriving DecidableEq, Repr

/-- The characters that are kept. While a sequence is put off, characters are kept as in a text. -/
def keep (b : AtBlank) (m : Mode) (isPutOff : Bool) : List Char → List Char
  | [] => []
  | c :: cs =>
    if (if isPutOff then Mode.text else m).keeps c then
      c :: keep b (if b = .ends || !isAscii c then .text else m) true cs
    else keep b (m.next c) false cs

def strip (b : AtBlank) (text : String) : String :=
  String.ofList (keep b .text false text.toList)

end ProcLang.ControlSequence
