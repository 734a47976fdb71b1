import ProcLang.Source.Location

/-! Classes of bytes. The source language is written in ASCII; bytes above it belong to no class,
so each of them is a stray byte wherever it stands between lexemes. -/

namespace ProcLang.Byte

def isBlank (b : UInt8) : Bool := b == 32 || b == 9 || b == 10 || b == 13

def isDigit (b : UInt8) : Bool := 48 ≤ b && b ≤ 57

def isLetter (b : UInt8) : Bool := (65 ≤ b && b ≤ 90) || (97 ≤ b && b ≤ 122)

def isWordStart (b : UInt8) : Bool := isLetter b || b == 95

def isWordPart (b : UInt8) : Bool := isWordStart b || isDigit b

def isGraphic (b : UInt8) : Bool := 33 ≤ b && b ≤ 126

/-- Whether `next` goes on with a lexeme that starts with `first`: digits join to a number, letters,
digits and underscores to a word, and everything else stands alone. -/
def joins (first next : UInt8) : Bool :=
  if isDigit first then isDigit next
  else if isWordStart first then isWordPart next
  else false

def char (b : UInt8) : Char := Char.ofNat b.toNat

def text (bs : Bytes) : String := String.ofList (bs.map char)

def hex (b : UInt8) : String :=
  String.ofList [Nat.digitChar (b.toNat / 16), Nat.digitChar (b.toNat % 16)]

/-- A quoted form in which every byte can be told from every other. -/
def quoted (b : UInt8) : String :=
  if isGraphic b then "'" ++ text [b] ++ "'" else "'\\x" ++ hex b ++ "'"

/-- The number that a string of decimal digits denotes. -/
def decimal (digits : Bytes) : Nat := digits.foldl (fun n d => 10 * n + (d.toNat - 48)) 0

end ProcLang.Byte
