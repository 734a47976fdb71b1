import ProcLang.Source.Location

/-! The terminals of the language. A token is a terminal at a place; its kind forgets both the
payload and the place, and adds the end of the input, which messages name among the kinds. -/

namespace ProcLang

inductive TokenKind where
  | intLiteral
  | identifier
  | exports
  | proc
  | var
  | leftParen
  | rightParen
  | leftBrace
  | rightBrace
  | colon
  | semicolon
  | equals
  | eof
  deriving DecidableEq, Repr

def TokenKind.describe : TokenKind → String
  | .intLiteral => "integer literal"
  | .identifier => "identifier"
  | .exports => "'exports'"
  | .proc => "'proc'"
  | .var => "'var'"
  | .leftParen => "'('"
  | .rightParen => "')'"
  | .leftBrace => "'\x7b'"
  | .rightBrace => "'\x7d'"
  | .colon => "':'"
  | .semicolon => "';'"
  | .equals => "'='"
  | .eof => "end of input"

inductive Terminal where
  | intLiteral (value : Int)
  | identifier (name : String)
  | exports
  | proc
  | var
  | leftParen
  | rightParen
  | leftBrace
  | rightBrace
  | colon
  | semicolon
  | equals
  deriving DecidableEq, Repr

namespace Terminal

def kind : Terminal → TokenKind
  | .intLiteral _ => .intLiteral
  | .identifier _ => .identifier
  | .exports => .exports
  | .proc => .proc
  | .var => .var
  | .leftParen => .leftParen
  | .rightParen => .rightParen
  | .leftBrace => .leftBrace
  | .rightBrace => .rightBrace
  | .colon => .colon
  | .semicolon => .semicolon
  | .equals => .equals

def describe : Terminal → String
  | .intLiteral value => "integer literal " ++ toString value
  | .identifier name => "identifier '" ++ name ++ "'"
  | t => t.kind.describe

def ofWord (word : String) : Terminal :=
  if word = "exports" then .exports
  else if word = "proc" then .proc
  else if word = "var" then .var
  else .identifier word

/-- The terminals that are written with a single byte. -/
def ofPunctuation? (b : UInt8) : Option Terminal :=
  if b = 40 then some .leftParen
  else if b = 41 then some .rightParen
  else if b = 123 then some .leftBrace
  else if b = 125 then some .rightBrace
  else if b = 58 then some .colon
  else if b = 59 then some .semicolon
  else if b = 61 then some .equals
  else none

theorem kind_ne_eof (t : Terminal) : t.kind ≠ .eof := by cases t <;> simp [kind]

end Terminal

structure Token where
  terminal : Terminal
  location : Location
  deriving DecidableEq, Repr

def Token.kind (t : Token) : TokenKind := t.terminal.kind

end ProcLang
