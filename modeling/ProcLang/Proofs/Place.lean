import ProcLang.Program.Tree
import ProcLang.Source.Token

/-! Places between two tokens of a module. The grammar has no recursion but repetition, so what may
follow depends on a place alone. A place carries the parts of the tree that have begun and are not
complete. -/

namespace ProcLang

/-- A declared name whose declaration is not complete. -/
structure Heading where
  id : NodeId
  name : String
  location : Location
  deriving DecidableEq, Repr

structure OpenProc where
  heading : Heading
  returnType : TypeName
  locals : List Var
  deriving DecidableEq, Repr

structure OpenBlock where
  id : NodeId
  location : Location
  statements : List Assignment
  deriving DecidableEq, Repr

/-- Whose variables a group declares. -/
inductive Region where
  | module
  | body (p : OpenProc)
  deriving DecidableEq, Repr

/-- Each place is named for what stands directly before it or, where several forms may begin, for
what begins there. -/
inductive Place where
  | declarations (r : Region)
  | varKeyword (r : Region)
  | varName (r : Region) (h : Heading)
  | varColon (r : Region) (h : Heading)
  | varType (r : Region) (v : Var)
  | group (r : Region)
  | procKeyword (location : Location)
  | procName (h : Heading)
  | procLeftParen (h : Heading)
  | procRightParen (h : Heading)
  | procColon (h : Heading)
  | statements (p : OpenProc) (b : OpenBlock)
  | leftOperand (p : OpenProc) (b : OpenBlock) (id : NodeId) (lhs : Expr)
  | equals (p : OpenProc) (b : OpenBlock) (id : NodeId) (lhs : Expr)
  | rightOperand (p : OpenProc) (b : OpenBlock) (a : Assignment)
  | exportsKeyword
  | exportsName (name : String)
  deriving DecidableEq, Repr

def Region.expected : Region → List TokenKind
  | .module => [.var, .proc, .exports, .eof]
  | .body _ => [.var, .leftBrace]

namespace Place

/-- What a message says is expected. Two things that may follow are not said: another group after a
group, and the end of a block where a statement may begin. -/
def expected : Place → List TokenKind
  | .declarations r => r.expected
  | .varKeyword _ => [.identifier]
  | .varName _ _ => [.colon]
  | .varColon _ _ => [.identifier]
  | .varType _ _ => [.semicolon]
  | .group r => r.expected
  | .procKeyword _ => [.identifier]
  | .procName _ => [.leftParen]
  | .procLeftParen _ => [.rightParen]
  | .procRightParen _ => [.colon]
  | .procColon _ => [.identifier]
  | .statements _ _ => [.identifier, .intLiteral]
  | .leftOperand _ _ _ _ => [.equals]
  | .equals _ _ _ _ => [.identifier, .intLiteral]
  | .rightOperand _ _ _ => [.semicolon]
  | .exportsKeyword => [.identifier]
  | .exportsName _ => [.semicolon]

/-- Whose names the innermost scope holds. -/
def region : Place → Region
  | .declarations r => r
  | .varKeyword r => r
  | .varName r _ => r
  | .varColon r _ => r
  | .varType r _ => r
  | .group r => r
  | .statements p _ => .body p
  | .leftOperand p _ _ _ => .body p
  | .equals p _ _ _ => .body p
  | .rightOperand p _ _ => .body p
  | _ => .module

def isEnd : Place → Bool
  | .declarations .module => true
  | .group .module => true
  | _ => false

end Place

end ProcLang
