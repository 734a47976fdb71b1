import ProcLang.Program.Table
import ProcLang.Program.Tree

/-! Nested scopes. The outermost scope holds the built-in types and cannot be left; a name means
what the innermost scope that binds it says, and within a scope the last binding counts. -/

namespace ProcLang

inductive Binding where
  | type (t : TypeName)
  | var (id : NodeId)
  | proc (id : NodeId)
  deriving DecidableEq, Repr

abbrev Scope := Table String Binding

/-- The built-in types, each bound to its own name. -/
def Scope.builtin : Scope :=
  TypeName.all.foldl (fun s t => s.insert t.text (.type t)) .empty

inductive ScopeError where
  | leavingGlobal
  deriving DecidableEq, Repr

def ScopeError.message : ScopeError → String
  | .leavingGlobal => "cannot pop the global scope"

/-- The open scopes, the innermost first; the global one is always among them. -/
structure ScopeStack where
  inner : List Scope
  global : Scope

namespace ScopeStack

def initial : ScopeStack := ⟨[], .builtin⟩

def scopes (s : ScopeStack) : List Scope := s.inner ++ [s.global]

def depth (s : ScopeStack) : Nat := s.scopes.length

def push (s : ScopeStack) : ScopeStack := { s with inner := .empty :: s.inner }

def pop (s : ScopeStack) : Except ScopeError (Scope × ScopeStack) :=
  match s.inner with
  | [] => .error .leavingGlobal
  | top :: below => .ok (top, { s with inner := below })

def declare (s : ScopeStack) (name : String) (b : Binding) : ScopeStack :=
  match s.inner with
  | [] => { s with global := s.global.insert name b }
  | top :: below => { s with inner := top.insert name b :: below }

def lookup (s : ScopeStack) (name : String) : Option Binding :=
  s.scopes.findSome? (·.get? name)

@[simp] theorem depth_eq (s : ScopeStack) : s.depth = s.inner.length + 1 := by
  simp [depth, scopes]

theorem depth_push (s : ScopeStack) : s.push.depth = s.depth + 1 := by
  simp [push]

theorem lookup_push (s : ScopeStack) (name : String) : s.push.lookup name = s.lookup name := by
  simp [lookup, scopes, push, List.findSome?_cons]

theorem pop_push (s : ScopeStack) : s.push.pop = .ok (.empty, s) := rfl

theorem lookup_declare (s : ScopeStack) (name other : String) (b : Binding) :
    (s.declare name b).lookup other = if other = name then some b else s.lookup other := by
  unfold declare lookup scopes
  split <;> rename_i h <;> by_cases hn : other = name <;>
    simp [h, hn, List.findSome?_cons, Table.get?_insert]

end ScopeStack

end ProcLang
