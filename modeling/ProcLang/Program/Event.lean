import ProcLang.Program.Diagnostic

/-! What the front end does, as events in the order in which they happen, and the log records
that events leave behind. -/

namespace ProcLang

inductive Level where
  | error
  | warn
  | info
  | debug
  | trace
  deriving DecidableEq, Repr

namespace Level

def name : Level → String
  | .error => "ERROR"
  | .warn => "WARN"
  | .info => "INFO"
  | .debug => "DEBUG"
  | .trace => "TRACE"

/-- Greater for what is more detailed. -/
def detail : Level → Nat
  | .error => 1
  | .warn => 2
  | .info => 3
  | .debug => 4
  | .trace => 5

end Level

/-- The most detailed level to be kept, if any. -/
inductive Threshold where
  | off
  | upTo (l : Level)
  deriving DecidableEq, Repr

def Threshold.admits : Threshold → Level → Bool
  | .off, _ => false
  | .upTo most, l => l.detail ≤ most.detail

structure Record where
  level : Level
  target : String
  message : String
  deriving DecidableEq, Repr

inductive Event where
  /-- The scanner was asked for a token. -/
  | scanned (answer : Scanned)
  /-- A token has been taken for good, after the answer behind it was scanned. -/
  | consumed (x : Lookahead)
  | scopePushed (depth : Nat)
  | scopePopped (depth : Nat)
  | declaredVar (v : Var)
  | declaredProc (p : Proc)
  | exported (name : String)
  | parsed (m : Module)
  | lowered (nodes : Nat) (module : String)
  | opened (path : String) (length : Nat)
  | summarized (m : Module)
  | wroteListing (path : String)
  | countedNodes (nodes : Nat)
  deriving DecidableEq, Repr

namespace Event

def counts (m : Module) : String :=
  m.name ++ ": " ++ toString m.vars.length ++ " vars, " ++ toString m.procs.length ++
    " procs, " ++ toString m.exports.length ++ " exports"

def consumed? : Event → Option Token
  | .consumed (.token t) => some t
  | _ => none

/-- The end of a source, lexical errors and the consumption of tokens leave no record. -/
def record? : Event → Option Record
  | .scanned (.token t) => some ⟨.trace, "plume::parser::lexer",
      "token " ++ t.terminal.describe ++ " at " ++ t.location.describe⟩
  | .scanned _ => none
  | .consumed _ => none
  | .scopePushed depth => some ⟨.debug, "plume::parser::scope",
      "pushed scope, depth " ++ toString depth⟩
  | .scopePopped depth => some ⟨.debug, "plume::parser::scope",
      "popped scope, depth " ++ toString depth⟩
  | .declaredVar v => some ⟨.debug, "plume::parser::declarations",
      "declared var " ++ v.name ++ ": " ++ v.type.text ++ " at " ++ v.location.describe⟩
  | .declaredProc p => some ⟨.debug, "plume::parser::declarations",
      "declared proc " ++ p.name ++ "(): " ++ p.returnType.text ++ " with " ++
        toString p.locals.length ++ " locals, " ++ toString p.body.statements.length ++
        " statements"⟩
  | .exported name => some ⟨.debug, "plume::parser::declarations", "exported " ++ name⟩
  | .parsed m => some ⟨.debug, "plume::parser::parse", "parsed module " ++ counts m⟩
  | .lowered nodes module => some ⟨.debug, "plume::codegen",
      "generated " ++ toString nodes ++ " nodes for module " ++ module⟩
  | .opened path length => some ⟨.info, "plume::parser",
      "parsing " ++ path ++ " (" ++ toString length ++ " bytes)"⟩
  | .summarized m => some ⟨.info, "plume", "parsed " ++ counts m⟩
  | .wroteListing path => some ⟨.info, "plume", "wrote IR dump to " ++ path⟩
  | .countedNodes nodes => some ⟨.info, "plume",
      "generator built " ++ toString nodes ++ " nodes"⟩

end Event

def Threshold.records (threshold : Threshold) (events : List Event) : List Record :=
  (events.filterMap Event.record?).filter fun r => threshold.admits r.level

/-- A value together with the events that led to it. -/
structure Logged (α : Type) where
  events : List Event
  value : α
  deriving DecidableEq, Repr

namespace Logged

variable {α β : Type}

def after (events : List Event) (x : Logged α) : Logged α := ⟨events ++ x.events, x.value⟩

def map (f : α → β) (x : Logged α) : Logged β := ⟨x.events, f x.value⟩

end Logged

namespace ScopeStack

def enter (s : ScopeStack) : Logged ScopeStack := ⟨[.scopePushed s.push.depth], s.push⟩

def leave (s : ScopeStack) : Except ScopeError (Logged (Scope × ScopeStack)) :=
  s.pop.map fun (top, below) => ⟨[.scopePopped below.depth], (top, below)⟩

end ScopeStack

end ProcLang
