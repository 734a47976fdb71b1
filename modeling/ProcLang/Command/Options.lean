import ProcLang.Program.Event

/-! What the arguments of the command say: the paths of the source and of the listing, and how many
requests there are to report more and to report less. -/

namespace ProcLang

structure Options (Path : Type) where
  file : Path
  listing : Path
  more : Fin 3
  less : Fin 3
  deriving DecidableEq, Repr

def Options.threshold {Path : Type} (o : Options Path) : Threshold :=
  match (o.more.val : Int) - (o.less.val : Int) with
  | 0 => .upTo .info
  | 1 => .upTo .debug
  | .ofNat _ => .upTo .trace
  | -1 => .upTo .error
  | .negSucc _ => .off

end ProcLang
