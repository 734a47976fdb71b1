import ProcLang.Program.Listing
import ProcLang.Proofs.Lexicon

/-! # Lines of a listing

What a listing writes for a tree is a list of lines, each with its depth. The depth at which the
listing stands is only the depth of the first of them. -/
namespace ProcLang

structure Line where
  depth : ℕ
  text : String
  deriving DecidableEq, Repr

def Expr.text : Expr → String
  | .ref _ name _ => "(var ref [" ++ name ++ "])"
  | .const _ value _ => "(int const [" ++ toString value ++ "])"

def Var.text (v : Var) : String := "(var def " ++ v.name ++ ", type = " ++ v.type.text ++ ")"

def Proc.text (p : Proc) : String :=
  "(proc " ++ p.name ++ ", rettype = " ++ p.returnType.text ++ ")"

def Module.text (m : Module) : String := "(module " ++ m.name ++ ")"

section

variable (d : ℕ)

def Assignment.lines (a : Assignment) : List Line :=
  [⟨d, "(assignment)"⟩, ⟨d + 1, a.lhs.text⟩, ⟨d + 1, a.rhs.text⟩]

def Block.lines (b : Block) : List Line :=
  ⟨d, "(block)"⟩ :: b.statements.flatMap (Assignment.lines (d + 1))

def Var.line (v : Var) : Line := ⟨d, v.text⟩

def Param.line (_ : Param) : Line := ⟨d, "(param)"⟩

def Proc.lines (p : Proc) : List Line :=
  ⟨d, p.text⟩ ::
    (p.params.map (Param.line (d + 1)) ++ p.locals.map (Var.line (d + 1)) ++ p.body.lines (d + 1))

def Module.lines (m : Module) : List Line :=
  ⟨d, m.text⟩ :: ⟨d, Listing.rule⟩ :: m.vars.map (Var.line d) ++
    ⟨d, Listing.rule⟩ :: m.procs.flatMap (Proc.lines d) ++
      ⟨d, Listing.rule⟩ :: ⟨d, "(exports)"⟩ :: m.exports.map (Line.mk d)

end

def Line.row (x : Line) : Bytes := List.replicate (2 * x.depth) 32 ++ utf8 x.text

def unlines (rows : List Bytes) : Bytes := rows.flatMap (· ++ [10])

namespace Listing

def put (l : Listing) (x : Line) : Listing :=
  { l with written := l.written ++ (indent x.depth ++ x.text ++ "\n") }

def write (l : Listing) (xs : List Line) : Listing := xs.foldl put l

theorem write_append (l : Listing) (xs ys : List Line) :
    (l.write xs).write ys = l.write (xs ++ ys) := List.foldl_append.symm

theorem depth_write (l : Listing) (xs : List Line) : (l.write xs).depth = l.depth := by
  induction xs generalizing l with
  | nil => rfl
  | cons x xs ih => exact ih (l.put x)

/-- From whatever depth it starts, the body writes the lines for this depth and nothing else. -/
def Prints (body : Listing → Listing) (lines : ℕ → List Line) : Prop :=
  ∀ l, body l = l.write (lines l.depth)

theorem prints_line (text : String) : Prints (·.line text) fun d => [⟨d, text⟩] := by
  intro l
  simp only [line, write, put, List.foldl_cons, List.foldl_nil, String.append_assoc]

namespace Prints

variable {f g : Listing → Listing} {xs ys : ℕ → List Line}

theorem comp (hf : Prints f xs) (hg : Prints g ys) :
    Prints (fun l => g (f l)) fun d => xs d ++ ys d := by
  intro l
  calc g (f l) = (f l).write (ys (f l).depth) := hg _
    _ = l.write (xs l.depth ++ ys l.depth) := by rw [hf, depth_write, write_append]

theorem nested (h : Prints f xs) : Prints (·.nested f) fun d => xs (d + 1) := by
  have hdepth (l : Listing) (d : ℕ) (ys : List Line) :
      { l with depth := d }.write ys = { l.write ys with depth := d } := by
    induction ys generalizing l with
    | nil => rfl
    | cons y ys ih => exact ih (l.put y)
  intro l
  have hinner : f { l with depth := l.depth + 1 } =
      { l.write (xs (l.depth + 1)) with depth := l.depth + 1 } := by rw [h, hdepth]
  calc l.nested f = { f { l with depth := l.depth + 1 } with
        depth := (f { l with depth := l.depth + 1 }).depth - 1 } := rfl
    _ = { l.write (xs (l.depth + 1)) with depth := l.depth } := by rw [hinner]; rfl
    _ = l.write (xs (l.depth + 1)) := congrArg (Listing.mk _) (depth_write l _).symm

theorem foldl {α : Type} {f : Listing → α → Listing} {xs : ℕ → α → List Line}
    (h : ∀ a, Prints (f · a) (xs · a)) (as : List α) :
    Prints (as.foldl f ·) fun d => as.flatMap (xs d) := by
  induction as with
  | nil => exact fun _ => rfl
  | cons a as ih => exact (h a).comp ih

theorem foldl_line {α : Type} {f : Listing → α → Listing} {x : ℕ → α → Line}
    (h : ∀ a, Prints (f · a) fun d => [x d a]) (as : List α) :
    Prints (as.foldl f ·) fun d => as.map (x d) := by
  simp only [List.map_eq_flatMap]
  exact foldl h as

end Prints

theorem prints_expr (e : Expr) : Prints (·.expr e) fun d => [⟨d, e.text⟩] := by
  cases e <;> exact prints_line _

theorem prints_assignment (a : Assignment) : Prints (·.assignment a) a.lines :=
  (prints_line _).comp ((prints_expr a.lhs).comp (prints_expr a.rhs)).nested

theorem prints_block (b : Block) : Prints (·.block b) b.lines :=
  (prints_line _).comp (Prints.foldl prints_assignment b.statements).nested

theorem prints_vars (vs : List Var) : Prints (vs.foldl var ·) fun d => vs.map (Var.line d) :=
  .foldl_line (fun _ => prints_line _) vs

theorem prints_params (ps : List Param) :
    Prints (ps.foldl param ·) fun d => ps.map (Param.line d) :=
  .foldl_line (fun _ => prints_line _) ps

theorem prints_proc (p : Proc) : Prints (·.proc p) p.lines :=
  (prints_line _).comp
    (((prints_params p.params).comp (prints_vars p.locals)).comp (prints_block p.body)).nested

theorem prints_module (m : Module) : Prints (·.module m) m.lines := by
  have hrule := prints_line rule
  have hvars := (prints_line m.text).comp (hrule.comp (prints_vars m.vars))
  have hprocs := hrule.comp (.foldl prints_proc m.procs)
  have hexports := (prints_line "(exports)").comp (.foldl_line prints_line m.exports)
  exact (hvars.comp hprocs).comp (hrule.comp hexports)

theorem utf8_written_write (l : Listing) (xs : List Line) :
    utf8 (l.write xs).written = utf8 l.written ++ unlines (xs.map Line.row) := by
  induction xs generalizing l with
  | nil => exact (List.append_nil _).symm
  | cons x xs ih =>
    have hindent : utf8 (indent x.depth) = List.replicate (2 * x.depth) 32 := by
      rw [indent, utf8_ofList, List.flatMap_replicate]
      exact List.flatten_replicate_singleton
    have hput : utf8 (l.put x).written = utf8 l.written ++ (x.row ++ [10]) := by
      rw [put, utf8_append, utf8_append, utf8_append, hindent]
      rfl
    calc utf8 (l.write (x :: xs)).written = utf8 ((l.put x).write xs).written := rfl
      _ = utf8 l.written ++ unlines ((x :: xs).map Line.row) := by
        rw [ih, hput, List.append_assoc]
        rfl

end Listing

theorem Module.utf8_listing (m : Module) : utf8 m.listing = unlines ((m.lines 0).map Line.row) := by
  have h : m.listing = (Listing.empty.write (m.lines 0)).written :=
    congrArg Listing.written (Listing.prints_module m .empty)
  rw [h, Listing.utf8_written_write]
  rfl

end ProcLang
