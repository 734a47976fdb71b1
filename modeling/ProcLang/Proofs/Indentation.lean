import ProcLang.Proofs.Legibility

/-! # Indentation

How deep a listing stands shows in nothing but the margin of what is written there: two spaces for
each level, put before each line. So what is written for a tree of items is put together from what
is written for each of them. -/
namespace ProcLang

def Unbroken (x : String) : Prop := '\n' ∉ x.toList

namespace Unbroken

variable {x y : String}

theorem of_utf8 (h : 10 ∉ utf8 x) : Unbroken x := by
  intro hx
  apply h
  rw [← String.ofList_toList (s := x), utf8_ofList]
  exact List.mem_flatMap.mpr ⟨'\n', hx, by decide⟩

theorem append (hx : Unbroken x) (hy : Unbroken y) : Unbroken (x ++ y) := by
  rw [Unbroken, String.toList_append]
  exact List.not_mem_append hx hy

theorem type (t : TypeName) : Unbroken t.text := of_utf8 t.feed_notMem

theorem rule : Unbroken Listing.rule := of_utf8 (by decide)

end Unbroken

/-- A text with a margin before the first character of each line; a line ends with its line feed. -/
def withMargin (margin : List Char) : Bool → List Char → List Char
  | _, [] => []
  | starts, c :: cs =>
    (if starts then margin else []) ++ c :: withMargin margin (c = '\n') cs

/-- A text with two spaces for each level put before each of its lines. -/
def indented (d : ℕ) (text : String) : String :=
  String.ofList (withMargin (List.replicate (2 * d) ' ') true text.toList)

/-- Blank lines get a margin as well, and nothing is put behind the last line feed. -/
example : indented 1 "a\n\nb\n" = "  a\n  \n  b\n" := by decide +kernel

section

variable {margin cs rest : List Char}

theorem withMargin_append_feed (h : '\n' ∉ cs) :
    withMargin margin false (cs ++ '\n' :: rest) = cs ++ '\n' :: withMargin margin true rest := by
  induction cs with
  | nil => rfl
  | cons c cs ih =>
    obtain ⟨hc, hcs⟩ := not_or.mp (mt List.mem_cons.mpr h)
    have hfeed : decide (c = '\n') = false := decide_eq_false (Ne.symm hc)
    rw [List.cons_append, withMargin, hfeed, ih hcs]
    rfl

theorem withMargin_line (h : '\n' ∉ cs) : withMargin margin true (cs ++ '\n' :: rest) =
    margin ++ cs ++ '\n' :: withMargin margin true rest := by
  cases cs with
  | nil => exact congrArg (· ++ _) (List.append_nil margin).symm
  | cons c cs =>
    obtain ⟨hc, hcs⟩ := not_or.mp (mt List.mem_cons.mpr h)
    have hfeed : decide (c = '\n') = false := decide_eq_false (Ne.symm hc)
    rw [List.cons_append, withMargin, hfeed, withMargin_append_feed hcs, if_pos rfl,
      List.append_assoc, List.cons_append]

end

namespace Line

def chars (x : Line) : List Char := List.replicate (2 * x.depth) ' ' ++ x.text.toList ++ ['\n']

def deeper (d : ℕ) (x : Line) : Line := ⟨x.depth + d, x.text⟩

theorem withMargin_chars {d : ℕ} {xs : List Line} (h : ∀ x ∈ xs, Unbroken x.text) :
    withMargin (List.replicate (2 * d) ' ') true (xs.flatMap chars) =
      (xs.map (deeper d)).flatMap chars := by
  induction xs with
  | nil => rfl
  | cons x xs ih =>
    obtain ⟨hx, hxs⟩ := List.forall_mem_cons.mp h
    have hrow : '\n' ∉ List.replicate (2 * x.depth) ' ' ++ x.text.toList := by
      rw [List.mem_append, List.mem_replicate]
      rintro (⟨-, hspace⟩ | hfeed)
      · exact absurd hspace (by decide)
      · exact hx hfeed
    have hdepth : List.replicate (2 * d) ' ' ++ List.replicate (2 * x.depth) ' ' =
        List.replicate (2 * (x.depth + d)) ' ' := by
      rw [List.replicate_append_replicate]
      congr 1
      omega
    rw [List.flatMap_cons, chars, List.append_assoc _ ['\n'], List.singleton_append,
      withMargin_line hrow, ih hxs, List.map_cons, List.flatMap_cons, deeper, chars, ← hdepth]
    simp only [List.append_assoc, List.singleton_append]

end Line

namespace Node

/-- The texts in a node that come from outside. -/
def names : Node → List String
  | .module m => m.name :: (m.vars.map Var.name ++ m.procs.flatMap procNames ++ m.exports)
  | .var v => [v.name]
  | .param _ => []
  | .proc p => procNames p
  | .type _ => []
  | .block b => b.statements.flatMap assignmentNames
  | .assignment a => assignmentNames a
  | .expr e => exprNames e
where
  exprNames : Expr → List String
    | .ref _ name _ => [name]
    | .const _ _ _ => []
  assignmentNames (a : Assignment) : List String := exprNames a.lhs ++ exprNames a.rhs
  procNames (p : Proc) : List String :=
    p.name :: (p.locals.map Var.name ++ p.body.statements.flatMap assignmentNames)

def lines (d : ℕ) : Node → List Line
  | .module m => m.lines d
  | .var v => [v.line d]
  | .param p => [p.line d]
  | .proc p => p.lines d
  | .type t => [⟨d, "(type " ++ t.text ++ ")"⟩]
  | .block b => b.lines d
  | .assignment a => a.lines d
  | .expr e => [⟨d, e.text⟩]

end Node

namespace Unbroken

theorem var {v : Var} (h : Unbroken v.name) : Unbroken v.text :=
  ((((of_utf8 (by decide) : Unbroken "(var def ").append h).append (of_utf8 (by decide))).append
    (type v.type)).append (of_utf8 (by decide))

theorem proc {p : Proc} (h : Unbroken p.name) : Unbroken p.text :=
  ((((of_utf8 (by decide) : Unbroken "(proc ").append h).append (of_utf8 (by decide))).append
    (type p.returnType)).append (of_utf8 (by decide))

theorem expr {e : Expr} (h : ∀ y ∈ Node.names.exprNames e, Unbroken y) : Unbroken e.text := by
  cases e with
  | ref id name l =>
    exact ((of_utf8 (by decide) : Unbroken "(var ref [").append
      (h name (List.mem_singleton_self name))).append (of_utf8 (by decide))
  | const id value l =>
    exact ((of_utf8 (by decide) : Unbroken "(int const [").append
      (of_utf8 (Byte.feed_notMem_printed value))).append (of_utf8 (by decide))

end Unbroken

theorem Listing.prints_node (n : Node) : Prints (·.node n) n.lines := by
  cases n with
  | module m => exact prints_module m
  | var v => exact prints_line _
  | param p => exact prints_line _
  | proc p => exact prints_proc p
  | type t => exact prints_line _
  | block b => exact prints_block b
  | assignment a => exact prints_assignment a
  | expr e => exact prints_expr e

/-- At all depths the lines are the same, no line feed in any of them. -/
structure Steady (xs : ℕ → List Line) : Prop where
  deeper : ∀ k d, xs (k + d) = (xs k).map (Line.deeper d)
  unbroken : ∀ d, ∀ x ∈ xs d, Unbroken x.text

namespace Steady

variable {xs ys : ℕ → List Line}

theorem nil : Steady fun _ => [] := ⟨fun _ _ => rfl, fun _ _ => nofun⟩

theorem line {text : String} (h : Unbroken text) : Steady fun d => [⟨d, text⟩] :=
  ⟨fun _ _ => rfl, fun _ _ hx => List.mem_singleton.mp hx ▸ h⟩

theorem append (hx : Steady xs) (hy : Steady ys) : Steady fun d => xs d ++ ys d where
  deeper k d := by rw [hx.deeper, hy.deeper, List.map_append]
  unbroken d := List.forall_mem_append.mpr ⟨hx.unbroken d, hy.unbroken d⟩

theorem nested (h : Steady xs) : Steady fun d => xs (d + 1) where
  deeper k d := by rw [Nat.add_right_comm, h.deeper]
  unbroken d := h.unbroken (d + 1)

theorem flatMap {α : Type} {xs : ℕ → α → List Line} {as : List α}
    (h : ∀ a ∈ as, Steady (xs · a)) : Steady fun d => as.flatMap (xs d) := by
  induction as with
  | nil => exact nil
  | cons a as ih =>
    obtain ⟨ha, has⟩ := List.forall_mem_cons.mp h
    exact ha.append (ih has)

theorem map {α : Type} {text : α → String} {as : List α} (h : ∀ a ∈ as, Unbroken (text a)) :
    Steady fun d => as.map fun a => ⟨d, text a⟩ := by
  simp only [List.map_eq_flatMap]
  exact flatMap fun a ha => line (h a ha)

theorem assignment {a : Assignment} (h : ∀ y ∈ Node.names.assignmentNames a, Unbroken y) :
    Steady a.lines := by
  obtain ⟨hlhs, hrhs⟩ := List.forall_mem_append.mp h
  have hoperands := (line (Unbroken.expr hlhs)).append (line (Unbroken.expr hrhs))
  exact (line (.of_utf8 (by decide))).append hoperands.nested

theorem block {b : Block}
    (h : ∀ y ∈ b.statements.flatMap Node.names.assignmentNames, Unbroken y) :
    Steady b.lines := by
  have hstatements : Steady fun d => b.statements.flatMap (Assignment.lines d) :=
    flatMap fun a ha => assignment fun y hy => h y (List.mem_flatMap.mpr ⟨a, ha, hy⟩)
  exact (line (.of_utf8 (by decide))).append hstatements.nested

theorem vars {vs : List Var} (h : ∀ y ∈ vs.map Var.name, Unbroken y) :
    Steady fun d => vs.map (Var.line d) :=
  map fun _ hv => Unbroken.var (h _ (List.mem_map_of_mem hv))

theorem proc {p : Proc} (h : ∀ y ∈ Node.names.procNames p, Unbroken y) : Steady p.lines := by
  obtain ⟨hname, hinside⟩ := List.forall_mem_cons.mp h
  obtain ⟨hlocals, hbody⟩ := List.forall_mem_append.mp hinside
  have hparams : Steady fun d => p.params.map (Param.line d) :=
    map fun _ _ => .of_utf8 (by decide)
  exact (line (Unbroken.proc hname)).append
    ((hparams.append (vars hlocals)).append (block hbody)).nested

theorem module {m : Module} (h : ∀ y ∈ (Node.module m).names, Unbroken y) : Steady m.lines := by
  obtain ⟨hname, hinside⟩ := List.forall_mem_cons.mp h
  obtain ⟨hdeclared, hexported⟩ := List.forall_mem_append.mp hinside
  obtain ⟨hvars, hprocs⟩ := List.forall_mem_append.mp hdeclared
  have htitle : Unbroken m.text :=
    ((.of_utf8 (by decide) : Unbroken "(module ").append hname).append (.of_utf8 (by decide))
  have hrule : Steady fun d => [⟨d, Listing.rule⟩] := line .rule
  have hbodies : Steady fun d => m.procs.flatMap (Proc.lines d) :=
    flatMap fun p hp => proc fun y hy => hprocs y (List.mem_flatMap.mpr ⟨p, hp, hy⟩)
  have hexports : Steady fun d => m.exports.map (Line.mk d) := map hexported
  have hheader : Steady fun d => [⟨d, "(exports)"⟩] := line (.of_utf8 (by decide))
  exact (((line htitle).append (hrule.append (vars hvars))).append
    (hrule.append hbodies)).append (hrule.append (hheader.append hexports))

theorem node {n : Node} (h : ∀ y ∈ n.names, Unbroken y) : Steady n.lines := by
  cases n with
  | module m => exact module h
  | var v => exact line (Unbroken.var (h _ (List.mem_singleton_self _)))
  | param p => exact line (.of_utf8 (by decide))
  | proc p => exact proc h
  | type t =>
    exact line (((.of_utf8 (by decide) : Unbroken "(type ").append (.type t)).append
      (.of_utf8 (by decide)))
  | block b => exact block h
  | assignment a => exact assignment h
  | expr e => exact line (Unbroken.expr h)

end Steady

namespace Listing

theorem toList_written_write (l : Listing) (xs : List Line) :
    (l.write xs).written.toList = l.written.toList ++ xs.flatMap Line.chars := by
  induction xs generalizing l with
  | nil => exact (List.append_nil _).symm
  | cons x xs ih =>
    have hput : (l.put x).written.toList = l.written.toList ++ x.chars := by
      rw [put, String.toList_append, String.toList_append, String.toList_append, indent,
        String.toList_ofList]
      rfl
    rw [write, List.foldl_cons, ← write, ih, hput, List.flatMap_cons, List.append_assoc]

theorem node_eq_write (l : Listing) (n : Node) : l.node n = l.write (n.lines l.depth) :=
  prints_node n l

theorem depth_node (l : Listing) (n : Node) : (l.node n).depth = l.depth := by
  rw [node_eq_write, depth_write]

theorem node_eq {n : Node} (h : ∀ y ∈ n.names, Unbroken y) (l : Listing) :
    l.node n = ⟨l.written ++ indented l.depth n.listing, l.depth⟩ := by
  have hsteady := Steady.node h
  have hlisting : n.listing.toList = (n.lines 0).flatMap Line.chars := by
    rw [Node.listing, node_eq_write, toList_written_write]
    rfl
  have hwritten : (l.node n).written = l.written ++ indented l.depth n.listing := by
    apply String.toList_inj.mp
    rw [node_eq_write, toList_written_write, String.toList_append, indented,
      String.toList_ofList, hlisting, Line.withMargin_chars (hsteady.unbroken 0),
      ← hsteady.deeper, Nat.zero_add]
  rw [← hwritten, ← l.depth_node n]

/-- Write with `body` so many levels deeper, then come back up. -/
def within : ℕ → (Listing → Listing) → Listing → Listing
  | 0, body, l => body l
  | d + 1, body, l => l.nested (within d body)

theorem within_node {n : Node} (h : ∀ y ∈ n.names, Unbroken y) (d : ℕ) (l : Listing) :
    l.within d (·.node n) = ⟨l.written ++ indented (l.depth + d) n.listing, l.depth⟩ := by
  induction d generalizing l with
  | zero => exact node_eq h l
  | succ d ih =>
    rw [within, nested, ih, Nat.add_right_comm, Nat.add_assoc]
    rfl

mutual

/-- What an item adds to a listing that stands at the given depth. -/
def Item.output (d : ℕ) : Item → String
  | .line text => indent d ++ text ++ "\n"
  | .group items => outputs (d + 1) items
  | .node n => ((⟨"", d⟩ : Listing).node n).written

def outputs (d : ℕ) : List Item → String
  | [] => ""
  | i :: is => i.output d ++ outputs d is

end

theorem node_eq_output (l : Listing) (n : Node) :
    l.node n = ⟨l.written ++ (Item.node n).output l.depth, l.depth⟩ := by
  have hwritten : (l.node n).written = l.written ++ (Item.node n).output l.depth := by
    apply String.toList_inj.mp
    rw [String.toList_append, Item.output, node_eq_write, node_eq_write, toList_written_write,
      toList_written_write]
    rfl
  rw [← hwritten, ← l.depth_node n]

mutual

theorem item_eq (l : Listing) (i : Item) :
    l.item i = ⟨l.written ++ i.output l.depth, l.depth⟩ := by
  cases i with
  | line text =>
    rw [item, line, Item.output, String.append_assoc, String.append_assoc, String.append_assoc]
  | group is =>
    rw [item, nested, items_eq, Item.output]
    rfl
  | node n => rw [item, node_eq_output]

theorem items_eq (l : Listing) (is : List Item) :
    l.items is = ⟨l.written ++ outputs l.depth is, l.depth⟩ := by
  cases is with
  | nil => rw [items, outputs, String.append_empty]
  | cons i is => rw [items, item_eq, items_eq, outputs, String.append_assoc]

end

end Listing

open Listing in
/-- What is written for a node or a tree of items depends on the depth in nothing but the margin,
and on what has been written before not at all. -/
theorem listing_is_compositional :
    (∀ (n : Node) (l : Listing), (∀ y ∈ n.names, Unbroken y) →
      l.node n = ⟨l.written ++ indented l.depth n.listing, l.depth⟩ ∧
      ∀ d, l.within d (·.node n) =
        ⟨l.written ++ indented (l.depth + d) n.listing, l.depth⟩) ∧
    (∀ (l : Listing) (is : List Item),
      l.items is = ⟨l.written ++ outputs l.depth is, l.depth⟩) ∧
    ∀ (n : Node) (d : ℕ), (∀ y ∈ n.names, Unbroken y) →
      (Item.node n).output d = indented d n.listing := by
  refine ⟨fun _ l h => ⟨node_eq h l, fun d => within_node h d l⟩, items_eq, ?_⟩
  intro n d h
  rw [Item.output, node_eq h, String.empty_append]

/-- Two levels down, a variable is written with four blanks before it. -/
theorem listing_of_nested_variable :
    let n : Node := .var ⟨0, "x", .int, .start⟩
    (∀ y ∈ n.names, Unbroken y) ∧
    (∀ l : Listing, l.within 2 (·.node n) =
      ⟨l.written ++ indented (l.depth + 2) n.listing, l.depth⟩) ∧
    indented 2 n.listing = "    (var def x, type = int)\n" := by
  intro n
  have h : ∀ y ∈ n.names, Unbroken y := by
    intro y hy
    obtain rfl := List.mem_singleton.mp hy
    unfold Unbroken
    decide
  obtain ⟨hnode, -⟩ := listing_is_compositional
  exact ⟨h, fun l => (hnode n l h).2 2, by decide +kernel⟩

/-- A group lies one level deeper than what it stands among. -/
example : (Listing.empty.items [.line "a", .group [.line "b", .node (.type .int)]]).written =
    "a\n  b\n  (type int)\n" := by
  decide +kernel

end ProcLang
