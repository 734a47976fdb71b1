import ProcLang.Proofs.Line
import ProcLang.Proofs.Transcript

/-! # Legibility

A listing whose names are words tells everything of the tree but numbers and places. The name of the
module may itself look like a part of a listing, so the sections are found from the end. -/
namespace ProcLang

open Lexicon

def Var.shape (v : Var) : Var := { v with id := 0, location := .start }

def Param.shape (_ : Param) : Param := ⟨0, .start⟩

def Expr.shape : Expr → Expr
  | .ref _ name _ => .ref 0 name .start
  | .const _ value _ => .const 0 value .start

def Assignment.shape (a : Assignment) : Assignment := ⟨0, a.lhs.shape, a.rhs.shape, .start⟩

def Block.shape (b : Block) : Block := ⟨0, b.statements.map Assignment.shape, .start⟩

def Proc.shape (p : Proc) : Proc :=
  { p with
    id := 0
    params := p.params.map Param.shape
    locals := p.locals.map Var.shape
    body := p.body.shape
    location := .start }

/-- The tree with every number zero and every place the start of the text. -/
def Module.shape (m : Module) : Module :=
  { m with
    vars := m.vars.map Var.shape
    procs := m.procs.map Proc.shape
    location := .start }

/-- Where names are words, as they are in whatever has been read. -/
def IsWord (x : String) : Prop := utf8 x ∈ word

def Var.Named (v : Var) : Prop := IsWord v.name

def Expr.Named : Expr → Prop
  | .ref _ name _ => IsWord name
  | .const _ _ _ => True

structure Assignment.Named (a : Assignment) : Prop where
  lhs : a.lhs.Named
  rhs : a.rhs.Named

structure Proc.Named (p : Proc) : Prop where
  name : IsWord p.name
  locals : ∀ v ∈ p.locals, v.Named
  body : ∀ a ∈ p.body.statements, a.Named

structure Module.Named (m : Module) : Prop where
  vars : ∀ v ∈ m.vars, v.Named
  procs : ∀ p ∈ m.procs, p.Named
  exports : ∀ x ∈ m.exports, IsWord x

section

variable {α : Type} {p : α → Bool} {front front' rest rest' : List α}

theorem append_inj_of_stop (hf : ∀ b ∈ front, p b = true) (hr : ∀ b ∈ rest.head?, p b = false)
    (hf' : ∀ b ∈ front', p b = true) (hr' : ∀ b ∈ rest'.head?, p b = false)
    (h : front ++ rest = front' ++ rest') : front = front' ∧ rest = rest' := by
  refine ⟨?_, ?_⟩
  · rw [← takeWhile_of_stop hf hr, h, takeWhile_of_stop hf' hr']
  · rw [← dropWhile_of_stop hf hr, h, dropWhile_of_stop hf' hr']

variable [DecidableEq α] {x : α}

theorem append_cons_inj_first (hf : x ∉ front) (hf' : x ∉ front')
    (h : front ++ x :: rest = front' ++ x :: rest') : front = front' ∧ rest = rest' := by
  have hne {front : List α} (hx : x ∉ front) : ∀ b ∈ front, decide (b ≠ x) = true :=
    fun b hb => decide_eq_true fun heq => hx (heq ▸ hb)
  have hstop (rest : List α) : ∀ b ∈ (x :: rest).head?, decide (b ≠ x) = false := by
    rintro b ⟨⟩
    simp
  obtain ⟨hfront, hrest⟩ := append_inj_of_stop (hne hf) (hstop rest) (hne hf') (hstop rest') h
  exact ⟨hfront, (List.cons.inj hrest).2⟩

theorem append_cons_inj_last (hr : x ∉ rest) (hr' : x ∉ rest')
    (h : front ++ x :: rest = front' ++ x :: rest') : front = front' ∧ rest = rest' := by
  have hreverse := congrArg List.reverse h
  simp only [List.reverse_append, List.reverse_cons, List.append_assoc,
    List.singleton_append] at hreverse
  obtain ⟨hrest, hfront⟩ := append_cons_inj_first (by simpa using hr) (by simpa using hr') hreverse
  exact ⟨List.reverse_inj.mp hfront, List.reverse_inj.mp hrest⟩

end

/-- Among the values with the property, what `f` gives tells what `g` gives. -/
def Tells {α β γ : Type} (P : α → Prop) (f : α → β) (g : α → γ) : Prop :=
  ∀ a b, P a → P b → f a = f b → g a = g b

namespace Tells

variable {α β γ : Type} {P : α → Prop} {f : α → β} {g : α → γ}

theorem map (h : Tells P f g) :
    Tells (fun as : List α => ∀ a ∈ as, P a) (List.map f) (List.map g) := by
  intro as bs ha hb heq
  induction as generalizing bs with
  | nil =>
    obtain rfl := List.map_eq_nil_iff.mp heq.symm
    rfl
  | cons a as ih =>
    obtain ⟨b, bs, rfl, hab, hrest⟩ := List.map_eq_cons_iff.mp heq.symm
    obtain ⟨ha, has⟩ := List.forall_mem_cons.mp ha
    obtain ⟨hb, hbs⟩ := List.forall_mem_cons.mp hb
    rw [List.map_cons, List.map_cons, h a b ha hb hab.symm, ih bs has hbs hrest.symm]

theorem flatMap {f : α → List β} {p : β → Bool} (h : Tells P f g)
    (hp : ∀ a, P a → ∃ x xs, f a = x :: xs ∧ p x = false ∧ ∀ y ∈ xs, p y = true) :
    Tells (fun as : List α => ∀ a ∈ as, P a) (List.flatMap f) (List.map g) := by
  have hstop {as : List α} (has : ∀ a ∈ as, P a) : ∀ x ∈ (as.flatMap f).head?, p x = false := by
    cases as with
    | nil => rintro x ⟨⟩
    | cons a as =>
      obtain ⟨x, xs, hx, hpx, -⟩ := hp a (has a List.mem_cons_self)
      rw [List.flatMap_cons, hx]
      rintro y ⟨⟩
      exact hpx
  intro as bs ha hb heq
  induction as generalizing bs with
  | nil =>
    cases bs with
    | nil => rfl
    | cons b bs =>
      obtain ⟨x, xs, hx, -, -⟩ := hp b (hb b List.mem_cons_self)
      rw [List.flatMap_cons, hx] at heq
      cases heq
  | cons a as ih =>
    obtain ⟨ha, has⟩ := List.forall_mem_cons.mp ha
    obtain ⟨x, xs, hx, -, hxs⟩ := hp a ha
    cases bs with
    | nil =>
      rw [List.flatMap_cons, hx] at heq
      cases heq
    | cons b bs =>
      obtain ⟨hb, hbs⟩ := List.forall_mem_cons.mp hb
      obtain ⟨y, ys, hy, -, hys⟩ := hp b hb
      rw [List.flatMap_cons, List.flatMap_cons, hx, hy] at heq
      obtain ⟨hhead, htail⟩ := List.cons.inj heq
      obtain ⟨hpiece, hrest⟩ := append_inj_of_stop hxs (hstop has) hys (hstop hbs) htail
      have hab : f a = f b := by rw [hx, hy, hhead, hpiece]
      rw [List.map_cons, List.map_cons, h a b ha hb hab, ih bs has hbs hrest]

end Tells

theorem IsWord.notMem {x : String} (h : IsWord x) {b : UInt8} (hb : Byte.isWordPart b = false) :
    b ∉ utf8 x := by
  intro hmem
  rw [isWordPart_of_mem_word h b hmem] at hb
  cases hb

namespace Byte

theorem printed_sign (a : ℤ) : ∃ n : ℕ, a = n ∧ utf8 (toString a) = utf8 (toString n) ∨
    a = -n ∧ utf8 (toString a) = 45 :: utf8 (toString n) := by
  cases a with
  | ofNat n => exact ⟨n, Or.inl ⟨rfl, rfl⟩⟩
  | negSucc n =>
    refine ⟨n + 1, Or.inr ⟨rfl, ?_⟩⟩
    exact utf8_append "-" (toString (n + 1))

theorem mem_printed {n : ℕ} {b : UInt8} (h : b ∈ utf8 (toString n)) : isDigit b = true :=
  (mem_number.mp (printed n).1).2 b h

theorem feed_notMem_printed (a : ℤ) : 10 ∉ utf8 (toString a) := by
  have hnat (n : ℕ) : 10 ∉ utf8 (toString n) := fun h => absurd (mem_printed h) (by decide)
  obtain ⟨n, ⟨-, hn⟩ | ⟨-, hn⟩⟩ := printed_sign a <;> rw [hn]
  · exact hnat n
  · exact List.not_mem_cons_of_ne_of_not_mem (by decide) (hnat n)

theorem printed_injective {a b : ℤ} (h : utf8 (toString a) = utf8 (toString b)) : a = b := by
  have hnat {m n : ℕ} (h : utf8 (toString m) = utf8 (toString n)) : m = n := by
    rw [← (printed m).2, h, (printed n).2]
  have hmixed {m n : ℕ} : utf8 (toString m) ≠ 45 :: utf8 (toString n) := fun h =>
    absurd (mem_printed (h ▸ List.mem_cons_self)) (by decide : ¬ isDigit 45 = true)
  obtain ⟨m, ⟨rfl, hm⟩ | ⟨rfl, hm⟩⟩ := printed_sign a <;>
    obtain ⟨n, ⟨rfl, hn⟩ | ⟨rfl, hn⟩⟩ := printed_sign b <;> rw [hm, hn] at h
  · rw [hnat h]
  · exact absurd h hmixed
  · exact absurd h.symm hmixed
  · rw [hnat (List.cons.inj h).2]

end Byte

theorem IsWord.text_inj {x y : String} (hx : IsWord x) (hy : IsWord y) {t u : TypeName}
    {front middle back : String}
    (hm : ∃ b bs, utf8 middle = b :: bs ∧ Byte.isWordPart b = false)
    (h : front ++ x ++ middle ++ t.text ++ back = front ++ y ++ middle ++ u.text ++ back) :
    x = y ∧ t = u := by
  have h := congrArg utf8 h
  obtain ⟨b, bs, hm, hb⟩ := hm
  simp only [utf8_append, List.append_assoc, hm, List.cons_append] at h
  obtain ⟨hname, hrest⟩ := append_cons_inj_first (hx.notMem hb) (hy.notMem hb)
    (List.append_cancel_left h)
  have htype := List.append_cancel_right (List.append_cancel_left hrest)
  exact ⟨utf8_injective hname, TypeName.text_injective (utf8_injective htype)⟩

theorem Var.text_tells : Tells Var.Named Var.text Var.shape := by
  intro v w hv hw h
  obtain ⟨hname, htype⟩ := IsWord.text_inj hv hw ⟨_, _, rfl, by decide⟩ h
  rw [shape, shape, hname, htype]

/-- The first two bytes tell the kind of a line. -/
def opening (x : String) : Bytes := (utf8 x).take 2

theorem Var.opening_text (v : Var) : opening v.text = [40, 118] := by
  simp only [opening, text, utf8_append, List.append_assoc]
  rfl

theorem Proc.opening_text (p : Proc) : opening p.text = [40, 112] := by
  simp only [opening, text, utf8_append, List.append_assoc]
  rfl

theorem Var.text_ne (v : Var) {x : String} (h : opening x ≠ [40, 118]) : v.text ≠ x := by
  rintro rfl
  exact h v.opening_text

theorem Proc.text_ne (p : Proc) {x : String} (h : opening x ≠ [40, 112]) : p.text ≠ x := by
  rintro rfl
  exact h p.opening_text

theorem Expr.opening_ref (id : NodeId) (name : String) (l : Location) :
    opening (Expr.ref id name l).text = [40, 118] := by
  simp only [opening, text, utf8_append, List.append_assoc]
  rfl

theorem Expr.opening_const (id : NodeId) (value : ℤ) (l : Location) :
    opening (Expr.const id value l).text = [40, 105] := by
  simp only [opening, text, utf8_append, List.append_assoc]
  rfl

theorem Expr.text_tells : Tells Expr.Named Expr.text Expr.shape := by
  intro e f he hf h
  have hkind := congrArg opening h
  cases e with
  | ref id name l =>
    cases f with
    | ref id' name' l' =>
      have h := congrArg utf8 h
      simp only [text, utf8_append] at h
      have hname := List.append_cancel_left (List.append_cancel_right h)
      rw [shape, shape, utf8_injective hname]
    | const id' value l' =>
      rw [opening_ref, opening_const] at hkind
      cases hkind
  | const id value l =>
    cases f with
    | ref id' name l' =>
      rw [opening_const, opening_ref] at hkind
      cases hkind
    | const id' value' l' =>
      have h := congrArg utf8 h
      simp only [text, utf8_append] at h
      have hvalue := List.append_cancel_left (List.append_cancel_right h)
      rw [shape, shape, Byte.printed_injective hvalue]

theorem Var.line_tells (d : ℕ) : Tells Var.Named (Var.line d) Var.shape :=
  fun v w hv hw h => Var.text_tells v w hv hw (congrArg Line.text h)

theorem Assignment.lines_tells (d : ℕ) :
    Tells Assignment.Named (Assignment.lines d) Assignment.shape := by
  intro a b ha hb h
  simp only [lines, List.cons.injEq, Line.mk.injEq, true_and, and_true] at h
  rw [shape, shape, Expr.text_tells _ _ ha.lhs hb.lhs h.1,
    Expr.text_tells _ _ ha.rhs hb.rhs h.2]

theorem Block.lines_tells (d : ℕ) :
    Tells (fun b : Block => ∀ a ∈ b.statements, a.Named) (Block.lines d) Block.shape := by
  intro b c hb hc h
  have htells := (Assignment.lines_tells (d + 1)).flatMap (p := fun x => x.depth ≠ d + 1)
    fun a _ => ⟨_, _, rfl, by simp, by simp⟩
  have hstatements := htells _ _ hb hc (List.cons.inj h).2
  rw [shape, shape, hstatements]

theorem Proc.lines_tells (d : ℕ) : Tells Proc.Named (Proc.lines d) Proc.shape := by
  have hblock (p : Proc) : (⟨d + 1, "(block)"⟩ : Line) ∉
      p.params.map (Param.line (d + 1)) ++ p.locals.map (Var.line (d + 1)) := by
    rw [List.mem_append, List.mem_map, List.mem_map]
    rintro (⟨x, -, h⟩ | ⟨v, -, h⟩)
    · exact absurd (congrArg Line.text h) (by decide : "(param)" ≠ "(block)")
    · exact v.text_ne (x := "(block)") (by decide) (congrArg Line.text h)
  have hparam (p : Proc) : ∀ x ∈ p.params.map (Param.line (d + 1)),
      decide (x = ⟨d + 1, "(param)"⟩) = true := by
    simp [Param.line]
  have hlocal (p : Proc) : ∀ x ∈ (p.locals.map (Var.line (d + 1))).head?,
      decide (x = ⟨d + 1, "(param)"⟩) = false := by
    intro x hx
    obtain ⟨v, -, rfl⟩ := List.mem_map.mp (List.mem_of_mem_head? hx)
    exact decide_eq_false fun h =>
      v.text_ne (x := "(param)") (by decide) (congrArg Line.text h)
  intro p q hp hq h
  obtain ⟨hhead, hrest⟩ := List.cons.inj h
  obtain ⟨hname, htype⟩ := IsWord.text_inj hp.name hq.name ⟨_, _, rfl, by decide⟩
    (congrArg Line.text hhead)
  obtain ⟨hbefore, hbody⟩ := append_cons_inj_first (hblock p) (hblock q) hrest
  obtain ⟨hparams, hlocals⟩ :=
    append_inj_of_stop (hparam p) (hlocal p) (hparam q) (hlocal q) hbefore
  have hparam_tells : Tells (fun _ => True) (Param.line (d + 1)) Param.shape := fun _ _ _ _ _ => rfl
  have hparams := hparam_tells.map _ _ (fun _ _ => trivial) (fun _ _ => trivial) hparams
  have hlocals := (Var.line_tells (d + 1)).map _ _ hp.locals hq.locals hlocals
  have hbody := Block.lines_tells (d + 1) _ _ hp.body hq.body (congrArg (List.cons _) hbody)
  rw [shape, shape, hname, htype, hparams, hlocals, hbody]

/-- One line, the first byte of which is not taken for an indentation. -/
def Clear (x : String) : Prop := 10 ∉ utf8 x ∧ (utf8 x).head?.any (· ≠ 32) = true

instance (x : String) : Decidable (Clear x) := inferInstanceAs (Decidable (_ ∧ _))

theorem Clear.append {x y : String} (hx : Clear x) (hy : 10 ∉ utf8 y) : Clear (x ++ y) := by
  obtain ⟨hfeed, hhead⟩ := hx
  rw [Clear, utf8_append]
  refine ⟨fun h => (List.mem_append.mp h).elim hfeed hy, ?_⟩
  cases hutf8 : utf8 x with
  | nil =>
    rw [hutf8] at hhead
    cases hhead
  | cons b bs =>
    rw [hutf8] at hhead
    exact hhead

theorem IsWord.clear {x : String} (h : IsWord x) : Clear x := by
  refine ⟨h.notMem (by decide), ?_⟩
  cases hx : utf8 x with
  | nil => exact absurd (hx ▸ h) empty_notMem_word
  | cons b bs =>
    have hb : b ≠ 32 := by
      rintro rfl
      exact h.notMem (b := 32) (by decide) (hx ▸ List.mem_cons_self)
    simpa using hb

theorem TypeName.feed_notMem (t : TypeName) : 10 ∉ utf8 t.text := by cases t <;> decide

theorem Var.clear_text {v : Var} (h : v.Named) : Clear v.text :=
  ((((by decide : Clear "(var def ").append (IsWord.clear h).1).append (by decide)).append
    v.type.feed_notMem).append (by decide)

theorem Proc.clear_text {p : Proc} (h : p.Named) : Clear p.text :=
  ((((by decide : Clear "(proc ").append h.name.clear.1).append (by decide)).append
    p.returnType.feed_notMem).append (by decide)

theorem Expr.clear_text {e : Expr} (h : e.Named) : Clear e.text := by
  cases e with
  | ref id name l =>
    exact ((by decide : Clear "(var ref [").append (IsWord.clear h).1).append (by decide)
  | const id value l =>
    exact ((by decide : Clear "(int const [").append (Byte.feed_notMem_printed value)).append
      (by decide)

theorem Block.clear_lines {d : ℕ} {b : Block} (h : ∀ a ∈ b.statements, a.Named) :
    ∀ x ∈ b.lines d, Clear x.text := by
  refine List.forall_mem_cons.mpr ⟨(by decide : Clear "(block)"), fun x hx => ?_⟩
  obtain ⟨a, ha, hx⟩ := List.mem_flatMap.mp hx
  have hall : ∀ x ∈ a.lines (d + 1), Clear x.text := by
    refine List.forall_mem_cons.mpr ⟨(by decide : Clear "(assignment)"), ?_⟩
    refine List.forall_mem_cons.mpr ⟨Expr.clear_text (h a ha).lhs, ?_⟩
    exact List.forall_mem_singleton.mpr (Expr.clear_text (h a ha).rhs)
  exact hall x hx

theorem Proc.clear_lines {d : ℕ} {p : Proc} (h : p.Named) : ∀ x ∈ p.lines d, Clear x.text := by
  refine List.forall_mem_cons.mpr ⟨clear_text h, ?_⟩
  refine List.forall_mem_append.mpr ⟨List.forall_mem_append.mpr ⟨?_, ?_⟩, Block.clear_lines h.body⟩
  · exact List.forall_mem_map.mpr fun _ _ => (by decide : Clear "(param)")
  · exact List.forall_mem_map.mpr fun v hv => Var.clear_text (h.locals v hv)

theorem Line.row_tells : Tells (fun x : Line => Clear x.text) Line.row id := by
  have hspaces (n : ℕ) : ∀ b ∈ List.replicate n (32 : UInt8), decide (b = 32) = true := by
    simp
  have hstop {x : String} (hx : Clear x) : ∀ b ∈ (utf8 x).head?, decide (b = 32) = false := by
    intro b hb
    have hhead := hx.2
    rw [Option.mem_def.mp hb] at hhead
    simpa using hhead
  rintro ⟨d, x⟩ ⟨e, y⟩ hx hy h
  obtain ⟨hd, htext⟩ :=
    append_inj_of_stop (hspaces (2 * d)) (hstop hx) (hspaces (2 * e)) (hstop hy) h
  have hd : 2 * d = 2 * e := by simpa using congrArg List.length hd
  obtain rfl := utf8_injective htext
  obtain rfl : d = e := Nat.eq_of_mul_eq_mul_left (by decide) hd
  rfl

theorem unlines_injective {xs ys : List Bytes} (hx : ∀ r ∈ xs, 10 ∉ r) (hy : ∀ r ∈ ys, 10 ∉ r)
    (h : unlines xs = unlines ys) : xs = ys := by
  have hcons (r : Bytes) (rs : List Bytes) : unlines (r :: rs) = r ++ 10 :: unlines rs := by
    simp [unlines]
  have hne (r : Bytes) (rs : List Bytes) : unlines (r :: rs) ≠ [] := by
    simp [unlines]
  induction xs generalizing ys with
  | nil =>
    cases ys with
    | nil => rfl
    | cons r ys => exact absurd h.symm (hne r ys)
  | cons r xs ih =>
    cases ys with
    | nil => exact absurd h (hne r xs)
    | cons s ys =>
      obtain ⟨hr, hxs⟩ := List.forall_mem_cons.mp hx
      obtain ⟨hs, hys⟩ := List.forall_mem_cons.mp hy
      rw [hcons, hcons] at h
      obtain ⟨rfl, hrest⟩ := append_cons_inj_first hr hs h
      rw [ih hxs hys hrest]

theorem exists_rows (text : Bytes) :
    ∃ rows, (∀ r ∈ rows, 10 ∉ r) ∧ unlines rows = text ++ [10] := by
  induction text with
  | nil => exact ⟨[[]], by simp, rfl⟩
  | cons b text ih =>
    obtain ⟨rows, hrows, htext⟩ := ih
    rw [List.cons_append, ← htext]
    by_cases hb : b = 10
    · exact ⟨[] :: rows, List.forall_mem_cons.mpr ⟨List.not_mem_nil, hrows⟩, hb ▸ rfl⟩
    · cases rows with
      | nil => simp [unlines] at htext
      | cons r rows =>
        obtain ⟨hr, hrows⟩ := List.forall_mem_cons.mp hrows
        have hbr : 10 ∉ b :: r := List.not_mem_cons_of_ne_of_not_mem (Ne.symm hb) hr
        exact ⟨(b :: r) :: rows, List.forall_mem_cons.mpr ⟨hbr, hrows⟩, rfl⟩

theorem Line.feed_notMem_row {x : Line} (h : Clear x.text) : 10 ∉ x.row := by
  intro hmem
  rcases List.mem_append.mp hmem with hmem | hmem
  · exact absurd (List.eq_of_mem_replicate hmem) (by decide)
  · exact h.1 hmem

theorem Line.row_notMem {x : Line} {xs : List Line} (hx : Clear x.text)
    (hxs : ∀ y ∈ xs, Clear y.text) (h : x ∉ xs) : x.row ∉ xs.map Line.row := by
  intro hmem
  obtain ⟨y, hy, heq⟩ := List.mem_map.mp hmem
  obtain rfl : y = x := row_tells y x (hxs y hy) hx heq
  exact h hy

theorem sections_inj {α : Type} [DecidableEq α] {r x : α} {front front' vars vars' procs procs'
    names names' : List α} (hvars : r ∉ vars) (hvars' : r ∉ vars') (hprocs : r ∉ procs)
    (hprocs' : r ∉ procs') (hnames : x ∉ names) (hnames' : x ∉ names')
    (h : front ++ r :: vars ++ r :: procs ++ r :: x :: names =
      front' ++ r :: vars' ++ r :: procs' ++ r :: x :: names') :
    front = front' ∧ vars = vars' ∧ procs = procs' ∧ names = names' := by
  have hlast (before : List α) (names : List α) : before ++ r :: x :: names =
      before ++ [r] ++ x :: names := List.append_cons before r _
  -- The front may hold rules and marks of its own, so each cut is at the last one.
  rw [hlast, hlast] at h
  obtain ⟨h, hn⟩ := append_cons_inj_last hnames hnames' h
  obtain ⟨h, hp⟩ := append_cons_inj_last hprocs hprocs' (List.append_cancel_right h)
  obtain ⟨h, hv⟩ := append_cons_inj_last hvars hvars' h
  exact ⟨h, hv, hp, hn⟩

def ruleLine : Line := ⟨0, Listing.rule⟩

def exportsLine : Line := ⟨0, "(exports)"⟩

theorem Proc.lines_eq_cons (d : ℕ) (p : Proc) :
    ∃ xs, p.lines d = ⟨d, p.text⟩ :: xs ∧ ∀ x ∈ xs, x.depth ≠ d := by
  have hassignment (a : Assignment) : ∀ x ∈ a.lines (d + 1 + 1), x.depth ≠ d := by
    intro x hx
    simp only [Assignment.lines, List.mem_cons, List.not_mem_nil, or_false] at hx
    rcases hx with rfl | rfl | rfl <;> dsimp only <;> omega
  refine ⟨_, rfl, List.forall_mem_append.mpr ⟨List.forall_mem_append.mpr ⟨?_, ?_⟩, ?_⟩⟩
  · exact List.forall_mem_map.mpr fun _ _ => Nat.succ_ne_self d
  · exact List.forall_mem_map.mpr fun _ _ => Nat.succ_ne_self d
  · refine List.forall_mem_cons.mpr ⟨Nat.succ_ne_self d, fun x hx => ?_⟩
    obtain ⟨a, -, hx⟩ := List.mem_flatMap.mp hx
    exact hassignment a x hx

theorem ruleLine_notMem_vars (vs : List Var) : ruleLine ∉ vs.map (Var.line 0) := by
  intro h
  obtain ⟨v, -, hv⟩ := List.mem_map.mp h
  exact v.text_ne (by decide) (congrArg Line.text hv)

theorem ruleLine_notMem_procs (ps : List Proc) : ruleLine ∉ ps.flatMap (Proc.lines 0) := by
  intro h
  obtain ⟨p, -, hp⟩ := List.mem_flatMap.mp h
  obtain ⟨xs, hxs, hdepth⟩ := p.lines_eq_cons 0
  rw [hxs] at hp
  rcases List.mem_cons.mp hp with hp | hp
  · exact p.text_ne (by decide) (congrArg Line.text hp.symm)
  · exact hdepth _ hp rfl

theorem exportsLine_notMem {names : List String} (h : ∀ x ∈ names, IsWord x) :
    exportsLine ∉ names.map (Line.mk 0) := by
  intro hmem
  obtain ⟨x, hx, heq⟩ := List.mem_map.mp hmem
  have htext : x = "(exports)" := congrArg Line.text heq
  exact (h x hx).notMem (b := 40) (by decide) (htext ▸ (by decide))

namespace Module.Named

variable {m : Module} (h : m.Named)

include h

theorem clear_vars : ∀ x ∈ m.vars.map (Var.line 0), Clear x.text :=
  List.forall_mem_map.mpr fun v hv => Var.clear_text (h.vars v hv)

theorem clear_procs : ∀ x ∈ m.procs.flatMap (Proc.lines 0), Clear x.text := by
  intro x hx
  obtain ⟨p, hp, hx⟩ := List.mem_flatMap.mp hx
  exact Proc.clear_lines (h.procs p hp) x hx

theorem clear_exports : ∀ x ∈ m.exports.map (Line.mk 0), Clear x.text :=
  List.forall_mem_map.mpr fun x hx => (h.exports x hx).clear

end Module.Named

namespace Module

/-- The rows of a listing, the first ones of which hold the name of the module. -/
def rows (m : Module) (front : List Bytes) : List Bytes :=
  front ++ ruleLine.row :: (m.vars.map (Var.line 0)).map Line.row ++
    ruleLine.row :: (m.procs.flatMap (Proc.lines 0)).map Line.row ++
      ruleLine.row :: exportsLine.row :: (m.exports.map (Line.mk 0)).map Line.row

theorem utf8_listing_eq_rows (m : Module) {front : List Bytes}
    (h : unlines front = utf8 m.text ++ [10]) : utf8 m.listing = unlines (m.rows front) := by
  have happend (rs ss : List Bytes) : unlines (rs ++ ss) = unlines rs ++ unlines ss :=
    List.flatMap_append
  have hfirst : unlines [utf8 m.text] = unlines front := h ▸ List.append_nil _
  have hlines : (m.lines 0).map Line.row = m.rows [utf8 m.text] := by
    simp [lines, rows, Line.row, ruleLine, exportsLine]
  rw [utf8_listing, hlines, rows, rows]
  simp only [happend, hfirst]

theorem feed_notMem_rows {m : Module} (hm : m.Named) {front : List Bytes}
    (h : ∀ r ∈ front, 10 ∉ r) : ∀ r ∈ m.rows front, 10 ∉ r := by
  have hrows {xs : List Line} (hxs : ∀ x ∈ xs, Clear x.text) : ∀ r ∈ xs.map Line.row, 10 ∉ r :=
    List.forall_mem_map.mpr fun x hx => Line.feed_notMem_row (hxs x hx)
  have hrule : 10 ∉ ruleLine.row := by decide
  have hexports : 10 ∉ exportsLine.row := by decide
  simp only [rows, List.forall_mem_append, List.forall_mem_cons]
  exact ⟨⟨⟨h, hrule, hrows hm.clear_vars⟩, hrule, hrows hm.clear_procs⟩, hrule, hexports,
    hrows hm.clear_exports⟩

theorem listing_tells : Tells Module.Named Module.listing Module.shape := by
  intro m n hm hn h
  obtain ⟨front, hfront, htext⟩ := exists_rows (utf8 m.text)
  obtain ⟨front', hfront', htext'⟩ := exists_rows (utf8 n.text)
  have hrows : m.rows front = n.rows front' :=
    unlines_injective (feed_notMem_rows hm hfront) (feed_notMem_rows hn hfront') (by
      rw [← utf8_listing_eq_rows m htext, ← utf8_listing_eq_rows n htext', h])
  have hrule : Clear ruleLine.text := by decide
  have hexports : Clear exportsLine.text := by decide
  obtain ⟨hf, hv, hp, he⟩ := sections_inj
    (Line.row_notMem hrule hm.clear_vars (ruleLine_notMem_vars _))
    (Line.row_notMem hrule hn.clear_vars (ruleLine_notMem_vars _))
    (Line.row_notMem hrule hm.clear_procs (ruleLine_notMem_procs _))
    (Line.row_notMem hrule hn.clear_procs (ruleLine_notMem_procs _))
    (Line.row_notMem hexports hm.clear_exports (exportsLine_notMem hm.exports))
    (Line.row_notMem hexports hn.clear_exports (exportsLine_notMem hn.exports)) hrows
  have hname : m.name = n.name := by
    rw [hf, htext'] at htext
    have h := List.append_cancel_right htext
    simp only [text, utf8_append] at h
    exact (utf8_injective (List.append_cancel_left (List.append_cancel_right h))).symm
  have hlines {xs ys : List Line} (hx : ∀ x ∈ xs, Clear x.text) (hy : ∀ y ∈ ys, Clear y.text)
      (h : xs.map Line.row = ys.map Line.row) : xs = ys := by
    simpa using Line.row_tells.map xs ys hx hy h
  have hvars := (Var.line_tells 0).map _ _ hm.vars hn.vars (hlines hm.clear_vars hn.clear_vars hv)
  have hprocs := (Proc.lines_tells 0).flatMap (p := fun x => x.depth ≠ 0)
    (fun q _ => by
      obtain ⟨xs, hq, hxs⟩ := q.lines_eq_cons 0
      exact ⟨_, xs, hq, by simp, by simpa using hxs⟩)
    _ _ hm.procs hn.procs (hlines hm.clear_procs hn.clear_procs hp)
  have hnames := hlines hm.clear_exports hn.clear_exports he
  have hexports : m.exports = n.exports :=
    List.map_injective_iff.mpr (fun x y hxy => congrArg Line.text hxy) hnames
  rw [shape, shape, hname, hvars, hprocs, hexports]

end Module

theorem Expr.WellSpelled.named {e : Expr} (h : e.WellSpelled) : e.Named := by
  cases e with
  | ref id name l =>
    obtain ⟨w, hw⟩ := h
    exact (Terminal.spelled_identifier_iff.mp hw).1.1
  | const id value l => trivial

theorem Proc.WellSpelled.named {p : Proc} (h : p.WellSpelled) : p.Named where
  name := h.name.1
  locals v hv := (h.locals v hv).1
  body a ha := ⟨(h.statements a ha).1.named, (h.statements a ha).2.named⟩

theorem Module.WellSpelled.named {m : Module} (h : m.WellSpelled) : m.Named where
  vars v hv := (h.vars v hv).1
  procs p hp := (h.procs p hp).named
  exports x hx := (h.exports x hx).1

/-- Two listings differ unless their trees have the same shape. -/
theorem listing_tells_module :
    (∀ m m' : Module, m.Named → m'.Named → m.listing = m'.listing → m.shape = m'.shape) ∧
    ∀ (name : String) (source : Bytes) (m : Module),
      (Module.parse name source).value = .ok m → m.Named := by
  refine ⟨Module.listing_tells, ?_⟩
  intro name source m h
  obtain ⟨d, l, hsource, rfl⟩ := exists_derivation h
  exact (wellSpelled_of_tokens name fun t ht => exists_spelled_of_reading hsource ht).named

/-- A name that looks like the section of exports is still told as a name. -/
theorem listing_with_imitation :
    let name := "m)\n(exports)\n(x"
    let m : Module := ⟨name, [⟨0, "x", .int, ⟨1, 5⟩⟩], [], ["x"], .start⟩
    let m' : Module := ⟨name, [⟨7, "x", .int, .start⟩], [], ["x"], ⟨1, 2⟩⟩
    (Module.parse name (utf8 "var x: int; exports x;")).value = .ok m ∧ m.Named ∧ m'.Named ∧
      m.listing = m'.listing ∧ m.shape = m'.shape := by
  intro name m m'
  have hparse : (Module.parse name (utf8 "var x: int; exports x;")).value = .ok m := by
    rw [Module.parse_value]
    decide +kernel
  have hm : m.Named := listing_tells_module.2 name _ m hparse
  have hm' : m'.Named := ⟨List.forall_mem_singleton.mpr (cons_mem_word.mpr (by decide)),
    List.forall_mem_nil _, List.forall_mem_singleton.mpr (cons_mem_word.mpr (by decide))⟩
  exact ⟨hparse, hm, hm', rfl, listing_tells_module.1 m m' hm hm' rfl⟩

end ProcLang
