import ProcLang.Proofs.Inscription
import ProcLang.Proofs.Member
import ProcLang.Proofs.Precedence
import ProcLang.Proofs.Relocation

/-! # Transcripts

A tree is written out as a text from the names, types and values that it holds. When the tree is
that of some source, its transcript has the same tree, but for the places. -/
namespace ProcLang

open Lexicon ProcLang.Derivation

def Var.written (v : Var) : String := "var " ++ v.name ++ ": " ++ v.type.text ++ ";\n"

def Expr.written : Expr → String
  | .ref _ name _ => name
  | .const _ value _ => toString value

def Assignment.written (a : Assignment) : String :=
  a.lhs.written ++ " = " ++ a.rhs.written ++ ";\n"

def Proc.written (p : Proc) : String :=
  "proc " ++ p.name ++ "(): " ++ p.returnType.text ++ "\n" ++
    String.join (p.locals.map Var.written) ++
    "\x7b\n" ++ String.join (p.body.statements.map Assignment.written) ++ "\x7d\n"

def Member.written : Member → String
  | .var v => v.written
  | .proc p => p.written

def exportWritten (name : String) : String := "exports " ++ name ++ ";\n"

/-- Variables and procedures in the order of their numbers, then the exports. -/
def Module.written (m : Module) : String :=
  String.join (m.members.map Member.written) ++ String.join (m.exports.map exportWritten)

structure IsGap (gap : Bytes) : Prop where
  ne_nil : gap ≠ []
  blank : ∀ b ∈ gap, b ∈ blanks

theorem isGap_space : IsGap (utf8 " ") := ⟨by decide, by decide⟩

theorem isGap_lineFeed : IsGap (utf8 "\n") := ⟨by decide, by decide⟩

/-- The text is that of the terminals, each with a gap behind it unless punctuation follows. -/
inductive Writes : Bytes → List Terminal → Prop where
  | nil : Writes [] []
  | spaced {t text ts} (w gap : Bytes) (ht : t.Spelled w) (hg : IsGap gap)
      (h : Writes text ts) : Writes (w ++ (gap ++ text)) (t :: ts)
  | tight {t u text ts} (w : Bytes) (ht : t.Spelled w) (hu : ¬ (u.IsWord ∨ u.IsNumber))
      (h : Writes text (u :: ts)) : Writes (w ++ text) (t :: u :: ts)

namespace Writes

variable {first second text : Bytes} {ts us : List Terminal}

theorem append (h : Writes first ts) (k : Writes second us) :
    Writes (first ++ second) (ts ++ us) := by
  induction h with
  | nil => exact k
  | spaced w gap ht hg _ ih =>
    rw [List.append_assoc, List.append_assoc]
    exact .spaced w gap ht hg ih
  | tight w ht hu _ ih =>
    rw [List.append_assoc]
    exact .tight w ht hu ih

theorem join {α : Type} {f : α → String} {g : α → List Terminal} {xs : List α}
    (h : ∀ x ∈ xs, Writes (utf8 (f x)) (g x)) :
    Writes (utf8 (String.join (xs.map f))) (xs.flatMap g) := by
  induction xs with
  | nil => exact .nil
  | cons x xs ih =>
    rw [List.map_cons, String.join_cons, utf8_append, List.flatMap_cons]
    exact (h x List.mem_cons_self).append (ih fun y hy => h y (List.mem_cons_of_mem x hy))

theorem exists_inscriptions (h : Writes text ts) : ∃ is : List Inscription,
    is.flatMap Inscription.bytes = text ∧ is.map Inscription.terminal = ts ∧
      Inscription.Separated is := by
  induction h with
  | nil => exact ⟨[], rfl, rfl, .nil⟩
  | @spaced t text ts w gap ht hg _ ih =>
    obtain ⟨is, rfl, rfl, hs⟩ := ih
    refine ⟨⟨t, w, gap, ht, hg.blank⟩ :: is, List.append_assoc _ _ _, rfl, ?_⟩
    refine List.isChain_cons.mpr ⟨?_, hs⟩
    intro j _ hgap
    exact absurd hgap hg.ne_nil
  | @tight t u text ts w ht hu _ ih =>
    obtain ⟨is, rfl, his, hs⟩ := ih
    refine ⟨⟨t, w, [], ht, List.forall_mem_nil _⟩ :: is, ?_, congrArg (t :: ·) his, ?_⟩
    · rw [List.flatMap_cons, Inscription.bytes, List.append_nil]
    · refine List.isChain_cons.mpr ⟨?_, hs⟩
      cases is with
      | nil => cases his
      | cons i is =>
        rintro j ⟨⟩ -
        rw [(List.cons.inj his).1]
        rintro (⟨-, h⟩ | ⟨-, h⟩)
        · exact hu h
        · exact hu (Or.inr h)

theorem reading (h : Writes text ts) : ∃ us l, Reading.ofSource text = .prepend us (.eof l) ∧
    us.map Token.terminal = ts := by
  obtain ⟨is, rfl, rfl, hs⟩ := h.exists_inscriptions
  have hread := Scanner.read_of_inscriptions hs (.ofSource (is.flatMap Inscription.bytes)) [] []
    (List.forall_mem_nil _) rfl rfl
  exact ⟨_, _, hread, Inscription.tokens_terminal _ is⟩

end Writes

theorem TypeName.spelled_text (t : TypeName) :
    (Terminal.identifier t.text).Spelled (utf8 t.text) := by
  cases t <;> exact .identifier ⟨cons_mem_word.mpr (by decide), by decide⟩

theorem Var.writes {v : Var} (h : IsIdentifier v.name) :
    Writes (utf8 v.written) (v.varDecl.tokens.map Token.terminal) := by
  change Writes _ [.var, .identifier v.name, .colon, .identifier v.type.text, .semicolon]
  simp only [Var.written, utf8_append, List.append_assoc]
  exact .spaced (utf8 "var") (utf8 " ") (.fixed (by decide)) isGap_space <|
    .tight _ (.identifier h) (by decide) <|
    .spaced (utf8 ":") (utf8 " ") (.fixed (by decide)) isGap_space <|
    .tight _ v.type.spelled_text (by decide) <|
    .spaced (utf8 ";") (utf8 "\n") (.fixed (by decide)) isGap_lineFeed .nil

theorem exportItem_writes {x : String} (h : IsIdentifier x) :
    Writes (utf8 (exportWritten x)) ((exportItem x).tokens.map Token.terminal) := by
  change Writes _ [.exports, .identifier x, .semicolon]
  simp only [exportWritten, utf8_append, List.append_assoc]
  exact .spaced (utf8 "exports") (utf8 " ") (.fixed (by decide)) isGap_space <|
    .tight _ (.identifier h) (by decide) <|
    .spaced (utf8 ";") (utf8 "\n") (.fixed (by decide)) isGap_lineFeed .nil

def Expr.WellSpelled (e : Expr) : Prop := ∃ w, e.operand.token.terminal.Spelled w

theorem Expr.spelled_written {e : Expr} (h : e.WellSpelled) :
    e.operand.token.terminal.Spelled (utf8 e.written) := by
  obtain ⟨w, hw⟩ := h
  cases e with
  | ref id name l => exact .identifier (Terminal.spelled_identifier_iff.mp hw).1
  | const id value l =>
    obtain ⟨-, hmax, rfl⟩ := Terminal.spelled_intLiteral_iff.mp hw
    exact .intLiteral 0 (Nat.lt_succ_of_le hmax)

theorem Assignment.writes {a : Assignment} (hl : a.lhs.WellSpelled) (hr : a.rhs.WellSpelled) :
    Writes (utf8 a.written) (a.statement.tokens.map Token.terminal) := by
  change Writes _ [a.lhs.operand.token.terminal, .equals, a.rhs.operand.token.terminal, .semicolon]
  simp only [Assignment.written, utf8_append, List.append_assoc]
  exact .spaced _ (utf8 " ") (Expr.spelled_written hl) isGap_space <|
    .spaced (utf8 "=") (utf8 " ") (.fixed (by decide)) isGap_space <|
    .tight _ (Expr.spelled_written hr) (by decide) <|
    .spaced (utf8 ";") (utf8 "\n") (.fixed (by decide)) isGap_lineFeed .nil

structure Proc.WellSpelled (p : Proc) : Prop where
  name : IsIdentifier p.name
  locals : ∀ v ∈ p.locals, IsIdentifier v.name
  statements : ∀ a ∈ p.body.statements, a.lhs.WellSpelled ∧ a.rhs.WellSpelled

theorem Proc.writes {p : Proc} (h : p.WellSpelled) :
    Writes (utf8 p.written) (p.procDecl.tokens.map Token.terminal) := by
  have hheading : Writes (utf8 ("proc " ++ p.name ++ "(): " ++ p.returnType.text ++ "\n"))
      (p.procDecl.heading.map Token.terminal) := by
    change Writes _ [.proc, .identifier p.name, .leftParen, .rightParen, .colon,
      .identifier p.returnType.text]
    simp only [utf8_append, List.append_assoc]
    exact .spaced (utf8 "proc") (utf8 " ") (.fixed (by decide)) isGap_space <|
      .tight _ (.identifier h.name) (by decide) <|
      .tight (utf8 "(") (.fixed (by decide)) (by decide) <|
      .tight (utf8 ")") (.fixed (by decide)) (by decide) <|
      .spaced (utf8 ":") (utf8 " ") (.fixed (by decide)) isGap_space <|
      .spaced _ (utf8 "\n") p.returnType.spelled_text isGap_lineFeed .nil
  have hlocals : Writes (utf8 (String.join (p.locals.map Var.written)))
      (p.locals.flatMap fun v => v.varDecl.tokens.map Token.terminal) :=
    .join fun v hv => Var.writes (h.locals v hv)
  have hopen : Writes (utf8 "\x7b\n") [.leftBrace] :=
    .spaced (utf8 "\x7b") (utf8 "\n") (.fixed (by decide)) isGap_lineFeed .nil
  have hstatements : Writes (utf8 (String.join (p.body.statements.map Assignment.written)))
      (p.body.statements.flatMap fun a => a.statement.tokens.map Token.terminal) :=
    .join fun a ha => Assignment.writes (h.statements a ha).1 (h.statements a ha).2
  have hclose : Writes (utf8 "\x7d\n") [.rightBrace] :=
    .spaced (utf8 "\x7d") (utf8 "\n") (.fixed (by decide)) isGap_lineFeed .nil
  have hall := (((hheading.append hlocals).append hopen).append hstatements).append hclose
  have hterminals : p.procDecl.tokens.map Token.terminal =
      p.procDecl.heading.map Token.terminal ++
        (p.locals.flatMap fun v => v.varDecl.tokens.map Token.terminal) ++ [.leftBrace] ++
        (p.body.statements.flatMap fun a => a.statement.tokens.map Token.terminal) ++
        [.rightBrace] := by
    simp [ProcDecl.tokens, ProcDecl.block, Proc.procDecl, List.map_flatMap, List.flatMap_map]
  simp only [← utf8_append] at hall
  rw [hterminals]
  exact hall

def Member.WellSpelled : Member → Prop
  | .var v => IsIdentifier v.name
  | .proc p => p.WellSpelled

theorem Member.writes {a : Member} (h : a.WellSpelled) :
    Writes (utf8 a.written) (a.item.tokens.map Token.terminal) := by
  cases a with
  | var v => exact Var.writes h
  | proc p => exact Proc.writes h

structure Module.WellSpelled (m : Module) : Prop where
  vars : ∀ v ∈ m.vars, IsIdentifier v.name
  procs : ∀ p ∈ m.procs, p.WellSpelled
  exports : ∀ x ∈ m.exports, IsIdentifier x

theorem Module.WellSpelled.members {m : Module} (h : m.WellSpelled) :
    ∀ a ∈ m.members, a.WellSpelled := by
  intro a ha
  rw [Module.members, List.mem_insertionSort, List.mem_append, List.mem_map, List.mem_map] at ha
  rcases ha with ⟨v, hv, rfl⟩ | ⟨p, hp, rfl⟩
  · exact h.vars v hv
  · exact h.procs p hp

theorem Module.writes {m : Module} (h : m.WellSpelled) :
    Writes (utf8 m.written) (m.derivation.tokens.map Token.terminal) := by
  have hmembers : Writes (utf8 (String.join (m.members.map Member.written)))
      (m.members.flatMap fun a => a.item.tokens.map Token.terminal) :=
    .join fun a ha => Member.writes (h.members a ha)
  have hexports : Writes (utf8 (String.join (m.exports.map exportWritten)))
      (m.exports.flatMap fun x => (exportItem x).tokens.map Token.terminal) :=
    .join fun x hx => exportItem_writes (h.exports x hx)
  have hall := hmembers.append hexports
  have hterminals : m.derivation.tokens.map Token.terminal =
      (m.members.flatMap fun a => a.item.tokens.map Token.terminal) ++
        m.exports.flatMap fun x => (exportItem x).tokens.map Token.terminal := by
    simp [Module.derivation, Derivation.tokens, List.map_flatMap, List.flatMap_map]
  rw [← utf8_append] at hall
  rw [hterminals]
  exact hall

theorem exists_answer_of_reading {source : Bytes} {ts : List Token} {last : Reading}
    (h : Reading.ofSource source = .prepend ts last) {t : Token} (ht : t ∈ ts) :
    ∃ i, (Scanner.ofSource source).answer i = .token t := by
  obtain ⟨i, hlt, hi⟩ := List.getElem_of_mem ht
  have hanswers : (Reading.ofSource source).answers[i]? = some (.token t) := by
    rw [h, Reading.answers_prepend, List.getElem?_append_left (by simpa using hlt),
      List.getElem?_map, List.getElem?_eq_getElem hlt, hi]
    rfl
  exact ⟨i, Scanner.answer_of_read hanswers⟩

theorem exists_spelled_of_reading {source : Bytes} {ts : List Token} {last : Reading}
    (h : Reading.ofSource source = .prepend ts last) {t : Token} (ht : t ∈ ts) :
    ∃ w, t.terminal.Spelled w := by
  obtain ⟨i, hanswer⟩ := exists_answer_of_reading h ht
  exact ⟨_, Scanner.token_iff_spelled.mp ⟨t.location, hanswer⟩⟩

theorem mem_collect {α : Type} {part : NodeId → Item → List α} {a : α} {d : Derivation}
    {id : NodeId} (h : a ∈ d.collect part id) : ∃ i ∈ d, ∃ id', a ∈ part id' i := by
  induction d generalizing id with
  | nil => cases h
  | cons i d ih =>
    rcases List.mem_append.mp h with h | h
    · exact ⟨i, List.mem_cons_self, id, h⟩
    · obtain ⟨j, hj, hid⟩ := ih h
      exact ⟨j, List.mem_cons_of_mem i hj, hid⟩

theorem mem_vars {v : Var} {gs : List Group} {id : NodeId} (h : v ∈ vars id gs) :
    ∃ g ∈ gs, v.name = g.name.text := by
  induction gs generalizing id with
  | nil => cases h
  | cons g gs ih =>
    rcases List.mem_cons.mp h with rfl | h
    · exact ⟨g, List.mem_cons_self, rfl⟩
    · obtain ⟨g', hg, hv⟩ := ih h
      exact ⟨g', List.mem_cons_of_mem g hg, hv⟩

theorem mem_assignments {a : Assignment} {ss : List Statement} {id : NodeId}
    (h : a ∈ assignments id ss) :
    ∃ s ∈ ss, a.lhs.operand = s.lhs ∧ a.rhs.operand = s.rhs := by
  induction ss generalizing id with
  | nil => cases h
  | cons s ss ih =>
    rcases List.mem_cons.mp h with rfl | h
    · exact ⟨s, List.mem_cons_self, operand_expr _ _, operand_expr _ _⟩
    · obtain ⟨s', hs, ha⟩ := ih h
      exact ⟨s', List.mem_cons_of_mem s hs, ha⟩

section

variable {ts : List Token} (h : ∀ t ∈ ts, ∃ w, t.terminal.Spelled w)

include h

theorem isIdentifier_of_mem {w : Word} (hw : w.token ∈ ts) : IsIdentifier w.text := by
  obtain ⟨u, hu⟩ := h w.token hw
  exact (Terminal.spelled_identifier_iff.mp hu).1

theorem isIdentifier_of_group {v : Var} {gs : List Group} {id : NodeId} (hv : v ∈ vars id gs)
    (hgs : gs.flatMap Group.tokens ⊆ ts) : IsIdentifier v.name := by
  obtain ⟨g, hg, hname⟩ := mem_vars hv
  rw [hname]
  exact isIdentifier_of_mem h (hgs (List.mem_flatMap.mpr ⟨g, hg, List.mem_cons_self⟩))

theorem wellSpelled_of_procDecl {d : ProcDecl} {id : NodeId} (hd : d.tokens ⊆ ts) :
    (d.proc id).WellSpelled := by
  refine ⟨?_, ?_, ?_⟩
  · exact isIdentifier_of_mem h (hd (by simp [ProcDecl.tokens, ProcDecl.heading]))
  · intro v hv
    refine isIdentifier_of_group h hv fun t ht => hd ?_
    obtain ⟨g, hg, ht⟩ := List.mem_flatMap.mp ht
    obtain ⟨vd, hvd, hg⟩ := List.mem_flatMap.mp hg
    have hvar : t ∈ vd.tokens := List.mem_cons_of_mem _ (List.mem_flatMap.mpr ⟨g, hg, ht⟩)
    refine List.mem_append_right _ (List.mem_append_left _ ?_)
    exact List.mem_flatMap.mpr ⟨vd, hvd, hvar⟩
  · intro a ha
    obtain ⟨s, hs, hl, hr⟩ := mem_assignments ha
    have hstatement : s.tokens ⊆ ts := by
      intro t ht
      apply hd
      have hmem : t ∈ d.statements.flatMap Statement.tokens := List.mem_flatMap.mpr ⟨s, hs, ht⟩
      simp [ProcDecl.tokens, ProcDecl.block, hmem]
    rw [Expr.WellSpelled, Expr.WellSpelled, hl, hr]
    exact ⟨h _ (hstatement (by simp [Statement.tokens])),
      h _ (hstatement (by simp [Statement.tokens]))⟩

end

theorem wellSpelled_of_tokens (name : String) {d : Derivation}
    (h : ∀ t ∈ d.tokens, ∃ w, t.terminal.Spelled w) : (d.module name).WellSpelled := by
  have hitem {i : Item} (hi : i ∈ d) : i.tokens ⊆ d.tokens :=
    fun t ht => List.mem_flatMap.mpr ⟨i, hi, ht⟩
  refine ⟨?_, ?_, ?_⟩
  · intro v hv
    obtain ⟨i, hi, id, hv⟩ := mem_collect hv
    cases i with
    | varDecl vd =>
      exact isIdentifier_of_group h hv fun t ht => hitem hi (List.mem_cons_of_mem _ ht)
    | _ => cases hv
  · intro p hp
    obtain ⟨i, hi, id, hp⟩ := mem_collect hp
    cases i with
    | procDecl pd =>
      obtain rfl := List.mem_singleton.mp hp
      exact wellSpelled_of_procDecl h (hitem hi)
    | _ => cases hp
  · intro x hx
    obtain ⟨i, hi, hx⟩ := List.mem_flatMap.mp hx
    cases i with
    | exportsDecl e =>
      obtain rfl := List.mem_singleton.mp hx
      exact isIdentifier_of_mem h (hitem hi (by simp [Item.tokens, ExportsDecl.tokens]))
    | _ => cases hx

/-- The tree with the places of its nodes forgotten, and nothing else. -/
def Module.unplaced (m : Module) : Module := m.relocate fun _ => .start

theorem map_relocate_start (ts : List Token) :
    ts.map (Token.relocate fun _ => .start) =
      (ts.map Token.terminal).map fun t => ⟨t, .start⟩ := by
  rw [List.map_map]
  rfl

/-- Where the terminals are those of a derivation, so is the tree, but for the places. -/
theorem parse_of_terminals (name : String) {source : Bytes} {ts : List Token} {l : Location}
    {d : Derivation} (h : Reading.ofSource source = .prepend ts (.eof l)) (hd : d.Typed)
    (hts : ts.map Token.terminal = d.tokens.map Token.terminal) :
    ∃ m, (Module.parse name source).value = .ok m ∧ m.unplaced = (d.module name).unplaced := by
  let f : Location → Location := fun _ => .start
  have hsame : (Reading.prepend ts (.eof l)).relocate f =
      (Reading.prepend d.tokens (.eof l)).relocate f := by
    rw [Reading.relocate_prepend, Reading.relocate_prepend, map_relocate_start,
      map_relocate_start, hts]
  have hmoved := ParseState.run_initial_relocate f name (.prepend ts (.eof l))
  rw [hsame, ParseState.run_initial_relocate, run_of_typed name l hd] at hmoved
  rw [Module.parse_value, h]
  cases hrun : ((ParseState.initial name).run (.prepend ts (.eof l))).value with
  | error e =>
    rw [hrun] at hmoved
    cases hmoved
  | ok m =>
    rw [hrun] at hmoved
    exact ⟨m, rfl, (Except.ok.inj hmoved).symm⟩

/-- The transcript of a tree that has been read is read as the same tree at other places. -/
theorem transcript_has_same_tree {name : String} {source : Bytes} {m : Module}
    (h : (Module.parse name source).value = .ok m) :
    ∃ m', (Module.parse name (utf8 m.written)).value = .ok m' ∧ m'.unplaced = m.unplaced := by
  obtain ⟨d, l, hsource, hd⟩ := derivation_of_parse h
  obtain rfl : d.module name = m := by
    rw [parse_of_typed name hsource hd] at h
    exact Except.ok.inj h
  have hspelled := wellSpelled_of_tokens name fun t ht => exists_spelled_of_reading hsource ht
  obtain ⟨ts, l', htext, hts⟩ := (Module.writes hspelled).reading
  have hparse := parse_of_terminals name htext (hd.derivation name) hts
  rwa [module_derivation] at hparse

/-- The export moves to the end and the group gets a keyword; the procedure has to stay before the
variable that hides its return type. -/
theorem transcript_keeps_order_of_members :
    let source := utf8 ("exports f; proc f(): int var void: int; \x7b void = 007; \x7d " ++
      "var int: float; x: char;")
    let m : Module :=
      { name := "m"
        vars := [⟨6, "int", .float, ⟨1, 61⟩⟩, ⟨7, "x", .char, ⟨1, 73⟩⟩]
        procs := [⟨0, "f", [], [⟨1, "void", .int, ⟨1, 30⟩⟩], .int,
          ⟨2, [⟨3, .ref 4 "void" ⟨1, 43⟩, .const 5 7 ⟨1, 50⟩, ⟨1, 43⟩⟩], ⟨1, 41⟩⟩, ⟨1, 12⟩⟩]
        exports := ["f"]
        location := .start }
    (Module.parse "m" source).value = .ok m ∧
      m.written = "proc f(): int\nvar void: int;\n\x7b\nvoid = 7;\n\x7d\n" ++
        "var int: float;\nvar x: char;\nexports f;\n" ∧
      ∃ m', (Module.parse "m" (utf8 m.written)).value = .ok m' ∧ m'.unplaced = m.unplaced := by
  intro source m
  have hm : (Module.parse "m" source).value = .ok m := by
    rw [Module.parse_value]
    decide +kernel
  have hwritten : m.written = "proc f(): int\nvar void: int;\n\x7b\nvoid = 7;\n\x7d\n" ++
      "var int: float;\nvar x: char;\nexports f;\n" := by decide
  exact ⟨hm, hwritten, transcript_has_same_tree hm⟩

end ProcLang
