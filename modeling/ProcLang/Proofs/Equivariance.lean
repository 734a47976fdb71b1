import ProcLang.Proofs.Course
import ProcLang.Proofs.Recast
import ProcLang.Proofs.Renaming
import ProcLang.Proofs.Visibility

/-! # Names matter by identity

All that the parser does with a name is to bind it, to look it up and to put it into the tree or
into an error. Scopes that bind the same under other names answer the same, and stay such when a
name is bound in both; so the parse of a renamed text is the renamed parse. -/
namespace ProcLang

open Lexicon

section

variable (c : Recast)

def Heading.recast (h : Heading) : Heading := { h with id := c.id h.id, name := c.name h.name }

def OpenProc.recast (p : OpenProc) : OpenProc :=
  { p with heading := p.heading.recast c, locals := p.locals.map (Var.recast c) }

def OpenBlock.recast (b : OpenBlock) : OpenBlock :=
  { b with id := c.id b.id, statements := b.statements.map (Assignment.recast c) }

def Region.recast : Region → Region
  | .module => .module
  | .body p => .body (p.recast c)

def Place.recast : Place → Place
  | .declarations r => .declarations (r.recast c)
  | .varKeyword r => .varKeyword (r.recast c)
  | .varName r h => .varName (r.recast c) (h.recast c)
  | .varColon r h => .varColon (r.recast c) (h.recast c)
  | .varType r v => .varType (r.recast c) (v.recast c)
  | .group r => .group (r.recast c)
  | .procKeyword l => .procKeyword l
  | .procName h => .procName (h.recast c)
  | .procLeftParen h => .procLeftParen (h.recast c)
  | .procRightParen h => .procRightParen (h.recast c)
  | .procColon h => .procColon (h.recast c)
  | .statements p b => .statements (p.recast c) (b.recast c)
  | .leftOperand p b id lhs => .leftOperand (p.recast c) (b.recast c) (c.id id) (lhs.recast c)
  | .equals p b id lhs => .equals (p.recast c) (b.recast c) (c.id id) (lhs.recast c)
  | .rightOperand p b a => .rightOperand (p.recast c) (b.recast c) (a.recast c)
  | .exportsKeyword => .exportsKeyword
  | .exportsName name => .exportsName (c.name name)

theorem Place.expected_recast (p : Place) : (p.recast c).expected = p.expected := by
  rcases p with (_ | _) | _ | _ | _ | _ | (_ | _) | _ <;> rfl

theorem Place.zone_recast (p : Place) : (p.recast c).point.zone = p.point.zone := by
  rcases p with (_ | _) | (_ | _) | (_ | _) | (_ | _) | (_ | _) | (_ | _) | _ <;> rfl

theorem Place.isEnd_recast (p : Place) : (p.recast c).isEnd = p.isEnd := by
  rcases p with (_ | _) | (_ | _) | _ | _ | _ | (_ | _) | _ <;> rfl

end

variable {r : String → String}

/-- The second scope binds under the other names what the first one binds. -/
def Scope.Renames (r : String → String) (t t' : Scope) : Prop :=
  ∀ x, IsIdentifier x → t'.get? (r x) = t.get? x

structure ScopeStack.Renames (r : String → String) (s s' : ScopeStack) : Prop where
  inner : List.Forall₂ (Scope.Renames r) s.inner s'.inner
  global : Scope.Renames r s.global s'.global

theorem TypeName.isIdentifier (t : TypeName) : IsIdentifier t.text :=
  (Terminal.spelled_identifier_iff.mp t.spelled_text).1

theorem Scope.renames_insert (hr : IsRenaming r) {t t' : Scope} (h : Renames r t t') {x : String}
    (hx : IsIdentifier x) (b : Binding) : Renames r (t.insert x b) (t'.insert (r x) b) := by
  intro y hy
  rw [Table.get?_insert, Table.get?_insert]
  by_cases he : y = x
  · rw [if_pos he, he, if_pos rfl]
  · rw [if_neg he, if_neg fun hreq => he (hr.injOn hy hx hreq)]
    exact h y hy

theorem Scope.findSome?_of_renames {ts ts' : List Scope} (h : List.Forall₂ (Renames r) ts ts')
    {x : String} (hx : IsIdentifier x) :
    ts'.findSome? (·.get? (r x)) = ts.findSome? (·.get? x) := by
  induction h with
  | nil => rfl
  | cons htop _ ih => rw [List.findSome?_cons, List.findSome?_cons, htop x hx, ih]

theorem Scope.renames_builtin (hr : IsRenaming r) : Renames r builtin builtin := by
  intro x hx
  rw [get?_builtin, get?_builtin, builtin?, builtin?]
  congr 1
  cases ht : TypeName.ofText? x with
  | some t =>
    obtain rfl := TypeName.ofText?_eq_some_iff.mp ht
    rw [hr.fixes, ht]
  | none =>
    rw [TypeName.ofText?_eq_none_iff] at ht ⊢
    rintro ⟨t, hrx⟩
    rw [← hr.fixes t] at hrx
    exact ht ⟨t, hr.injOn t.isIdentifier hx hrx⟩

namespace ScopeStack.Renames

variable {s s' : ScopeStack} {x : String}

theorem initial (hr : IsRenaming r) : Renames r .initial .initial :=
  ⟨.nil, Scope.renames_builtin hr⟩

theorem push (h : Renames r s s') : Renames r s.push s'.push :=
  ⟨.cons (fun _ _ => rfl) h.inner, h.global⟩

theorem declare (hr : IsRenaming r) (h : Renames r s s') (hx : IsIdentifier x) (b : Binding) :
    Renames r (s.declare x b) (s'.declare (r x) b) := by
  obtain ⟨inner, global⟩ := s
  obtain ⟨inner', global'⟩ := s'
  obtain ⟨hinner, hglobal⟩ := h
  cases hinner with
  | nil => exact ⟨.nil, Scope.renames_insert hr hglobal hx b⟩
  | cons htop hbelow => exact ⟨.cons (Scope.renames_insert hr htop hx b) hbelow, hglobal⟩

theorem lookup (h : Renames r s s') (hx : IsIdentifier x) : s'.lookup (r x) = s.lookup x :=
  Scope.findSome?_of_renames (List.rel_append h.inner (.cons h.global .nil)) hx

end ScopeStack.Renames

/-- Both are results that are related, or both are errors of one form, with the other name where
they have one. -/
inductive Corresponds (r : String → String) {α β : Type} (R : α → β → Prop) :
    Except ParseError α → Except ParseError β → Prop where
  | ok {a : α} {b : β} (h : R a b) : Corresponds r R (.ok a) (.ok b)
  | lexical {e e' : LexError} (h : e.message = e'.message) :
      Corresponds r R (.error (.lexical e)) (.error (.lexical e'))
  | unexpected (expected : List TokenKind) (found : TokenKind) (l l' : Location) :
      Corresponds r R (.error (.unexpected expected found l))
        (.error (.unexpected expected found l'))
  | semantic (x : String) (fault : TypeFault) (l l' : Location) :
      Corresponds r R (.error (.semantic x (fault.message x) l))
        (.error (.semantic (r x) (fault.message (r x)) l'))

namespace ParseState

variable {s : ParseState} {t : Token} {scopes' : ScopeStack}

/-- The state with other names and with scopes of its own. -/
def renamed (r : String → String) (s : ParseState) (scopes' : ScopeStack) : ParseState where
  place := s.place.recast (.rename r)
  scopes := scopes'
  nextId := s.nextId
  module := s.module.recast (.rename r)

def Renames (r : String → String) (s s' : ParseState) : Prop :=
  ∃ scopes', s' = s.renamed r scopes' ∧ ScopeStack.Renames r s.scopes scopes'

abbrev StepRenames (r : String → String) (c c' : Option Consumption) : Prop :=
  Option.Rel (Corresponds r (Renames r)) (c.map (·.map Logged.value)) (c'.map (·.map Logged.value))

theorem stepRenames_ok {events events' : List Event} {s₁ : ParseState}
    (h : ScopeStack.Renames r s₁.scopes scopes') :
    StepRenames r (some (.ok ⟨events, s₁⟩)) (some (.ok ⟨events', s₁.renamed r scopes'⟩)) :=
  .some (.ok ⟨scopes', rfl, h⟩)

theorem stepRenames_resolve (hs : ScopeStack.Renames r s.scopes scopes') {x : String}
    (hx : IsIdentifier x) (l : Location) {next next' : TypeName → Consumption}
    (h : ∀ type, StepRenames r (some (next type)) (some (next' type))) :
    StepRenames r (some (s.resolve x l >>= next))
      (some ((s.renamed r scopes').resolve (r x) l >>= next')) := by
  have hlookup : (s.renamed r scopes').scopes.lookup (r x) = s.scopes.lookup x := hs.lookup hx
  unfold resolve
  rw [hlookup]
  rcases s.scopes.lookup x with _ | (type | _ | _)
  · exact .some (.semantic x .unknown l l)
  · exact h type
  · exact .some (.semantic x .notAType l l)
  · exact .some (.semantic x .notAType l l)

theorem stepRenames_declaration? (hs : ScopeStack.Renames r s.scopes scopes') (z : Region)
    (t : Token) : StepRenames r (s.declaration? z t)
      ((s.renamed r scopes').declaration? (z.recast (.rename r)) (t.rename r)) := by
  obtain ⟨u, l⟩ := t
  cases z <;> cases u <;> first | exact .none | exact stepRenames_ok hs

theorem stepRenames_addVar (hs : ScopeStack.Renames r s.scopes scopes') (z : Region) (v : Var) :
    StepRenames r (some (s.addVar z v))
      (some ((s.renamed r scopes').addVar (z.recast (.rename r)) (v.recast (.rename r)))) := by
  refine .some ?_
  cases z <;> refine .ok ⟨scopes', ?_, hs⟩ <;>
    simp [renamed, Place.recast, Region.recast, OpenProc.recast, Module.recast]

theorem stepRenames_leaveBody (hs : ScopeStack.Renames r s.scopes scopes')
    (hinner : s.scopes.inner ≠ []) (p : OpenProc) (b : OpenBlock) :
    StepRenames r (some (s.leaveBody p b))
      (some ((s.renamed r scopes').leaveBody (p.recast (.rename r))
        (b.recast (.rename r)))) := by
  obtain ⟨place, ⟨inner, global⟩, id, m⟩ := s
  obtain ⟨inner', global'⟩ := scopes'
  obtain ⟨hpaired, hglobal⟩ := hs
  cases hpaired with
  | nil => exact absurd rfl hinner
  | @cons _ _ below below' _ hbelow =>
    refine .some (.ok ⟨⟨below', global'⟩, ?_, hbelow, hglobal⟩)
    simp [renamed, Place.recast, Region.recast, Module.recast, Proc.recast, Block.recast,
      OpenProc.recast, OpenBlock.recast, Heading.recast]

theorem stepRenames_consume? (hr : IsRenaming r) (hb : s.Balanced)
    (hs : ScopeStack.Renames r s.scopes scopes')
    (ht : ∀ x, t.terminal = .identifier x → IsIdentifier x) :
    StepRenames r (s.consume? t) ((s.renamed r scopes').consume? (t.rename r)) := by
  obtain ⟨place, scopes, id, m⟩ := s
  cases place with
  | declarations z => exact stepRenames_declaration? hs z t
  | varKeyword z =>
    obtain ⟨u, l⟩ := t
    cases u with
    | identifier x => exact stepRenames_ok (hs.declare hr (ht x rfl) _)
    | _ => exact .none
  | group z =>
    have h := stepRenames_declaration? (s := ⟨.group z, scopes, id, m⟩) hs z t
    obtain ⟨u, l⟩ := t
    cases u with
    | identifier x => exact stepRenames_ok (hs.declare hr (ht x rfl) _)
    | _ => exact h
  | procKeyword l' =>
    obtain ⟨u, l⟩ := t
    cases u with
    | identifier x => exact stepRenames_ok (hs.declare hr (ht x rfl) _)
    | _ => exact .none
  | varColon z h =>
    obtain ⟨u, l⟩ := t
    cases u with
    | identifier x =>
      exact stepRenames_resolve (s := ⟨.varColon z h, scopes, id, m⟩) hs (ht x rfl) l
        fun type => stepRenames_ok hs
    | _ => exact .none
  | varType z v =>
    obtain ⟨u, l⟩ := t
    cases u with
    | semicolon => exact stepRenames_addVar hs z v
    | _ => exact .none
  | procColon h =>
    obtain ⟨u, l⟩ := t
    cases u with
    | identifier x =>
      exact stepRenames_resolve (s := ⟨.procColon h, scopes, id, m⟩) hs (ht x rfl) l
        fun type => stepRenames_ok hs.push
    | _ => exact .none
  | statements p b =>
    obtain ⟨u, l⟩ := t
    cases u with
    | rightBrace =>
      obtain ⟨top, htop⟩ := hb.exists_inner rfl
      exact stepRenames_leaveBody hs (by rw [htop]; exact List.cons_ne_nil _ _) p b
    | identifier x => exact stepRenames_ok hs
    | intLiteral n => exact stepRenames_ok hs
    | _ => exact .none
  | equals p b id' lhs =>
    obtain ⟨u, l⟩ := t
    cases lhs <;> cases u <;> first | exact .none | exact stepRenames_ok hs
  | rightOperand p b a =>
    obtain ⟨u, l⟩ := t
    cases u with
    | semicolon =>
      refine .some (.ok ⟨scopes', ?_, hs⟩)
      simp [renamed, Place.recast, OpenBlock.recast]
    | _ => exact .none
  | exportsName x =>
    obtain ⟨u, l⟩ := t
    cases u with
    | semicolon =>
      refine .some (.ok ⟨scopes', ?_, hs⟩)
      simp [renamed, Place.recast, Region.recast, Module.recast, Recast.rename]
    | _ => exact .none
  | _ =>
    obtain ⟨u, l⟩ := t
    cases u <;> first | exact .none | exact stepRenames_ok hs

theorem Balanced.of_outcome? {s' : ParseState} (hb : s.Balanced)
    (h : s.outcome? t = some (.ok s')) : s'.Balanced :=
  hb.advance (outcome?_eq_ok h)

theorem Balanced.renamed (hb : s.Balanced) (hs : ScopeStack.Renames r s.scopes scopes') :
    (s.renamed r scopes').Balanced := by
  have hzone : (s.renamed r scopes').zone = s.zone := s.place.zone_recast _
  have hinner : scopes'.inner.length = s.scopes.inner.length := hs.inner.length_eq.symm
  rw [Balanced, hzone, ← hb]
  exact hinner

theorem run_renames (hr : IsRenaming r) {s s' : ParseState} (hb : s.Balanced)
    (hs : Renames r s s') {rd : Reading} (hrd : rd.Named) :
    Corresponds r (fun m m' : Module => m' = m.recast (.rename r)) (s.run rd).value
      (s'.run (rd.rename r)).value := by
  induction rd generalizing s s' with
  | eof l =>
    obtain ⟨scopes', rfl, hscopes⟩ := hs
    have hend : (s.renamed r scopes').place.isEnd = s.place.isEnd := s.place.isEnd_recast _
    have hexpected : (s.renamed r scopes').place.expected = s.place.expected :=
      s.place.expected_recast _
    rw [Reading.rename, hb.run_eof, (hb.renamed hscopes).run_eof, hend, hexpected]
    split
    · exact .ok rfl
    · exact .unexpected _ _ l l
  | failed e =>
    obtain ⟨scopes', rfl, hscopes⟩ := hs
    rw [Reading.rename, hb.run_failed, (hb.renamed hscopes).run_failed]
    exact .lexical rfl
  | token t rest ih =>
    obtain ⟨scopes', rfl, hscopes⟩ := hs
    obtain ⟨ht, hrest⟩ := hrd
    have hstep := stepRenames_consume? hr hb hscopes ht
    have hexpected : (s.renamed r scopes').place.expected = s.place.expected :=
      s.place.expected_recast _
    have hkind : (t.rename r).kind = t.kind := t.terminal.kind_rename r
    rw [Reading.rename, hb.run_token, (hb.renamed hscopes).run_token, hexpected, hkind]
    change Option.Rel _ (s.outcome? t) ((s.renamed r scopes').outcome? (t.rename r)) at hstep
    cases ho : s.outcome? t with
    | none =>
      rw [ho] at hstep
      generalize (s.renamed r scopes').outcome? (t.rename r) = o' at hstep ⊢
      cases hstep
      exact .unexpected _ _ _ _
    | some o =>
      rw [ho] at hstep
      generalize (s.renamed r scopes').outcome? (t.rename r) = o' at hstep ⊢
      cases hstep with
      | some hstep =>
        cases rest with
        | failed e => exact .lexical rfl
        | _ =>
          cases hstep with
          | ok h => exact ih (hb.of_outcome? ho) h hrest
          | lexical h => exact .lexical h
          | unexpected expected found l l' => exact .unexpected expected found l l'
          | semantic x fault l l' => exact .semantic x fault l l'

end ParseState

theorem Module.relocate_recast (f : Location → Location) (c : Recast) (m : Module) :
    (m.relocate f).recast c = (m.recast c).relocate f := by
  have hexpr (e : Expr) : (e.relocate f).recast c = (e.recast c).relocate f := by
    cases e <;> rfl
  simp [Module.relocate, Module.recast, Proc.relocate, Proc.recast, Block.relocate, Block.recast,
    Assignment.relocate, Assignment.recast, Function.comp_def, hexpr, Var.relocate, Var.recast,
    Param.relocate, Param.recast]

theorem Corresponds.of_unplaced {x y : Except ParseError Module}
    (h : Corresponds r (fun m m' => m' = m.recast (.rename r))
      (ParseError.orMoved (fun _ => .start) Module.unplaced x)
      (ParseError.orMoved (fun _ => .start) Module.unplaced y)) :
    Corresponds r (fun m m' => m'.unplaced = (m.recast (.rename r)).unplaced) x y := by
  cases x with
  | ok m =>
    cases y with
    | error e' => cases h
    | ok m' =>
      cases h with
      | ok h =>
        refine .ok (h.trans ?_)
        exact m.relocate_recast _ _
  | error e =>
    cases y with
    | ok m' => cases e <;> cases h
    | error e' =>
      cases e <;> cases e' <;> cases h
      · exact .lexical ‹_›
      · exact .unexpected _ _ _ _
      · exact .semantic _ _ _ _

/-- The parse of a text with other names is the parse of the text with other names, but for the
places: a tree for a tree, or an error for an error of the same form. -/
theorem names_matter_by_identity {r : String → String} (hr : IsRenaming r) (name : String)
    (source : Bytes) :
    Corresponds r (fun m m' => m'.unplaced = (m.recast (.rename r)).unplaced)
      (Module.parse name source).value (Module.parse name (renamed r source)).value := by
  obtain ⟨hrenamed, hnamed⟩ := unplaced_renamed hr source
  refine .of_unplaced ?_
  rw [parse_unplaced, parse_unplaced, hrenamed]
  exact ParseState.run_renames hr (ParseState.balanced_initial name)
    ⟨.initial, rfl, .initial hr⟩ hnamed

/-- The names differ in length, and one of them stands directly behind a number. -/
theorem names_change_places :
    let r := Equiv.swap "a" "total"
    let source := utf8 "var a:int;total:a; # 12a"
    let source' := utf8 "var total:int;a:total; # 12total"
    let e := ParseError.semantic "a" "'a' is not a type" ⟨1, 17⟩
    let e' := ParseError.semantic "total" "'total' is not a type" ⟨1, 17⟩
    IsRenaming r ∧ renamed r source = source' ∧ (Module.parse "m" source).value = .error e ∧
      (Module.parse "m" source').value = .error e' ∧
      Corresponds r (fun m m' : Module => m'.unplaced = (m.recast (.rename r)).unplaced)
        (.error e) (.error e') := by
  intro r source source' e e'
  have hr : IsRenaming r := isRenaming_swap ⟨cons_mem_word.mpr (by decide), by decide⟩
    ⟨cons_mem_word.mpr (by decide), by decide⟩ (by rintro (_ | _ | _ | _) <;> decide)
  have htext : renamed r source = source' := by decide +kernel
  have hparse : (Module.parse "m" source).value = .error e := by
    rw [Module.parse_value]
    decide +kernel
  have hparse' : (Module.parse "m" source').value = .error e' := by
    rw [Module.parse_value]
    decide +kernel
  have hsame := names_matter_by_identity hr "m" source
  rw [htext, hparse, hparse'] at hsame
  exact ⟨hr, htext, hparse, hparse', hsame⟩

end ProcLang
