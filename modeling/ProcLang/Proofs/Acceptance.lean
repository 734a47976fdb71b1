import ProcLang.Proofs.Outcome

/-! # Which sources have a module

When the text has been scanned without an error, only two things can be wrong: the tokens have no
derivation, or the name of a type in it does not resolve. Otherwise the module is the tree of the
derivation. -/
namespace ProcLang

open ProcLang.Derivation

section

variable {name : String} {source : Bytes} {d : Derivation} {l : Location}

theorem tokenize_eq_ok_iff {ts : List Token} :
    (Scanner.ofSource source).tokenize.1 = .ok (ts, l) ↔
      Reading.ofSource source = .prepend ts (.eof l) :=
  Reading.tokens_eq_ok_iff

theorem run_of_typed (name : String) (l : Location) (hd : d.Typed) :
    ((ParseState.initial name).run (.prepend d.tokens (.eof l))).value =
      .ok (d.module name) := by
  obtain ⟨s, hf, hend, hm⟩ := d.follows name
  have hs := hf.steps_eq_ok hd
  rw [d.marks_token] at hs
  have hb := ParseState.balanced_initial name
  rw [hb.run_steps hs, (hb.steps hs).run_eof, if_pos hend, hm]

theorem typed_of_run {m : Module}
    (h : ((ParseState.initial name).run (.prepend d.tokens (.eof l))).value = .ok m) :
    d.Typed := by
  have ho := ending_of_prepend name d.tokens (.eof l)
  rw [h] at ho
  cases ho with
  | whole hs he =>
    obtain ⟨s', hf, -⟩ := d.follows name
    rw [← d.marks_token] at hs
    exact hf.allResolve_of_steps hs

theorem parse_of_typed (name : String)
    (h : Reading.ofSource source = .prepend d.tokens (.eof l)) (hd : d.Typed) :
    (Module.parse name source).value = .ok (d.module name) := by
  rw [Module.parse_value, h, run_of_typed name l hd]

theorem module_eq {m : Module} (hread : Reading.ofSource source = .prepend d.tokens (.eof l))
    (h : (Module.parse name source).value = .ok m) : m = d.module name := by
  have hd : d.Typed := by
    rw [Module.parse_value, hread] at h
    exact typed_of_run h
  rw [parse_of_typed name hread hd] at h
  exact (Except.ok.inj h).symm

theorem parse_of_unresolved (name : String)
    (h : Reading.ofSource source = .prepend d.tokens (.eof l)) {past : List Mark} {o : Owner}
    {x : String} {at' : Location} (hd : d.NamesType past o x at') (hp : AllResolve [] past)
    (hn : ¬ Resolves past o x) :
    (Module.parse name source).value = .error (.ofTypeFault x at' (typeFault past o x)) := by
  obtain ⟨s, hs, hc⟩ := hd.consume?_eq name hp hn
  obtain ⟨after, hd⟩ := hd
  have hsource : Reading.ofSource source = .prepend (past.map Mark.token)
      (.token ⟨.identifier x, at'⟩ (.prepend (after.map Mark.token) (.eof l))) := by
    rw [h, ← d.marks_token, hd, List.map_append, Reading.prepend_append]
    rfl
  have hb := ParseState.balanced_initial name
  rw [Module.parse_value, hsource, hb.run_steps hs]
  apply (hb.steps hs).run_faulty hc
  intro f
  cases after with
  | nil => exact nofun
  | cons u after => exact nofun

theorem parse_of_not_typed (name : String)
    (h : Reading.ofSource source = .prepend d.tokens (.eof l)) (hd : ¬ d.Typed) :
    ∃ past o x at', d.NamesType past o x at' ∧ ¬ Resolves past o x ∧
      AllResolve [] past ∧ (Module.parse name source).value =
        .error (.ofTypeFault x at' (typeFault past o x)) := by
  rcases allResolve_or_first [] d.marks with ht | ⟨past, m, after, hm, hp, hu⟩
  · exact absurd ht hd
  · obtain ⟨⟨u, at'⟩, r⟩ := m
    obtain ⟨o, x, rfl, rfl, hn⟩ := hu
    have hnamed : d.NamesType past o x at' := ⟨after, hm⟩
    exact ⟨past, o, x, at', hnamed, hn, hp, parse_of_unresolved name h hnamed hp hn⟩

theorem derivation_of_parse {m : Module} (h : (Module.parse name source).value = .ok m) :
    ∃ d l, Reading.ofSource source = .prepend (Derivation.tokens d) (.eof l) ∧ d.Typed := by
  obtain ⟨ts, last, hsource, -, ho⟩ := exists_ending name source
  rw [h] at ho
  cases ho with
  | @whole s l hs he =>
    have hmem : ts.map Token.kind ∈ Grammar.module := by
      rw [Grammar.mem_module_iff]
      exact ⟨s.place.point, follow_of_steps hs, s.place.isEnd_point.trans he⟩
    obtain ⟨d, rfl⟩ := (Derivation.spells ts).mp hmem
    refine ⟨d, l, hsource, ?_⟩
    by_contra hd
    obtain ⟨past, o, x, at', -, -, -, hf⟩ := parse_of_not_typed name hsource hd
    rw [h] at hf
    cases hf

theorem exists_derivation {m : Module} (h : (Module.parse name source).value = .ok m) :
    ∃ d l, Reading.ofSource source = .prepend (Derivation.tokens d) (.eof l) ∧
      d.module name = m := by
  obtain ⟨d, l, hsource, -⟩ := derivation_of_parse h
  exact ⟨d, l, hsource, (module_eq hsource h).symm⟩

end

/-- A text is accepted exactly if its tokens have a derivation whose type names resolve, and the
module is then the tree of the derivation. In the other derivable texts a type name is to blame. -/
theorem parse_follows_grammar (name : String) (source : Bytes) :
    (∀ m, (Module.parse name source).value = .ok m →
      ∃ ts l, (Scanner.ofSource source).tokenize.1 = .ok (ts, l) ∧
        ts.map Token.kind ∈ Grammar.module ∧ m.location = .start ∧
        (∃ d : Derivation, d.tokens = ts) ∧
        ∀ d : Derivation, d.tokens = ts → d.Typed ∧ m = d.module name) ∧
    ∀ ts l, (Scanner.ofSource source).tokenize.1 = .ok (ts, l) →
      ts.map Token.kind ∈ Grammar.module →
        (∃ d : Derivation, d.tokens = ts) ∧ ∀ d : Derivation, d.tokens = ts →
          (d.Typed → (Module.parse name source).value = .ok (d.module name)) ∧
          (¬ d.Typed → ∃ x message l',
            (Module.parse name source).value = .error (.semantic x message l')) := by
  constructor
  · intro m h
    obtain ⟨d, l, hsource, -⟩ := derivation_of_parse h
    have hm := module_eq hsource h
    refine ⟨d.tokens, l, tokenize_eq_ok_iff.mpr hsource, d.kinds_mem_module, hm ▸ rfl, ⟨d, rfl⟩,
      ?_⟩
    intro d' hd'
    rw [← hd'] at hsource
    by_cases ht : d'.Typed
    · have hm := parse_of_typed name hsource ht
      rw [h] at hm
      exact ⟨ht, Except.ok.inj hm⟩
    · obtain ⟨past, o, x, at', -, -, -, hf⟩ := parse_of_not_typed name hsource ht
      rw [h] at hf
      cases hf
  · intro ts l hts hg
    refine ⟨(Derivation.spells ts).mp hg, ?_⟩
    intro d hd
    have hsource := tokenize_eq_ok_iff.mp hts
    rw [← hd] at hsource
    refine ⟨parse_of_typed name hsource, ?_⟩
    intro ht
    obtain ⟨past, o, x, at', -, -, -, hf⟩ := parse_of_not_typed name hsource ht
    exact ⟨x, _, at', hf⟩

theorem small_module_follows_grammar :
    let source := "var x: int; exports x;".toUTF8.toList
    let d : Derivation :=
      [.varDecl ⟨⟨1, 1⟩, ⟨⟨"x", ⟨1, 5⟩⟩, ⟨1, 6⟩, ⟨"int", ⟨1, 8⟩⟩, ⟨1, 11⟩⟩, []⟩,
        .exportsDecl ⟨⟨1, 13⟩, ⟨"x", ⟨1, 21⟩⟩, ⟨1, 22⟩⟩]
    (Module.parse "m" source).value = .ok (d.module "m") ∧
      (d.module "m").location = .start := by
  intro source d
  obtain ⟨hsound, hcomplete⟩ := parse_follows_grammar "m" source
  have hscan : (Scanner.ofSource source).tokenize.1 = .ok (d.tokens, ⟨1, 23⟩) := by decide +kernel
  have hd := (hcomplete d.tokens ⟨1, 23⟩ hscan d.kinds_mem_module).2 d rfl
  have hm := hd.1 (by decide)
  obtain ⟨-, -, -, -, hl, -⟩ := hsound (d.module "m") hm
  exact ⟨hm, hl⟩

def Var.signature (v : Var) : String × String := (v.name, v.type.text)

def Proc.signature (p : Proc) : String × String × List (String × String) :=
  (p.name, p.returnType.text, p.locals.map Var.signature)

namespace Derivation

def Group.signature (g : Group) : String × String := (g.name.text, g.type.text)

def ProcDecl.signature (d : ProcDecl) : String × String × List (String × String) :=
  (d.name.text, d.returnType.text, d.groups.map Group.signature)

def Item.groups : Item → List Group
  | .varDecl d => d.groups
  | _ => []

def Item.procDecls : Item → List ProcDecl
  | .procDecl d => [d]
  | _ => []

theorem vars_signature (id : NodeId) {gs : List Group}
    (h : ∀ g ∈ gs, (TypeName.named g.type.text).text = g.type.text) :
    (vars id gs).map Var.signature = gs.map Group.signature := by
  induction gs generalizing id with
  | nil => rfl
  | cons g gs ih =>
    have hg : (g.var id).signature = g.signature := Prod.ext rfl (h g List.mem_cons_self)
    have hgs := ih (id + 1) fun g' hg' => h g' (List.mem_cons_of_mem _ hg')
    rw [vars, List.map_cons, List.map_cons, hg, hgs]

theorem collect_map {α β : Type} {part : NodeId → Item → List α} {f : α → β}
    {g : Item → List β} {d : Derivation} (h : ∀ i ∈ d, ∀ id, (part id i).map f = g i)
    (id : NodeId) : (d.collect part id).map f = d.flatMap g := by
  induction d generalizing id with
  | nil => rfl
  | cons i d ih =>
    have hd := ih (fun j hj => h j (List.mem_cons_of_mem _ hj)) (id + i.size)
    rw [collect, List.map_append, h i List.mem_cons_self, hd, List.flatMap_cons]

variable {d : Derivation}

theorem Typed.signatures (hd : d.Typed) (name : String) :
    (d.module name).vars.map Var.signature = (d.flatMap Item.groups).map Group.signature ∧
      (d.module name).procs.map Proc.signature =
        (d.flatMap Item.procDecls).map ProcDecl.signature := by
  have named {i : Item} (hi : i ∈ d) : ∃ k id, ∀ (w : Word) o,
      ⟨w.token, .typeName o⟩ ∈ i.marks k id → (TypeName.named w.text).text = w.text := by
    obtain ⟨k, id, hs⟩ := subset_marksFrom hi 0 0
    exact ⟨k, id, fun w o hw => hd.named_text (hs hw)⟩
  constructor
  · rw [List.map_flatMap]
    apply collect_map
    intro i hi id
    obtain ⟨k, id', hn⟩ := named hi
    cases i with
    | varDecl v =>
      apply vars_signature
      intro g hg
      exact hn g.type none (List.mem_cons_of_mem _ (mem_groupMarks hg))
    | procDecl p => rfl
    | exportsDecl e => rfl
  · rw [List.map_flatMap]
    apply collect_map
    intro i hi id
    obtain ⟨k, id', hn⟩ := named hi
    cases i with
    | varDecl v => rfl
    | procDecl p =>
      have hreturn : (TypeName.named p.returnType.text).text = p.returnType.text := by
        apply hn p.returnType none
        simp [Item.marks, ProcDecl.marks, ProcDecl.headingMarks]
      have hlocals : (vars (id + 1) p.groups).map Var.signature = p.groups.map Group.signature := by
        apply vars_signature
        intro g hg
        apply hn g.type (some k)
        apply List.mem_append_right
        exact List.mem_append_left _ (mem_varDeclMarks hg)
      simp [Item.procs, Item.procDecls, Proc.signature, ProcDecl.signature, ProcDecl.proc,
        hreturn, hlocals]
    | exportsDecl e => rfl

end Derivation

theorem TypeName.exists_text_eq_iff {x : String} :
    (∃ t : TypeName, t.text = x) ↔ x ∈ ["void", "int", "float", "char"] := by
  constructor
  · intro h
    obtain ⟨t, rfl⟩ := h
    cases t <;> decide
  · intro h
    obtain ⟨t, -, ht⟩ := List.mem_map.mp (show x ∈ all.map text from h)
    exact ⟨t, ht⟩

theorem typeFault_message (past : List Mark) (o : Owner) (x : String) :
    (typeFault past o x).message x =
      if Hidden past o x then "'" ++ x ++ "' is not a type" else "unknown type '" ++ x ++ "'" := by
  unfold typeFault
  by_cases h : Hidden past o x
  · rw [if_pos h, if_pos h]
    rfl
  · rw [if_neg h, if_neg h]
    rfl

/-- A derivable text is accepted exactly if each type name in it is that of a built-in type and not
hidden. Otherwise the first one that is not so is the error. -/
theorem type_names_resolve (name : String) {source : Bytes} {d : Derivation} {l : Location}
    (h : (Scanner.ofSource source).tokenize.1 = .ok (d.tokens, l)) :
    ((∃ m, (Module.parse name source).value = .ok m) ↔ ∀ past o x l', d.NamesType past o x l' →
      x ∈ ["void", "int", "float", "char"] ∧ ¬ Hidden past o x) ∧
    (∀ m, (Module.parse name source).value = .ok m →
      m.vars.map Var.signature = (d.flatMap Item.groups).map Group.signature ∧
      m.procs.map Proc.signature = (d.flatMap Item.procDecls).map ProcDecl.signature) ∧
    ((∀ m, (Module.parse name source).value ≠ .ok m) → ∃ past o x l', d.NamesType past o x l' ∧
      ¬ (x ∈ ["void", "int", "float", "char"] ∧ ¬ Hidden past o x) ∧
      (∀ past' o' x' l'', d.NamesType past' o' x' l'' → past'.length < past.length →
        x' ∈ ["void", "int", "float", "char"] ∧ ¬ Hidden past' o' x') ∧
      (Module.parse name source).value = .error (.semantic x
        (if Hidden past o x then "'" ++ x ++ "' is not a type" else "unknown type '" ++ x ++ "'")
        l')) := by
  have hsource := tokenize_eq_ok_iff.mp h
  have rule (past : List Mark) (o : Owner) (x : String) :
      x ∈ ["void", "int", "float", "char"] ∧ ¬ Hidden past o x ↔ Resolves past o x := by
    rw [Resolves, TypeName.exists_text_eq_iff]
  simp only [rule]
  rw [← typed_iff]
  by_cases ht : d.Typed
  · have hm := parse_of_typed name hsource ht
    refine ⟨⟨fun _ => ht, fun _ => ⟨_, hm⟩⟩, ?_, fun hn => absurd hm (hn _)⟩
    intro m hm'
    rw [hm] at hm'
    cases hm'
    exact ht.signatures name
  · obtain ⟨past, o, x, at', ho, hn, hp, hf⟩ := parse_of_not_typed name hsource ht
    refine ⟨⟨?_, fun hd => absurd hd ht⟩, ?_, ?_⟩
    · intro hm
      obtain ⟨m, hm⟩ := hm
      rw [hf] at hm
      cases hm
    · intro m hm
      rw [hf] at hm
      cases hm
    · intro _
      refine ⟨past, o, x, at', ho, hn, ?_, ?_⟩
      · intro past' o' x' l'' hx hlt
        exact ho.resolves_before hp hx hlt
      · rw [hf, ParseError.ofTypeFault, typeFault_message]

theorem own_name_hides_type :
    let source := "var int: int;".toUTF8.toList
    let d : Derivation :=
      [.varDecl ⟨⟨1, 1⟩, ⟨⟨"int", ⟨1, 5⟩⟩, ⟨1, 8⟩, ⟨"int", ⟨1, 10⟩⟩, ⟨1, 13⟩⟩, []⟩]
    (Scanner.ofSource source).tokenize.1 = .ok (d.tokens, ⟨1, 14⟩) ∧
      ¬ ∃ m, (Module.parse "m" source).value = .ok m := by
  intro source d
  have hscan : (Scanner.ofSource source).tokenize.1 = .ok (d.tokens, ⟨1, 14⟩) := by decide +kernel
  refine ⟨hscan, ?_⟩
  intro hm
  have hnamed : d.NamesType (d.marks.take 3) none "int" ⟨1, 10⟩ := ⟨_, rfl⟩
  obtain ⟨-, hvisible⟩ := (type_names_resolve "m" hscan).1.mp hm _ _ _ _ hnamed
  exact hvisible (by decide)

end ProcLang
