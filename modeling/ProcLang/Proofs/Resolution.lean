import ProcLang.Proofs.Derivation
import ProcLang.Program.Diagnostic

/-! # When a type name resolves

The rule speaks of the order in which names are written and of the procedure they belong to; it
knows no scopes. A declaration counts from its name on, so a name is hidden from its own type. -/
namespace ProcLang

/-- The module, or the procedure that is the item of the given number. -/
abbrev Owner := Option Nat

/-- What a token does to names: it names a new node, or the type of a declaration of an owner. -/
inductive Role where
  | plain
  | var (o : Owner) (id : NodeId)
  | proc (id : NodeId)
  | typeName (o : Owner)
  deriving DecidableEq, Repr

structure Mark where
  token : Token
  role : Role
  deriving DecidableEq, Repr

namespace Derivation

def plain (t : Token) : Mark := ⟨t, .plain⟩

def Group.marks (o : Owner) (id : NodeId) (g : Group) : List Mark :=
  [⟨g.name.token, .var o id⟩, plain ⟨.colon, g.colon⟩, ⟨g.type.token, .typeName o⟩,
    plain ⟨.semicolon, g.semicolon⟩]

def groupMarks (o : Owner) (id : NodeId) : List Group → List Mark
  | [] => []
  | g :: gs => g.marks o id ++ groupMarks o (id + 1) gs

def VarDecl.marks (o : Owner) (id : NodeId) (d : VarDecl) : List Mark :=
  plain ⟨.var, d.keyword⟩ :: groupMarks o id d.groups

def varDeclMarks (o : Owner) (id : NodeId) : List VarDecl → List Mark
  | [] => []
  | d :: ds => d.marks o id ++ varDeclMarks o (id + d.groups.length) ds

def ProcDecl.headingMarks (id : NodeId) (d : ProcDecl) : List Mark :=
  [plain ⟨.proc, d.keyword⟩, ⟨d.name.token, .proc id⟩, plain ⟨.leftParen, d.leftParen⟩,
    plain ⟨.rightParen, d.rightParen⟩, plain ⟨.colon, d.colon⟩,
    ⟨d.returnType.token, .typeName none⟩]

def ProcDecl.marks (k : Nat) (id : NodeId) (d : ProcDecl) : List Mark :=
  d.headingMarks id ++ (varDeclMarks (some k) (id + 1) d.locals ++ d.block.map plain)

def Item.marks (k : Nat) (id : NodeId) : Item → List Mark
  | .varDecl d => d.marks none id
  | .procDecl d => d.marks k id
  | .exportsDecl d => d.tokens.map plain

/-- The tokens of items with what they do to names; items and nodes are numbered on. -/
def marksFrom (k : Nat) (id : NodeId) : Derivation → List Mark
  | [] => []
  | i :: is => i.marks k id ++ marksFrom (k + 1) (id + i.size) is

def marks (d : Derivation) : List Mark := d.marksFrom 0 0

theorem groupMarks_token (o : Owner) (id : NodeId) (gs : List Group) :
    (groupMarks o id gs).map Mark.token = gs.flatMap Group.tokens := by
  induction gs generalizing id with
  | nil => rfl
  | cons g gs ih => simp [groupMarks, Group.marks, Group.tokens, plain, ih]

theorem varDeclMarks_token (o : Owner) (id : NodeId) (ds : List VarDecl) :
    (varDeclMarks o id ds).map Mark.token = ds.flatMap VarDecl.tokens := by
  induction ds generalizing id with
  | nil => rfl
  | cons d ds ih =>
    simp [varDeclMarks, VarDecl.marks, VarDecl.tokens, plain, groupMarks_token, ih]

theorem map_plain_token (ts : List Token) : (ts.map plain).map Mark.token = ts := by
  simp [Function.comp_def, plain]

theorem Item.marks_token (k : Nat) (id : NodeId) (i : Item) :
    (i.marks k id).map Mark.token = i.tokens := by
  cases i with
  | varDecl d => simp [marks, tokens, VarDecl.marks, VarDecl.tokens, plain, groupMarks_token]
  | procDecl d =>
    simp only [marks, tokens, ProcDecl.marks, ProcDecl.tokens, List.map_append,
      varDeclMarks_token, map_plain_token]
    rfl
  | exportsDecl d => exact map_plain_token d.tokens

theorem marksFrom_token (k : Nat) (id : NodeId) (d : Derivation) :
    (d.marksFrom k id).map Mark.token = d.tokens := by
  induction d generalizing k id with
  | nil => rfl
  | cons i is ih =>
    rw [marksFrom, List.map_append, Item.marks_token, ih]
    rfl

theorem marks_token (d : Derivation) : d.marks.map Mark.token = d.tokens := marksFrom_token 0 0 d

end Derivation

def Mark.declaration? (m : Mark) : Option (Owner × String × Binding) :=
  match m.role, m.token.terminal with
  | .var o id, .identifier name => some (o, name, .var id)
  | .proc id, .identifier name => some (none, name, .proc id)
  | _, _ => none

def Mark.Declares (m : Mark) (o : Owner) (name : String) : Prop :=
  ∃ b, m.declaration? = some (o, name, b)

instance (m : Mark) (o : Owner) (name : String) : Decidable (m.Declares o name) :=
  decidable_of_iff (m.declaration?.map (fun d => (d.1, d.2.1)) = some (o, name)) (by
    simp [Mark.Declares, Option.map_eq_some_iff, Prod.ext_iff])

/-- Among the marks is a declaration of the name by the given owner. -/
def Declared (past : List Mark) (o : Owner) (name : String) : Prop :=
  ∃ m ∈ past, m.Declares o name

instance (past : List Mark) (o : Owner) (name : String) : Decidable (Declared past o name) :=
  inferInstanceAs (Decidable (∃ m ∈ past, _))

/-- The name has been declared by the module or by the owner of the declaration that uses it. -/
def Hidden (past : List Mark) (o : Owner) (name : String) : Prop :=
  Declared past none name ∨ Declared past o name

instance (past : List Mark) (o : Owner) (name : String) : Decidable (Hidden past o name) :=
  inferInstanceAs (Decidable (_ ∨ _))

/-- Only the built-in types can be named, and only where nothing hides them. -/
def Resolves (past : List Mark) (o : Owner) (name : String) : Prop :=
  (∃ t : TypeName, t.text = name) ∧ ¬ Hidden past o name

def Mark.Unresolved (past : List Mark) (m : Mark) : Prop :=
  ∃ o name, m.role = .typeName o ∧ m.token.terminal = .identifier name ∧ ¬ Resolves past o name

/-- Every type name among the marks resolves after those before it. -/
def AllResolve (past : List Mark) (ms : List Mark) : Prop :=
  ∀ before m after, ms = before ++ m :: after → ¬ m.Unresolved (past ++ before)

def typeFault (past : List Mark) (o : Owner) (name : String) : TypeFault :=
  if Hidden past o name then .notAType else .unknown

namespace Mark

def check (past : List Mark) (m : Mark) : Except ParseError Unit :=
  match m.role, m.token.terminal with
  | .typeName o, .identifier name =>
    if Hidden past o name ∨ TypeName.ofText? name = none then
      .error (.ofTypeFault name m.token.location (typeFault past o name))
    else .ok ()
  | _, _ => .ok ()

end Mark

theorem TypeName.ofText?_eq_none_iff {name : String} :
    ofText? name = none ↔ ¬ ∃ t : TypeName, t.text = name := by
  simp only [Option.eq_none_iff_forall_ne_some, ne_eq, ofText?_eq_some_iff, not_exists]

theorem resolves_iff {past : List Mark} {o : Owner} {name : String} :
    Resolves past o name ↔ ¬ (Hidden past o name ∨ TypeName.ofText? name = none) := by
  rw [TypeName.ofText?_eq_none_iff, Resolves]
  tauto

theorem Mark.check_of_unresolved {past : List Mark} {m : Mark} {o : Owner} {name : String}
    (hr : m.role = .typeName o) (ht : m.token.terminal = .identifier name)
    (h : ¬ Resolves past o name) :
    m.check past = .error (.ofTypeFault name m.token.location (typeFault past o name)) := by
  rw [resolves_iff, not_not] at h
  simp [check, hr, ht, h]

theorem Mark.check_eq_ok_iff {past : List Mark} {m : Mark} :
    m.check past = .ok () ↔ ¬ m.Unresolved past := by
  constructor
  · rintro h ⟨o, name, hr, ht, hn⟩
    rw [check_of_unresolved hr ht hn] at h
    cases h
  · intro h
    unfold check
    split
    · rename_i o name hr ht
      rw [if_neg]
      exact resolves_iff.mp (by_contra fun hn => h ⟨o, name, hr, ht, hn⟩)
    · rfl

theorem allResolve_nil (past : List Mark) : AllResolve past [] := by
  intro before m after h
  simp at h

theorem allResolve_append {past first second : List Mark} :
    AllResolve past (first ++ second) ↔
      AllResolve past first ∧ AllResolve (past ++ first) second := by
  constructor
  · intro h
    refine ⟨fun before m after he => h before m (after ++ second) (by simp [he]), ?_⟩
    intro before m after he
    rw [List.append_assoc]
    exact h (first ++ before) m after (by simp [he])
  · rintro ⟨hf, hs⟩ before m after he
    rcases List.append_eq_append_iff.mp he with ⟨mid, rfl, hm⟩ | ⟨mid, rfl, hm⟩
    · rw [← List.append_assoc]
      exact hs mid m after hm
    · cases mid with
      | nil => simpa using hs [] m after hm.symm
      | cons x mid =>
        obtain ⟨rfl, rfl⟩ := List.cons.inj hm
        exact hf before m mid rfl

theorem allResolve_singleton {past : List Mark} {m : Mark} :
    AllResolve past [m] ↔ ¬ m.Unresolved past := by
  constructor
  · intro h
    simpa using h [] m [] rfl
  · intro h before x after he
    obtain ⟨rfl, he⟩ | ⟨_, -, he⟩ := List.cons_eq_append_iff.mp he
    · obtain ⟨rfl, -⟩ := List.cons.inj he
      simpa using h
    · simp at he

theorem allResolve_cons {past : List Mark} {m : Mark} {ms : List Mark} :
    AllResolve past (m :: ms) ↔ ¬ m.Unresolved past ∧ AllResolve (past ++ [m]) ms := by
  have h := @allResolve_append past [m] ms
  rwa [allResolve_singleton] at h

instance (past : List Mark) (m : Mark) : Decidable (m.Unresolved past) :=
  decidable_of_iff (m.check past ≠ .ok ()) (by rw [ne_eq, Mark.check_eq_ok_iff, not_not])

instance decidableAllResolve : (past ms : List Mark) → Decidable (AllResolve past ms)
  | past, [] => isTrue (allResolve_nil past)
  | past, m :: ms =>
    have := decidableAllResolve (past ++ [m]) ms
    decidable_of_iff (¬ m.Unresolved past ∧ AllResolve (past ++ [m]) ms) allResolve_cons.symm

theorem allResolve_or_first (past ms : List Mark) : AllResolve past ms ∨
    ∃ before m after, ms = before ++ m :: after ∧ AllResolve past before ∧
      m.Unresolved (past ++ before) := by
  induction ms using List.reverseRecOn with
  | nil => exact Or.inl (allResolve_nil past)
  | append_singleton ms m ih =>
    rcases ih with h | ⟨before, x, after, rfl, hb, hx⟩
    · by_cases hm : m.Unresolved (past ++ ms)
      · exact Or.inr ⟨ms, m, [], rfl, h, hm⟩
      · exact Or.inl (allResolve_append.mpr ⟨h, allResolve_singleton.mpr hm⟩)
    · exact Or.inr ⟨before, x, after ++ [m], by simp, hb, hx⟩

namespace Derivation

def Typed (d : Derivation) : Prop := AllResolve [] d.marks

instance (d : Derivation) : Decidable d.Typed := inferInstanceAs (Decidable (AllResolve _ _))

/-- Behind the marks `past` stands the name of the type of a declaration of the owner. -/
def NamesType (d : Derivation) (past : List Mark) (o : Owner) (x : String) (l : Location) : Prop :=
  ∃ after, d.marks = past ++ ⟨⟨.identifier x, l⟩, .typeName o⟩ :: after

theorem typed_iff {d : Derivation} :
    d.Typed ↔ ∀ past o x l, d.NamesType past o x l → Resolves past o x := by
  constructor
  · intro h past o x l hx
    obtain ⟨after, hd⟩ := hx
    by_contra hn
    exact h past _ after hd ⟨o, x, rfl, rfl, hn⟩
  · intro h past m after hd hm
    obtain ⟨⟨u, l⟩, r⟩ := m
    obtain ⟨o, x, rfl, rfl, hn⟩ := hm
    exact hn (h past o x l ⟨after, hd⟩)

theorem NamesType.resolves_before {d : Derivation} {past past' : List Mark} {o o' : Owner}
    {x x' : String} {l l' : Location} (h : d.NamesType past o x l) (hp : AllResolve [] past)
    (h' : d.NamesType past' o' x' l') (hlt : past'.length < past.length) :
    Resolves past' o' x' := by
  obtain ⟨after, hd⟩ := h
  obtain ⟨after', hd'⟩ := h'
  rw [hd] at hd'
  rcases List.append_eq_append_iff.mp hd' with ⟨mid, rfl, -⟩ | ⟨mid, rfl, hm⟩
  · rw [List.length_append] at hlt
    omega
  · cases mid with
    | nil => simp at hlt
    | cons m mid =>
      obtain ⟨rfl, -⟩ := List.cons.inj hm
      by_contra hn
      exact hp past' _ mid rfl ⟨o', x', rfl, rfl, hn⟩

variable {o : Owner} {id : NodeId} {g : Group}

theorem mem_groupMarks {gs : List Group} (h : g ∈ gs) :
    ⟨g.type.token, .typeName o⟩ ∈ groupMarks o id gs := by
  induction gs generalizing id with
  | nil => cases h
  | cons g' gs ih =>
    rw [groupMarks, List.mem_append]
    rcases List.mem_cons.mp h with rfl | h
    · exact Or.inl (by simp [Group.marks])
    · exact Or.inr (ih h)

theorem mem_varDeclMarks {ds : List VarDecl} (h : g ∈ ds.flatMap VarDecl.groups) :
    ⟨g.type.token, .typeName o⟩ ∈ varDeclMarks o id ds := by
  induction ds generalizing id with
  | nil => cases h
  | cons d ds ih =>
    rw [varDeclMarks, List.mem_append]
    rcases List.mem_append.mp h with h | h
    · exact Or.inl (List.mem_cons_of_mem _ (mem_groupMarks h))
    · exact Or.inr (ih h)

theorem subset_marksFrom {i : Item} {d : Derivation} (h : i ∈ d) (k : Nat) (id : NodeId) :
    ∃ k' id', i.marks k' id' ⊆ d.marksFrom k id := by
  induction d generalizing k id with
  | nil => cases h
  | cons j d ih =>
    rcases List.mem_cons.mp h with rfl | h
    · exact ⟨k, id, List.subset_append_left _ _⟩
    · obtain ⟨k', id', hs⟩ := ih h (k + 1) (id + j.size)
      exact ⟨k', id', List.subset_append_of_subset_right _ hs⟩

theorem Typed.named_text {d : Derivation} (hd : d.Typed) {w : Word}
    (hw : ⟨w.token, .typeName o⟩ ∈ d.marks) : (TypeName.named w.text).text = w.text := by
  obtain ⟨past, after, hm⟩ := List.append_of_mem hw
  obtain ⟨⟨t, ht⟩, -⟩ := typed_iff.mp hd past o w.text w.location ⟨after, hm⟩
  rw [← ht, TypeName.named_text]

end Derivation

end ProcLang
