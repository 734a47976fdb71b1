import ProcLang.Proofs.Acceptance

/-! # Signatures

Whether the type names of a derivation resolve depends on nothing but its signatures, the names that
it declares and the types that it writes for them, in order. -/
namespace ProcLang

/-- What a declaration of the module declares. -/
inductive Signature where
  | var (v : String × String)
  | proc (p : String × String × List (String × String))

def Visible (hidden : Set String) (type : String) : Prop :=
  (∃ t : TypeName, t.text = type) ∧ type ∉ hidden

/-- All types are visible, while each name hides types from its own one on. -/
def VarsVisible : Set String → List (String × String) → Prop
  | _, [] => True
  | hidden, (x, type) :: vs => Visible (insert x hidden) type ∧ VarsVisible (insert x hidden) vs

/-- As `VarsVisible`, but the variables of a procedure hide nothing from what is behind it. -/
def AllVisible : Set String → List Signature → Prop
  | _, [] => True
  | hidden, .var (x, type) :: ss =>
    Visible (insert x hidden) type ∧ AllVisible (insert x hidden) ss
  | hidden, .proc (x, type, locals) :: ss =>
    Visible (insert x hidden) type ∧ VarsVisible (insert x hidden) locals ∧
      AllVisible (insert x hidden) ss

def Derivation.Item.signatures : Item → List Signature
  | .varDecl d => (d.groups.map Group.signature).map .var
  | .procDecl d => [.proc d.signature]
  | .exportsDecl _ => []

def hide (hidden : Set String) (vs : List (String × String)) : Set String :=
  vs.foldl (fun hidden v => insert v.1 hidden) hidden

theorem varsVisible_append {hidden : Set String} {vs ws : List (String × String)} :
    VarsVisible hidden (vs ++ ws) ↔ VarsVisible hidden vs ∧ VarsVisible (hide hidden vs) ws := by
  induction vs generalizing hidden with
  | nil => simp [VarsVisible, hide]
  | cons v vs ih =>
    rw [List.cons_append, VarsVisible, VarsVisible, ih, and_assoc]
    rfl

theorem allVisible_append_vars {hidden : Set String} {vs : List (String × String)}
    {ss : List Signature} : AllVisible hidden (vs.map .var ++ ss) ↔
      VarsVisible hidden vs ∧ AllVisible (hide hidden vs) ss := by
  induction vs generalizing hidden with
  | nil => simp [VarsVisible, hide]
  | cons v vs ih =>
    rw [List.map_cons, List.cons_append, AllVisible, VarsVisible, ih, and_assoc]
    rfl

open ProcLang.Derivation

def hiddenFrom (past : List Mark) (o : Owner) : Set String := {x | Hidden past o x}

section

variable {past ms : List Mark} {m : Mark} {o o' : Owner} {id : NodeId} {x : String} {b : Binding}

theorem mem_hiddenFrom : x ∈ hiddenFrom past o ↔ Hidden past o x := Iff.rfl

theorem hidden_append : Hidden (past ++ ms) o x ↔ Hidden past o x ∨ Hidden ms o x := by
  simp only [Hidden, Declared, List.mem_append, or_and_right, exists_or]
  exact or_or_or_comm

theorem hiddenFrom_skip (h : ∀ m ∈ ms, ∀ x, ¬ m.Declares none x ∧ ¬ m.Declares o x) :
    hiddenFrom (past ++ ms) o = hiddenFrom past o := by
  ext x
  rw [mem_hiddenFrom, mem_hiddenFrom, hidden_append, or_iff_left]
  rintro (⟨m, hm, hd⟩ | ⟨m, hm, hd⟩)
  · exact (h m hm x).1 hd
  · exact (h m hm x).2 hd

theorem hiddenFrom_declare (h : m.declaration? = some (o', x, b)) (ho : o' = none ∨ o' = o) :
    hiddenFrom (past ++ [m]) o = insert x (hiddenFrom past o) := by
  have declares (o'' : Owner) (y : String) : m.Declares o'' y ↔ o' = o'' ∧ x = y := by
    simp [Mark.Declares, h]
  ext y
  rw [mem_hiddenFrom, hidden_append, Set.mem_insert_iff, mem_hiddenFrom, or_comm]
  refine or_congr_left ?_
  simp only [Hidden, Declared, List.mem_singleton, exists_eq_left, declares]
  tauto

theorem allResolve_declare (h : m.declaration? = some (o', x, b)) :
    AllResolve past (m :: ms) ↔ AllResolve (past ++ [m]) ms := by
  rw [allResolve_cons, and_iff_right]
  rintro ⟨o, y, hr, -⟩
  rw [Mark.declaration?, hr] at h
  cases h

theorem allResolve_plain_cons {t : Token} :
    AllResolve past (plain t :: ms) ↔ AllResolve (past ++ [plain t]) ms := by
  rw [allResolve_cons, and_iff_right]
  rintro ⟨o, y, hr, -⟩
  cases hr

theorem allResolve_typeName {w : Word} :
    AllResolve past (⟨w.token, .typeName o⟩ :: ms) ↔
      Visible (hiddenFrom past o) w.text ∧ AllResolve (past ++ [⟨w.token, .typeName o⟩]) ms := by
  rw [allResolve_cons]
  refine and_congr_left fun _ => ?_
  constructor
  · intro h
    by_contra hv
    exact h ⟨o, w.text, rfl, rfl, hv⟩
  · rintro h ⟨o', x, hr, ht, hn⟩
    cases hr
    cases ht
    exact hn h

theorem allResolve_plain (past : List Mark) (ts : List Token) :
    AllResolve past (ts.map plain) := by
  induction ts generalizing past with
  | nil => exact allResolve_nil past
  | cons t ts ih => exact allResolve_plain_cons.mpr (ih _)

theorem hiddenFrom_plain (past : List Mark) (o : Owner) (ts : List Token) :
    hiddenFrom (past ++ ts.map plain) o = hiddenFrom past o :=
  hiddenFrom_skip fun _ hm _ => ⟨not_declares_of_plain hm, not_declares_of_plain hm⟩

/-- A declared name and the name of its type, with other tokens between them and behind them. -/
def declarationMarks (m : Mark) (between : List Token) (type : Mark) (behind : List Token) :
    List Mark :=
  m :: between.map plain ++ type :: behind.map plain

variable {w : Word} {between behind : List Token}

theorem allResolve_declaration (h : m.declaration? = some (o', x, b)) (ho : o' = none ∨ o' = o) :
    AllResolve past (declarationMarks m between ⟨w.token, .typeName o⟩ behind) ↔
      Visible (insert x (hiddenFrom past o)) w.text := by
  rw [declarationMarks, List.cons_append, allResolve_declare h, allResolve_append,
    and_iff_right (allResolve_plain _ _), allResolve_typeName, hiddenFrom_plain,
    hiddenFrom_declare h ho, and_iff_left]
  exact allResolve_plain _ behind

theorem hiddenFrom_declaration {o'' : Owner} (h : m.declaration? = some (o', x, b))
    (ho : o' = none ∨ o' = o) :
    hiddenFrom (past ++ declarationMarks m between ⟨w.token, .typeName o''⟩ behind) o =
      insert x (hiddenFrom past o) := by
  have hrest : hiddenFrom (past ++ [m] ++
      (between.map plain ++ ⟨w.token, .typeName o''⟩ :: behind.map plain)) o =
      hiddenFrom (past ++ [m]) o := by
    apply hiddenFrom_skip
    intro k hk y
    rcases List.mem_append.mp hk with hk | hk
    · exact ⟨not_declares_of_plain hk, not_declares_of_plain hk⟩
    rcases List.mem_cons.mp hk with rfl | hk
    · constructor <;> rintro ⟨_, ⟨⟩⟩
    · exact ⟨not_declares_of_plain hk, not_declares_of_plain hk⟩
  rw [hiddenFrom_declare h ho, List.append_assoc] at hrest
  exact hrest

end

section

variable (past : List Mark) (o : Owner) (id : NodeId)

theorem Derivation.Group.marks_eq (g : Group) : g.marks o id =
    declarationMarks ⟨g.name.token, .var o id⟩ [⟨.colon, g.colon⟩] ⟨g.type.token, .typeName o⟩
      [⟨.semicolon, g.semicolon⟩] := rfl

theorem hiddenFrom_groupMarks (gs : List Group) :
    hiddenFrom (past ++ groupMarks o id gs) o =
      hide (hiddenFrom past o) (gs.map Group.signature) := by
  induction gs generalizing past id with
  | nil =>
    rw [groupMarks, List.append_nil]
    rfl
  | cons g gs ih =>
    rw [groupMarks, ← List.append_assoc, ih, Group.marks_eq,
      hiddenFrom_declaration rfl (Or.inr rfl)]
    rfl

theorem allResolve_groupMarks (gs : List Group) : AllResolve past (groupMarks o id gs) ↔
    VarsVisible (hiddenFrom past o) (gs.map Group.signature) := by
  induction gs generalizing past id with
  | nil => exact iff_of_true (allResolve_nil past) trivial
  | cons g gs ih =>
    rw [groupMarks, allResolve_append, ih, Group.marks_eq,
      allResolve_declaration rfl (Or.inr rfl), hiddenFrom_declaration rfl (Or.inr rfl)]
    rfl

theorem hiddenFrom_varDecl (d : VarDecl) : hiddenFrom (past ++ d.marks o id) o =
    hide (hiddenFrom past o) (d.groups.map Group.signature) := by
  rw [VarDecl.marks, List.append_cons, hiddenFrom_groupMarks]
  rw [← List.map_singleton, hiddenFrom_plain]

theorem allResolve_varDecl (d : VarDecl) : AllResolve past (d.marks o id) ↔
    VarsVisible (hiddenFrom past o) (d.groups.map Group.signature) := by
  rw [VarDecl.marks, allResolve_plain_cons, allResolve_groupMarks]
  rw [← List.map_singleton, hiddenFrom_plain]

theorem allResolve_varDeclMarks (ds : List VarDecl) : AllResolve past (varDeclMarks o id ds) ↔
    VarsVisible (hiddenFrom past o) ((ds.flatMap VarDecl.groups).map Group.signature) := by
  induction ds generalizing past id with
  | nil => exact iff_of_true (allResolve_nil past) trivial
  | cons d ds ih =>
    rw [varDeclMarks, allResolve_append, allResolve_varDecl, ih, hiddenFrom_varDecl,
      List.flatMap_cons, List.map_append, varsVisible_append]

theorem Derivation.ProcDecl.headingMarks_eq (d : ProcDecl) : d.headingMarks id =
    [plain ⟨.proc, d.keyword⟩] ++ declarationMarks ⟨d.name.token, .proc id⟩
      [⟨.leftParen, d.leftParen⟩, ⟨.rightParen, d.rightParen⟩, ⟨.colon, d.colon⟩]
      ⟨d.returnType.token, .typeName none⟩ [] := rfl

theorem hiddenFrom_heading (d : ProcDecl) : hiddenFrom (past ++ d.headingMarks id) o =
    insert d.name.text (hiddenFrom past o) := by
  rw [ProcDecl.headingMarks_eq, ← List.append_assoc, hiddenFrom_declaration rfl (Or.inl rfl),
    ← List.map_singleton, hiddenFrom_plain]

theorem hiddenFrom_procDecl (k : ℕ) (d : ProcDecl) : hiddenFrom (past ++ d.marks k id) none =
    insert d.name.text (hiddenFrom past none) := by
  rw [ProcDecl.marks, ← List.append_assoc, ← List.append_assoc, hiddenFrom_plain,
    hiddenFrom_skip, hiddenFrom_heading]
  intro m hm x
  have howner (hd : m.Declares none x) : none = some k := owner_of_varDeclMarks hm hd
  have hnot : ¬ m.Declares none x := fun hd => Option.some_ne_none k (howner hd).symm
  exact ⟨hnot, hnot⟩

variable {past}

theorem hiddenFrom_fresh {k : ℕ} (hk : ∀ x, ¬ Declared past (some k) x) :
    hiddenFrom past (some k) = hiddenFrom past none := by
  ext x
  rw [mem_hiddenFrom, mem_hiddenFrom, Hidden, Hidden, or_iff_left (hk x), or_self_iff]

theorem allResolve_procDecl {k : ℕ} (hk : ∀ x, ¬ Declared past (some k) x) (d : ProcDecl) :
    AllResolve past (d.marks k id) ↔
      Visible (insert d.name.text (hiddenFrom past none)) d.returnType.text ∧
        VarsVisible (insert d.name.text (hiddenFrom past none))
          (d.groups.map Group.signature) := by
  have hheading : AllResolve past (d.headingMarks id) ↔
      Visible (insert d.name.text (hiddenFrom past none)) d.returnType.text := by
    rw [ProcDecl.headingMarks_eq, List.singleton_append, allResolve_plain_cons,
      allResolve_declaration rfl (Or.inl rfl), ← List.map_singleton, hiddenFrom_plain]
  rw [ProcDecl.marks, allResolve_append, allResolve_append, hheading, allResolve_varDeclMarks,
    hiddenFrom_heading, hiddenFrom_fresh hk, and_iff_left (allResolve_plain _ _)]
  rfl

theorem allResolve_marksFrom {k : ℕ} (hf : Fresh past k) (d : Derivation) :
    AllResolve past (d.marksFrom k id) ↔
      AllVisible (hiddenFrom past none) (d.flatMap Item.signatures) := by
  induction d generalizing past k id with
  | nil => exact iff_of_true (allResolve_nil past) trivial
  | cons i d ih =>
    rw [marksFrom, allResolve_append, ih _ (hf.append_marks i), List.flatMap_cons]
    cases i with
    | varDecl v =>
      rw [Item.marks, allResolve_varDecl, hiddenFrom_varDecl, Item.signatures,
        allVisible_append_vars]
    | procDecl p =>
      rw [Item.marks, allResolve_procDecl id (hf k le_rfl), hiddenFrom_procDecl, and_assoc]
      rfl
    | exportsDecl e =>
      rw [Item.marks, hiddenFrom_plain, and_iff_right (allResolve_plain _ _)]
      rfl

end

/-- The signatures of a derivation tell whether its type names resolve. -/
theorem Derivation.typed_iff_signatures (d : Derivation) :
    d.Typed ↔ AllVisible ∅ (d.flatMap Item.signatures) := by
  have hfresh : Fresh [] 0 := by
    rintro j - name ⟨x, hx, -⟩
    cases hx
  have hempty : hiddenFrom [] none = ∅ := by
    ext x
    rw [mem_hiddenFrom, Hidden, Declared]
    simp
  rw [Typed, marks, allResolve_marksFrom 0 hfresh, hempty]

end ProcLang
