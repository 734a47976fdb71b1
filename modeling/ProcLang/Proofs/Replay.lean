import ProcLang.Proofs.Step
import ProcLang.Proofs.Visibility

/-! # The parser along a derivation

Fed with the tokens of a derivation, the parser does at each of them what the rule on type names
says, and what it has built in the end is the tree of the derivation. -/
namespace ProcLang

open ProcLang.Derivation

/-- At each mark the parser fails as the rule says or goes on, with scopes that mirror the marks. A
name that does not resolve is followed by the state that it would lead to if it did. -/
inductive Follows : List Mark → ParseState → List Mark → ParseState → Prop where
  | nil (past s) : Follows past s [] s
  | cons {past s m s₁ ms s'} (step : s.advance m.token = (m.check past).map fun _ => s₁)
      (mirrored : ∃ o, Mirrors (past ++ [m]) o s₁.scopes)
      (rest : Follows (past ++ [m]) s₁ ms s') : Follows past s (m :: ms) s'

theorem Follows.append {past first second : List Mark} {s s₁ s' : ParseState}
    (h : Follows past s first s₁) (k : Follows (past ++ first) s₁ second s') :
    Follows past s (first ++ second) s' := by
  induction h with
  | nil => simpa using k
  | cons step mirrored _ ih => exact .cons step mirrored (ih (by simpa using k))

theorem Follows.split {past first second : List Mark} {s s' : ParseState}
    (h : Follows past s (first ++ second) s') :
    ∃ s₁, Follows past s first s₁ ∧ Follows (past ++ first) s₁ second s' := by
  induction first generalizing past s with
  | nil => exact ⟨s, .nil _ _, by simpa using h⟩
  | cons m first ih =>
    cases h with
    | cons step mirrored rest =>
      obtain ⟨s₁, hf, hs⟩ := ih rest
      exact ⟨s₁, .cons step mirrored hf, by simpa using hs⟩

theorem Follows.steps_eq_ok {past ms : List Mark} {s s' : ParseState} (h : Follows past s ms s')
    (hr : AllResolve past ms) : s.steps (ms.map Mark.token) = .ok s' := by
  induction h with
  | nil => rfl
  | @cons past s m s₁ ms s' step _ _ ih =>
    obtain ⟨hm, hms⟩ := allResolve_append.mp (show AllResolve past ([m] ++ ms) from hr)
    have hc := Mark.check_eq_ok_iff.mpr (allResolve_singleton.mp hm)
    rw [hc] at step
    rw [List.map_cons, ParseState.steps_cons, step]
    exact ih hms

theorem Follows.allResolve_of_steps {past ms : List Mark} {s s' s'' : ParseState}
    (h : Follows past s ms s') (hs : s.steps (ms.map Mark.token) = .ok s'') :
    AllResolve past ms := by
  rcases allResolve_or_first past ms with hr | ⟨before, m, after, rfl, hb, hm⟩
  · exact hr
  · obtain ⟨s₁, h₁, h₂⟩ := h.split
    have hok := h₁.steps_eq_ok hb
    cases h₂ with
    | cons step _ _ =>
      exfalso
      rw [List.map_append, ParseState.steps_append, hok, List.map_cons] at hs
      change s₁.steps _ = _ at hs
      rw [ParseState.steps_cons, step] at hs
      cases hc : m.check (past ++ before) with
      | ok => exact Mark.check_eq_ok_iff.mp hc hm
      | error e =>
        rw [hc] at hs
        cases hs

/-- The parser follows the marks to a state with the given property. -/
def Leads (past : List Mark) (s : ParseState) (ms : List Mark) (P : ParseState → Prop) : Prop :=
  ∃ s', Follows past s ms s' ∧ P s'

/-- The parser is at a place, has given out the numbers below `id` and has built `m`; what its
tables hold inside is told by the marks. -/
def At (past : List Mark) (o : Owner) (p : Place) (id : NodeId) (m : Module) (s : ParseState) :
    Prop :=
  ∃ scopes, s = ⟨p, scopes, id, m⟩ ∧ Mirrors past o scopes

namespace Leads

variable {past first second : List Mark} {m : Mark} {s s₁ : ParseState} {o : Owner}
  {P Q : ParseState → Prop}

theorem nil (h : P s) : Leads past s [] P := ⟨s, .nil past s, h⟩

theorem append (h : Leads past s first P)
    (k : ∀ s₁, P s₁ → Leads (past ++ first) s₁ second Q) : Leads past s (first ++ second) Q := by
  obtain ⟨s₁, hf, hp⟩ := h
  obtain ⟨s', hs, hq⟩ := k s₁ hp
  exact ⟨s', hf.append hs, hq⟩

theorem cons (step : s.advance m.token = (m.check past).map fun _ => s₁)
    (mirrors : Mirrors (past ++ [m]) o s₁.scopes)
    (k : Mirrors (past ++ [m]) o s₁.scopes → Leads (past ++ [m]) s₁ second P) :
    Leads past s (m :: second) P := by
  obtain ⟨s', h, hp⟩ := k mirrors
  exact ⟨s', .cons step ⟨o, mirrors⟩ h, hp⟩

theorem plain {t : Token} (hs : Mirrors past o s.scopes) (step : s.advance t = .ok s₁)
    (scopes : s₁.scopes = s.scopes)
    (k : Mirrors (past ++ [plain t]) o s₁.scopes → Leads (past ++ [plain t]) s₁ second P) :
    Leads past s (plain t :: second) P :=
  cons step (scopes ▸ hs.skip rfl) k

end Leads

theorem advance_typeName {past : List Mark} {m : Mark} {o : Owner} {s : ParseState}
    {name : String} {l : Location} {next : TypeName → ParseState} {events : TypeName → List Event}
    (hs : Mirrors past o s.scopes) (hr : m.role = .typeName o)
    (ht : m.token = ⟨.identifier name, l⟩)
    (hc : s.consume? m.token =
      some (s.resolve name l >>= fun t => .ok ⟨events t, next t⟩)) :
    s.advance m.token = (m.check past).map fun _ => next (.named name) := by
  rw [ParseState.advance, hc, hs.resolve hr ht]
  cases m.check past <;> rfl

def Region.with (r : Region) (vs : List Var) : Region :=
  match r with
  | .module => .module
  | .body p => .body { p with locals := p.locals ++ vs }

def Region.addTo (r : Region) (vs : List Var) (m : Module) : Module :=
  match r with
  | .module => { m with vars := m.vars ++ vs }
  | .body _ => m

@[simp] theorem Region.with_nil (r : Region) : r.with [] = r := by
  cases r <;> simp [Region.with]

@[simp] theorem Region.addTo_nil (r : Region) (m : Module) : r.addTo [] m = m := by
  cases r <;> simp [Region.addTo]

theorem Region.with_with (r : Region) (vs ws : List Var) :
    (r.with vs).with ws = r.with (vs ++ ws) := by
  cases r <;> simp [Region.with]

theorem Region.addTo_addTo (r : Region) (vs ws : List Var) (m : Module) :
    (r.with vs).addTo ws (r.addTo vs m) = r.addTo (vs ++ ws) m := by
  cases r <;> simp [Region.with, Region.addTo]

theorem addVar_eq (s : ParseState) (r : Region) (v : Var) : s.addVar r v =
    .ok ⟨[.declaredVar v], ⟨.group (r.with [v]), s.scopes, s.nextId, r.addTo [v] s.module⟩⟩ := by
  cases r <;> rfl

variable {past : List Mark} {o : Owner} {r : Region} {id : NodeId} {m : Module} {s : ParseState}

namespace Derivation

theorem Group.leads (g : Group) {p : Place} (hp : p = .varKeyword r ∨ p = .group r)
    (h : At past o p id m s) :
    Leads past s (g.marks o id)
      (At (past ++ g.marks o id) o (.group (r.with [g.var id])) (id + 1)
        (r.addTo [g.var id] m)) := by
  obtain ⟨scopes, rfl, hs⟩ := h
  have step_name : ParseState.advance ⟨p, scopes, id, m⟩ g.name.token =
      .ok ⟨.varName r ⟨id, g.name.text, g.name.location⟩,
        scopes.declare g.name.text (.var id), id + 1, m⟩ := by
    rcases hp with rfl | rfl <;> rfl
  refine .cons step_name (hs.declare rfl) fun hn => .plain hn rfl rfl fun hc => ?_
  refine .cons (advance_typeName hc rfl rfl rfl) (hc.skip rfl) fun ht => ?_
  refine .plain ht (congrArg (Except.map Logged.value) (addVar_eq _ r _)) rfl fun hv => .nil ?_
  exact ⟨_, rfl, by simpa [Group.marks] using hv⟩

theorem groups_lead (gs : List Group) (h : At past o (.group r) id m s) :
    Leads past s (groupMarks o id gs)
      (At (past ++ groupMarks o id gs) o (.group (r.with (vars id gs))) (id + gs.length)
        (r.addTo (vars id gs) m)) := by
  induction gs generalizing past r id m s with
  | nil => exact .nil (by simpa [groupMarks, vars] using h)
  | cons g gs ih =>
    refine .append (g.leads (.inr rfl) h) fun s₁ h₁ => ?_
    have hl := ih h₁
    rw [Region.with_with, Region.addTo_addTo, List.append_assoc, add_right_comm] at hl
    exact hl

theorem VarDecl.leads (d : VarDecl) {p : Place} (hp : p = .declarations r ∨ p = .group r)
    (h : At past o p id m s) :
    Leads past s (d.marks o id)
      (At (past ++ d.marks o id) o (.group (r.with (vars id d.groups))) (id + d.groups.length)
        (r.addTo (vars id d.groups) m)) := by
  obtain ⟨scopes, rfl, hs⟩ := h
  have step : ParseState.advance ⟨p, scopes, id, m⟩ ⟨.var, d.keyword⟩ =
      .ok ⟨.varKeyword r, scopes, id, m⟩ := by
    rcases hp with rfl | rfl <;> rfl
  refine .plain hs step rfl fun hk => ?_
  rw [VarDecl.marks, List.append_cons past _ (groupMarks o id d.groups)]
  refine .append (d.first.leads (.inl rfl) ⟨_, rfl, hk⟩) fun s₁ h₁ => ?_
  have hl := groups_lead d.more h₁
  rw [Region.with_with, Region.addTo_addTo, List.append_assoc (past ++ _), add_right_comm] at hl
  exact hl

def Declaring (past : List Mark) (o : Owner) (r : Region) (id : NodeId) (m : Module)
    (s : ParseState) : Prop :=
  ∃ p, (p = .declarations r ∨ p = .group r) ∧ At past o p id m s

theorem varDecls_lead (ds : List VarDecl) (h : Declaring past o r id m s) :
    Leads past s (varDeclMarks o id ds)
      (Declaring (past ++ varDeclMarks o id ds) o (r.with (vars id (ds.flatMap VarDecl.groups)))
        (id + (ds.flatMap VarDecl.groups).length)
        (r.addTo (vars id (ds.flatMap VarDecl.groups)) m)) := by
  induction ds generalizing past r id m s with
  | nil => exact .nil (by simpa [varDeclMarks, vars] using h)
  | cons d ds ih =>
    obtain ⟨p, hp, ha⟩ := h
    refine .append (d.leads hp ha) fun s₁ h₁ => ?_
    have hl := ih ⟨_, .inr rfl, h₁⟩
    rw [Region.with_with, Region.addTo_addTo, List.append_assoc] at hl
    rw [List.flatMap_cons, vars_append, List.length_append, ← add_assoc]
    exact hl

theorem Statement.leads (st : Statement) {p : OpenProc} {b : OpenBlock}
    (h : At past o (.statements p b) id m s) :
    Leads past s (st.tokens.map plain)
      (At (past ++ st.tokens.map plain) o
        (.statements p { b with statements := b.statements ++ [st.assignment id] })
        (id + 3) m) := by
  obtain ⟨scopes, rfl, hs⟩ := h
  obtain ⟨lhs, eq, rhs, semi⟩ := st
  have step_lhs : ParseState.advance ⟨.statements p b, scopes, id, m⟩ lhs.token =
      .ok ⟨.leftOperand p b id (lhs.expr (id + 1)), scopes, id + 2, m⟩ := by
    cases lhs <;> rfl
  have step_rhs (e : Expr) : ParseState.advance ⟨.equals p b id e, scopes, id + 2, m⟩ rhs.token =
      .ok ⟨.rightOperand p b ⟨id, e, rhs.expr (id + 2), e.location⟩, scopes, id + 3, m⟩ := by
    cases rhs <;> rfl
  have location_lhs : (lhs.expr (id + 1)).location = lhs.token.location := by
    cases lhs <;> rfl
  refine .plain hs step_lhs rfl fun hl => .plain hl rfl rfl fun he => ?_
  refine .plain he (step_rhs _) rfl fun hr => .plain hr rfl rfl fun hv => .nil ?_
  refine ⟨scopes, ?_, by simpa [Statement.tokens] using hv⟩
  rw [location_lhs]
  rfl

theorem statements_lead (ss : List Statement) {p : OpenProc} {b : OpenBlock}
    (h : At past o (.statements p b) id m s) :
    Leads past s ((ss.flatMap Statement.tokens).map plain)
      (At (past ++ (ss.flatMap Statement.tokens).map plain) o
        (.statements p { b with statements := b.statements ++ assignments id ss })
        (id + 3 * ss.length) m) := by
  induction ss generalizing past id b s with
  | nil => exact .nil (by simpa [assignments] using h)
  | cons st ss ih =>
    rw [List.flatMap_cons, List.map_append, ← List.append_assoc]
    refine .append (st.leads h) fun s₁ h₁ => ?_
    have hl := ih h₁
    simp only [List.append_assoc, List.singleton_append] at hl
    rw [List.length_cons, Nat.mul_succ, add_comm (3 * _), ← add_assoc, List.append_assoc]
    exact hl

theorem ProcDecl.heading_leads (d : ProcDecl) {p : Place} {k : Nat}
    (hp : p = .declarations .module ∨ p = .group .module) (h : At past none p id m s)
    (hk : ∀ name, ¬ Declared past (some k) name) :
    Leads past s (d.headingMarks id)
      (At (past ++ d.headingMarks id) (some k)
        (.declarations (.body ⟨⟨id, d.name.text, d.keyword⟩, .named d.returnType.text, []⟩))
        (id + 1) m) := by
  obtain ⟨scopes, rfl, hs⟩ := h
  have step : ParseState.advance ⟨p, scopes, id, m⟩ ⟨.proc, d.keyword⟩ =
      .ok ⟨.procKeyword d.keyword, scopes, id, m⟩ := by
    rcases hp with rfl | rfl <;> rfl
  refine .plain hs step rfl fun hs => .cons rfl (hs.declare rfl) fun hs => ?_
  refine .plain hs rfl rfl fun hs => .plain hs rfl rfl fun hs => .plain hs rfl rfl fun hs => ?_
  have hfresh (name : String) : ¬ Declared (past ++ d.headingMarks id) (some k) name := by
    intro h
    obtain ⟨x, hx, b, hb⟩ := h
    rcases List.mem_append.mp hx with hx | hx
    · exact hk name ⟨x, hx, b, hb⟩
    · simp only [headingMarks, List.mem_cons, List.not_mem_nil, or_false] at hx
      rcases hx with rfl | rfl | rfl | rfl | rfl | rfl <;> cases hb
  have hbody := (hs.skip (m := ⟨d.returnType.token, .typeName none⟩) rfl).push (k := k)
    (by simpa [headingMarks] using hfresh)
  refine .cons (advance_typeName hs rfl rfl rfl) hbody fun hs => .nil ?_
  exact ⟨_, rfl, by simpa [headingMarks] using hs⟩

theorem ProcDecl.block_leads (d : ProcDecl) {p : OpenProc} {k : Nat}
    (h : Declaring past (some k) (.body p) id m s) :
    Leads past s (d.block.map plain)
      (At (past ++ d.block.map plain) none (.declarations .module)
        (id + 1 + 3 * d.statements.length)
        { m with procs := m.procs ++ [⟨p.heading.id, p.heading.name, [], p.locals, p.returnType,
            ⟨id, assignments (id + 1) d.statements, d.leftBrace⟩, p.heading.location⟩] }) := by
  obtain ⟨q, hq, scopes, rfl, hs⟩ := h
  have step : ParseState.advance ⟨q, scopes, id, m⟩ ⟨.leftBrace, d.leftBrace⟩ =
      .ok ⟨.statements p ⟨id, d.leftBrace, []⟩, scopes, id + 1, m⟩ := by
    rcases hq with rfl | rfl <;> rfl
  rw [block, List.map_cons, List.map_append, List.append_cons past]
  refine .plain hs step rfl fun hs => ?_
  rw [← List.append_assoc]
  refine .append (statements_lead d.statements ⟨_, rfl, hs⟩) ?_
  rintro _ ⟨scopes, rfl, hs⟩
  obtain ⟨top, hleave, hg⟩ := (hs.skip (m := plain ⟨.rightBrace, d.rightBrace⟩) rfl).leave
  have step_brace : ParseState.advance ⟨.statements p ⟨id, d.leftBrace,
        assignments (id + 1) d.statements⟩, scopes, id + 1 + 3 * d.statements.length, m⟩
      ⟨.rightBrace, d.rightBrace⟩ = .ok ⟨.declarations .module, ⟨[], scopes.global⟩,
        id + 1 + 3 * d.statements.length,
        { m with procs := m.procs ++ [⟨p.heading.id, p.heading.name, [], p.locals, p.returnType,
            ⟨id, assignments (id + 1) d.statements, d.leftBrace⟩, p.heading.location⟩] }⟩ := by
    simp only [ParseState.advance, ParseState.consume?, ParseState.leaveBody, hleave]
    rfl
  exact .cons step_brace hg fun hs => .nil ⟨_, rfl, hs⟩

theorem ProcDecl.leads (d : ProcDecl) {p : Place} {k : Nat}
    (hp : p = .declarations .module ∨ p = .group .module) (h : At past none p id m s)
    (hk : ∀ name, ¬ Declared past (some k) name) :
    Leads past s (d.marks k id)
      (At (past ++ d.marks k id) none (.declarations .module)
        (id + (2 + d.groups.length + 3 * d.statements.length))
        { m with procs := m.procs ++ [d.proc id] }) := by
  rw [marks, ← List.append_assoc past, ← List.append_assoc (past ++ _)]
  refine .append (d.heading_leads hp h hk) fun s₁ h₁ => ?_
  refine .append (varDecls_lead d.locals ⟨_, .inl rfl, h₁⟩) fun s₂ h₂ => ?_
  have hb := d.block_leads h₂
  have hsize (n a b : Nat) : n + 1 + a + 1 + b = n + (2 + a + b) := by omega
  rw [← hsize]
  exact hb

/-- No procedure from the given item on has declared anything. -/
def Fresh (past : List Mark) (k : Nat) : Prop := ∀ j, k ≤ j → ∀ name, ¬ Declared past (some j) name

theorem owner_of_groupMarks {o' : Owner} {gs : List Group} {x : Mark} {name : String}
    (hx : x ∈ groupMarks o id gs) (hd : x.Declares o' name) : o' = o := by
  induction gs generalizing id with
  | nil => cases hx
  | cons g gs ih =>
    rcases List.mem_append.mp hx with hx | hx
    · obtain ⟨b, hb⟩ := hd
      simp only [Group.marks, List.mem_cons, List.not_mem_nil, or_false] at hx
      rcases hx with rfl | rfl | rfl | rfl <;> cases hb
      rfl
    · exact ih hx

theorem not_declares_of_plain {o' : Owner} {ts : List Token} {x : Mark} {name : String}
    (hx : x ∈ ts.map plain) : ¬ x.Declares o' name := by
  obtain ⟨t, -, rfl⟩ := List.mem_map.mp hx
  intro h
  obtain ⟨b, hb⟩ := h
  cases hb

theorem owner_of_varDeclMarks {o' : Owner} {ds : List VarDecl} {x : Mark} {name : String}
    (hx : x ∈ varDeclMarks o id ds) (hd : x.Declares o' name) : o' = o := by
  induction ds generalizing id with
  | nil => cases hx
  | cons d ds ih =>
    rcases List.mem_append.mp hx with hx | hx
    · rcases List.mem_cons.mp hx with rfl | hx
      · obtain ⟨b, hb⟩ := hd
        cases hb
      · exact owner_of_groupMarks hx hd
    · exact ih hx

theorem Item.owner_of_marks {o' : Owner} {k : Nat} {i : Item} {x : Mark} {name : String}
    (hx : x ∈ i.marks k id) (hd : x.Declares o' name) : o' = none ∨ o' = some k := by
  cases i with
  | varDecl d =>
    rcases List.mem_cons.mp hx with rfl | hx
    · obtain ⟨b, hb⟩ := hd
      cases hb
    · exact Or.inl (owner_of_groupMarks hx hd)
  | procDecl d =>
    rcases List.mem_append.mp hx with hx | hx
    · obtain ⟨b, hb⟩ := hd
      simp only [ProcDecl.headingMarks, List.mem_cons, List.not_mem_nil, or_false] at hx
      rcases hx with rfl | rfl | rfl | rfl | rfl | rfl <;> cases hb
      exact Or.inl rfl
    · rcases List.mem_append.mp hx with hx | hx
      · exact Or.inr (owner_of_varDeclMarks hx hd)
      · exact absurd hd (not_declares_of_plain hx)
  | exportsDecl d => exact absurd hd (not_declares_of_plain hx)

theorem Fresh.append_marks {k : Nat} (hf : Fresh past k) (i : Item) :
    Fresh (past ++ i.marks k id) (k + 1) := by
  rintro j hj name ⟨x, hx, hd⟩
  rcases List.mem_append.mp hx with hx | hx
  · exact hf j (by omega) name ⟨x, hx, hd⟩
  · rcases i.owner_of_marks hx hd with ho | ho
    · cases ho
    · obtain rfl := Option.some.inj ho
      omega

theorem Item.leads (i : Item) {k : Nat} (hf : Fresh past k)
    (h : Declaring past none .module id m s) :
    Leads past s (i.marks k id)
      (Declaring (past ++ i.marks k id) none .module (id + i.size)
        ⟨m.name, m.vars ++ i.vars id, m.procs ++ i.procs id, m.exports ++ i.exports,
          m.location⟩) := by
  obtain ⟨p, hp, ha⟩ := h
  cases i with
  | varDecl d =>
    obtain ⟨s', hs, hat⟩ := d.leads hp ha
    refine ⟨s', hs, _, .inr rfl, ?_⟩
    simpa [marks, size, vars, procs, exports, Region.addTo, Region.with] using hat
  | procDecl d =>
    obtain ⟨s', hs, hat⟩ := d.leads hp ha (hf k le_rfl)
    refine ⟨s', hs, _, .inl rfl, ?_⟩
    simpa [marks, size, vars, procs, exports] using hat
  | exportsDecl d =>
    obtain ⟨scopes, rfl, hs⟩ := ha
    have step : ParseState.advance ⟨p, scopes, id, m⟩ ⟨.exports, d.keyword⟩ =
        .ok ⟨.exportsKeyword, scopes, id, m⟩ := by
      rcases hp with rfl | rfl <;> rfl
    refine .plain hs step rfl fun hs => .plain hs rfl rfl fun hs => .plain hs rfl rfl fun hs => ?_
    refine .nil ⟨_, .inl rfl, scopes, ?_, by simpa [marks, ExportsDecl.tokens] using hs⟩
    simp [vars, procs, exports, size]

theorem items_lead (d : Derivation) {k : Nat} (hf : Fresh past k)
    (h : Declaring past none .module id m s) :
    Leads past s (d.marksFrom k id)
      (Declaring (past ++ d.marksFrom k id) none .module (id + d.size)
        ⟨m.name, m.vars ++ d.collect Item.vars id, m.procs ++ d.collect Item.procs id,
          m.exports ++ d.flatMap Item.exports, m.location⟩) := by
  induction d generalizing past id k m s with
  | nil => exact .nil (by simpa [marksFrom, collect, size] using h)
  | cons i is ih =>
    refine .append (i.leads hf h) fun s₁ h₁ => ?_
    have hl := ih (hf.append_marks i) h₁
    simpa [marksFrom, collect, size, add_assoc] using hl

/-- The parser follows every derivation to its end and builds its tree. -/
theorem follows (name : String) (d : Derivation) : ∃ s',
    Follows [] (.initial name) d.marks s' ∧ s'.place.isEnd = true ∧ s'.module = d.module name := by
  have hf : Fresh [] 0 := by
    rintro j - name ⟨x, hx, -⟩
    cases hx
  obtain ⟨s', hs, p, hp, scopes, rfl, -⟩ := items_lead d hf
    ⟨.declarations .module, .inl rfl, .initial, rfl, mirrors_initial⟩
  refine ⟨_, hs, ?_, by simp [module, Module.new]⟩
  rcases hp with rfl | rfl <;> rfl

end Derivation

end ProcLang
