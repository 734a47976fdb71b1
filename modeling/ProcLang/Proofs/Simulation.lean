import ProcLang.Proofs.Course
import ProcLang.Proofs.Move

/-! # The parser runs as the machine does

Place by place the parser does with what is ahead what the machine does, and is then at the place
that the machine has gone to. So it tells the same, with the same result, and whenever it asks for a
token it is where a course of the machine has led. -/
namespace ProcLang

open Parsing

variable {held : List Var} {s : ParseState} {x x' : Parsing Module} {p q : Parser} {α : Type}
  {k : TokenKind}

theorem moves_varDeclaration {r : Region} (h : Agrees held s p) (hr : s.place.region = r)
    (hholds : (Place.varKeyword r).holds = false → held = []) (hcheck : p.check .var = true)
    (hgoto : ∀ t, t.kind = .var → s.consume? t = some (s.goto (.varKeyword r))) :
    Moves s (r.within held fun next => varDeclaration >>= next) p := by
  obtain ⟨α, y, next, hy, hwithin⟩ := r.exists_context held
  rw [hwithin, varDeclaration_bind]
  subst hr
  refine (hy.bind _).moves_expect rfl (by decide) (fun hc => absurd hcheck hc) fun t ht =>
    ⟨_, hgoto t ht, fun scanner current => ?_⟩
  have hcontinues := continues_goto (h.pulled scanner current) _ hholds
  rw [Place.resume, hwithin] at hcontinues
  rw [pure_bind]
  exact hcontinues

theorem moves_groups {r : Region} (h : Agrees held s p) (hr : s.place.region = r)
    (hholds : (Place.group r).holds = false → held = []) (hcheck : p.check .identifier = true)
    (hname : ∀ name l, s.consume? ⟨.identifier name, l⟩ = some (s.nameVar r name l)) :
    Moves s (r.within held fun next => groups >>= next) p := by
  obtain ⟨α, y, next, hy, hwithin⟩ := r.exists_context held
  subst hr
  have hget := steps_groups next p
  rw [if_pos hcheck] at hget
  rw [hwithin]
  refine Moves.of_steps ?_ (hy.steps hget) (.refl p)
  rw [group_bind]
  refine (hy.bind _).moves_expectIdentifier rfl (fun hc => absurd hcheck hc) fun name l =>
    ⟨_, hname name l, fun scanner current => ?_⟩
  have hcontinues := continues_goto ((h.pulled scanner current).introduce name .var)
    (.varName s.place.region ⟨p.nextId, name, l⟩) hholds
  rw [Place.resume, hwithin] at hcontinues
  rw [pure_bind, ParseState.nameVar, ← h.nextId]
  exact Continues.of_steps hcontinues (hy.steps (steps_introduce name .var _)) rfl rfl

section

variable {scopes : ScopeStack} {id : NodeId} {m : Module} {r : Region} {hd : Heading}
  {op : OpenProc} {b : OpenBlock}

theorem moves_varKeyword (h : Agrees held ⟨.varKeyword r, scopes, id, m⟩ p) :
    Moves ⟨.varKeyword r, scopes, id, m⟩ ((Place.varKeyword r).resume held) p := by
  obtain ⟨α, y, next, hy, hwithin⟩ := r.exists_context held
  rw [Place.resume, hwithin]
  have hget := Steps.of_done (p := p) (x := get) rfl fun p =>
    if p.check .identifier then groups >>= next else unexpected [.identifier] p.current
  by_cases hcheck : p.check .identifier = true
  · rw [if_pos hcheck] at hget
    have hmoves := moves_groups (r := r) h rfl h.held hcheck fun _ _ => rfl
    rw [hwithin] at hmoves
    exact hmoves.of_steps (hy.steps hget) (.refl p)
  · rw [if_neg hcheck] at hget
    exact hy.moves_unexpected rfl hget (.refl p) (refuses_of_expected rfl hcheck)

theorem moves_varName (h : Agrees held ⟨.varName r hd, scopes, id, m⟩ p) :
    Moves ⟨.varName r hd, scopes, id, m⟩ ((Place.varName r hd).resume held) p := by
  obtain ⟨α, y, next, hy, hwithin⟩ := r.exists_context held
  rw [Place.resume, hwithin]
  refine hy.moves_expect_goto (.varColon r hd) rfl h rfl (by decide) (fun u l hu => ?_)
    (fun _ => ?_) h.held
  · cases u <;> cases hu
    rfl
  · rw [Place.resume, hwithin]

theorem moves_varColon (h : Agrees held ⟨.varColon r hd, scopes, id, m⟩ p) :
    Moves ⟨.varColon r hd, scopes, id, m⟩ ((Place.varColon r hd).resume held) p := by
  obtain ⟨α, y, next, hy, hwithin⟩ := r.exists_context held
  rw [Place.resume, hwithin]
  refine (hy.bind _).moves_typeName rfl rfl (h.tracks (.refl p)) (fun _ _ => rfl)
    fun type scanner current => ?_
  have hcontinues := continues_goto (h.pulled scanner current)
    (.varType r ⟨hd.id, hd.name, type, hd.location⟩) h.held
  rw [Place.resume, hwithin] at hcontinues
  rw [pure_bind]
  exact hcontinues

theorem moves_varType {v : Var} (h : Agrees held ⟨.varType r v, scopes, id, m⟩ p) :
    Moves ⟨.varType r v, scopes, id, m⟩ ((Place.varType r v).resume held) p := by
  have hconsume {t : Token} (ht : t.kind = .semicolon) :
      ParseState.consume? ⟨.varType r v, scopes, id, m⟩ t =
        some (ParseState.addVar ⟨.varType r v, scopes, id, m⟩ r v) := by
    obtain ⟨u, l⟩ := t
    cases u <;> cases ht
    rfl
  cases r with
  | module =>
    refine (context_module.bind _).moves_expect rfl (by decide) (refuses_of_expected rfl)
      fun t ht => ⟨_, hconsume ht, fun scanner current => ?_⟩
    have hagrees : Agrees (held ++ [v])
        ⟨.group .module, scopes, id, { m with vars := m.vars ++ [v] }⟩
        { p with scanner := scanner, current := current } := by
      have hm : m = { p.tree with vars := p.tree.vars ++ held } := h.module
      refine ⟨h.scopes, h.nextId, ?_, fun hheld => by cases hheld⟩
      simp [hm]
    refine ⟨held ++ [v], _, ?_, hagrees, rfl, rfl⟩
    rw [pure_bind, Place.resume, Region.within]
    simp only [List.append_assoc, List.singleton_append]
    exact .told (.refl _ _)
  | body op =>
    refine ((context_inBody op).bind _).moves_expect rfl (by decide) (refuses_of_expected rfl)
      fun t ht => ⟨_, hconsume ht, fun scanner current => ?_⟩
    have hagrees : Agrees held
        ⟨.group (.body { op with locals := op.locals ++ [v] }), scopes, id, m⟩
        { p with scanner := scanner, current := current } :=
      ⟨h.scopes, h.nextId, h.module, h.held⟩
    refine ⟨held, _, ?_, hagrees, rfl, rfl⟩
    rw [pure_bind, Place.resume, Region.within]
    simp only [List.append_assoc, List.singleton_append]
    exact (context_inBody op).steps (.told (.refl _ _))

theorem moves_declarations_body (h : Agrees held ⟨.declarations (.body op), scopes, id, m⟩ p) :
    Moves ⟨.declarations (.body op), scopes, id, m⟩
      ((Place.declarations (.body op)).resume held) p := by
  obtain rfl : held = [] := h.held rfl
  have hy := context_inBody op
  have hget := Steps.of_done (p := p) (x := get) rfl fun p =>
    if p.check .var then varDeclaration >>= fun vars => bodyRest (op.locals ++ vars)
    else get >>= fun p =>
      if p.check .leftBrace then block >>= fun b => pure (op.locals, b)
      else unexpected [.var, .leftBrace] p.current
  rw [← bodyRest_eq] at hget
  by_cases hvar : p.check .var = true
  · rw [if_pos hvar] at hget
    refine Moves.of_steps ?_ (hy.steps hget) (.refl p)
    refine moves_varDeclaration (r := .body op) h rfl h.held hvar fun t ht => ?_
    obtain ⟨u, l⟩ := t
    cases u <;> cases ht
    rfl
  · rw [if_neg hvar] at hget
    have hget := hget.on rfl
    by_cases hbrace : p.check .leftBrace = true
    · rw [if_pos hbrace, block_bind] at hget
      refine Moves.of_steps ?_ (hy.steps hget) (.refl p)
      refine (hy.bind _).moves_expect rfl (by decide) (fun hc => absurd hbrace hc) fun t ht => ?_
      obtain ⟨u, l⟩ := t
      cases u <;> cases ht
      refine ⟨_, rfl, fun scanner current => ?_⟩
      obtain rfl : p.nextId = id := h.nextId
      have hagrees : Agrees [] ⟨.declarations (.body op), scopes, p.nextId + 1, m⟩
          { p with scanner := scanner, current := current, nextId := p.nextId + 1 } :=
        ⟨h.scopes, rfl, h.module, h.held⟩
      have hcontinues := continues_goto hagrees (.statements op ⟨p.nextId, l, []⟩) h.held
      refine Continues.of_steps hcontinues (hy.steps ?_) rfl rfl
      rw [pure_bind]
      exact Steps.of_done (x := newId) rfl fun id => blockRest op.locals ⟨id, l, []⟩
    · rw [if_neg hbrace] at hget
      refine hy.moves_unexpected rfl hget (.refl p) ⟨rfl, ?_⟩
      cases hcurrent : p.current with
      | eof l => rfl
      | token t =>
        obtain ⟨u, l⟩ := t
        cases u <;> first | rfl | exact absurd ((check_token hcurrent).mpr rfl) ‹_›

theorem moves_keyword (place : Location → Place) (h : Agrees [] s p)
    (hr : s.place.region = .module) (hk : k ≠ .eof) (hcheck : p.check k = true)
    (hconsume : ∀ u l, u.kind = k → s.consume? ⟨u, l⟩ = some (s.goto (place l))) :
    Moves s (expect k >>= fun ahead => (place ahead.location).resume []) p := by
  refine (context_module.bind _).moves_expect hr hk (fun hc => absurd hcheck hc) fun t ht =>
    ⟨_, hconsume t.terminal t.location ht, fun scanner current => ?_⟩
  rw [pure_bind]
  exact continues_goto (h.pulled scanner current) (place t.location) fun _ => rfl

theorem moves_item {t : Token} (h : Agrees [] ⟨.declarations .module, scopes, id, m⟩ p)
    (ht : p.current = .token t) :
    Moves ⟨.declarations .module, scopes, id, m⟩ (item >>= fun _ => module) p := by
  obtain ⟨u, l⟩ := t
  have hcheck {k : TokenKind} (hk : u.kind = k) : p.check k = true := (check_token ht).mpr hk
  have hitem {k : TokenKind} (hk : u.kind = k) :=
    (steps_item (of_decide_eq_true (hcheck hk))).bind fun _ => module
  cases u with
  | var =>
    have hvars : Steps (item >>= fun _ => module) p [] []
        (Region.module.within [] fun next => varDeclaration >>= next) p := by
      have hitem := hitem rfl
      simp only [Terminal.kind, bind_assoc] at hitem
      exact hitem
    refine Moves.of_steps ?_ hvars (.refl p)
    refine moves_varDeclaration (r := .module) h rfl (fun _ => rfl) (hcheck rfl) fun t ht => ?_
    obtain ⟨u, l⟩ := t
    cases u <;> cases ht
    rfl
  | proc =>
    have hproc : Steps (item >>= fun _ => module) p [] []
        (expect .proc >>= fun ahead => (Place.procKeyword ahead.location).resume []) p := by
      have hitem := hitem rfl
      simp only [Terminal.kind, bind_assoc, procedure_bind] at hitem
      exact hitem
    refine (moves_keyword .procKeyword h rfl (by decide) (hcheck rfl) fun u l hu => ?_).of_steps
      hproc (.refl p)
    cases u <;> cases hu
    rfl
  | «exports» =>
    have hexport : Steps (item >>= fun _ => module) p [] []
        (expect .exports >>= fun _ => Place.exportsKeyword.resume []) p := by
      have hitem := hitem rfl
      simp only [Terminal.kind, exportName, bind_assoc] at hitem
      exact hitem
    refine (moves_keyword (fun _ => .exportsKeyword) h rfl (by decide) (hcheck rfl)
      fun u l hu => ?_).of_steps hexport (.refl p)
    cases u <;> cases hu
    rfl
  | _ =>
    refine (context_module.bind fun _ : Unit => module).moves_unexpected rfl
      (steps_item (of_decide_eq_true (hcheck rfl))) (.refl p) ⟨rfl, ?_⟩
    rw [ht]
    rfl

theorem moves_declarations_module (h : Agrees held ⟨.declarations .module, scopes, id, m⟩ p) :
    Moves ⟨.declarations .module, scopes, id, m⟩
      ((Place.declarations .module).resume held) p := by
  obtain rfl : held = [] := h.held rfl
  obtain rfl : m = p.tree := by simpa using h.module
  have hget := Steps.of_done (p := p) (x := get) rfl fun p =>
    if !p.check .eof then item >>= fun _ => module
    else get >>= fun p => tell (.parsed p.tree) >>= fun _ => pure p.tree
  rw [← module_eq] at hget
  cases hcurrent : p.current with
  | eof l =>
    have heof : ¬ (!p.check .eof) = true := by
      simp [Parser.check, hcurrent, Lookahead.kind]
    rw [if_neg heof] at hget
    exact .ends hcurrent rfl (.refl p) (hget.on rfl)
  | token t =>
    have htoken : (!p.check .eof) = true := by
      simp [Parser.check, hcurrent, Lookahead.kind, Token.kind, Terminal.kind_ne_eof]
    rw [if_pos htoken] at hget
    exact (moves_item h hcurrent).of_steps hget (.refl p)

theorem Continues.group {c : Consumption} (h : Continues ⟨.declarations r, scopes, id, m⟩ c x p) :
    Continues ⟨.group r, scopes, id, m⟩ c x p := by
  rcases c with e | ⟨events, s'⟩
  · obtain ⟨q, hsteps, hq⟩ := h
    exact ⟨q, hsteps, hq.scopes, hq.nextId⟩
  · exact h

theorem Moves.group {x : Parsing Module} (h : Moves ⟨.declarations r, scopes, id, m⟩ x p)
    (hcheck : ¬ p.check .identifier = true) : Moves ⟨.group r, scopes, id, m⟩ x p := by
  have hconsume {t : Token} (ht : p.current = .token t) :
      ParseState.consume? ⟨.group r, scopes, id, m⟩ t =
        ParseState.consume? ⟨.declarations r, scopes, id, m⟩ t := by
    rw [check_token ht] at hcheck
    obtain ⟨u, l⟩ := t
    cases r <;> cases u <;> first | rfl | exact absurd rfl hcheck
  have hend : (Place.group r).isEnd = (Place.declarations r).isEnd := by cases r <;> rfl
  cases h with
  | ends ahead h idles done => exact .ends ahead (hend ▸ h) idles done
  | refuses h idles steps =>
    refine .refuses ?_ idles steps
    cases hcurrent : p.current with
    | eof l =>
      rw [hcurrent] at h
      exact hend.trans h
    | token t =>
      rw [hcurrent] at h
      exact (hconsume hcurrent).trans h
  | takes ahead h context idles steps next =>
    exact .takes ahead ((hconsume ahead).trans h) context idles steps fun scanner current =>
      (next scanner current).group

theorem moves_group (h : Agrees held ⟨.group r, scopes, id, m⟩ p) :
    Moves ⟨.group r, scopes, id, m⟩ ((Place.group r).resume held) p := by
  by_cases hcheck : p.check .identifier = true
  · exact moves_groups h rfl h.held hcheck fun _ _ => rfl
  · have hget {α : Type} (next : List Var → Parsing α) :
        Steps (groups >>= next) p [] [] (next []) p := by
      have hget := steps_groups next p
      rw [if_neg hcheck] at hget
      exact hget
    refine Moves.group ?_ hcheck
    cases r with
    | module =>
      have hagrees : Agrees [] ⟨.declarations .module, scopes, id, m⟩
          { p with tree.vars := p.tree.vars ++ held } := by
        refine ⟨h.scopes, h.nextId, ?_, fun _ => rfl⟩
        rw [List.append_nil]
        exact h.module
      have hsteps := (hget fun vars => finishVars (held ++ vars)).on rfl
      rw [List.append_nil] at hsteps
      exact (moves_declarations_module hagrees).of_steps hsteps ⟨rfl, rfl, rfl, le_rfl⟩
    | body op =>
      have hsteps := (context_inBody op).steps (hget fun vars => bodyRest (op.locals ++ vars))
      rw [List.append_nil] at hsteps
      have hagrees : Agrees held ⟨.declarations (.body op), scopes, id, m⟩ p :=
        ⟨h.scopes, h.nextId, h.module, h.held⟩
      exact (moves_declarations_body hagrees).of_steps hsteps (.refl p)

theorem moves_procKeyword {l : Location} (h : Agrees held ⟨.procKeyword l, scopes, id, m⟩ p) :
    Moves ⟨.procKeyword l, scopes, id, m⟩ ((Place.procKeyword l).resume held) p := by
  refine (context_module.bind _).moves_expectIdentifier rfl
    (refuses_of_expected rfl) fun name l' => ⟨_, rfl, fun scanner current => ?_⟩
  obtain rfl : p.nextId = id := h.nextId
  have hcontinues := continues_goto ((h.pulled scanner current).introduce name .proc)
    (.procName ⟨p.nextId, name, l⟩) h.held
  rw [pure_bind]
  exact Continues.of_steps hcontinues (steps_introduce name .proc fun id =>
    (Place.procName ⟨id, name, l⟩).resume held) rfl rfl

theorem moves_procName (h : Agrees held ⟨.procName hd, scopes, id, m⟩ p) :
    Moves ⟨.procName hd, scopes, id, m⟩ ((Place.procName hd).resume held) p := by
  refine context_module.moves_expect_goto (.procLeftParen hd) rfl h rfl (by decide)
    (fun u l hu => ?_) (fun _ => rfl) h.held
  cases u <;> cases hu
  rfl

theorem moves_procLeftParen (h : Agrees held ⟨.procLeftParen hd, scopes, id, m⟩ p) :
    Moves ⟨.procLeftParen hd, scopes, id, m⟩ ((Place.procLeftParen hd).resume held) p := by
  refine context_module.moves_expect_goto (.procRightParen hd) rfl h rfl (by decide)
    (fun u l hu => ?_) (fun _ => rfl) h.held
  cases u <;> cases hu
  rfl

theorem moves_procRightParen (h : Agrees held ⟨.procRightParen hd, scopes, id, m⟩ p) :
    Moves ⟨.procRightParen hd, scopes, id, m⟩ ((Place.procRightParen hd).resume held) p := by
  refine context_module.moves_expect_goto (.procColon hd) rfl h rfl (by decide) (fun u l hu => ?_)
    (fun _ => rfl) h.held
  cases u <;> cases hu
  rfl

theorem moves_procColon (h : Agrees held ⟨.procColon hd, scopes, id, m⟩ p) :
    Moves ⟨.procColon hd, scopes, id, m⟩ ((Place.procColon hd).resume held) p := by
  refine (context_module.bind _).moves_typeName rfl rfl (h.tracks (.refl p)) (fun _ _ => rfl)
    fun type scanner current => ?_
  obtain rfl : p.scopes = scopes := h.scopes
  rw [pure_bind]
  exact ⟨held, _, Steps.of_done (x := openScope) rfl _,
    ⟨rfl, h.nextId, h.module, h.held⟩, rfl, rfl⟩

theorem continues_leaveBody (h : Agrees [] s p) (hr : s.place.region = .body op) :
    Continues s (s.leaveBody op b) (inBody op (pure (op.locals, ⟨b.id, b.statements, b.location⟩)))
      p := by
  rw [inBody, closing_pure_bind]
  unfold ParseState.leaveBody
  rw [← h.scopes]
  cases hleave : p.scopes.leave with
  | error e =>
    refine ⟨p, ?_, h.tracks (.refl p)⟩
    rw [hr]
    exact Steps.of_failed (closeScope_of_error hleave) _ _
  | ok left =>
    obtain ⟨events, top, below⟩ := left
    have hm : s.module = p.tree := by simpa using h.module
    have hclosed := Steps.of_done (closeScope_of_ok hleave) fun _ =>
      finishProc op.heading op.returnType (op.locals, ⟨b.id, b.statements, b.location⟩)
    have hsteps := hclosed.trans (.told (.of_done rfl fun _ => module))
    exact ⟨[], _, hsteps, ⟨rfl, h.nextId, by simp [hm], fun _ => rfl⟩, rfl, rfl⟩

theorem location_of_operand? {t : Token} {e : Expr} (h : ParseState.operand? id t = some e) :
    e.location = t.location := by
  obtain ⟨u, l⟩ := t
  cases u <;> cases h <;> rfl

theorem moves_statements (h : Agrees held ⟨.statements op b, scopes, id, m⟩ p) :
    Moves ⟨.statements op b, scopes, id, m⟩ ((Place.statements op b).resume held) p := by
  obtain rfl : held = [] := h.held rfl
  obtain rfl : p.nextId = id := h.nextId
  have hy := context_inBody op
  have hget := Steps.of_done (p := p) (x := get) rfl fun p =>
    if !p.check .rightBrace then
      statement >>= fun a => blockRest op.locals { b with statements := b.statements ++ [a] }
    else expect .rightBrace >>= fun _ => pure (op.locals, ⟨b.id, b.statements, b.location⟩)
  rw [← blockRest_eq] at hget
  by_cases hbrace : p.check .rightBrace = true
  · rw [if_neg (by simp [hbrace])] at hget
    refine Moves.of_steps ?_ (hy.steps hget) (.refl p)
    refine (hy.bind _).moves_expect rfl (by decide) (fun hc => absurd hbrace hc) fun t ht => ?_
    obtain ⟨u, l⟩ := t
    cases u <;> cases ht
    refine ⟨_, rfl, fun scanner current => ?_⟩
    rw [pure_bind]
    exact continues_leaveBody (h.pulled scanner current) rfl
  · rw [if_pos (by simp [hbrace]), statement_bind] at hget
    refine Moves.of_steps ?_ (hy.steps ((hget.on rfl).on rfl)) ⟨rfl, rfl, rfl, Nat.le_succ _⟩
    refine (hy.bind _).moves_expression rfl rfl rfl (fun lhs =>
      ParseState.goto ⟨.statements op b, scopes, p.nextId + 2, m⟩ (.leftOperand op b p.nextId lhs))
      (fun t ht => ?_) fun t lhs ht hlhs scanner current => ?_
    · rw [check_token (p := p) ht] at hbrace
      obtain ⟨u, l⟩ := t
      cases u <;> first | rfl | exact absurd rfl hbrace
    · have hagrees : Agrees [] ⟨.statements op b, scopes, p.nextId + 2, m⟩
          { p with nextId := p.nextId + 2, scanner := scanner, current := current } :=
        ⟨h.scopes, rfl, h.module, h.held⟩
      have hlocation : p.current.location = lhs.location := by
        rw [location_of_operand? hlhs, show p.current = .token t from ht]
        rfl
      rw [pure_bind, hlocation]
      exact continues_goto hagrees (.leftOperand op b p.nextId lhs) h.held

theorem moves_leftOperand {a : NodeId} {lhs : Expr}
    (h : Agrees held ⟨.leftOperand op b a lhs, scopes, id, m⟩ p) :
    Moves ⟨.leftOperand op b a lhs, scopes, id, m⟩
      ((Place.leftOperand op b a lhs).resume held) p := by
  refine (context_inBody op).moves_expect_goto (.equals op b a lhs) rfl h rfl (by decide)
    (fun u l hu => ?_) (fun _ => rfl) h.held
  cases u <;> cases hu
  rfl

theorem moves_equals {a : NodeId} {lhs : Expr}
    (h : Agrees held ⟨.equals op b a lhs, scopes, id, m⟩ p) :
    Moves ⟨.equals op b a lhs, scopes, id, m⟩ ((Place.equals op b a lhs).resume held) p := by
  obtain rfl : p.nextId = id := h.nextId
  refine ((context_inBody op).bind _).moves_expression rfl rfl rfl _ (fun t _ => rfl)
    fun t rhs _ _ scanner current => ?_
  have hagrees : Agrees held ⟨.equals op b a lhs, scopes, p.nextId + 1, m⟩
      { p with nextId := p.nextId + 1, scanner := scanner, current := current } :=
    ⟨h.scopes, rfl, h.module, h.held⟩
  rw [pure_bind]
  exact continues_goto hagrees (.rightOperand op b ⟨a, lhs, rhs, lhs.location⟩) h.held

theorem moves_rightOperand {a : Assignment}
    (h : Agrees held ⟨.rightOperand op b a, scopes, id, m⟩ p) :
    Moves ⟨.rightOperand op b a, scopes, id, m⟩ ((Place.rightOperand op b a).resume held) p := by
  refine (context_inBody op).moves_expect_goto
    (.statements op { b with statements := b.statements ++ [a] }) rfl h rfl (by decide)
    (fun u l hu => ?_) (fun _ => rfl) h.held
  cases u <;> cases hu
  rfl

theorem moves_exportsKeyword (h : Agrees held ⟨.exportsKeyword, scopes, id, m⟩ p) :
    Moves ⟨.exportsKeyword, scopes, id, m⟩ (Place.exportsKeyword.resume held) p := by
  refine (context_module.bind _).moves_expectIdentifier rfl
    (refuses_of_expected rfl) fun name l => ⟨_, rfl, fun scanner current => ?_⟩
  rw [pure_bind]
  exact continues_goto (h.pulled scanner current) (.exportsName name) h.held

theorem moves_exportsName {name : String} (h : Agrees held ⟨.exportsName name, scopes, id, m⟩ p) :
    Moves ⟨.exportsName name, scopes, id, m⟩ ((Place.exportsName name).resume held) p := by
  obtain rfl : held = [] := h.held rfl
  obtain rfl : m = p.tree := by simpa using h.module
  refine (context_module.bind _).moves_expect rfl (by decide) (refuses_of_expected rfl)
    fun t ht => ?_
  obtain ⟨u, l⟩ := t
  cases u <;> cases ht
  refine ⟨_, rfl, fun scanner current => ?_⟩
  have hagrees : Agrees [] ⟨.declarations .module, scopes, id,
      { p.tree with exports := p.tree.exports ++ [name] }⟩
      { p with
        scanner := scanner
        current := current
        tree.exports := p.tree.exports ++ [name] } :=
    ⟨h.scopes, h.nextId, by simp, fun _ => rfl⟩
  rw [pure_bind]
  exact ⟨[], _, .told (.of_done rfl fun _ => module), hagrees, rfl, rfl⟩

/-- Whatever is ahead, the parser does with it what the machine does. -/
theorem moves_resume (h : Agrees held s p) : Moves s (s.place.resume held) p := by
  obtain ⟨place, scopes, id, m⟩ := s
  cases place with
  | declarations r =>
    cases r with
    | module => exact moves_declarations_module h
    | body op => exact moves_declarations_body h
  | varKeyword r => exact moves_varKeyword h
  | varName r hd => exact moves_varName h
  | varColon r hd => exact moves_varColon h
  | varType r v => exact moves_varType h
  | group r => exact moves_group h
  | procKeyword l => exact moves_procKeyword h
  | procName hd => exact moves_procName h
  | procLeftParen hd => exact moves_procLeftParen h
  | procRightParen hd => exact moves_procRightParen h
  | procColon hd => exact moves_procColon h
  | statements op b => exact moves_statements h
  | leftOperand op b a lhs => exact moves_leftOperand h
  | equals op b a lhs => exact moves_equals h
  | rightOperand op b a => exact moves_rightOperand h
  | exportsKeyword => exact moves_exportsKeyword h
  | exportsName name => exact moves_exportsName h

end

/-- What a parser has still to read, what is ahead included. -/
def Parser.reading (p : Parser) : Reading :=
  match p.current with
  | .token t => .token t p.scanner.read.1
  | .eof l => .eof l

theorem Idles.reading (h : Idles p q) : q.reading = p.reading := by
  rw [Parser.reading, h.current, h.scanner]
  rfl

/-- A parser that asks for a token is where a course of the machine has led. -/
def Asks (s : ParseState) (r : Reading) (asked : List Parser) : Prop :=
  ∀ i q, asked[i]? = some q → ∃ ts events s', ts.length = i ∧ r = .prepend ts q.reading ∧
    s.Course q.reading ts events s' ∧ Tracks s' q

/-- A parser that has stopped is where the machine halts, with what was open closed. -/
def Stops (s : ParseState) (r : Reading) (q : Parser) : Prop :=
  ∃ ts last events s', r = .prepend ts last ∧ s.Course last ts events s' ∧
    (∃ closing x, s'.Halts last closing x) ∧ q.scopes = s'.close.value ∧ s'.nextId ≤ q.nextId

/-- A stage does what a run of the machine does. -/
def Runs (s : ParseState) (r : Reading) (x : Parsing Module) (p : Parser) : Prop :=
  ∃ o, x p = some o ∧ o.events = (s.run r).events ∧ o.value = (s.run r).value ∧
    Asks s r o.asked ∧ Stops s r o.parser

theorem asks_nil (s : ParseState) (r : Reading) : Asks s r [] := nofun

theorem Agrees.asks (h : Agrees held s p) (hq : Idles p q) {asked : List Parser}
    (hlater : ∀ i q', asked[i]? = some q' → ∃ ts events s', ts.length = i + 1 ∧
      p.reading = .prepend ts q'.reading ∧ s.Course q'.reading ts events s' ∧ Tracks s' q') :
    Asks s p.reading (q :: asked) := by
  intro i q' hi
  cases i with
  | zero =>
    cases hi
    exact ⟨[], [], s, rfl, hq.reading.symm, .nil s, h.tracks hq⟩
  | succ i => exact hlater i q' hi

theorem exists_giveUp (h : Tracks s p) (e : ParseError) :
    ∃ q, s.place.region.giveUp e p = some ⟨(s.abandon e).events, [], q, (s.abandon e).value⟩ ∧
      q.scopes = s.close.value ∧ s.nextId ≤ q.nextId := by
  unfold ParseState.abandon ParseState.close
  cases s.place.region with
  | module => exact ⟨p, rfl, h.scopes, h.nextId⟩
  | body op =>
    rw [Region.giveUp, bind_apply, ← h.scopes]
    cases hleave : p.scopes.leave with
    | error fault =>
      rw [closeScope_of_error hleave]
      exact ⟨p, rfl, rfl, h.nextId⟩
    | ok left =>
      obtain ⟨events, top, below⟩ := left
      rw [closeScope_of_ok hleave]
      refine ⟨{ p with scopes := below }, ?_, rfl, h.nextId⟩
      change some (Outcome.followedBy ⟨events, [], _, _⟩ ⟨[], [], _, _⟩) = _
      simp [Outcome.followedBy]

theorem runs_of_giveUp {r : Reading} {events closing : List Event} {asked : List Parser}
    {e : ParseError} (hx : Steps x p events asked (s.place.region.giveUp e) q) (hq : Tracks s q)
    (hrun : s.run r = .after events (s.abandon e))
    (hhalt : s.Halts r closing (.error e)) (hasks : Asks s r asked) : Runs s r x p := by
  obtain ⟨q', hgive, hscopes, hid⟩ := exists_giveUp hq e
  rw [Steps, hgive] at hx
  refine ⟨_, hx, ?_, ?_, ?_, ⟨[], r, [], s, rfl, .nil s, ⟨_, _, hhalt⟩, hscopes, hid⟩⟩
  · rw [hrun]
    rfl
  · rw [hrun]
    rfl
  · rw [Outcome.behind, List.append_nil]
    exact hasks

theorem Parser.reading_of_next {scanner : Scanner} {answer : Scanned}
    (h : scanner.next = (answer, p.scanner)) (hahead : answer.lookahead = .ok p.current) :
    scanner.read.1 = p.reading ∧ scanner.read.1.head = answer ∧
      ∀ e, scanner.read.1 ≠ .failed e := by
  unfold Parser.reading
  cases answer with
  | failed e => cases hahead
  | eof l =>
    obtain hcurrent : .eof l = p.current := Except.ok.inj hahead
    rw [Scanner.read_of_eof h, ← hcurrent]
    exact ⟨rfl, rfl, nofun⟩
  | token t =>
    obtain hcurrent : .token t = p.current := Except.ok.inj hahead
    rw [Scanner.read_of_token h, ← hcurrent]
    exact ⟨rfl, rfl, nofun⟩

theorem Agrees.asks_self (h : Agrees held s p) (hq : Idles p q) : Asks s p.reading [q] :=
  h.asks hq fun i q' hi => by simp at hi

theorem Agrees.runs_of_ends (h : Agrees held s p) {l : Location} (ahead : p.current = .eof l)
    (hend : s.place.isEnd = true) (idles : Idles p q)
    (done : x p = some ⟨[.parsed s.module], [], q, .ok s.module⟩) : Runs s p.reading x p := by
  have htracks := h.tracks idles
  rw [Parser.reading, ahead]
  refine ⟨_, done, ?_, ?_, asks_nil s _, [], _, [], s, rfl, .nil s,
    ⟨_, _, .whole l hend⟩, ?_, htracks.nextId⟩
  · rw [ParseState.run, if_pos hend]
  · rw [ParseState.run, if_pos hend]
  · rw [ParseState.close_of_module (ParseState.zone_of_isEnd hend)]
    exact htracks.scopes

theorem Agrees.runs_of_refuses (h : Agrees held s p) (hrefuses : Refuses s p.current)
    (idles : Idles p q) (steps : Steps x p [] [] (s.place.region.giveUp
      (.unexpected s.place.expected p.current.kind p.current.location)) q) :
    Runs s p.reading x p := by
  cases hcurrent : p.current with
  | eof l =>
    rw [hcurrent] at hrefuses steps
    have hend : s.place.isEnd = false := hrefuses
    have hreading : p.reading = .eof l := by rw [Parser.reading, hcurrent]
    rw [hreading]
    refine runs_of_giveUp steps (h.tracks idles) ?_ (.cut l hend) (asks_nil s _)
    rw [ParseState.run, if_neg (by simp [hend])]
    rfl
  | token t =>
    rw [hcurrent] at hrefuses steps
    have hc : s.consume? t = none := hrefuses
    have hreading : p.reading = .token t p.scanner.read.1 := by rw [Parser.reading, hcurrent]
    rw [hreading]
    refine runs_of_giveUp steps (h.tracks idles) ?_ (.refused hc _) (asks_nil s _)
    rw [ParseState.run, hc]
    rfl

theorem Agrees.runs_of_overtaken (h : Agrees held s p) {t : Token} {c : Consumption} {e : LexError}
    {scanner : Scanner} (ahead : p.current = .token t) (hc : s.consume? t = some c)
    (idles : Idles p q) (hnext : q.scanner.next = (.failed e, scanner))
    (steps : Steps x p [.scanned (.failed e)] [q] (s.place.region.giveUp (.lexical e))
      { q with scanner := scanner }) : Runs s p.reading x p := by
  have hreading : p.reading = .token t (.failed e) := by
    rw [Parser.reading, ahead, ← idles.scanner, Scanner.read_of_failed hnext]
  have hhalt : s.Halts (.token t (.failed e)) _ _ := .overtaken (by simp [hc]) e
  have hasks := h.asks_self idles
  rw [hreading] at hasks ⊢
  refine runs_of_giveUp steps (h.tracks idles).pulled ?_ hhalt hasks
  rw [ParseState.run, hc]
  rfl

theorem Agrees.runs_of_faulty (h : Agrees held s p) {t : Token} {rest : Reading} {e : ParseError}
    {q' : Parser} (hreading : p.reading = .token t rest) (hc : s.consume? t = some (.error e))
    (hne : ∀ f, rest ≠ .failed f) (idles : Idles p q)
    (steps : Steps x p [.scanned rest.head, .consumed (.token t)] [q] (s.place.region.giveUp e) q')
    (hq : Tracks s q') : Runs s p.reading x p := by
  have hasks := h.asks_self idles
  rw [hreading] at hasks ⊢
  refine runs_of_giveUp steps hq ?_ (.faulty hc hne) hasks
  rw [ParseState.run_of_error hc hne]

theorem Agrees.runs_of_taken (h : Agrees held s p) {t : Token} {rest : Reading}
    {events : List Event} {s' : ParseState} {x' : Parsing Module} {q' : Parser}
    (hreading : p.reading = .token t rest) (hc : s.consume? t = some (.ok ⟨events, s'⟩))
    (hne : ∀ f, rest ≠ .failed f) (idles : Idles p q)
    (steps : Steps x p (.scanned rest.head :: .consumed (.token t) :: events) [q] x' q')
    (hlater : Runs s' rest x' q') : Runs s p.reading x p := by
  obtain ⟨o, ho, hevents, hvalue, hasks, hstops⟩ := hlater
  have hrun := ParseState.run_of_ok hc hne
  rw [← hreading] at hrun
  rw [Steps, ho] at steps
  refine ⟨_, steps, ?_, ?_, h.asks idles fun i q'' hi => ?_, ?_⟩
  · rw [hrun, Logged.after, ← hevents]
    rfl
  · rw [hrun, Logged.after, ← hvalue]
    rfl
  · obtain ⟨ts, told, s'', hlength, hprepend, hcourse, htracks⟩ := hasks i q'' hi
    refine ⟨t :: ts, _, s'', congrArg (· + 1) hlength, ?_, .cons hc (hprepend ▸ hne) hcourse,
      htracks⟩
    rw [hreading, hprepend]
    rfl
  · obtain ⟨ts, last, told, s'', hprepend, hcourse, hhalt, hscopes, hid⟩ := hstops
    refine ⟨t :: ts, last, _, s'', ?_, .cons hc (hprepend ▸ hne) hcourse, hhalt, hscopes, hid⟩
    rw [hreading, hprepend]
    rfl

theorem Agrees.runs_of_rest (h : Agrees held s p)
    (hrest : ∀ t, p.current = .token t → ∀ held' s' q, Agrees held' s' q →
      q.reading = p.scanner.read.1 → Runs s' q.reading (s'.place.resume held') q) :
    Runs s p.reading (s.place.resume held) p := by
  cases moves_resume h with
  | ends ahead hend idles done => exact h.runs_of_ends ahead hend idles done
  | refuses hrefuses idles steps => exact h.runs_of_refuses hrefuses idles steps
  | @takes t c y q ahead hc context idles steps next =>
    have hreading : p.reading = .token t p.scanner.read.1 := by rw [Parser.reading, ahead]
    cases hnext : q.scanner.next with
    | mk answer scanner =>
      cases hahead : answer.lookahead with
      | error e =>
        obtain rfl : answer = .failed e := by cases answer <;> cases hahead; rfl
        have hfailed := context.steps (.advance_of_failed hnext)
        exact h.runs_of_overtaken ahead hc idles hnext
          (steps.trans (hfailed.trans (context.fail _ _)))
      | ok ahead' =>
        obtain ⟨hq, hhead, hne⟩ := Parser.reading_of_next
          (p := { q with scanner := scanner, current := ahead' }) hnext hahead
        rw [idles.scanner] at hq hhead hne
        have hadvance := Steps.advance hnext hahead
        rw [idles.current, ahead, ← hhead] at hadvance
        have hsteps := steps.trans (context.steps hadvance)
        have hcontinues := next scanner ahead'
        rcases c with e | ⟨events, s'⟩
        · obtain ⟨q', hlast, htracks⟩ := hcontinues
          exact h.runs_of_faulty hreading hc hne idles (hsteps.trans hlast) htracks
        · obtain ⟨held', q', hlast, hagrees, hscanner, hcurrent⟩ := hcontinues
          have hq' : q'.reading = p.scanner.read.1 := by
            rw [hq, Parser.reading, hscanner, hcurrent]
            rfl
          have hlater := hrest t ahead held' s' q' hagrees hq'
          exact h.runs_of_taken hreading hc hne idles (hsteps.trans hlast) (hq' ▸ hlater)

theorem Agrees.runs (h : Agrees held s p) : Runs s p.reading (s.place.resume held) p := by
  induction hr : p.reading generalizing s held p with
  | token t rest ih =>
    rw [← hr]
    refine h.runs_of_rest fun u hu held' s' q hq hread => ?_
    rw [Parser.reading, hu] at hr
    cases hr
    exact hread ▸ ih hq hread
  | eof l =>
    rw [← hr]
    refine h.runs_of_rest fun u hu => ?_
    rw [Parser.reading, hu] at hr
    cases hr
  | failed e =>
    rw [← hr]
    refine h.runs_of_rest fun u hu => ?_
    rw [Parser.reading, hu] at hr
    cases hr

/-- The parse of a source gets to a state by consuming the given tokens of it. -/
def ParseState.Reached (name : String) (source : Bytes) (ts : List Token) (r : Reading)
    (events : List Event) (s : ParseState) : Prop :=
  Reading.ofSource source = .prepend ts r ∧ Course r (.initial name) ts events s

variable {name : String} {source : Bytes}

theorem Parser.agrees_start (h : (Parser.start name source).value = .ok p) :
    Agrees [] (.initial name) p ∧ p.reading = Reading.ofSource source ∧
      (Parser.start name source).events = [.scanned (Reading.ofSource source).head] := by
  unfold Parser.start at h ⊢
  cases hnext : (Scanner.ofSource source).next with
  | mk answer scanner =>
    simp only [hnext] at h
    cases hahead : answer.lookahead with
    | error e =>
      rw [hahead] at h
      cases h
    | ok ahead =>
      obtain ⟨hreading, hhead, -⟩ := Parser.reading_of_next
        (p := ⟨scanner, ahead, .initial, .new name, 0⟩) hnext hahead
      rw [hahead] at h
      cases h
      refine ⟨⟨rfl, rfl, rfl, fun _ => rfl⟩, hreading.symm, ?_⟩
      rw [Reading.ofSource, hhead]

theorem Parser.start_of_error {e : ParseError} (h : (Parser.start name source).value = .error e) :
    ∃ f, e = .lexical f ∧ Reading.ofSource source = .failed f ∧
      (Parser.start name source).events = [.scanned (.failed f)] := by
  unfold Parser.start at h ⊢
  cases hnext : (Scanner.ofSource source).next with
  | mk answer scanner =>
    simp only [hnext] at h
    cases answer with
    | failed f =>
      cases h
      exact ⟨f, rfl, by rw [Reading.ofSource, Scanner.read_of_failed hnext], rfl⟩
    | token t => cases h
    | eof l => cases h

/-- When the parser asks for a token, it is where the machine is with the tokens before. -/
theorem Parser.reached_of_asked {o : Outcome Module} {i : ℕ}
    (h : (Parser.start name source).value = .ok p) (ho : Parsing.module p = some o)
    (hi : o.asked[i]? = some q) : ∃ ts events s, ts.length = i ∧
      ParseState.Reached name source ts q.reading events s ∧ Tracks s q := by
  obtain ⟨hagrees, hreading, -⟩ := Parser.agrees_start h
  obtain ⟨o', ho', -, -, hasks, -⟩ := hagrees.runs
  obtain rfl := Option.some.inj (ho'.symm.trans ho)
  obtain ⟨ts, events, s, hlength, hr, hcourse, htracks⟩ := hasks i q hi
  exact ⟨ts, events, s, hlength, ⟨hreading.symm.trans hr, hcourse⟩, htracks⟩

/-- When the parser stops, it is where the machine halts. -/
theorem Parser.reached_of_stopped {o : Outcome Module}
    (h : (Parser.start name source).value = .ok p) (ho : Parsing.module p = some o) :
    ∃ ts r events s, ParseState.Reached name source ts r events s ∧
      (∃ closing x, s.Halts r closing x) ∧ o.parser.scopes = s.close.value ∧
      s.nextId ≤ o.parser.nextId := by
  obtain ⟨hagrees, hreading, -⟩ := Parser.agrees_start h
  obtain ⟨o', ho', -, -, -, hstops⟩ := hagrees.runs
  obtain rfl := Option.some.inj (ho'.symm.trans ho)
  obtain ⟨ts, r, events, s, hr, hcourse, hhalt, hscopes, hid⟩ := hstops
  exact ⟨ts, r, events, s, ⟨hreading.symm.trans hr, hcourse⟩, hhalt, hscopes, hid⟩

theorem Module.parse_of_start {o : Outcome Module} (h : (Parser.start name source).value = .ok p)
    (ho : Parsing.module p = some o) : Module.parse name source =
      .after (Parser.start name source).events ⟨o.events, o.value⟩ := by
  have hmodule : p.module = ⟨o.events, o.value⟩ := by
    simp only [Parser.module, ho, Option.get_some]
  unfold Module.parse
  cases hstart : Parser.start name source with
  | mk events value =>
    rw [hstart] at h
    cases h
    exact congrArg (Logged.after events) hmodule

/-- The parse of a source is a run of the machine. -/
theorem Module.parse_eq (name : String) (source : Bytes) : Module.parse name source =
    .after [.scanned (Reading.ofSource source).head]
      ((ParseState.initial name).run (Reading.ofSource source)) := by
  cases hstart : (Parser.start name source).value with
  | error e =>
    obtain ⟨f, rfl, hreading, hevents⟩ := Parser.start_of_error hstart
    have hmk : Parser.start name source = ⟨[.scanned (.failed f)], .error (.lexical f)⟩ := by
      rw [← hevents, ← hstart]
    rw [Module.parse, hmk, hreading]
    rfl
  | ok p =>
    obtain ⟨hagrees, hreading, hevents⟩ := Parser.agrees_start hstart
    obtain ⟨o, ho, htold, hvalue, -⟩ := hagrees.runs
    rw [Module.parse_of_start hstart ho, hevents, htold, hvalue, hreading]

theorem Module.parse_value (name : String) (source : Bytes) : (Module.parse name source).value =
    ((ParseState.initial name).run (Reading.ofSource source)).value := by
  rw [Module.parse_eq]
  rfl

end ProcLang
