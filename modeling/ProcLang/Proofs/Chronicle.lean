import ProcLang.Proofs.Pace

/-! # The chronicle of a parse

The log tells of a declaration when its last token is taken. As the parse is then one token ahead,
the record stands behind that of the token that follows the declaration, and before that of any
later one. -/
namespace ProcLang

def Scanned.records : Scanned → List Record
  | .token t => [⟨.trace, "plume::parser::lexer",
      "token " ++ t.terminal.describe ++ " at " ++ t.location.describe⟩]
  | _ => []

/-- The last record of a parse that succeeds. -/
def Module.record (m : Module) : Record := ⟨.debug, "plume::parser::parse",
  "parsed module " ++ m.name ++ ": " ++ toString m.vars.length ++ " vars, " ++
    toString m.procs.length ++ " procs, " ++ toString m.exports.length ++ " exports"⟩

namespace Derivation

def bodyOpened : Record := ⟨.debug, "plume::parser::scope", "pushed scope, depth 2"⟩

def bodyClosed : Record := ⟨.debug, "plume::parser::scope", "popped scope, depth 1"⟩

def Group.record (g : Group) : Record := ⟨.debug, "plume::parser::declarations",
  "declared var " ++ g.name.text ++ ": " ++ g.type.text ++ " at " ++ g.name.location.describe⟩

def ProcDecl.record (d : ProcDecl) : Record := ⟨.debug, "plume::parser::declarations",
  "declared proc " ++ d.name.text ++ "(): " ++ d.returnType.text ++ " with " ++
    toString d.groups.length ++ " locals, " ++ toString d.statements.length ++ " statements"⟩

def ExportsDecl.record (d : ExportsDecl) : Record :=
  ⟨.debug, "plume::parser::declarations", "exported " ++ d.name.text⟩

def Item.records : Item → List Record
  | .varDecl d => d.groups.map Group.record
  | .procDecl d => bodyOpened :: (d.groups.map Group.record ++ [bodyClosed, d.record])
  | .exportsDecl d => [d.record]

/-- The records of all declarations in the order in which these are written. -/
def records (d : Derivation) : List Record := d.flatMap Item.records

/-- A token and what is recorded when it is taken. -/
structure Entry where
  token : Token
  records : List Record

def silent (t : Token) : Entry := ⟨t, []⟩

def Group.entries (g : Group) : List Entry :=
  [silent g.name.token, silent ⟨.colon, g.colon⟩, silent g.type.token,
    ⟨⟨.semicolon, g.semicolon⟩, [g.record]⟩]

def VarDecl.entries (d : VarDecl) : List Entry :=
  silent ⟨.var, d.keyword⟩ :: d.groups.flatMap Group.entries

def ProcDecl.headingEntries (d : ProcDecl) : List Entry :=
  [silent ⟨.proc, d.keyword⟩, silent d.name.token, silent ⟨.leftParen, d.leftParen⟩,
    silent ⟨.rightParen, d.rightParen⟩, silent ⟨.colon, d.colon⟩,
    ⟨d.returnType.token, [bodyOpened]⟩]

def ProcDecl.blockEntries (d : ProcDecl) : List Entry :=
  silent ⟨.leftBrace, d.leftBrace⟩ :: ((d.statements.flatMap Statement.tokens).map silent ++
    [⟨⟨.rightBrace, d.rightBrace⟩, [bodyClosed, d.record]⟩])

def ProcDecl.entries (d : ProcDecl) : List Entry :=
  d.headingEntries ++ (d.locals.flatMap VarDecl.entries ++ d.blockEntries)

def ExportsDecl.entries (d : ExportsDecl) : List Entry :=
  [silent ⟨.exports, d.keyword⟩, silent d.name.token, ⟨⟨.semicolon, d.semicolon⟩, [d.record]⟩]

def Item.entries : Item → List Entry
  | .varDecl d => d.entries
  | .procDecl d => d.entries
  | .exportsDecl d => d.entries

def entries (d : Derivation) : List Entry := d.flatMap Item.entries

theorem map_token_silent (ts : List Token) : (ts.map silent).map Entry.token = ts := by
  rw [List.map_map]
  exact List.map_id _

theorem flatMap_records_silent (ts : List Token) : (ts.map silent).flatMap Entry.records = [] := by
  simp [silent]

theorem VarDecl.entries_token (d : VarDecl) : d.entries.map Entry.token = d.tokens := by
  rw [entries, List.map_cons, List.map_flatMap]
  rfl

theorem VarDecl.entries_records (d : VarDecl) :
    d.entries.flatMap Entry.records = d.groups.map Group.record := by
  rw [entries, List.flatMap_cons, List.flatMap_assoc]
  exact List.flatMap_pure_eq_map _ _

theorem ProcDecl.entries_token (d : ProcDecl) : d.entries.map Entry.token = d.tokens := by
  simp only [entries, headingEntries, blockEntries, tokens, block, List.map_append, List.map_cons,
    List.map_flatMap, VarDecl.entries_token, map_token_silent]
  rfl

theorem ProcDecl.entries_records (d : ProcDecl) : d.entries.flatMap Entry.records =
    bodyOpened :: (d.groups.map Group.record ++ [bodyClosed, d.record]) := by
  simp only [entries, headingEntries, blockEntries, List.flatMap_append, List.flatMap_cons,
    List.flatMap_assoc, VarDecl.entries_records, flatMap_records_silent]
  rw [groups, List.map_flatMap]
  rfl

theorem Item.entries_token (i : Item) : i.entries.map Entry.token = i.tokens := by
  cases i with
  | varDecl d => exact d.entries_token
  | procDecl d => exact d.entries_token
  | exportsDecl d => rfl

theorem Item.entries_records (i : Item) : i.entries.flatMap Entry.records = i.records := by
  cases i with
  | varDecl d => exact d.entries_records
  | procDecl d => exact d.entries_records
  | exportsDecl d => rfl

theorem entries_token (d : Derivation) : d.entries.map Entry.token = d.tokens := by
  rw [entries, List.map_flatMap, tokens]
  exact congrArg (d.flatMap ·) (funext Item.entries_token)

theorem entries_records (d : Derivation) : d.entries.flatMap Entry.records = d.records := by
  rw [entries, List.flatMap_assoc, records]
  exact congrArg (d.flatMap ·) (funext Item.entries_records)

end Derivation

open ProcLang.Derivation

theorem Follows.mirrors {past ms : List Mark} {s s' : ParseState} (h : Follows past s ms s')
    (hs : ∃ o, Mirrors past o s.scopes) : ∃ o, Mirrors (past ++ ms) o s'.scopes := by
  induction h with
  | nil => rwa [List.append_nil]
  | cons _ mirrored _ ih =>
    rw [List.append_cons]
    exact ih mirrored

namespace ParseState

variable {s s' : ParseState} {t : Token} {ts us : List Token} {told events : List Event}
  {r : Reading} {reg : Region} {name : String} {P Q : ParseState → Prop} {xs ys : List Entry}

/-- A name that means a type is the text of the type. -/
def Faithful (s : ParseState) : Prop :=
  ∀ x t, s.scopes.lookup x = some (.type t) → t.text = x

theorem faithful_of_steps (hs : (initial name).steps ts = .ok s) : s.Faithful := by
  obtain ⟨past, rfl, d, after, hd⟩ := Begins.exists_iff.mpr ⟨_, follow_of_steps hs⟩
  obtain ⟨s', hf, -⟩ := d.follows name
  rw [← hd] at hf
  obtain ⟨s₁, hfront, -⟩ := hf.split
  rw [hfront.steps_eq_ok (hfront.allResolve_of_steps hs)] at hs
  cases hs
  obtain ⟨o, hm⟩ := hfront.mirrors ⟨none, mirrors_initial⟩
  intro x t hx
  rw [hm.lookup, Option.or_eq_some_iff, Option.or_eq_some_iff] at hx
  rcases hx with (ho | ⟨-, hg⟩) | ⟨-, hb⟩
  · exact absurd ho (latest?_ne_type _ _ _ _)
  · exact absurd hg (latest?_ne_type _ _ _ _)
  · obtain ⟨u, hu, he⟩ := Option.map_eq_some_iff.mp hb
    cases he
    exact TypeName.ofText?_eq_some_iff.mp hu

theorem Faithful.exists_of_resolve (hf : s.Faithful) {x : String} {l : Location}
    {next : TypeName → Consumption} (h : (s.resolve x l >>= next) = .ok ⟨told, s'⟩) :
    ∃ type : TypeName, type.text = x ∧ next type = .ok ⟨told, s'⟩ := by
  unfold resolve at h
  rcases hx : s.scopes.lookup x with _ | (type | _ | _) <;> rw [hx] at h
  · cases h
  · exact ⟨type, hf x type hx, h⟩
  · cases h
  · cases h

/-- As far as the tokens are taken, each leaves what its entry says, and behind all of them the
state is as it should be. -/
def Leaves (P : ParseState → Prop) : List Entry → ParseState → Prop
  | [], s => P s
  | x :: xs, s => s.Balanced → s.Faithful → ∀ told s',
      s.consume? x.token = some (.ok ⟨told, s'⟩) →
        told.filterMap Event.record? = x.records ∧ Leaves P xs s'

namespace Leaves

theorem append (h : Leaves P xs s) (k : ∀ s', P s' → Leaves Q ys s') :
    Leaves Q (xs ++ ys) s := by
  induction xs generalizing s with
  | nil => exact k s h
  | cons x xs ih =>
    intro hb hf told s' hc
    obtain ⟨hrecords, hrest⟩ := h hb hf told s' hc
    exact ⟨hrecords, ih hrest⟩

theorem mono (h : Leaves P xs s) (k : ∀ s', P s' → Q s') : Leaves Q xs s := by
  have hk : Leaves Q (xs ++ []) s := h.append k
  rwa [List.append_nil] at hk

theorem front (h : Leaves P (xs ++ ys) s) : Leaves (fun _ => True) xs s := by
  induction xs generalizing s with
  | nil => trivial
  | cons x xs ih =>
    intro hb hf told s' hc
    obtain ⟨hrecords, hrest⟩ := h hb hf told s' hc
    exact ⟨hrecords, ih hrest⟩

theorem step {x : Entry} (hc : s.consume? x.token = some (.ok ⟨told, s'⟩))
    (hrecords : told.filterMap Event.record? = x.records) (k : Leaves P xs s') :
    Leaves P (x :: xs) s := by
  intro _ _ told' s'' hc'
  rw [hc] at hc'
  cases hc'
  exact ⟨hrecords, k⟩

theorem resolved {x : Entry} {y : String} {l : Location} {next : TypeName → Consumption}
    (hc : s.consume? x.token = some (s.resolve y l >>= next))
    (k : ∀ type : TypeName, type.text = y → s.Balanced → ∀ told s',
      next type = .ok ⟨told, s'⟩ →
        told.filterMap Event.record? = x.records ∧ Leaves P xs s') :
    Leaves P (x :: xs) s := by
  intro hb hf told s' hc'
  rw [hc] at hc'
  obtain ⟨type, htype, hnext⟩ := hf.exists_of_resolve (Option.some.inj hc')
  exact k type htype hb told s' hnext

end Leaves

end ParseState

namespace Derivation

open ProcLang.ParseState

variable {s : ParseState} {reg : Region}

def MayDeclare (reg : Region) (s : ParseState) : Prop :=
  s.place = .declarations reg ∨ s.place = .group reg

theorem Group.leaves (g : Group) (hs : s.place = .varKeyword reg ∨ s.place = .group reg) :
    Leaves (fun s' => ∃ v, s'.place = .group (reg.with [v])) g.entries s := by
  obtain ⟨p, scopes, id, m⟩ := s
  have hname : consume? ⟨p, scopes, id, m⟩ g.name.token = some (.ok ⟨[],
      ⟨.varName reg ⟨id, g.name.text, g.name.location⟩,
        scopes.declare g.name.text (.var id), id + 1, m⟩⟩) := by
    rcases hs with rfl | rfl <;> rfl
  refine .step hname rfl (.step rfl rfl (.resolved rfl ?_))
  rintro type htype - told s' ⟨⟩
  refine ⟨rfl, .step (congrArg some (addVar_eq _ reg _)) ?_ ⟨_, rfl⟩⟩
  rw [Group.record, ← htype]
  rfl

theorem groups_leave (gs : List Group) (hs : s.place = .group reg) :
    Leaves (fun s' => ∃ vs : List Var, vs.length = gs.length ∧ s'.place = .group (reg.with vs))
      (gs.flatMap Group.entries) s := by
  induction gs generalizing reg s with
  | nil => exact ⟨[], rfl, by rwa [Region.with_nil]⟩
  | cons g gs ih =>
    refine (g.leaves (.inr hs)).append fun s₁ ⟨v, hv⟩ => (ih hv).mono ?_
    rintro s' ⟨vs, hlength, hplace⟩
    rw [Region.with_with] at hplace
    exact ⟨[v] ++ vs, congrArg (· + 1) hlength, hplace⟩

theorem VarDecl.leaves (d : VarDecl) (hs : MayDeclare reg s) :
    Leaves (fun s' => ∃ vs : List Var, vs.length = d.groups.length ∧
      s'.place = .group (reg.with vs)) d.entries s := by
  obtain ⟨p, scopes, id, m⟩ := s
  have hvar : consume? ⟨p, scopes, id, m⟩ ⟨.var, d.keyword⟩ =
      some (.ok ⟨[], ⟨.varKeyword reg, scopes, id, m⟩⟩) := by
    rcases hs with hp | hp <;> obtain rfl : p = _ := hp <;> cases reg <;> rfl
  refine .step hvar rfl ?_
  refine (d.first.leaves (.inl rfl)).append fun s₁ ⟨v, hv⟩ => (groups_leave d.more hv).mono ?_
  rintro s' ⟨vs, hlength, hplace⟩
  rw [Region.with_with] at hplace
  exact ⟨[v] ++ vs, congrArg (· + 1) hlength, hplace⟩

theorem varDecls_leave (ds : List VarDecl) (hs : MayDeclare reg s) :
    Leaves (fun s' => ∃ vs : List Var, vs.length = (ds.flatMap VarDecl.groups).length ∧
      MayDeclare (reg.with vs) s') (ds.flatMap VarDecl.entries) s := by
  induction ds generalizing reg s with
  | nil => exact ⟨[], rfl, by rwa [Region.with_nil]⟩
  | cons d ds ih =>
    refine (d.leaves hs).append fun s₁ ⟨vs, hvs, hplace⟩ => (ih (.inr hplace)).mono ?_
    rintro s' ⟨ws, hws, hmay⟩
    rw [Region.with_with] at hmay
    refine ⟨vs ++ ws, ?_, hmay⟩
    rw [List.flatMap_cons, List.length_append, List.length_append, hvs, hws]

theorem Statement.leaves (st : Statement) {p : OpenProc} {b : OpenBlock}
    (hs : s.place = .statements p b) :
    Leaves (fun s' => ∃ a, s'.place =
      .statements p { b with statements := b.statements ++ [a] }) (st.tokens.map silent) s := by
  obtain ⟨place, scopes, id, m⟩ := s
  obtain rfl : place = _ := hs
  obtain ⟨lhs, eq, rhs, semi⟩ := st
  have hlhs : consume? ⟨.statements p b, scopes, id, m⟩ lhs.token =
      some (.ok ⟨[], ⟨.leftOperand p b id (lhs.expr (id + 1)), scopes, id + 2, m⟩⟩) := by
    cases lhs <;> rfl
  have hrhs (e : Expr) : consume? ⟨.equals p b id e, scopes, id + 2, m⟩ rhs.token =
      some (.ok ⟨[], ⟨.rightOperand p b ⟨id, e, rhs.expr (id + 2), e.location⟩, scopes,
        id + 3, m⟩⟩) := by
    cases rhs <;> rfl
  exact .step hlhs rfl (.step rfl rfl (.step (hrhs _) rfl (.step rfl rfl ⟨_, rfl⟩)))

theorem statements_leave (ss : List Statement) {p : OpenProc} {b : OpenBlock}
    (hs : s.place = .statements p b) :
    Leaves (fun s' => ∃ as : List Assignment, as.length = ss.length ∧ s'.place =
      .statements p { b with statements := b.statements ++ as })
      ((ss.flatMap Statement.tokens).map silent) s := by
  induction ss generalizing b s with
  | nil => exact ⟨[], rfl, by rwa [List.append_nil]⟩
  | cons st ss ih =>
    rw [List.flatMap_cons, List.map_append]
    refine (st.leaves hs).append fun s₁ ⟨a, ha⟩ => (ih ha).mono ?_
    rintro s' ⟨as, hlength, hplace⟩
    rw [List.append_assoc] at hplace
    exact ⟨[a] ++ as, congrArg (· + 1) hlength, hplace⟩

theorem returnType_leaves {h : Heading} (w : Word) (hs : s.place = .procColon h) :
    Leaves (fun s' => ∃ type : TypeName, type.text = w.text ∧
      s'.place = .declarations (.body ⟨h, type, []⟩)) [⟨w.token, [bodyOpened]⟩] s := by
  obtain ⟨p, scopes, id, m⟩ := s
  obtain rfl : p = _ := hs
  refine .resolved rfl ?_
  rintro type htype hb told s' ⟨⟩
  refine ⟨?_, type, htype, rfl⟩
  obtain ⟨inner, global⟩ := scopes
  obtain rfl : inner = [] := hb.inner_eq_nil rfl
  change [Event.scopePushed 2].filterMap Event.record? = _
  rfl

theorem ProcDecl.heading_leaves (d : ProcDecl) (hs : MayDeclare .module s) :
    Leaves (fun s' => ∃ (id : NodeId) (type : TypeName), type.text = d.returnType.text ∧
      s'.place = .declarations (.body ⟨⟨id, d.name.text, d.keyword⟩, type, []⟩))
      d.headingEntries s := by
  obtain ⟨p, scopes, id, m⟩ := s
  have hproc : consume? ⟨p, scopes, id, m⟩ ⟨.proc, d.keyword⟩ =
      some (.ok ⟨[], ⟨.procKeyword d.keyword, scopes, id, m⟩⟩) := by
    rcases hs with hp | hp <;> obtain rfl : p = _ := hp <;> rfl
  refine .step hproc rfl (.step rfl rfl (.step rfl rfl (.step rfl rfl (.step rfl rfl ?_))))
  exact (returnType_leaves d.returnType rfl).mono fun _ ⟨type, h⟩ => ⟨id, type, h⟩

theorem ProcDecl.block_leaves (d : ProcDecl) {p : OpenProc} (hs : MayDeclare (.body p) s)
    (hname : p.heading.name = d.name.text) (htype : p.returnType.text = d.returnType.text)
    (hlocals : p.locals.length = d.groups.length) :
    Leaves (MayDeclare .module) d.blockEntries s := by
  obtain ⟨place, scopes, id, m⟩ := s
  have hbrace : consume? ⟨place, scopes, id, m⟩ ⟨.leftBrace, d.leftBrace⟩ =
      some (.ok ⟨[], ⟨.statements p ⟨id, d.leftBrace, []⟩, scopes, id + 1, m⟩⟩) := by
    rcases hs with hp | hp <;> obtain rfl : place = _ := hp <;> rfl
  refine .step hbrace rfl ((statements_leave d.statements rfl).append ?_)
  rintro ⟨place, ⟨inner, global⟩, id, m⟩ ⟨as, has, hplace⟩
  obtain rfl : place = _ := hplace
  intro hb _ told s' hc
  obtain ⟨top, hscopes⟩ := hb.exists_inner rfl
  cases hscopes
  cases hc
  refine ⟨?_, .inl rfl⟩
  rw [ProcDecl.record, ← hname, ← htype, ← hlocals, ← has]
  change [Event.scopePopped 1, .declaredProc _].filterMap Event.record? = _
  rfl

theorem ProcDecl.leaves (d : ProcDecl) (hs : MayDeclare .module s) :
    Leaves (MayDeclare .module) d.entries s := by
  refine (d.heading_leaves hs).append ?_
  rintro s₁ ⟨id, type, htype, hplace⟩
  refine (varDecls_leave d.locals (.inl hplace)).append ?_
  rintro s₂ ⟨vs, hlength, hmay⟩
  exact d.block_leaves hmay rfl htype hlength

theorem ExportsDecl.leaves (d : ExportsDecl) (hs : MayDeclare .module s) :
    Leaves (MayDeclare .module) d.entries s := by
  obtain ⟨p, scopes, id, m⟩ := s
  have hexports : consume? ⟨p, scopes, id, m⟩ ⟨.exports, d.keyword⟩ =
      some (.ok ⟨[], ⟨.exportsKeyword, scopes, id, m⟩⟩) := by
    rcases hs with hp | hp <;> obtain rfl : p = _ := hp <;> rfl
  exact .step hexports rfl (.step rfl rfl (.step rfl rfl (.inl rfl)))

theorem Item.leaves (i : Item) (hs : MayDeclare .module s) :
    Leaves (MayDeclare .module) i.entries s := by
  cases i with
  | varDecl d => exact (d.leaves hs).mono fun _ ⟨_, _, hplace⟩ => .inr hplace
  | procDecl d => exact d.leaves hs
  | exportsDecl d => exact d.leaves hs

/-- Whatever derivation the tokens begin, they leave the records of its entries. -/
theorem leaves (d : Derivation) (hs : MayDeclare .module s) :
    Leaves (MayDeclare .module) d.entries s := by
  induction d generalizing s with
  | nil => exact hs
  | cons i is ih => exact (i.leaves hs).append fun _ => ih

/-- The records of answers and of entries in turn, each entry behind the answer beside it. -/
def chronicle (answers : List Scanned) (xs : List Entry) : List Record :=
  (answers.zip xs).flatMap fun pair => pair.1.records ++ pair.2.records

@[simp] theorem chronicle_nil (answers : List Scanned) : chronicle answers [] = [] := by
  rw [chronicle, List.zip_nil_right]
  rfl

theorem chronicle_cons (a : Scanned) (answers : List Scanned) (x : Entry) (xs : List Entry) :
    chronicle (a :: answers) (x :: xs) = a.records ++ (x.records ++ chronicle answers xs) := by
  rw [chronicle, List.zip_cons_cons, List.flatMap_cons, ← chronicle, List.append_assoc]

end Derivation

theorem Reading.answers_eq_cons (r : Reading) : r.answers = r.head :: r.answers.tail := by
  cases r <;> rfl

theorem Scanned.filterMap_record? (a : Scanned) (events : List Event) :
    (Event.scanned a :: events).filterMap Event.record? =
      a.records ++ events.filterMap Event.record? := by
  cases a <;> rfl

/-- The token that is taken although it is the name of no type. -/
def ParseError.misnamed : ParseError → List Token
  | .semantic x _ l => [⟨.identifier x, l⟩]
  | _ => []

namespace ParseState

variable {s s' : ParseState} {ts us : List Token} {events before ending : List Event}
  {r : Reading} {name : String} {source : Bytes} {P : ParseState → Prop} {xs : List Entry}

theorem Leaves.records_of_course (h : Leaves P xs s)
    (hc : Course r s (xs.map Entry.token) events s') (hs : (initial name).steps us = .ok s)
    (hb : s.Balanced) : events.filterMap Event.record? =
      chronicle (Reading.prepend (xs.map Entry.token) r).answers.tail xs := by
  induction xs generalizing s us events with
  | nil =>
    cases hc
    rw [chronicle_nil]
    rfl
  | cons x xs ih =>
    cases hc with
    | @cons _ s₁ _ _ _ told later consumed scanned rest =>
      obtain ⟨hrecords, hrest⟩ := h hb (faithful_of_steps hs) told s₁ consumed
      have hs₁ : (initial name).steps (us ++ [x.token]) = .ok s₁ := by
        have hstep : s.advance x.token = .ok s₁ := by
          rw [advance, consumed]
          rfl
        rw [steps_append, hs]
        change s.steps [x.token] = _
        rw [steps_cons, hstep]
        rfl
      have hlater := ih hrest rest hs₁ (hb.consume? consumed)
      rw [List.map_cons, Reading.prepend_cons, Reading.answers, List.tail_cons,
        Reading.answers_eq_cons, chronicle_cons, ← hlater, List.cons_append,
        Scanned.filterMap_record?, ← hrecords, ← List.filterMap_append]
      rfl

theorem Reached.records_eq (h : Reached name source ts r before s) {d : Derivation}
    (hd : ts <+: d.tokens) : before.filterMap Event.record? =
      chronicle (Reading.ofSource source).answers.tail (d.entries.take ts.length) := by
  have hts : (d.entries.take ts.length).map Entry.token = ts := by
    rw [List.map_take, d.entries_token]
    exact (List.prefix_iff_eq_take.mp hd).symm
  have hleaves : Leaves (MayDeclare .module) d.entries (initial name) := d.leaves (.inl rfl)
  rw [← List.take_append_drop ts.length d.entries] at hleaves
  obtain ⟨hread, hcourse⟩ := h
  rw [← hts] at hcourse
  have hstart : (initial name).steps [] = .ok (initial name) := rfl
  rw [hleaves.front.records_of_course hcourse hstart (balanced_initial name), hts, hread]

theorem Halts.told_of_error {e : ParseError} (h : Halts s r ending (.error e))
    (hs : (initial name).steps ts = .ok s) :
    ending.filterMap Event.consumed? = e.misnamed ∧
      ending.filterMap Event.record? =
        (r.answers.tail.take e.misnamed.length).flatMap Scanned.records ++
          s.close.events.filterMap Event.record? := by
  have hclose := consumed_of_quiet s.quiet_close
  cases h with
  | @faulty t rest e hc hr =>
    obtain ⟨d, past, o, x, l, rfl, -, -, -, rfl⟩ := exists_unresolved hs hc
    refine ⟨?_, ?_⟩
    · rw [List.filterMap_cons, List.filterMap_cons, hclose]
      rfl
    · rw [Scanned.filterMap_record?, Reading.answers, List.tail_cons, Reading.answers_eq_cons]
      change rest.head.records ++ s.close.events.filterMap Event.record? =
        [rest.head].flatMap Scanned.records ++ s.close.events.filterMap Event.record?
      rw [List.flatMap_singleton]
  | _ => exact ⟨hclose, rfl⟩

theorem Reached.close_cases (h : Reached name source ts r before s) :
    s.close.events.filterMap Event.record? = [bodyClosed] ∧
        Grammar.InBody (ts.map Token.kind) ∨
      s.close.events.filterMap Event.record? = [] ∧ ¬ Grammar.InBody (ts.map Token.kind) := by
  rw [← Point.zone_eq_body_iff h.follow]
  change _ ∧ s.zone = .body ∨ _ ∧ ¬ s.zone = .body
  cases hs : s.zone with
  | body =>
    rw [h.balanced.close_of_body hs]
    exact Or.inl ⟨rfl, rfl⟩
  | module =>
    rw [close_of_module hs]
    exact Or.inr ⟨rfl, nofun⟩

end ParseState

theorem records_of_trace (events : List Event) :
    (Threshold.upTo .trace).records events = events.filterMap Event.record? := by
  rw [Threshold.records, List.filter_eq_self]
  intro r _
  cases r.level <;> rfl

namespace Derivation

theorem Item.level_of_mem_records {i : Item} {x : Record} (h : x ∈ i.records) :
    x.level = .debug := by
  have of_groups {gs : List Group} (h : x ∈ gs.map Group.record) : x.level = .debug := by
    obtain ⟨g, -, rfl⟩ := List.mem_map.mp h
    rfl
  cases i with
  | varDecl d => exact of_groups h
  | procDecl d =>
    rcases List.mem_cons.mp h with rfl | h
    · rfl
    · rcases List.mem_append.mp h with h | h
      · exact of_groups h
      · simp only [List.mem_cons, List.not_mem_nil, or_false] at h
        rcases h with rfl | rfl <;> rfl
  | exportsDecl d =>
    obtain rfl := List.mem_singleton.mp h
    rfl

theorem level_of_mem_entries {d : Derivation} {e : Entry} {x : Record} (he : e ∈ d.entries)
    (hx : x ∈ e.records) : x.level = .debug := by
  have h : x ∈ d.entries.flatMap Entry.records := List.mem_flatMap.mpr ⟨e, he, hx⟩
  rw [d.entries_records] at h
  obtain ⟨i, -, hi⟩ := List.mem_flatMap.mp h
  exact i.level_of_mem_records hi

/-- What is left of records without those of the scanner. -/
def debugOnly (xs : List Record) : List Record :=
  xs.filter fun x => (Threshold.upTo .debug).admits x.level

theorem debugOnly_append (xs ys : List Record) :
    debugOnly (xs ++ ys) = debugOnly xs ++ debugOnly ys :=
  List.filter_append xs ys

theorem debugOnly_of_debug {xs : List Record} (h : ∀ x ∈ xs, x.level = .debug) :
    debugOnly xs = xs := by
  rw [debugOnly, List.filter_eq_self]
  intro x hx
  rw [h x hx]
  rfl

theorem debugOnly_scanned (answers : List Scanned) :
    debugOnly (answers.flatMap Scanned.records) = [] := by
  rw [debugOnly, List.filter_eq_nil_iff]
  intro x hx
  obtain ⟨a, -, ha⟩ := List.mem_flatMap.mp hx
  cases a with
  | token t =>
    obtain rfl := List.mem_singleton.mp ha
    exact Bool.false_ne_true
  | _ => cases ha

theorem debugOnly_chronicle {answers : List Scanned} {xs : List Entry}
    (hlength : xs.length ≤ answers.length) (h : ∀ e ∈ xs, ∀ x ∈ e.records, x.level = .debug) :
    debugOnly (chronicle answers xs) = xs.flatMap Entry.records := by
  induction xs generalizing answers with
  | nil =>
    rw [chronicle_nil]
    rfl
  | cons e xs ih =>
    cases answers with
    | nil => cases hlength
    | cons a answers =>
      have hscanned : debugOnly a.records = [] := by
        have hone := debugOnly_scanned [a]
        rwa [List.flatMap_singleton] at hone
      have hrest := ih (Nat.le_of_succ_le_succ hlength) fun e he =>
        h e (List.mem_cons_of_mem _ he)
      rw [chronicle_cons, debugOnly_append, debugOnly_append, hscanned,
        debugOnly_of_debug (h e List.mem_cons_self), hrest, List.nil_append, List.flatMap_cons]

end Derivation

namespace ParseState

variable {name : String} {source : Bytes} {ts : List Token} {r : Reading} {s : ParseState}
  {before ending : List Event} {x : Except ParseError Module} {d : Derivation}

theorem Reached.log_eq (h : Reached name source ts r before s) (hs : Halts s r ending x)
    (hd : ts <+: d.tokens) : (Module.parse name source).events.filterMap Event.record? =
      ((Reading.ofSource source).answers.take 1).flatMap Scanned.records ++
        chronicle (Reading.ofSource source).answers.tail (d.entries.take ts.length) ++
          ending.filterMap Event.record? := by
  rw [h.parse_eq hs, Scanned.filterMap_record?, List.filterMap_append, h.records_eq hd,
    List.append_assoc]
  conv_rhs => rw [Reading.answers_eq_cons]
  rw [List.take_succ_cons, List.take_zero, List.flatMap_singleton]
  rfl

theorem Reached.debugOnly_eq (h : Reached name source ts r before s) (d : Derivation) :
    debugOnly (((Reading.ofSource source).answers.take 1).flatMap Scanned.records ++
      chronicle (Reading.ofSource source).answers.tail (d.entries.take ts.length)) =
        (d.entries.take ts.length).flatMap Entry.records := by
  have hlength : (d.entries.take ts.length).length ≤
      (Reading.ofSource source).answers.tail.length := by
    rw [h.1, Reading.answers_prepend, Reading.answers_eq_cons r]
    simp only [List.length_take, List.length_tail, List.length_append, List.length_map,
      List.length_cons]
    omega
  rw [debugOnly_append, debugOnly_scanned, debugOnly_chronicle hlength, List.nil_append]
  exact fun e he _ hx => level_of_mem_entries (List.mem_of_mem_take he) hx

theorem Reached.told_of_ok {m : Module} {l : Location} (h : Reached name source ts r before s)
    (hs : Halts s r ending (.ok m)) (hread : Reading.ofSource source = .prepend d.tokens (.eof l)) :
    ending.filterMap Event.record? = [m.record] ∧ ts = d.tokens := by
  cases hs with
  | whole l' hend =>
    refine ⟨?_, ?_⟩
    · simp [Event.record?, Event.counts, Module.record, String.append_assoc]
    · have htokens := Reading.tokens_eq_ok_iff.mpr h.1
      rw [Reading.tokens_eq_ok_iff.mpr hread] at htokens
      cases htokens
      rfl

end ParseState

open ParseState in
/-- The log of a parse tells of each declaration that has been taken to its last token, in the order
in which they are written, each behind the record of the token that follows it. -/
theorem log_tells_declarations (name : String) (source : Bytes) :
    let answers := (Reading.ofSource source).answers
    let log := (Module.parse name source).events
    (∀ m, (Module.parse name source).value = .ok m → ∃ (d : Derivation) (l : Location),
      (Scanner.ofSource source).tokenize.1 = .ok (d.tokens, l) ∧ m = d.module name ∧
      (Threshold.upTo .debug).records log = d.records ++ [m.record] ∧
      (Threshold.upTo .trace).records log = (answers.take 1).flatMap Scanned.records ++
        chronicle answers.tail d.entries ++ [m.record]) ∧
    ∀ e, (Module.parse name source).value = .error e →
      ∃ (d : Derivation) (n : ℕ) (ending : List Record), n ≤ d.tokens.length ∧
        log.filterMap Event.consumed? = d.tokens.take n ++ e.misnamed ∧
        (ending = [bodyClosed] ∧ Grammar.InBody ((d.tokens.take n).map Token.kind) ∨
          ending = [] ∧ ¬ Grammar.InBody ((d.tokens.take n).map Token.kind)) ∧
        (Threshold.upTo .debug).records log =
          (d.entries.take n).flatMap Entry.records ++ ending ∧
        (Threshold.upTo .trace).records log = (answers.take 1).flatMap Scanned.records ++
          chronicle answers.tail (d.entries.take n) ++
          ((answers.drop (n + 1)).take e.misnamed.length).flatMap Scanned.records ++ ending := by
  intro answers log
  obtain ⟨ts, r, before, s, ending, x, hreached, hhalt⟩ := exists_reached_halt name source
  have hvalue : (Module.parse name source).value = x := by rw [hreached.parse_eq hhalt]
  constructor
  · intro m hm
    obtain ⟨d, l, hread, hmodule⟩ := exists_derivation hm
    obtain rfl := hvalue.symm.trans hm
    obtain ⟨hending, rfl⟩ := hreached.told_of_ok hhalt hread
    have hall : d.entries.take (Derivation.tokens d).length = d.entries := by
      rw [← d.entries_token, List.length_map, List.take_length]
    have hlog := hreached.log_eq hhalt List.prefix_rfl
    have hdebug := hreached.debugOnly_eq d
    rw [hall] at hlog hdebug
    rw [hending] at hlog
    refine ⟨d, l, Reading.tokens_eq_ok_iff.mpr hread, hmodule.symm, ?_, ?_⟩
    · change debugOnly (log.filterMap Event.record?) = _
      rw [hlog, debugOnly_append, hdebug, d.entries_records]
      rfl
    · rw [records_of_trace, hlog]
  · intro e he
    obtain rfl := hvalue.symm.trans he
    obtain ⟨d, hd⟩ := Derivation.exists_prefix_iff.mpr ⟨_, hreached.follow⟩
    have hlog := hreached.log_eq hhalt hd
    obtain ⟨hconsumed, hrecords⟩ := hhalt.told_of_error hreached.2.steps_eq
    have hts := List.prefix_iff_eq_take.mp hd
    have hbehind : answers.drop (ts.length + 1) = r.answers.tail := by
      have hanswers : answers = ts.map .token ++ r.answers := by
        rw [← Reading.answers_prepend, ← hreached.1]
      rw [hanswers, ← List.drop_drop, List.drop_left' (List.length_map _), List.drop_one]
    have hclose := hreached.close_cases
    refine ⟨d, ts.length, s.close.events.filterMap Event.record?, hd.length_le, ?_, hts ▸ hclose,
      ?_, ?_⟩
    · rw [← hts, ← hconsumed]
      exact hreached.consumed_eq hhalt
    · change debugOnly (log.filterMap Event.record?) = _
      have hkept : debugOnly (s.close.events.filterMap Event.record?) =
          s.close.events.filterMap Event.record? := by
        rcases hclose with ⟨hclosed, -⟩ | ⟨hclosed, -⟩ <;> rw [hclosed] <;> rfl
      rw [hlog, debugOnly_append, hreached.debugOnly_eq d, hrecords, debugOnly_append,
        debugOnly_scanned, hkept, List.nil_append]
    · rw [records_of_trace, hlog, hrecords, hbehind, List.append_assoc, List.append_assoc,
        List.append_assoc]

/-- The body fails behind its declarations, so its procedure is not told of. -/
theorem log_of_broken_body :
    let source := utf8 "var x: int; proc f(): int var y: char; \x7b ;"
    let log := (Module.parse "m" source).events
    let e : ParseError := .unexpected [.identifier, .intLiteral] .semicolon ⟨1, 42⟩
    (Module.parse "m" source).value = .error e ∧
    (Threshold.upTo .debug).records log =
      [⟨.debug, "plume::parser::declarations", "declared var x: int at line 1, column 5"⟩,
        bodyOpened,
        ⟨.debug, "plume::parser::declarations", "declared var y: char at line 1, column 31"⟩,
        bodyClosed] ∧
    ∃ (d : Derivation) (n : ℕ) (ending : List Record), n ≤ d.tokens.length ∧
      log.filterMap Event.consumed? = d.tokens.take n ++ e.misnamed ∧
      (Threshold.upTo .debug).records log =
        (d.entries.take n).flatMap Entry.records ++ ending := by
  intro source log e
  have he : (Module.parse "m" source).value = .error e := by
    rw [Module.parse_value]
    decide +kernel
  obtain ⟨-, herror⟩ := log_tells_declarations "m" source
  obtain ⟨d, n, ending, hn, hconsumed, -, hdebug, -⟩ := herror e he
  refine ⟨he, ?_, d, n, ending, hn, hconsumed, hdebug⟩
  have hlog : log = (Module.parse "m" source).events := rfl
  rw [hlog, Module.parse_eq]
  decide +kernel

end ProcLang
