import Mathlib.Data.List.DropRight
import ProcLang.Proofs.Balance
import ProcLang.Proofs.Offset

/-! # Truncation

What is left of an accepted text when its end is cut off is accepted only if the cut is behind a
declaration, or behind a group of variables of the module. The tree is cut off there as well. -/
namespace ProcLang

open Lexicon

namespace Derivation

/-- The first derivation is the second one up to the end of a declaration, or up to the end of a
group in a declaration of variables. -/
inductive Front : Derivation → Derivation → Prop where
  | exportsDecl (e : ExportsDecl) (after : Derivation) :
      Front [.exportsDecl e] (.exportsDecl e :: after)
  | procDecl (p : ProcDecl) (after : Derivation) : Front [.procDecl p] (.procDecl p :: after)
  | groups {v v' : VarDecl} (keyword : v'.keyword = v.keyword) (groups : v'.groups <+: v.groups)
      (after : Derivation) : Front [.varDecl v'] (.varDecl v :: after)
  | later (i : Item) {d d' : Derivation} (h : Front d' d) : Front (i :: d') (i :: d)

variable {d d' : Derivation}

theorem collect_const {α : Type} (f : Item → List α) (id : NodeId) (d : Derivation) :
    d.collect (fun _ => f) id = d.flatMap f := by
  induction d generalizing id with
  | nil => rfl
  | cons i d ih => rw [collect, ih, List.flatMap_cons]

theorem Front.collect_isPrefix {α : Type} {part : NodeId → Item → List α} (h : Front d' d)
    (hpart : ∀ id {v v' : VarDecl}, v'.keyword = v.keyword → v'.groups <+: v.groups →
      part id (.varDecl v') <+: part id (.varDecl v)) (id : NodeId) :
    d'.collect part id <+: d.collect part id := by
  induction h generalizing id with
  | exportsDecl e after => exact (List.prefix_append_right_inj _).mpr List.nil_prefix
  | procDecl p after => exact (List.prefix_append_right_inj _).mpr List.nil_prefix
  | groups keyword groups after =>
    rw [collect, collect, collect, List.append_nil]
    exact (hpart id keyword groups).trans (List.prefix_append _ _)
  | later i h ih => exact (List.prefix_append_right_inj _).mpr (ih _)

theorem Front.tokens_isPrefix (h : Front d' d) : d'.tokens <+: d.tokens := by
  rw [tokens, tokens, ← collect_const _ 0, ← collect_const _ 0]
  apply h.collect_isPrefix
  intro _ v v' keyword groups
  obtain ⟨hs, hgroups⟩ := groups
  rw [Item.tokens, Item.tokens, VarDecl.tokens, VarDecl.tokens, keyword, ← hgroups,
    List.flatMap_append]
  exact List.cons_prefix_cons.mpr ⟨rfl, List.prefix_append _ _⟩

theorem Front.tokens_ne_nil (h : Front d' d) : d'.tokens ≠ [] := by
  cases h with
  | later i => cases i <;> exact List.cons_ne_nil _ _
  | _ => exact List.cons_ne_nil _ _

theorem Front.module_isPrefix (h : Front d' d) (name : String) :
    (d'.module name).vars <+: (d.module name).vars ∧
      (d'.module name).procs <+: (d.module name).procs ∧
      (d'.module name).exports <+: (d.module name).exports := by
  refine ⟨h.collect_isPrefix ?_ 0, h.collect_isPrefix (fun _ _ _ _ _ => List.nil_prefix) 0, ?_⟩
  · intro id v v' _ groups
    obtain ⟨hs, hgroups⟩ := groups
    rw [Item.vars, Item.vars, ← hgroups, vars_append]
    exact List.prefix_append _ _
  · rw [module, module, ← collect_const _ 0, ← collect_const _ 0]
    exact h.collect_isPrefix (fun _ _ _ _ _ => List.nil_prefix) 0

end Derivation

namespace Point

variable {p q : Point} {k : TokenKind} {kinds : List TokenKind}

theorem follow_of_isEnd (hp : p.isEnd = true) (hk : k ≠ .identifier) (kinds : List TokenKind) :
    p.follow (k :: kinds) = start.follow (k :: kinds) := by
  rcases p with (_ | _) | _ | _ | _ | _ | (_ | _) | _ <;> cases hp
  · rfl
  · cases k <;> first | rfl | exact absurd rfl hk

end Point

namespace Derivation

variable {ts : List Token} {p q : Point}

theorem Item.exists_head (i : Item) : ∃ t ts, i.tokens = t :: ts ∧ t.kind ≠ .identifier := by
  cases i <;> refine ⟨_, _, rfl, ?_⟩ <;> simp [Token.kind, Terminal.kind]

theorem ExportsDecl.eq_of_front {e : ExportsDecl} (hts : ts <+: e.tokens) (hne : ts ≠ [])
    (hq : Point.start.follow (ts.map Token.kind) = some q) (hend : q.isEnd = true) :
    ts = e.tokens := by
  rcases List.prefix_cons_iff.mp hts with rfl | ⟨us, rfl, hus⟩
  · exact absurd rfl hne
  rcases List.prefix_cons_iff.mp hus with rfl | ⟨vs, rfl, hvs⟩
  · cases hq
    cases hend
  rcases List.prefix_cons_iff.mp hvs with rfl | ⟨ws, rfl, hws⟩
  · cases hq
    cases hend
  obtain rfl := List.prefix_nil.mp hws
  rfl

theorem Group.kind_ne_rightBrace {g : Group} : ∀ t ∈ g.tokens, t.kind ≠ .rightBrace := by
  simp [tokens, Word.token, Token.kind, Terminal.kind]

theorem Statement.kind_ne_rightBrace {s : Statement} : ∀ t ∈ s.tokens, t.kind ≠ .rightBrace := by
  have operand (o : Operand) : o.token.kind ≠ .rightBrace := by
    cases o <;> simp [Operand.token, Word.token, Token.kind, Terminal.kind]
  have equals : Token.kind ⟨.equals, s.equals⟩ ≠ .rightBrace := by simp [Token.kind, Terminal.kind]
  have semicolon : Token.kind ⟨.semicolon, s.semicolon⟩ ≠ .rightBrace := by
    simp [Token.kind, Terminal.kind]
  simp [tokens, operand, equals, semicolon]

/-- The brace that ends a procedure is the only one of its kind. -/
theorem ProcDecl.exists_inside (d : ProcDecl) : ∃ inside,
    d.tokens = ⟨.proc, d.keyword⟩ :: d.name.token :: inside ++ [⟨.rightBrace, d.rightBrace⟩] ∧
      ∀ t ∈ inside, t.kind ≠ .rightBrace := by
  refine ⟨[⟨.leftParen, d.leftParen⟩, ⟨.rightParen, d.rightParen⟩, ⟨.colon, d.colon⟩,
    d.returnType.token] ++ (d.locals.flatMap VarDecl.tokens ++
      ⟨.leftBrace, d.leftBrace⟩ :: d.statements.flatMap Statement.tokens), ?_, ?_⟩
  · simp [tokens, heading, block]
  · have heading : ∀ t ∈ [(⟨.leftParen, d.leftParen⟩ : Token), ⟨.rightParen, d.rightParen⟩,
        ⟨.colon, d.colon⟩, d.returnType.token], t.kind ≠ .rightBrace := by
      simp [Word.token, Token.kind, Terminal.kind]
    intro t ht
    rcases List.mem_append.mp ht with ht | ht
    · exact heading t ht
    rcases List.mem_append.mp ht with ht | ht
    · obtain ⟨v, -, ht⟩ := List.mem_flatMap.mp ht
      rcases List.mem_cons.mp ht with rfl | ht
      · simp [Token.kind, Terminal.kind]
      · obtain ⟨g, -, ht⟩ := List.mem_flatMap.mp ht
        exact g.kind_ne_rightBrace t ht
    rcases List.mem_cons.mp ht with rfl | ht
    · simp [Token.kind, Terminal.kind]
    · obtain ⟨s, -, ht⟩ := List.mem_flatMap.mp ht
      exact s.kind_ne_rightBrace t ht

theorem ProcDecl.eq_of_front {d : ProcDecl} (hts : ts <+: d.tokens) (hne : ts ≠ [])
    (hq : Point.start.follow (ts.map Token.kind) = some q) (hend : q.isEnd = true) :
    ts = d.tokens := by
  obtain ⟨inside, hd, hinside⟩ := d.exists_inside
  rw [hd] at hts ⊢
  rcases List.prefix_concat_iff.mp hts with h | hts
  · exact h
  rcases List.prefix_cons_iff.mp hts with rfl | ⟨us, rfl, hus⟩
  · exact absurd rfl hne
  rcases List.prefix_cons_iff.mp hus with rfl | ⟨vs, rfl, hvs⟩
  · cases hq
    cases hend
  have hname : Point.procName.follow (vs.map Token.kind) = some q := hq
  have hbrace : .rightBrace ∉ vs.map Token.kind := by
    intro hmem
    obtain ⟨t, ht, hk⟩ := List.mem_map.mp hmem
    exact hinside t (hvs.subset ht) hk
  rw [Point.isEnd_of_inProc (Point.inProc_of_follow hname rfl hbrace)] at hend
  cases hend

theorem exists_groups {gs : List Group} (hp : p.next? .identifier = some (.varName .module))
    (hts : ts <+: gs.flatMap Group.tokens) (hq : p.follow (ts.map Token.kind) = some q)
    (hend : q.isEnd = true) : ∃ gs', gs' <+: gs ∧ gs'.flatMap Group.tokens = ts := by
  induction gs generalizing ts p with
  | nil => exact ⟨[], List.nil_prefix, (List.prefix_nil.mp hts).symm⟩
  | cons g gs ih =>
    rcases List.prefix_cons_iff.mp hts with rfl | ⟨us, rfl, hus⟩
    · exact ⟨[], List.nil_prefix, rfl⟩
    have hname : (Point.varName .module).follow (us.map Token.kind) = some q := by
      rw [List.map_cons, Point.follow_cons] at hq
      change (p.next? .identifier).bind _ = _ at hq
      rwa [hp] at hq
    rcases List.prefix_cons_iff.mp hus with rfl | ⟨vs, rfl, hvs⟩
    · cases hname
      cases hend
    rcases List.prefix_cons_iff.mp hvs with rfl | ⟨ws, rfl, hws⟩
    · cases hname
      cases hend
    rcases List.prefix_cons_iff.mp hws with rfl | ⟨later, rfl, hlater⟩
    · cases hname
      cases hend
    have hgroup : (Point.group .module).follow (later.map Token.kind) = some q := hname
    obtain ⟨gs', hgs, rfl⟩ := ih rfl hlater hgroup
    exact ⟨g :: gs', List.cons_prefix_cons.mpr ⟨rfl, hgs⟩, rfl⟩

theorem VarDecl.exists_of_front {v : VarDecl} (hts : ts <+: v.tokens) (hne : ts ≠ [])
    (hq : Point.start.follow (ts.map Token.kind) = some q) (hend : q.isEnd = true) :
    ∃ v' : VarDecl, v'.keyword = v.keyword ∧ v'.groups <+: v.groups ∧ v'.tokens = ts := by
  rcases List.prefix_cons_iff.mp hts with rfl | ⟨us, rfl, hus⟩
  · exact absurd rfl hne
  have hkeyword : (Point.varKeyword .module).follow (us.map Token.kind) = some q := hq
  obtain ⟨_ | ⟨g, gs⟩, hgs, rfl⟩ := exists_groups rfl hus hkeyword hend
  · cases hkeyword
    cases hend
  · exact ⟨⟨v.keyword, g, gs⟩, rfl, hgs, rfl⟩

theorem Item.exists_front {i : Item} (hts : ts <+: i.tokens) (hne : ts ≠ [])
    (hq : Point.start.follow (ts.map Token.kind) = some q) (hend : q.isEnd = true)
    (after : Derivation) : ∃ d', Front d' (i :: after) ∧ d'.tokens = ts := by
  cases i with
  | varDecl v =>
    obtain ⟨v', keyword, groups, rfl⟩ := VarDecl.exists_of_front hts hne hq hend
    exact ⟨_, .groups keyword groups after, List.append_nil _⟩
  | procDecl p =>
    obtain rfl := ProcDecl.eq_of_front hts hne hq hend
    exact ⟨_, .procDecl p after, List.append_nil _⟩
  | exportsDecl e =>
    obtain rfl := ExportsDecl.eq_of_front hts hne hq hend
    exact ⟨_, .exportsDecl e after, List.append_nil _⟩

theorem Item.exists_end (i : Item) :
    ∃ r, Point.start.follow (i.tokens.map Token.kind) = some r ∧ r.isEnd = true := by
  have h := Grammar.mem_module_iff.mp (kinds_mem_module [i])
  rwa [show Derivation.tokens [i] = i.tokens from List.append_nil _] at h

theorem Item.follow_eq {i : Item} (hp : p.isEnd = true) (hts : ts <+: i.tokens) (hne : ts ≠ []) :
    p.follow (ts.map Token.kind) = Point.start.follow (ts.map Token.kind) := by
  obtain ⟨t, us, hi, ht⟩ := i.exists_head
  cases ts with
  | nil => exact absurd rfl hne
  | cons u ts =>
    rw [hi] at hts
    obtain ⟨rfl, -⟩ := List.cons_prefix_cons.mp hts
    exact Point.follow_of_isEnd hp ht _

/-- The tokens of a derivation lead to an end nowhere but behind one of its fronts. -/
theorem exists_front {d : Derivation} (hp : p.isEnd = true) (hts : ts <+: d.tokens)
    (hne : ts ≠ []) (hq : p.follow (ts.map Token.kind) = some q) (hend : q.isEnd = true) :
    ∃ d', Front d' d ∧ d'.tokens = ts := by
  induction d generalizing ts p with
  | nil => exact absurd (List.prefix_nil.mp hts) hne
  | cons i d ih =>
    obtain ⟨rest, h⟩ := hts
    rcases List.append_eq_append_iff.mp h with ⟨vs, hvs, -⟩ | ⟨vs, rfl, hvs⟩
    · have hitem : ts <+: i.tokens := ⟨vs, hvs.symm⟩
      rw [Item.follow_eq hp hitem hne] at hq
      exact Item.exists_front hitem hne hq hend d
    · obtain ⟨t, us, hi, -⟩ := i.exists_head
      have hin : i.tokens ≠ [] := hi ▸ List.cons_ne_nil t us
      obtain ⟨r, hr, hrend⟩ := i.exists_end
      by_cases hvn : vs = []
      · subst hvn
        rw [List.append_nil]
        exact Item.exists_front List.prefix_rfl hin hr hrend d
      · rw [List.map_append, Point.follow_append, Item.follow_eq hp List.prefix_rfl hin, hr] at hq
        obtain ⟨d', hd', rfl⟩ := ih hrend ⟨rest, hvs.symm⟩ hvn hq
        exact ⟨i :: d', .later i hd', rfl⟩

theorem isEnd_iff_exists_front {d : Derivation} (hts : ts <+: d.tokens)
    (hq : Point.start.follow (ts.map Token.kind) = some q) :
    q.isEnd = true ↔ ts = [] ∨ ∃ d', Front d' d ∧ d'.tokens = ts := by
  constructor
  · intro hend
    by_cases hne : ts = []
    · exact Or.inl hne
    · exact Or.inr (exists_front rfl hts hne hq hend)
  · intro h
    have hmem : ts.map Token.kind ∈ Grammar.module := by
      rcases h with rfl | ⟨d', -, rfl⟩
      · exact kinds_mem_module []
      · exact d'.kinds_mem_module
    obtain ⟨r, hr, hend⟩ := Grammar.mem_module_iff.mp hmem
    rw [hq] at hr
    cases hr
    exact hend

end Derivation

namespace Piece

variable {ps qs gap : List Piece} {x : Lexeme} {k : ℕ}

theorem rdropWhile_text (qs : List Piece) (x : Lexeme) (hgap : Blank (text gap)) :
    (text ((qs ++ [.lexeme x]) ++ gap)).rdropWhile (· ∈ blanks) = text (qs ++ [.lexeme x]) := by
  have hblank : ∀ b ∈ (text gap).reverse, decide (b ∈ blanks) = true := by
    intro b hb
    exact decide_eq_true (mem_blanks.mpr (hgap b (List.mem_reverse.mp hb)))
  have hlast : ∀ b ∈ (text (qs ++ [.lexeme x])).reverse.head?, decide (b ∈ blanks) = false := by
    intro b hb
    have hne : x.bytes ≠ [] := List.cons_ne_nil _ _
    rw [List.head?_reverse, text_append_lexeme, List.getLast?_append_of_ne_nil _ hne] at hb
    have hvisible := x.isBlank_of_mem (List.mem_of_getLast? hb)
    rw [decide_eq_false_iff_not, mem_blanks, hvisible]
    exact nofun
  rw [text_append, List.rdropWhile, List.reverse_append, dropWhile_of_stop hblank hlast,
    List.reverse_reverse]

theorem not_accepted_of_cut (ha : Apart (qs ++ [.lexeme (x.front k)])) (hk : k < x.more.length)
    (name : String) (m : Module) :
    (Module.parse name (text (qs ++ [.lexeme (x.front k)]))).value ≠ .ok m := by
  intro h
  obtain ⟨d, l, hread, -⟩ := derivation_of_parse h
  rw [reading_of_pieces ha] at hread
  obtain ⟨us, t, hts, hv⟩ := verdict_of_last hread
  have hends := Lexeme.endsAt_of_closes hv (Derivation.closes hts) [x.more[k]]
  have hjoined := x.joined x.more[k] (List.getElem_mem hk)
  have hnot : Byte.joins x.first x.more[k] = false := hends _ rfl
  rw [hjoined] at hnot
  cases hnot

end Piece

/-- The text up to the offset is blank or ends, but for blanks, with the last byte of a declaration
or of a group. -/
def EndsDeclaration (source : Bytes) (d : Derivation) (p : ℕ) : Prop :=
  let text := (source.take p).rdropWhile (· ∈ blanks)
  text = [] ∨ ∃ d', Derivation.Front d' d ∧
    text.length = ((Scanner.ofSource source).spanOf (d'.tokens.length - 1)).2

theorem Scanner.span_end_inj {source : Bytes} {ts : List Token} {r : Reading} {i j : ℕ}
    (hread : Reading.ofSource source = .prepend ts r) (hi : i < ts.length) (hj : j < ts.length)
    (h : ((ofSource source).spanOf i).2 = ((ofSource source).spanOf j).2) : i = j := by
  have nonempty {k : ℕ} (hk : k < ts.length) :
      ((ofSource source).spanOf k).1 < ((ofSource source).spanOf k).2 := by
    apply span_nonempty
    intro l hl
    have hanswer : (Reading.ofSource source).answers[k]? = some (.token ts[k]) := by
      rw [hread, Reading.answers_prepend, List.getElem?_append_left (by simpa using hk)]
      simp [hk]
    rw [answer_of_read hanswer] at hl
    cases hl
  have hispan := nonempty hi
  have hjspan := nonempty hj
  rcases lt_trichotomy i j with hlt | heq | hlt
  · have := span_end_le source hlt
    omega
  · exact heq
  · have := span_end_le source hlt
    omega

section

variable {name : String} {qs rs : List Piece} {d : Derivation} {us : List Token} {r : Reading}

theorem endsDeclaration_iff (ha : Piece.Apart (qs ++ rs)) {p : ℕ}
    (htake : (Piece.text (qs ++ rs)).take p = Piece.text qs)
    (hread : Reading.ofSource (Piece.text (qs ++ rs)) = .prepend d.tokens r)
    (hus : us <+: d.tokens) (hlength : us.length = (qs.filterMap Piece.lexeme?).length) :
    EndsDeclaration (Piece.text (qs ++ rs)) d p ↔
      us = [] ∨ ∃ d', Derivation.Front d' d ∧ d'.tokens = us := by
  rw [EndsDeclaration, htake]
  rcases Piece.blank_or_last qs with ⟨hblank, hnone⟩ | ⟨qs, x, gap, rfl, hgap, hnone⟩
  · have hnil : us = [] := by simpa [hnone] using hlength
    have htext : (Piece.text qs).rdropWhile (· ∈ blanks) = [] := by
      rw [List.rdropWhile_eq_nil_iff]
      exact fun b hb => decide_eq_true (mem_blanks.mpr (hblank b hb))
    exact iff_of_true (Or.inl htext) (Or.inl hnil)
  · have hcount : us.length = (qs.filterMap Piece.lexeme?).length + 1 := by
      rw [hlength, List.filterMap_append, hnone, List.append_nil, List.filterMap_append,
        List.length_append]
      rfl
    have hne : us ≠ [] := List.ne_nil_of_length_eq_add_one hcount
    have htext : Piece.text (qs ++ [.lexeme x]) ≠ [] := by
      rw [Piece.text_append_lexeme]
      exact List.append_ne_nil_of_right_ne_nil _ (List.cons_ne_nil _ _)
    have hspan : (Piece.text (qs ++ [.lexeme x])).length = ((Scanner.ofSource
        (Piece.text (qs ++ [.lexeme x] ++ gap ++ rs))).spanOf (us.length - 1)).2 := by
      have hpieces : qs ++ [.lexeme x] ++ gap ++ rs = qs ++ .lexeme x :: (gap ++ rs) := by simp
      rw [hpieces] at ha ⊢
      rw [hcount, Nat.add_sub_cancel, spanOf_of_pieces ha, Piece.text_append_lexeme,
        List.length_append]
    rw [Piece.rdropWhile_text qs x hgap]
    constructor
    · rintro (hnil | ⟨d', hfront, hend⟩)
      · exact absurd hnil htext
      · have hd' := hfront.tokens_isPrefix
        have hpos := List.length_pos_iff.mpr hfront.tokens_ne_nil
        have hle := hd'.length_le
        have hle' := hus.length_le
        have hlast := Scanner.span_end_inj hread (by omega) (by omega) (hspan.symm.trans hend)
        have heq : d'.tokens.length = us.length := by omega
        exact Or.inr ⟨d', hfront,
          (List.prefix_of_prefix_length_le hd' hus heq.le).eq_of_length heq⟩
    · rintro (hnil | ⟨d', hfront, rfl⟩)
      · exact absurd hnil hne
      · exact Or.inr ⟨d', hfront, hspan⟩

theorem not_endsDeclaration_of_cut {x : Lexeme} {k : ℕ}
    (ha : Piece.Apart (qs ++ .lexeme x :: rs)) (hk : k < x.more.length)
    (htake : (Piece.text (qs ++ .lexeme x :: rs)).take ((Piece.text qs).length + (k + 1)) =
      Piece.text (qs ++ [.lexeme (x.front k)])) (d : Derivation) :
    ¬ EndsDeclaration (Piece.text (qs ++ .lexeme x :: rs)) d
      ((Piece.text qs).length + (k + 1)) := by
  have hblank : Blank (Piece.text []) := List.forall_mem_nil _
  have htext := Piece.rdropWhile_text qs (x.front k) hblank
  rw [List.append_nil] at htext
  have hlength : (Piece.text (qs ++ [.lexeme (x.front k)])).length =
      (Piece.text qs).length + (k + 1) := by
    rw [Piece.text_append_lexeme, List.length_append, Lexeme.bytes, List.length_cons]
    simp [Lexeme.front, hk.le]
  rw [EndsDeclaration, htake, htext]
  rintro (hnil | ⟨d', -, hend⟩)
  · rw [hnil, List.length_nil] at hlength
    omega
  · have hcut := cutsLexeme_of_pieces ha hk
    rw [← hlength, hend] at hcut
    exact not_cutsLexeme_end _ _ hcut

/-- Between two pieces, an accepted text is accepted exactly if a declaration ends. -/
theorem parse_front_iff {m : Module} {l : Location} (ha : Piece.Apart (qs ++ rs)) {p : ℕ}
    (h : (Module.parse name (Piece.text (qs ++ rs))).value = .ok m)
    (htake : (Piece.text (qs ++ rs)).take p = Piece.text qs)
    (hread : Reading.ofSource (Piece.text (qs ++ rs)) = .prepend d.tokens (.eof l)) :
    ((∃ m', (Module.parse name (Piece.text qs)).value = .ok m') ↔
      EndsDeclaration (Piece.text (qs ++ rs)) d p) ∧
    ∀ m', (Module.parse name (Piece.text qs)).value = .ok m' →
      m'.vars <+: (d.module name).vars ∧ m'.procs <+: (d.module name).procs ∧
        m'.exports <+: (d.module name).exports := by
  obtain ⟨us, vs, l', s, hsplit, hus, hlength, hs⟩ := steps_of_split ha h
  have hprefix : us <+: d.tokens := by
    have htokens := (Reading.tokens_eq_ok_iff.mpr hread).symm.trans
      (Reading.tokens_eq_ok_iff.mpr hsplit)
    obtain ⟨hd, -⟩ := Prod.mk.inj (Except.ok.inj htokens)
    exact ⟨vs, hd.symm⟩
  have hfront : Reading.ofSource (Piece.text qs) = .prepend us (.eof (.behind (Piece.text qs))) :=
    (reading_of_pieces ha.of_append.1).trans hus
  have hparse : (Module.parse name (Piece.text qs)).value =
      if s.place.isEnd then .ok s.module
      else .error (.unexpected s.place.expected .eof (.behind (Piece.text qs))) := by
    have hb := ParseState.balanced_initial name
    rw [Module.parse_value, hfront, hb.run_steps hs, (hb.steps hs).run_eof]
  have hends := Derivation.isEnd_iff_exists_front hprefix (follow_of_steps hs)
  have haccepted : (∃ m', (Module.parse name (Piece.text qs)).value = .ok m') ↔
      us = [] ∨ ∃ d', Derivation.Front d' d ∧ d'.tokens = us := by
    rw [hparse, ← hends, Place.isEnd_point]
    split <;> simp_all
  refine ⟨haccepted.trans (endsDeclaration_iff ha htake hread hprefix hlength).symm, ?_⟩
  intro m' hm'
  rcases haccepted.mp ⟨m', hm'⟩ with rfl | ⟨d', hd', rfl⟩
  · have hnil : m' = Derivation.module name [] := module_eq (d := []) hfront hm'
    rw [hnil]
    exact ⟨List.nil_prefix, List.nil_prefix, List.nil_prefix⟩
  · rw [module_eq hfront hm']
    exact hd'.module_isPrefix name

end

/-- What an accepted text is up to an offset is accepted exactly if a declaration ends there, and
then its tree is cut off there. -/
theorem truncation_at_declarations {name : String} {source : Bytes} {m : Module}
    (h : (Module.parse name source).value = .ok m) :
    (∃ d l, (Scanner.ofSource source).tokenize.1 = .ok (Derivation.tokens d, l)) ∧
    ∀ d l, (Scanner.ofSource source).tokenize.1 = .ok (Derivation.tokens d, l) → ∀ p,
      ((∃ m', (Module.parse name (source.take p)).value = .ok m') ↔ EndsDeclaration source d p) ∧
      (∀ m', (Module.parse name (source.take p)).value = .ok m' → m'.vars <+: m.vars ∧
        m'.procs <+: m.procs ∧ m'.exports <+: m.exports) ∧
      (¬ EndsDeclaration source d p →
        ∃ e, (Module.parse name (source.take p)).value = .error e) := by
  obtain ⟨d, l, hread, -⟩ := derivation_of_parse h
  refine ⟨⟨d, l, tokenize_eq_ok_iff.mpr hread⟩, ?_⟩
  clear hread
  intro d l hd p
  have hread := tokenize_eq_ok_iff.mp hd
  obtain rfl := module_eq hread h
  have herror : ((∃ m', (Module.parse name (source.take p)).value = .ok m') ↔
      EndsDeclaration source d p) → ¬ EndsDeclaration source d p →
        ∃ e, (Module.parse name (source.take p)).value = .error e := by
    intro hiff hnot
    cases hparse : (Module.parse name (source.take p)).value with
    | error e => exact ⟨e, rfl⟩
    | ok m' => exact absurd (hiff.mp ⟨m', hparse⟩) hnot
  obtain ⟨ps, rfl, hps⟩ := Piece.exists_pieces source
  rcases Piece.exists_cut ps p with ⟨qs, rs, rfl, htake⟩ | ⟨qs, x, rs, k, rfl, hk, rfl, htake⟩
  · obtain ⟨hiff, hmodule⟩ := parse_front_iff hps h htake hread
    rw [← htake] at hiff hmodule
    exact ⟨hiff, hmodule, herror hiff⟩
  · have hnone : ∀ m', (Module.parse name ((Piece.text (qs ++ .lexeme x :: rs)).take
        ((Piece.text qs).length + (k + 1)))).value ≠ .ok m' :=
      htake ▸ Piece.not_accepted_of_cut (hps.cut k) hk name
    have hiff := iff_of_false (not_exists.mpr hnone) (not_endsDeclaration_of_cut hps hk htake d)
    exact ⟨hiff, fun m' hm' => absurd hm' (hnone m'), herror hiff⟩

/-- The first group of a declaration is enough, but a second name is too much. -/
theorem truncation_behind_group :
    let source := utf8 "var x: int; y: char; exports x;"
    let x : Derivation.Group := ⟨⟨"x", ⟨1, 5⟩⟩, ⟨1, 6⟩, ⟨"int", ⟨1, 8⟩⟩, ⟨1, 11⟩⟩
    let y : Derivation.Group := ⟨⟨"y", ⟨1, 13⟩⟩, ⟨1, 14⟩, ⟨"char", ⟨1, 16⟩⟩, ⟨1, 20⟩⟩
    let d : Derivation :=
      [.varDecl ⟨⟨1, 1⟩, x, [y]⟩, .exportsDecl ⟨⟨1, 22⟩, ⟨"x", ⟨1, 30⟩⟩, ⟨1, 31⟩⟩]
    EndsDeclaration source d 12 ∧ ¬ EndsDeclaration source d 13 ∧
      ∃ m, (Module.parse "m" (source.take 12)).value = .ok m ∧
        m.vars <+: [⟨0, "x", .int, ⟨1, 5⟩⟩, ⟨1, "y", .char, ⟨1, 13⟩⟩] := by
  intro source x y d
  have h : (Module.parse "m" source).value =
      .ok ⟨"m", [⟨0, "x", .int, ⟨1, 5⟩⟩, ⟨1, "y", .char, ⟨1, 13⟩⟩], [], ["x"], .start⟩ := by
    rw [Module.parse_value]
    decide +kernel
  have hd : (Scanner.ofSource source).tokenize.1 = .ok (Derivation.tokens d, ⟨1, 32⟩) := by
    decide +kernel
  have hfront : Derivation.Front [.varDecl ⟨⟨1, 1⟩, x, []⟩] d := by
    apply Derivation.Front.groups
    · rfl
    · exact List.prefix_append [x] [y]
  have hgroup : EndsDeclaration source d 12 := Or.inr ⟨_, hfront, by decide +kernel⟩
  have herror : (Module.parse "m" (source.take 13)).value =
      .error (.unexpected [.colon] .eof ⟨1, 14⟩) := by
    rw [Module.parse_value]
    decide +kernel
  obtain ⟨-, htruncated⟩ := truncation_at_declarations h
  refine ⟨hgroup, ?_, ?_⟩
  · intro hname
    obtain ⟨m, hm⟩ := (htruncated d _ hd 13).1.mpr hname
    rw [herror] at hm
    cases hm
  · obtain ⟨hiff, hmodule, -⟩ := htruncated d _ hd 12
    obtain ⟨m, hm⟩ := hiff.mpr hgroup
    exact ⟨m, hm, (hmodule m hm).1⟩

end ProcLang
