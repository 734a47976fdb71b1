import ProcLang.Proofs.Layout
import ProcLang.Proofs.Numbering
import ProcLang.Proofs.Recast

/-! # Concatenation

Two sources that are accepted can be put together. The second one is read as it would be by itself,
only at other places, since the first one ends with a lexeme that goes on with nothing; and it means
the same as by itself unless the first one hides a type. -/
namespace ProcLang

open ProcLang.Derivation

/-- The place that a place in a text has when another text is put in front. -/
def Location.moved (front : Bytes) (l : Location) : Location where
  line := l.line + front.count 10
  column :=
    if l.line = 1 then l.column + (front.reverse.takeWhile (· ≠ 10)).length else l.column

namespace Location

variable {l : Location} (front : Bytes)

theorem start_moved : start.moved front = start.after front := by
  rw [start_after]
  simp [moved, behind, start]

theorem line_step_pos (h : 0 < l.line) (b : UInt8) : 0 < (l.step b).line := by
  unfold step
  split
  · exact Nat.succ_pos _
  · exact h

theorem line_after_pos (h : 0 < l.line) (text : Bytes) : 0 < (l.after text).line := by
  induction text generalizing l with
  | nil => exact h
  | cons b text ih => exact ih (line_step_pos h b)

theorem step_moved (h : 0 < l.line) (b : UInt8) :
    (l.moved front).step b = (l.step b).moved front := by
  unfold step
  split
  · simp [moved, h.ne', Nat.add_right_comm]
  · simp only [moved, Location.mk.injEq, true_and]
    split <;> omega

theorem after_moved (h : 0 < l.line) (text : Bytes) :
    (l.moved front).after text = (l.after text).moved front := by
  induction text generalizing l with
  | nil => rfl
  | cons b text ih => rw [after_cons, after_cons, step_moved front h, ih (line_step_pos h b)]

end Location

namespace Piece

variable {ps qs : List Piece} {l : Location}

theorem text_append (ps qs : List Piece) : text (ps ++ qs) = text ps ++ text qs :=
  List.flatMap_append

theorem reading_moved (front : Bytes) (h : 0 < l.line) (ps : List Piece) :
    reading (l.moved front) ps = (reading l ps).relocate (.moved front) := by
  induction ps generalizing l with
  | nil => rfl
  | cons p ps ih =>
    cases p with
    | blank b hb =>
      rw [reading, reading, Location.step_moved front h, ih (Location.line_step_pos h b)]
    | lexeme x =>
      rw [reading, reading, Location.after_moved front h, ih (Location.line_after_pos h _)]
      cases x.verdict <;> rfl

theorem failed_ne_prepend (e : LexError) (ts : List Token) (l' : Location) :
    Reading.failed e ≠ .prepend ts (.eof l') := by
  cases ts <;> exact nofun

theorem exists_of_token_eq_prepend {t : Token} {r : Reading} {ts : List Token} {l' : Location}
    (h : Reading.token t r = .prepend ts (.eof l')) :
    ∃ us, ts = t :: us ∧ r = .prepend us (.eof l') := by
  cases ts with
  | nil => cases h
  | cons u us =>
    cases h
    exact ⟨us, rfl, rfl⟩

theorem reading_append {ts : List Token} {l' : Location}
    (h : reading l ps = .prepend ts (.eof l')) (qs : List Piece) :
    reading l (ps ++ qs) = .prepend ts (reading (l.after (text ps)) qs) := by
  induction ps generalizing l ts with
  | nil =>
    cases ts with
    | nil => rfl
    | cons t ts => cases h
  | cons p ps ih =>
    cases p with
    | blank b hb => exact ih h
    | lexeme x =>
      rw [reading] at h
      rw [List.cons_append, reading]
      cases hv : x.verdict with
      | error f =>
        rw [hv] at h
        exact absurd h (failed_ne_prepend _ _ _)
      | ok t =>
        rw [hv] at h
        obtain ⟨us, rfl, hus⟩ := exists_of_token_eq_prepend h
        have htext : text (.lexeme x :: ps) = x.bytes ++ text ps := rfl
        rw [htext, Location.after_append]
        exact congrArg (Reading.token _) (ih hus)

theorem verdict_of_last {x : Lexeme} {ts : List Token} {l' : Location}
    (h : reading l (ps ++ [.lexeme x]) = .prepend ts (.eof l')) :
    ∃ us t, ts = us ++ [t] ∧ x.verdict = .ok t.terminal := by
  induction ps generalizing l ts with
  | nil =>
    rw [List.nil_append, reading] at h
    cases hv : x.verdict with
    | error f =>
      rw [hv] at h
      exact absurd h (failed_ne_prepend _ _ _)
    | ok t =>
      rw [hv] at h
      obtain ⟨us, rfl, hus⟩ := exists_of_token_eq_prepend h
      cases us with
      | nil => exact ⟨[], _, rfl, rfl⟩
      | cons u us => cases hus
  | cons p ps ih =>
    cases p with
    | blank b hb => exact ih h
    | lexeme y =>
      rw [List.cons_append, reading] at h
      cases hv : y.verdict with
      | error f =>
        rw [hv] at h
        exact absurd h (failed_ne_prepend _ _ _)
      | ok t =>
        rw [hv] at h
        obtain ⟨us, rfl, hus⟩ := exists_of_token_eq_prepend h
        obtain ⟨vs, u, rfl, hx⟩ := ih hus
        exact ⟨_ :: vs, u, rfl, hx⟩

theorem text_ne_nil (p : Piece) (ps : List Piece) : text (p :: ps) ≠ [] := by
  intro h
  have hlength := length_le_text (p :: ps)
  rw [h] at hlength
  exact Nat.not_succ_le_zero _ hlength

theorem Apart.append (hp : Apart ps) (hq : Apart qs)
    (hlast : ∀ front x, ps = front ++ [.lexeme x] → x.EndsAt (text qs)) : Apart (ps ++ qs) := by
  induction ps with
  | nil => exact hq
  | cons p ps ih =>
    have hlater : ∀ front x, ps = front ++ [.lexeme x] → x.EndsAt (text qs) := by
      rintro front x rfl
      exact hlast (p :: front) x rfl
    cases p with
    | blank b hb => exact ih hp hlater
    | lexeme y =>
      refine ⟨?_, ih hp.2 hlater⟩
      cases ps with
      | nil => exact hlast [] y rfl
      | cons p ps =>
        have htext : text ((p :: ps) ++ qs) = text (p :: ps) ++ text qs := text_append _ _
        change y.EndsAt (text ((p :: ps) ++ qs))
        rw [htext, Lexeme.EndsAt, List.head?_append_of_ne_nil _ (text_ne_nil p ps)]
        exact hp.1

end Piece

theorem Point.closes_of_next? {p q : Point} {k : TokenKind} (h : p.next? k = some q)
    (hq : q.isEnd = true) : k = .semicolon ∨ k = .rightBrace := by
  rcases p with (_ | _) | (_ | _) | (_ | _) | (_ | _) | (_ | _) | (_ | _) | _ <;> cases k <;>
    cases h <;> first | exact Or.inl rfl | exact Or.inr rfl | cases hq

theorem Derivation.closes {d : Derivation} {us : List Token} {t : Token}
    (h : d.tokens = us ++ [t]) : t.kind = .semicolon ∨ t.kind = .rightBrace := by
  obtain ⟨q, hq, hend⟩ := Grammar.mem_module_iff.mp d.kinds_mem_module
  rw [h, List.map_append] at hq
  obtain ⟨p, -, hk⟩ := Point.exists_of_follow_append_singleton hq
  exact Point.closes_of_next? hk hend

theorem Lexeme.endsAt_of_closes {x : Lexeme} {t : Terminal} (hx : x.verdict = .ok t)
    (ht : t.kind = .semicolon ∨ t.kind = .rightBrace) (rest : Bytes) : x.EndsAt rest := by
  have hword : ¬ t.IsWord := by
    rcases ht with h | h <;> simp [Terminal.IsWord, h]
  have hnumber : ¬ t.IsNumber := by
    rcases ht with h | h <;> simp [Terminal.IsNumber, h]
  rcases (Lexeme.verdict_eq_ok_iff.mp hx).sort with h | h | ⟨b, hb, hdigit, hstart, -⟩
  · exact absurd h.1 hword
  · exact absurd h.1 hnumber
  · obtain ⟨rfl, -⟩ := List.cons.inj hb
    intro c _
    simp [Byte.joins, hdigit, hstart]

/-- Behind the tokens of a derivation a text is read as by itself, but for the places. -/
theorem reading_behind {a b : Bytes} {d : Derivation} {l : Location}
    (ha : Reading.ofSource a = .prepend d.tokens (.eof l)) :
    Reading.ofSource (a ++ b) =
      .prepend d.tokens ((Reading.ofSource b).relocate (.moved a)) := by
  obtain ⟨ps, rfl, hps⟩ := Piece.exists_pieces a
  obtain ⟨qs, rfl, hqs⟩ := Piece.exists_pieces b
  rw [reading_of_pieces hps] at ha
  have hapart : Piece.Apart (ps ++ qs) := by
    refine hps.append hqs ?_
    rintro front x rfl
    obtain ⟨us, t, hts, hx⟩ := Piece.verdict_of_last ha
    exact Lexeme.endsAt_of_closes hx (Derivation.closes hts) _
  rw [← Piece.text_append, reading_of_pieces hapart, reading_of_pieces hqs,
    Piece.reading_append ha, ← Location.start_moved, Piece.reading_moved _ (by decide)]

theorem exists_relocated (name : String) (f : Location → Location) {d : Derivation}
    (hd : d.Typed) : ∃ e : Derivation, e.tokens = d.tokens.map (Token.relocate f) ∧ e.Typed ∧
      e.module name = (d.module name).relocate f := by
  obtain ⟨e, he⟩ : ∃ e : Derivation, e.tokens = d.tokens.map (Token.relocate f) := by
    refine (Derivation.spells _).mp ?_
    rw [List.map_map]
    exact d.kinds_mem_module
  have hrun := ParseState.run_initial_relocate f name (.prepend d.tokens (.eof .start))
  rw [Reading.relocate_prepend, ← he, run_of_typed name _ hd] at hrun
  have htyped : e.Typed := typed_of_run hrun
  refine ⟨e, he, htyped, ?_⟩
  exact Except.ok.inj ((run_of_typed name _ htyped).symm.trans hrun)

def Signature.name : Signature → String
  | .var v => v.1
  | .proc p => p.1

theorem Visible.mono {hidden hidden' : Set String} {type : String}
    (h : ∀ t : TypeName, t.text ∈ hidden' → t.text ∈ hidden) (hv : Visible hidden type) :
    Visible hidden' type := by
  obtain ⟨⟨t, rfl⟩, hn⟩ := hv
  exact ⟨⟨t, rfl⟩, mt (h t) hn⟩

theorem insert_mono {hidden hidden' : Set String} {x : String}
    (h : ∀ t : TypeName, t.text ∈ hidden' → t.text ∈ hidden) :
    ∀ t : TypeName, t.text ∈ insert x hidden' → t.text ∈ insert x hidden :=
  fun t ht => ht.imp_right (h t)

theorem VarsVisible.mono {hidden hidden' : Set String} {vs : List (String × String)}
    (h : ∀ t : TypeName, t.text ∈ hidden' → t.text ∈ hidden) (hv : VarsVisible hidden vs) :
    VarsVisible hidden' vs := by
  induction vs generalizing hidden hidden' with
  | nil => trivial
  | cons v vs ih => exact ⟨hv.1.mono (insert_mono h), ih (insert_mono h) hv.2⟩

theorem AllVisible.mono {hidden hidden' : Set String} {ss : List Signature}
    (h : ∀ t : TypeName, t.text ∈ hidden' → t.text ∈ hidden) (hs : AllVisible hidden ss) :
    AllVisible hidden' ss := by
  induction ss generalizing hidden hidden' with
  | nil => trivial
  | cons s ss ih =>
    cases s with
    | var v => exact ⟨hs.1.mono (insert_mono h), ih (insert_mono h) hs.2⟩
    | proc p =>
      obtain ⟨hreturn, hlocals, hrest⟩ := hs
      exact ⟨hreturn.mono (insert_mono h), hlocals.mono (insert_mono h),
        ih (insert_mono h) hrest⟩

theorem insert_union_names (hidden : Set String) (s : Signature) (ss : List Signature) :
    hidden ∪ {x | ∃ u ∈ s :: ss, u.name = x} =
      insert s.name hidden ∪ {x | ∃ u ∈ ss, u.name = x} := by
  ext x
  simp only [Set.mem_union, Set.mem_ofPred_eq, Set.mem_insert_iff, List.exists_mem_cons_iff]
  tauto

theorem AllVisible.append {hidden : Set String} {ss ts : List Signature}
    (hs : AllVisible hidden ss) (ht : AllVisible (hidden ∪ {x | ∃ s ∈ ss, s.name = x}) ts) :
    AllVisible hidden (ss ++ ts) := by
  induction ss generalizing hidden with
  | nil => simpa using ht
  | cons s ss ih =>
    rw [insert_union_names] at ht
    cases s with
    | var v => exact ⟨hs.1, ih hs.2 ht⟩
    | proc p => exact ⟨hs.1, hs.2.1, ih hs.2.2 ht⟩

theorem Derivation.Typed.exists_named {d : Derivation} (hd : d.Typed) (name : String)
    {s : Signature} (hs : s ∈ d.flatMap Item.signatures) :
    (∃ v ∈ (d.module name).vars, v.name = s.name) ∨
      ∃ p ∈ (d.module name).procs, p.name = s.name := by
  obtain ⟨hvars, hprocs⟩ := hd.signatures name
  obtain ⟨i, hi, hs⟩ := List.mem_flatMap.mp hs
  cases i with
  | varDecl v =>
    obtain ⟨p, hp, rfl⟩ := List.mem_map.mp hs
    obtain ⟨g, hg, rfl⟩ := List.mem_map.mp hp
    have hmem : g.signature ∈ (d.module name).vars.map Var.signature := by
      rw [hvars]
      exact List.mem_map_of_mem (List.mem_flatMap.mpr ⟨_, hi, hg⟩)
    obtain ⟨w, hw, hsig⟩ := List.mem_map.mp hmem
    exact Or.inl ⟨w, hw, congrArg Prod.fst hsig⟩
  | procDecl p =>
    obtain rfl := List.mem_singleton.mp hs
    have hmem : p.signature ∈ (d.module name).procs.map Proc.signature := by
      rw [hprocs]
      exact List.mem_map_of_mem (List.mem_flatMap.mpr ⟨_, hi, List.mem_cons_self⟩)
    obtain ⟨q, hq, hsig⟩ := List.mem_map.mp hmem
    exact Or.inr ⟨q, hq, congrArg Prod.fst hsig⟩
  | exportsDecl e => cases hs

/-- No variable and no procedure of the module is named as a type. -/
def Module.HidesNoType (m : Module) : Prop :=
  (∀ v ∈ m.vars, v.name ∉ ["void", "int", "float", "char"]) ∧
    ∀ p ∈ m.procs, p.name ∉ ["void", "int", "float", "char"]

instance (m : Module) : Decidable m.HidesNoType := inferInstanceAs (Decidable (_ ∧ _))

theorem Derivation.Typed.append {d e : Derivation} {name : String} (hd : d.Typed) (he : e.Typed)
    (h : (d.module name).HidesNoType) : (d ++ e).Typed := by
  rw [typed_iff_signatures] at he ⊢
  rw [List.flatMap_append]
  refine AllVisible.append (d.typed_iff_signatures.mp hd) (he.mono ?_)
  rintro t (ht | ⟨s, hs, hname⟩)
  · exact ht
  · have htype : s.name ∈ ["void", "int", "float", "char"] :=
      TypeName.exists_text_eq_iff.mp ⟨t, hname.symm⟩
    rcases hd.exists_named name hs with ⟨v, hv, hvn⟩ | ⟨p, hp, hpn⟩
    · exact absurd (hvn ▸ htype) (h.1 v hv)
    · exact absurd (hpn ▸ htype) (h.2 p hp)

theorem Derivation.size_eq (name : String) (d : Derivation) :
    d.size = (d.module name).parts.length := by
  have hids := congrArg List.length (d.map_id_parts 0)
  rw [List.length_map, List.length_range'] at hids
  rw [← hids, (d.parts_perm name).length_eq]

theorem exists_typed {name : String} {source : Bytes} {m : Module}
    (h : (Module.parse name source).value = .ok m) :
    ∃ d l, Reading.ofSource source = .prepend (Derivation.tokens d) (.eof l) ∧ d.Typed ∧
      m = d.module name := by
  obtain ⟨d, l, hread, hd⟩ := derivation_of_parse h
  exact ⟨d, l, hread, hd, module_eq hread h⟩

/-- The text of one source behind that of another has the trees of both, provided that the first one
hides no type from the second. The second tree has its places moved and its numbers raised. -/
theorem parse_concatenation {name : String} {a b : Bytes} {m m' : Module}
    (ha : (Module.parse name a).value = .ok m) (hb : (Module.parse name b).value = .ok m')
    (h : m.HidesNoType) :
    let moved := (m'.relocate (.moved a)).recast (.raise m.parts.length)
    (Module.parse name (a ++ b)).value = .ok
      ⟨name, m.vars ++ moved.vars, m.procs ++ moved.procs, m.exports ++ m'.exports, .start⟩ := by
  obtain ⟨d, l, hread, hd, rfl⟩ := exists_typed ha
  obtain ⟨e, l', hread', he, rfl⟩ := exists_typed hb
  obtain ⟨e', htokens, he', hmodule⟩ := exists_relocated name (.moved a) he
  have hboth : Reading.ofSource (a ++ b) = .prepend (d ++ e').tokens (.eof (l'.moved a)) := by
    rw [reading_behind hread, hread', Reading.relocate_prepend, ← htokens,
      ← Reading.prepend_append, tokens, tokens, tokens, List.flatMap_append]
    rfl
  have hexports : e'.flatMap Item.exports = (e.module name).exports :=
    congrArg Module.exports hmodule
  rw [parse_of_typed name hboth (hd.append he' h), ← hmodule, ← d.size_eq name, ← hexports]
  simp only [module, collect_append, Nat.zero_add, List.flatMap_append, Module.recast]
  rw [← collect_add _ _ (Item.vars_add d.size), ← collect_add _ _ (Item.procs_add d.size),
    Nat.zero_add]

/-- The second text begins in the middle of a line of the first one. -/
theorem concatenation_within_line :
    let a := utf8 "proc f(): int \x7b x = 1; \x7d\nvar x: char;"
    let b := utf8 "proc g(): int var int: float;\n\x7b f = x; \x7d exports g;"
    let m : Module :=
      { name := "m"
        vars := [⟨5, "x", .char, ⟨2, 5⟩⟩]
        procs := [⟨0, "f", [], [], .int,
          ⟨1, [⟨2, .ref 3 "x" ⟨1, 17⟩, .const 4 1 ⟨1, 21⟩, ⟨1, 17⟩⟩], ⟨1, 15⟩⟩, ⟨1, 1⟩⟩]
        exports := []
        location := .start }
    let m' : Module :=
      { name := "m"
        vars := []
        procs := [⟨0, "g", [], [⟨1, "int", .float, ⟨1, 19⟩⟩], .int,
          ⟨2, [⟨3, .ref 4 "f" ⟨2, 3⟩, .ref 5 "x" ⟨2, 7⟩, ⟨2, 3⟩⟩], ⟨2, 1⟩⟩, ⟨1, 1⟩⟩]
        exports := ["g"]
        location := .start }
    (Module.parse "m" a).value = .ok m ∧ (Module.parse "m" b).value = .ok m' ∧
      m.HidesNoType ∧ (Module.parse "m" (a ++ b)).value = .ok
        { name := "m"
          vars := m.vars
          procs := m.procs ++ [⟨6, "g", [], [⟨7, "int", .float, ⟨2, 31⟩⟩], .int,
            ⟨8, [⟨9, .ref 10 "f" ⟨3, 3⟩, .ref 11 "x" ⟨3, 7⟩, ⟨3, 3⟩⟩], ⟨3, 1⟩⟩, ⟨2, 13⟩⟩]
          exports := ["g"]
          location := .start } := by
  intro a b m m'
  have ha : (Module.parse "m" a).value = .ok m := by
    rw [Module.parse_value]
    decide +kernel
  have hb : (Module.parse "m" b).value = .ok m' := by
    rw [Module.parse_value]
    decide +kernel
  have h : m.HidesNoType := by decide
  exact ⟨ha, hb, h, parse_concatenation ha hb h⟩

end ProcLang
