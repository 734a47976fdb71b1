import Mathlib.Data.Nat.Digits.Defs
import ProcLang.Proofs.Line
import ProcLang.Proofs.Resumption

/-! # Literals

A number has the value that its digits have by their places, however many there are and however many
zeros come first. Either this is the value that is read, or it is too great and nothing is. -/
namespace ProcLang

open Lexicon ProcLang.Derivation

namespace Byte

def value (digits : Bytes) : ℕ := Nat.ofDigits 10 (digits.reverse.map fun b => b.toNat - 48)

theorem value_append_singleton (w : Bytes) (d : UInt8) :
    value (w ++ [d]) = 10 * value w + (d.toNat - 48) := by
  rw [value, List.reverse_append, List.reverse_singleton, List.singleton_append, List.map_cons,
    Nat.ofDigits_cons, Nat.add_comm]
  rfl

theorem decimal_eq_value (digits : Bytes) : decimal digits = value digits := by
  induction digits using List.reverseRecOn with
  | nil => rfl
  | append_singleton w d ih => rw [decimal_append_singleton, value_append_singleton, ih]

end Byte

namespace Scanner

variable {source : Bytes} {i : ℕ}

theorem answer_of_number {digits : Bytes}
    (hd : slice source ((ofSource source).spanOf i) = digits) (h : digits ∈ number) :
    (ofSource source).answer i = if Byte.value digits ≤ maxLiteral then
        .token ⟨.intLiteral (Byte.value digits),
          .behind (source.take ((ofSource source).spanOf i).1)⟩
      else .failed ⟨"integer literal out of range: " ++ Byte.text digits,
        .behind (source.take ((ofSource source).spanOf i).1)⟩ := by
  obtain ⟨front, gap, lexeme, rest, -, ht⟩ := exists_taken source i
  have hdigits : lexeme = digits := ht.slice_eq.symm.trans hd
  have htake : source.take (front ++ gap).length = front ++ gap := by
    rw [ht.text_eq, List.append_assoc, List.take_left]
  have hl : Location.behind (source.take ((ofSource source).spanOf i).1) =
      Location.start.after (front ++ gap) := by
    simp only [ht.spanOf_eq, htake, Location.start_after]
  rcases ht.stated with ⟨hnil, -, -⟩ | ⟨x, hx, -, ha⟩
  · exact absurd (hnil ▸ hdigits.symm ▸ h) empty_notMem_number
  · have hbytes : x.bytes = digits := hx.symm.trans hdigits
    rw [ha, hl, Lexeme.answer_eq, Lexeme.verdict_of_number (hbytes ▸ h), hbytes,
      Byte.decimal_eq_value]
    by_cases hmax : Byte.value digits ≤ maxLiteral
    · rw [if_pos hmax, if_pos hmax]
    · rw [if_neg hmax, if_neg hmax]
      rfl

theorem cursor_after (source : Bytes) (i : ℕ) :
    let stop := ((ofSource source).spanOf i).1 + (slice source ((ofSource source).spanOf i)).length
    ((ofSource source).after (i + 1)).position = stop ∧
      ((ofSource source).after (i + 1)).rest = source.drop stop ∧
      ((ofSource source).after (i + 1)).location = .behind (source.take stop) := by
  intro stop
  obtain ⟨front, gap, lexeme, rest, -, ht⟩ := exists_taken source i
  have hstop : stop = (front ++ gap ++ lexeme).length := by
    rw [List.length_append, ← ht.slice_eq]
    simp only [stop, ht.spanOf_eq]
  have htext := ht.passed.text_eq
  refine ⟨ht.passed.position_eq.trans hstop.symm, ?_, ?_⟩
  · rw [hstop]
    conv_rhs => rw [htext, List.drop_left]
  · rw [ht.passed.location_eq, Location.start_after, hstop]
    conv_rhs => rw [htext, List.take_left]

theorem tokenize_printed {n : ℕ} (h : n ≤ maxLiteral) :
    (ofSource (utf8 (toString n))).tokenize.1 =
      .ok ([⟨.intLiteral n, .start⟩], .behind (utf8 (toString n))) := by
  let i : Inscription :=
    ⟨.intLiteral n, utf8 (toString n), [], .intLiteral 0 (Nat.lt_succ_of_le h),
      List.forall_mem_nil _⟩
  have htext : utf8 (toString n) = [] ++ [i].flatMap Inscription.bytes := by
    simp [i, Inscription.bytes]
  rw [tokenize, Reading.tokens_eq_ok_iff, htext]
  exact read_of_inscriptions (List.isChain_singleton i) (.ofSource _) [] []
    (List.forall_mem_nil _) rfl rfl

end Scanner

theorem Module.statement_of_expr {m : Module} {e : Expr} (h : Part.expr e ∈ m.parts) :
    ∃ p ∈ m.procs, ∃ a ∈ p.body.statements, e = a.lhs ∨ e = a.rhs := by
  simpa [parts, stored, Member.parts, Proc.parts, Block.parts, Assignment.parts] using h

theorem Derivation.token_of_expr {name : String} {d : Derivation} {e : Expr}
    (h : Part.expr e ∈ (d.module name).parts) : e.operand.token ∈ d.tokens := by
  obtain ⟨p, hp, a, ha, he⟩ := Module.statement_of_expr h
  obtain ⟨item, hitem, id, hp⟩ := mem_collect hp
  cases item with
  | procDecl pd =>
    obtain rfl := List.mem_singleton.mp hp
    obtain ⟨s, hs, hl, hr⟩ := mem_assignments ha
    have hstatement : e.operand.token ∈ s.tokens := by
      rcases he with rfl | rfl
      · simp [hl, Statement.tokens]
      · simp [hr, Statement.tokens]
    have hblock : e.operand.token ∈ pd.statements.flatMap Statement.tokens :=
      List.mem_flatMap.mpr ⟨s, hs, hstatement⟩
    refine List.mem_flatMap.mpr ⟨.procDecl pd, hitem, ?_⟩
    simp [Item.tokens, ProcDecl.tokens, ProcDecl.block, hblock]
  | _ => cases hp

theorem exists_answer_of_expr {name : String} {source : Bytes} {m : Module}
    (h : (Module.parse name source).value = .ok m) {e : Expr} (he : Part.expr e ∈ m.parts) :
    ∃ i, (Scanner.ofSource source).answer i = .token e.operand.token := by
  obtain ⟨d, l, hsource, rfl⟩ := exists_derivation h
  exact exists_answer_of_reading hsource (Derivation.token_of_expr he)

theorem Module.line_of_expr {m : Module} {e : Expr} (h : Part.expr e ∈ m.parts) :
    ∃ depth, ⟨depth, e.text⟩ ∈ m.lines 0 := by
  obtain ⟨p, hp, a, ha, he⟩ := statement_of_expr h
  have hstatement : ⟨3, e.text⟩ ∈ a.lines 2 := by
    rcases he with rfl | rfl <;> simp [Assignment.lines]
  have hproc : ⟨3, e.text⟩ ∈ p.lines 0 := by
    have hblock : ⟨3, e.text⟩ ∈ p.body.lines 1 :=
      List.mem_cons_of_mem _ (List.mem_flatMap.mpr ⟨a, ha, hstatement⟩)
    simp [Proc.lines, hblock]
  have hprocs : ⟨3, e.text⟩ ∈ m.procs.flatMap (Proc.lines 0) := List.mem_flatMap.mpr ⟨p, hp, hproc⟩
  exact ⟨3, by simp [Module.lines, hprocs]⟩

theorem Module.infix_of_line {m : Module} {x : Line} (h : x ∈ m.lines 0) :
    utf8 x.text <:+: utf8 m.listing := by
  have hrow : x.row ++ [10] <:+: utf8 m.listing := by
    rw [m.utf8_listing, unlines, List.flatMap_map]
    exact List.infix_of_mem_flatten (List.mem_map_of_mem h)
  have htext : utf8 x.text <:+: x.row ++ [10] := ⟨_, _, rfl⟩
  exact htext.trans hrow

/-- A number stands for its value if this is less than `2 ^ 63`, and otherwise for an error that
tells all its digits; either way the cursor is then behind them. So the constants of a tree have the
values that are written where they stand, and what a listing shows of a constant is read as it. -/
theorem literals_have_written_value (source : Bytes) :
    let s := Scanner.ofSource source
    let lexeme i := slice source (s.spanOf i)
    let place i := Location.behind (source.take (s.spanOf i).1)
    (∀ i, lexeme i ∈ number →
      let stop := (s.spanOf i).1 + (lexeme i).length
      (s.answer i = .token ⟨.intLiteral (Byte.value (lexeme i)), place i⟩ ↔
        Byte.value (lexeme i) ≤ 2 ^ 63 - 1) ∧
      (¬ Byte.value (lexeme i) ≤ 2 ^ 63 - 1 → ∃ digits, utf8 digits = lexeme i ∧
        s.answer i = .failed ⟨"integer literal out of range: " ++ digits, place i⟩) ∧
      (s.after (i + 1)).position = stop ∧ (s.after (i + 1)).rest = source.drop stop ∧
      (s.after (i + 1)).location = .behind (source.take stop)) ∧
    ∀ name m, (Module.parse name source).value = .ok m →
      ∀ id (v : ℤ) l, Part.expr (.const id v l) ∈ m.parts →
        (0 ≤ v ∧ v ≤ 2 ^ 63 - 1) ∧
        (∃ i, lexeme i ∈ number ∧ v = Byte.value (lexeme i) ∧ l = place i) ∧
        utf8 ("(int const [" ++ toString v ++ "])") <:+: utf8 m.listing ∧
        (Scanner.ofSource (utf8 (toString v))).tokenize.1 =
          .ok ([⟨.intLiteral v, .start⟩], .behind (utf8 (toString v))) := by
  intro s lexeme place
  constructor
  · intro i h stop
    have hanswer := @Scanner.answer_of_number source i (lexeme i) rfl h
    refine ⟨?_, ?_, Scanner.cursor_after source i⟩
    · by_cases hmax : Byte.value (lexeme i) ≤ maxLiteral
      · rw [if_pos hmax] at hanswer
        exact iff_of_true hanswer hmax
      · rw [if_neg hmax] at hanswer
        refine iff_of_false ?_ hmax
        rw [hanswer]
        exact nofun
    · intro hmax
      rw [if_neg (show ¬ Byte.value (lexeme i) ≤ maxLiteral from hmax)] at hanswer
      exact ⟨_, Byte.utf8_text (toNat_lt_of_mem_number h), hanswer⟩
  · intro name m hparse id v l hconst
    obtain ⟨i, hanswer⟩ := exists_answer_of_expr hparse hconst
    have hspelled : (Terminal.intLiteral v).Spelled (lexeme i) :=
      Scanner.token_iff_spelled.mp ⟨l, hanswer⟩
    obtain ⟨hnumber, hmax, rfl⟩ := Terminal.spelled_intLiteral_iff.mp hspelled
    have hplace : l = place i := by
      have hl := (Scanner.Within.ofSource source).location_answer i
      rwa [hanswer] at hl
    refine ⟨⟨Int.natCast_nonneg _, ?_⟩, ⟨i, hnumber, ?_, hplace⟩, ?_, ?_⟩
    · have hlimit : (maxLiteral : ℤ) = 2 ^ 63 - 1 := by decide
      rw [← hlimit]
      exact Int.ofNat_le.mpr hmax
    · rw [Byte.decimal_eq_value]
    · obtain ⟨depth, hline⟩ := Module.line_of_expr hconst
      exact Module.infix_of_line hline
    · exact Scanner.tokenize_printed hmax

/-- The greatest value, with zeros in front, and the one above it. -/
theorem literals_around_limit :
    let s := Scanner.ofSource (utf8 "9223372036854775808")
    let source := utf8 "proc f(): int \x7b x = 0009223372036854775807; \x7d"
    let m : Module := ⟨"m", [], [⟨0, "f", [], [], .int, ⟨1, [⟨2, .ref 3 "x" ⟨1, 17⟩,
      .const 4 9223372036854775807 ⟨1, 21⟩, ⟨1, 17⟩⟩], ⟨1, 15⟩⟩, ⟨1, 1⟩⟩], [], .start⟩
    (s.answer 0 ≠ .token ⟨.intLiteral 9223372036854775808, ⟨1, 1⟩⟩ ∧
      ∃ digits, utf8 digits = utf8 "9223372036854775808" ∧
        s.answer 0 = .failed ⟨"integer literal out of range: " ++ digits, ⟨1, 1⟩⟩) ∧
    (Module.parse "m" source).value = .ok m ∧
      utf8 "(int const [9223372036854775807])" <:+: utf8 m.listing := by
  intro s source m
  have hparse : (Module.parse "m" source).value = .ok m := by
    rw [Module.parse_value]
    decide +kernel
  have hnumber : slice (utf8 "9223372036854775808") (s.spanOf 0) ∈ number := by
    rw [mem_number]
    decide +kernel
  have hvalue : ¬ Byte.value (slice (utf8 "9223372036854775808") (s.spanOf 0)) ≤ 2 ^ 63 - 1 := by
    decide +kernel
  obtain ⟨htoken, hfailed, -⟩ := (literals_have_written_value _).1 0 hnumber
  have hconst : Part.expr (.const 4 9223372036854775807 ⟨1, 21⟩) ∈ m.parts := by decide
  obtain ⟨-, -, hshown, -⟩ := (literals_have_written_value source).2 "m" m hparse _ _ _ hconst
  exact ⟨⟨fun h => hvalue (htoken.mp h), hfailed hvalue⟩, hparse, hshown⟩

end ProcLang
