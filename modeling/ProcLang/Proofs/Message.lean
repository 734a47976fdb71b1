import ProcLang.Proofs.Legibility
import ProcLang.Proofs.Pace

/-! # Messages

The message of an error tells the error. It begins with its sort and its place. A list of kinds can
be read from the front, since the first two bytes of what is named tell which kind it is, or that it
is none. -/
namespace ProcLang

open Lexicon

theorem Byte.printed_append_inj {m n : ℕ} {rest rest' : Bytes}
    (hrest : ∀ b ∈ rest.head?, isDigit b = false) (hrest' : ∀ b ∈ rest'.head?, isDigit b = false)
    (h : utf8 (toString m) ++ rest = utf8 (toString n) ++ rest') : m = n ∧ rest = rest' := by
  obtain ⟨hprinted, hbehind⟩ := append_inj_of_stop (fun _ => mem_printed) hrest
    (fun _ => mem_printed) hrest' h
  refine ⟨?_, hbehind⟩
  rw [← (printed m).2, hprinted, (printed n).2]

theorem Location.describe_append_inj {l l' : Location} {rest rest' : Bytes}
    (hrest : ∀ b ∈ rest.head?, Byte.isDigit b = false)
    (hrest' : ∀ b ∈ rest'.head?, Byte.isDigit b = false)
    (h : utf8 l.describe ++ rest = utf8 l'.describe ++ rest') : l = l' ∧ rest = rest' := by
  have hcomma (rest : Bytes) : ∀ b ∈ (utf8 ", column " ++ rest).head?, Byte.isDigit b = false := by
    rintro b ⟨⟩
    rfl
  simp only [describe, utf8_append, List.append_assoc] at h
  obtain ⟨hline, h⟩ := Byte.printed_append_inj (hcomma _) (hcomma _) (List.append_cancel_left h)
  obtain ⟨hcolumn, hbehind⟩ := Byte.printed_append_inj hrest hrest' (List.append_cancel_left h)
  obtain ⟨line, column⟩ := l
  exact ⟨by rw [show line = l'.line from hline, show column = l'.column from hcolumn], hbehind⟩

namespace TokenKind

def all : List TokenKind :=
  [.intLiteral, .identifier, .exports, .proc, .var, .leftParen, .rightParen, .leftBrace,
    .rightBrace, .colon, .semicolon, .equals, .eof]

theorem mem_all (k : TokenKind) : k ∈ all := by cases k <;> decide

variable {k k' : TokenKind} {rest rest' : Bytes}

theorem opening_injective (h : opening k.describe = opening k'.describe) : k = k' := by
  have hdistinct : (all.map fun k => opening k.describe).Nodup := by decide
  exact List.inj_on_of_nodup_map hdistinct k.mem_all k'.mem_all h

theorem take_two (k : TokenKind) (rest : Bytes) :
    (utf8 k.describe ++ rest).take 2 = opening k.describe := by
  cases k <;> rfl

theorem describe_injective (h : utf8 k.describe = utf8 k'.describe) : k = k' :=
  opening_injective (congrArg (List.take 2) h)

theorem describe_append_inj (h : utf8 k.describe ++ rest = utf8 k'.describe ++ rest') :
    k = k' ∧ rest = rest' := by
  have hopening := congrArg (List.take 2) h
  rw [take_two, take_two] at hopening
  obtain rfl := opening_injective hopening
  exact ⟨rfl, List.append_cancel_left h⟩

theorem describe_append_ne {x : String} (hlength : 2 ≤ (utf8 x).length)
    (hx : opening x ∉ all.map (opening ·.describe)) :
    utf8 k.describe ++ rest ≠ utf8 x ++ rest' := by
  intro h
  have hopening : opening k.describe = opening x := by
    rw [← take_two k rest, h, List.take_append_of_le_length hlength]
    rfl
  exact hx (hopening ▸ List.mem_map_of_mem k.mem_all)

end TokenKind

namespace ParseError

def further : List TokenKind → String
  | [] => ""
  | [last] => " or " ++ last.describe
  | next :: other :: kinds => ", " ++ choices (next :: other :: kinds)

theorem choices_cons (k : TokenKind) (ks : List TokenKind) :
    choices (k :: ks) = k.describe ++ further ks := by
  match ks with
  | [] => exact String.append_empty.symm
  | [last] => exact String.append_assoc
  | _ :: _ :: _ => exact String.append_assoc

/-- What a message says behind the place. -/
def listed (kinds : List TokenKind) (found : TokenKind) : Bytes :=
  utf8 (choices kinds) ++ (utf8 ", found " ++ utf8 found.describe)

/-- What a message says behind the first of the kinds. -/
def remaining (kinds : List TokenKind) (found : TokenKind) : Bytes :=
  utf8 (further kinds) ++ (utf8 ", found " ++ utf8 found.describe)

section

variable {ks ks' : List TokenKind} {k a b found found' : TokenKind}

theorem listed_cons : listed (k :: ks) found = utf8 k.describe ++ remaining ks found := by
  rw [listed, choices_cons, utf8_append, List.append_assoc, remaining]

theorem remaining_nil : remaining [] found = utf8 ", " ++ (utf8 "found " ++ utf8 found.describe) :=
  rfl

theorem remaining_singleton : remaining [k] found =
    utf8 " or " ++ (utf8 k.describe ++ (utf8 ", found " ++ utf8 found.describe)) := by
  rw [remaining, further, utf8_append, List.append_assoc]

theorem remaining_cons_cons :
    remaining (a :: b :: ks) found = utf8 ", " ++ listed (a :: b :: ks) found := by
  rw [remaining, further, utf8_append, List.append_assoc, listed]

theorem listed_cons_ne {x : String} (hlength : 2 ≤ (utf8 x).length)
    (hx : opening x ∉ TokenKind.all.map (opening ·.describe)) (rest : Bytes) :
    listed (k :: ks) found ≠ utf8 x ++ rest := by
  rw [listed_cons]
  exact TokenKind.describe_append_ne hlength hx

theorem remaining_nil_ne : remaining [] found ≠ remaining (a :: b :: ks) found' := by
  rw [remaining_nil, remaining_cons_cons]
  intro h
  exact listed_cons_ne (by decide) (by decide) _ (List.append_cancel_left h).symm

theorem remaining_singleton_ne (h : ks.length ≠ 1) :
    remaining [k] found ≠ remaining ks found' := by
  rw [remaining_singleton]
  match ks with
  | [] => exact nofun
  | [_] => exact absurd rfl h
  | _ :: _ :: _ =>
    rw [remaining_cons_cons]
    exact nofun

/-- The kinds are told from the front: behind one of them the list ends, or there is the last one,
or there are several more. -/
theorem listed_tells (h : listed ks found = listed ks' found') : ks = ks' ∧ found = found' := by
  induction ks generalizing ks' with
  | nil =>
    cases ks' with
    | nil =>
      have hfound := List.append_cancel_left (List.append_cancel_left h)
      exact ⟨rfl, TokenKind.describe_injective hfound⟩
    | cons k' ks' => exact absurd h.symm (listed_cons_ne (by decide) (by decide) _)
  | cons k ks ih =>
    cases ks' with
    | nil => exact absurd h (listed_cons_ne (by decide) (by decide) _)
    | cons k' ks' =>
      rw [listed_cons, listed_cons] at h
      obtain ⟨rfl, hrest⟩ := TokenKind.describe_append_inj h
      rcases ks with _ | ⟨a, _ | ⟨b, ks⟩⟩ <;> rcases ks' with _ | ⟨a', _ | ⟨b', ks'⟩⟩
      · have hfound := List.append_cancel_left (List.append_cancel_left hrest)
        exact ⟨rfl, TokenKind.describe_injective hfound⟩
      · exact absurd hrest.symm (remaining_singleton_ne (by simp))
      · exact absurd hrest remaining_nil_ne
      · exact absurd hrest (remaining_singleton_ne (by simp))
      · rw [remaining_singleton, remaining_singleton] at hrest
        obtain ⟨rfl, hfound⟩ := TokenKind.describe_append_inj (List.append_cancel_left hrest)
        exact ⟨rfl, TokenKind.describe_injective (List.append_cancel_left hfound)⟩
      · exact absurd hrest (remaining_singleton_ne (by simp))
      · exact absurd hrest.symm remaining_nil_ne
      · exact absurd hrest.symm (remaining_singleton_ne (by simp))
      · rw [remaining_cons_cons, remaining_cons_cons] at hrest
        obtain ⟨hks, hfound⟩ := ih (List.append_cancel_left hrest)
        exact ⟨congrArg (List.cons k) hks, hfound⟩

end

theorem utf8_describe_lexical (e : LexError) : utf8 (lexical e).describe =
    utf8 "lexical error at " ++ (utf8 e.location.describe ++ (utf8 ": " ++ utf8 e.message)) := by
  unfold describe LexError.describe
  simp only [utf8_append, List.append_assoc]

theorem utf8_describe_unexpected (expected : List TokenKind) (found : TokenKind) (l : Location) :
    utf8 (unexpected expected found l).describe =
      utf8 "syntax error at " ++
        (utf8 l.describe ++ (utf8 ": expected " ++ listed expected found)) := by
  unfold describe listed
  simp only [utf8_append, List.append_assoc]

theorem utf8_describe_semantic (name message : String) (l : Location) :
    utf8 (semantic name message l).describe =
      utf8 "semantic error at " ++ (utf8 l.describe ++ (utf8 ": " ++ utf8 message)) := by
  unfold describe
  simp only [utf8_append, List.append_assoc]

theorem opening_lexical (e : LexError) : opening (lexical e).describe = [108, 101] := by
  rw [opening, utf8_describe_lexical]
  rfl

theorem opening_unexpected (expected : List TokenKind) (found : TokenKind) (l : Location) :
    opening (unexpected expected found l).describe = [115, 121] := by
  rw [opening, utf8_describe_unexpected]
  rfl

theorem opening_semantic (name message : String) (l : Location) :
    opening (semantic name message l).describe = [115, 101] := by
  rw [opening, utf8_describe_semantic]
  rfl

theorem located_inj {sort : String} {l l' : Location} {rest rest' : Bytes}
    (hrest : rest.head? = some 58) (hrest' : rest'.head? = some 58)
    (h : utf8 sort ++ (utf8 l.describe ++ rest) = utf8 sort ++ (utf8 l'.describe ++ rest')) :
    l = l' ∧ rest = rest' := by
  have hcolon {rest : Bytes} (h : rest.head? = some 58) :
      ∀ b ∈ rest.head?, Byte.isDigit b = false := by
    rw [h]
    rintro b ⟨⟩
    rfl
  exact Location.describe_append_inj (hcolon hrest) (hcolon hrest') (List.append_cancel_left h)

theorem lexical_tells {e e' : LexError} (h : (lexical e).describe = (lexical e').describe) :
    e = e' := by
  have h := congrArg utf8 h
  rw [utf8_describe_lexical, utf8_describe_lexical] at h
  obtain ⟨hplace, hmessage⟩ := located_inj rfl rfl h
  obtain ⟨message, location⟩ := e
  rw [show location = e'.location from hplace,
    show message = e'.message from utf8_injective (List.append_cancel_left hmessage)]

theorem unexpected_tells {expected expected' : List TokenKind} {found found' : TokenKind}
    {l l' : Location}
    (h : (unexpected expected found l).describe = (unexpected expected' found' l').describe) :
    expected = expected' ∧ found = found' ∧ l = l' := by
  have h := congrArg utf8 h
  rw [utf8_describe_unexpected, utf8_describe_unexpected] at h
  obtain ⟨hplace, hlisted⟩ := located_inj rfl rfl h
  obtain ⟨hexpected, hfound⟩ := listed_tells (List.append_cancel_left hlisted)
  exact ⟨hexpected, hfound, hplace⟩

theorem semantic_tells {name name' message message' : String} {l l' : Location}
    (h : (semantic name message l).describe = (semantic name' message' l').describe) :
    message = message' ∧ l = l' := by
  have h := congrArg utf8 h
  rw [utf8_describe_semantic, utf8_describe_semantic] at h
  obtain ⟨hplace, hmessage⟩ := located_inj rfl rfl h
  exact ⟨utf8_injective (List.append_cancel_left hmessage), hplace⟩

end ParseError

theorem TypeFault.message_tells {x y : String} {fault fault' : TypeFault}
    (h : fault.message x = fault'.message y) : x = y := by
  have h := congrArg utf8 h
  cases fault <;> cases fault' <;> simp only [message, utf8_append, List.append_assoc] at h
  · exact utf8_injective (List.append_cancel_right (List.append_cancel_left h))
  · cases h
  · cases h
  · exact utf8_injective (List.append_cancel_right (List.append_cancel_left h))

namespace ParseError

/-- A parse can come to it, or it is made of any kinds and any place. -/
inductive Reported : ParseError → Prop where
  | parsed {name : String} {source : Bytes} {e : ParseError}
      (h : (Module.parse name source).value = .error e) : Reported e
  | built (expected : List TokenKind) (found : TokenKind) (l : Location) :
      Reported (.unexpected expected found l)

/-- The errors that there can be; one of a broken invariant is not among them. -/
inductive Regular : ParseError → Prop where
  | lexical (e : LexError) : Regular (.lexical e)
  | unexpected (expected : List TokenKind) (found : TokenKind) (l : Location) :
      Regular (.unexpected expected found l)
  | misnamed (x : String) (l : Location) (fault : TypeFault) : Regular (.ofTypeFault x l fault)

theorem Reported.regular {e : ParseError} (h : Reported e) : e.Regular := by
  cases h with
  | built expected found l => exact .unexpected expected found l
  | @parsed name source _ h =>
    obtain ⟨ts, r, before, s, ending, x, hreached, hhalt⟩ :=
      ParseState.exists_reached_halt name source
    rw [hreached.parse_eq hhalt] at h
    subst h
    cases hhalt with
    | cut l => exact .unexpected _ _ l
    | broken e => exact .lexical e
    | refused => exact .unexpected _ _ _
    | overtaken _ e => exact .lexical e
    | faulty hc =>
      obtain ⟨x, l, fault, rfl⟩ := hreached.balanced.fault hc
      exact .misnamed x l fault

/-- The message of an error tells all of it, the place and the kinds in their order included. -/
theorem message_tells_error {e e' : ParseError} (h : Reported e) (h' : Reported e')
    (heq : e.describe = e'.describe) : e = e' := by
  have hsort := congrArg opening heq
  cases h.regular with
  | lexical f =>
    cases h'.regular with
    | lexical f' => rw [lexical_tells heq]
    | unexpected expected found l =>
      rw [opening_lexical, opening_unexpected] at hsort
      cases hsort
    | misnamed x l fault =>
      rw [opening_lexical, ofTypeFault, opening_semantic] at hsort
      cases hsort
  | unexpected expected found l =>
    cases h'.regular with
    | lexical f =>
      rw [opening_unexpected, opening_lexical] at hsort
      cases hsort
    | unexpected expected' found' l' =>
      obtain ⟨rfl, rfl, rfl⟩ := unexpected_tells heq
      rfl
    | misnamed x l' fault =>
      rw [opening_unexpected, ofTypeFault, opening_semantic] at hsort
      cases hsort
  | misnamed x l fault =>
    cases h'.regular with
    | lexical f =>
      rw [ofTypeFault, opening_semantic, opening_lexical] at hsort
      cases hsort
    | unexpected expected found l' =>
      rw [ofTypeFault, opening_semantic, opening_unexpected] at hsort
      cases hsort
    | misnamed x' l' fault' =>
      obtain ⟨hmessage, rfl⟩ := semantic_tells heq
      rw [ofTypeFault, ofTypeFault, hmessage, TypeFault.message_tells hmessage]

/-- Two modules with the same mistake at the same place have the same error, and what a parse says
is expected can be read off its message. -/
theorem messages_of_two_modules :
    (∃ e e', (Module.parse "m" (utf8 "var x: y;")).value = .error e ∧
      (Module.parse "n" (utf8 "var z: y;")).value = .error e' ∧
      e.describe = e'.describe ∧ e = e') ∧
    ∃ e, (Module.parse "m" (utf8 "proc f(): int")).value = .error e ∧
      e.describe = "syntax error at line 1, column 14: expected 'var' or '\x7b', found end of input" ∧
      e = .unexpected [.var, .leftBrace] .eof ⟨1, 14⟩ := by
  have hm : (Module.parse "m" (utf8 "var x: y;")).value =
      .error (.semantic "y" "unknown type 'y'" ⟨1, 8⟩) := by
    rw [Module.parse_value]
    decide +kernel
  have hn : (Module.parse "n" (utf8 "var z: y;")).value =
      .error (.semantic "y" "unknown type 'y'" ⟨1, 8⟩) := by
    rw [Module.parse_value]
    decide +kernel
  have hcut : (Module.parse "m" (utf8 "proc f(): int")).value =
      .error (.unexpected [.var, .leftBrace] .eof ⟨1, 14⟩) := by
    rw [Module.parse_value]
    decide +kernel
  refine ⟨⟨_, _, hm, hn, rfl, message_tells_error (.parsed hm) (.parsed hn) rfl⟩,
    _, hcut, by decide +kernel, message_tells_error (.parsed hcut) (.built _ _ _) rfl⟩

end ParseError

end ProcLang
