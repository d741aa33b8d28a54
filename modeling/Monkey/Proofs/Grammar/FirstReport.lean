import Monkey.Proofs.Grammar.Viability
import Monkey.Proofs.Token.Tokenization

/-! The first report stands at the first token that cannot be right: the tokens before it begin a
program, and with it they begin none. -/
namespace Monkey

theorem kinds_eq_lexemes (ts : List Token) : kinds ts = (lexemes ts).map Prod.fst := by
  simp [kinds, lexemes, Token.lexeme]

theorem kindAhead_eq_lexemes (ts : List Token) :
    kindAhead ts = ((lexemes ts).head?.map Prod.fst).getD .eof := by
  cases ts <;> rfl

theorem ranged_iff_lexemes (ts : List Token) : Ranged ts ↔ ∀ x ∈ lexemes ts,
    x.1 = .int → ∃ v, integer? x.2 = some v ∧ v ≤ 9223372036854775807 := by
  simp [Ranged, Token.InRange, lexemes, Token.lexeme]

/-- The text parses without a diagnostic. -/
def ParsesClean (source : Text) : Prop := ∃ p, parse source = .ok p ∧ p.diagnostics = []

section Tokens

open Monkey.Parser

theorem leaves_of_parse (run : parseTokens ts = .ok p) :
    Leaves (programBody (expression (ts.length + 1)) (ts.length + 1)) ⟨.ofTokens ts, [], 0⟩
      p.diagnostics := by
  unfold parseTokens at run
  unfold Leaves Ensures
  cases result : programBody (expression (ts.length + 1)) (ts.length + 1) ⟨.ofTokens ts, [], 0⟩ with
  | ok body s =>
    simp only [result] at run
    cases run
    rfl
  | error e s =>
    simp only [result] at run
    cases e with
    | recorded =>
      cases run
      exact ⟨rfl, rfl⟩
    | fault f => cases run

/-- Before the first report stands the beginning of a program, and no program goes on with the token
of the report. -/
theorem first_report (run : parseTokens ts = .ok p) (first : p.diagnostics = d :: ds)
    (us : List Token) : ∃ w rest, ts = w ++ rest ∧ Heads rest d.found ∧
      (∃ z, Accepted .program (w ++ z)) ∧
      (Shared (w.length + 1) ts us → ∀ q, parseTokens us = .ok q → q.diagnostics ≠ []) := by
  have left := leaves_of_parse run
  rw [first] at left
  have recognizes := recognizes_programBody
    (recognizes_expression (ts.length + 1) (us.length + 1)) (ts.length + 1) (us.length + 1)
  have meets := recognizes (Stance.looks .fresh ⟨.ofTokens ts, [], 0⟩)
  obtain faults | ⟨e, concludes, within, same⟩ := meets.run _ rfl (.fresh rfl) rfl
  · exact absurd faults left.not_faults
  cases e with
  | reads body w x => cases left.unique concludes.leaves
  | reports w =>
    obtain ⟨d', ds', rest, leaves, split, heads⟩ := concludes
    obtain ⟨rfl, rfl⟩ := List.cons.inj (left.unique leaves)
    refine ⟨w, rest, split, heads, within, fun shared q run' silent => ?_⟩
    have right := leaves_of_parse run'
    rw [silent] at right
    have here : Poised .fresh none ⟨.ofTokens ts, [], 0⟩ ts := .fresh rfl
    have there : Poised .fresh none ⟨.ofTokens us, [], 0⟩ us := .fresh rfl
    obtain faults | ⟨_, _, _, leaves', -⟩ := same ⟨.ofTokens us, [], 0⟩ us rfl there
      (here.looks_shared there shared) shared
    · exact right.not_faults faults
    · cases right.unique leaves'

/-- Whether a list of tokens parses without a diagnostic does not depend on their places. -/
theorem silent_of_lexemes (run : parseTokens ts = .ok p) (silent : p.diagnostics = [])
    (same : lexemes us = lexemes ts) : ∃ q, parseTokens us = .ok q ∧ q.diagnostics = [] := by
  obtain ⟨-, w, tail, rfl, ended, spelled⟩ := spelling_of_run run silent
  obtain ⟨derived, ranged⟩ := spelled.accepted
  obtain ⟨v, tail', rfl, same, rest⟩ := List.map_eq_append_iff.mp (same.trans List.map_append)
  have kindsSame : kinds v = kinds w := by
    rw [kinds_eq_lexemes, kinds_eq_lexemes, lexemes, same, lexemes]
  have ranged' : Ranged v := by
    rw [ranged_iff_lexemes, lexemes, same]
    exact (ranged_iff_lexemes w).mp ranged
  have ended' : kindAhead tail' = .eof := by
    rw [kindAhead_eq_lexemes, lexemes, rest]
    exact (kindAhead_eq_lexemes tail).symm.trans ended
  obtain ⟨body, spelled⟩ := derived.spelled v kindsSame ranged'
  exact ⟨_, run_spelling spelled ended', rfl⟩

end Tokens

section Texts

/-- The text is a token of the kind before a space. -/
structure Samples (kind : TokenKind) (x : Text) : Prop where
  exact : Exact [unit ' '] kind x
  ranged (c : Cursor) : Token.InRange ⟨kind, x, c⟩

theorem samples_of_exact {kind : TokenKind} {x : Text} (other : kind ≠ .int)
    (exact : Exact [unit ' '] kind x) : Samples kind x := ⟨exact, fun _ isInt => absurd isInt other⟩

theorem kind_listed (kind : TokenKind) : kind ∈ [.eof, .ident, .int, .illegal, .eq, .notEq] ∨
    (∃ p ∈ TokenKind.words, p.2 = kind) ∨ ∃ p ∈ TokenKind.symbols, p.2 = kind := by
  cases kind <;> decide

/-- Every kind but the end of input is the kind of some text. -/
theorem exists_sample (kind : TokenKind) (real : kind ≠ .eof) : ∃ x, Samples kind x := by
  have stop (p : CodeUnit → Bool) (space : p (unit ' ') = false) :
      ∀ u ∈ ([unit ' '] : Text).head?, p u = false := by
    rintro _ ⟨⟩
    exact space
  have noInt : (∀ p ∈ TokenKind.words, p.2 ≠ .int) ∧ ∀ p ∈ TokenKind.symbols, p.2 ≠ .int := by
    decide
  rcases kind_listed kind with special | ⟨p, listed, rfl⟩ | ⟨p, listed, rfl⟩
  · simp only [List.mem_cons, List.not_mem_nil, or_false] at special
    rcases special with rfl | rfl | rfl | rfl | rfl | rfl
    · exact absurd rfl real
    · have name : IsName (utf16 "x") := ⟨by decide, List.all_eq_true.mp (by decide), by decide⟩
      exact ⟨_, samples_of_exact (by decide) (.name name (stop isLetter (by decide)))⟩
    · have numeral : IsNumeral (utf16 "0") := ⟨by decide, List.all_eq_true.mp (by decide)⟩
      have zero : integer? (utf16 "0") = some 0 := by decide
      exact ⟨_, .number numeral (stop isDigit (by decide)), fun _ _ => ⟨0, zero, by decide⟩⟩
    · exact ⟨utf16 "@", samples_of_exact (by decide)
        (.illegal (by decide) (by decide) (by decide) (by decide))⟩
    · exact ⟨_, samples_of_exact (by decide) .equal⟩
    · exact ⟨_, samples_of_exact (by decide) .unequal⟩
  · exact ⟨utf16 p.1, samples_of_exact (noInt.1 p listed) (.keyword listed (stop _ (by decide)))⟩
  · exact ⟨[unit p.1], samples_of_exact (noInt.2 p listed) (.symbol listed fun _ => by decide)⟩

/-- A text for tokens of any kinds, to stand behind another text. -/
theorem exists_text (ks : List TokenKind) (real : .eof ∉ ks) : ∃ t : Text,
    t.head? = some (unit ' ') ∧
      ∀ c, ∃ ts c', Reads c t ts c' [] ∧ kinds ts = ks ∧ Ranged ts := by
  induction ks with
  | nil => exact ⟨[unit ' '], rfl, fun c => ⟨[], _, .space (by decide) .done, rfl, ranged_nil⟩⟩
  | cons k ks ih =>
    obtain ⟨other, others⟩ := List.ne_and_not_mem_of_not_mem_cons real
    obtain ⟨t, ahead, further⟩ := ih others
    obtain ⟨x, sample⟩ := exists_sample k (Ne.symm other)
    refine ⟨unit ' ' :: (x ++ t), rfl, fun c => ?_⟩
    obtain ⟨ts, c', read, same, small⟩ := further ((c.past (unit ' ')).after x)
    have exact : Exact t k x := sample.exact.before (.inl ahead)
    refine ⟨_ :: ts, c', .space (by decide) ((exact.reads _).append read), ?_, ?_⟩
    · rw [kinds_cons, same]
    · exact ranged_cons.mpr ⟨sample.ranged _, small⟩

/-- Tokens at the beginning of a text that can be completed to a program begin a program. -/
theorem exists_program (read : Reads .zero source (w ++ v) c [])
    (viable : Accepted .program (w ++ z)) :
    ∃ source', ParsesClean source' ∧ w <+: tokenize source' := by
  obtain ⟨derived, ranged⟩ := viable
  rw [kinds_append] at derived
  obtain ⟨t, -, begins⟩ := read.upTo rfl
  have real : .eof ∉ kinds z := fun member => derived.eof_not_mem (List.mem_append_right _ member)
  obtain ⟨more, ahead, further⟩ := exists_text (kinds z) real
  obtain ⟨zs, c', read', same, small⟩ := further (Cursor.zero.after t)
  have whole := tokenize_eq ((begins more ahead).append read')
  rw [← same, ← kinds_append] at derived
  obtain ⟨body, spelled⟩ :=
    derived.spelled (w ++ zs) rfl (ranged_append.mpr ⟨(ranged_append.mp ranged).1, small⟩)
  refine ⟨t ++ more, ⟨⟨body, [], 0⟩, ?_, rfl⟩, ?_⟩
  · rw [parse, whole]
    exact run_spelling spelled rfl
  · rw [whole, List.append_assoc]
    exact List.prefix_append _ _

end Texts

/-- Tokens that start at different places are told apart by where they start. -/
theorem split_unique {ts : List Token}
    (increasing : ts.Pairwise fun x y => x.start.offset < y.start.offset) (one : ts = u ++ x :: v)
    (two : ts = u' ++ y :: v') (same : x.start = y.start) : u = u' ∧ x = y := by
  -- if one of the tokens came later, it would start behind the other
  have later (u : List Token) {x y : Token} {m v v' : List Token} (split : ts = u ++ x :: v)
      (rest : v = m ++ y :: v') : x.start.offset < y.start.offset := by
    rw [split, rest] at increasing
    have tail := (List.pairwise_append.mp increasing).2.1
    exact (List.pairwise_cons.mp tail).1 y (by simp)
  rcases List.append_eq_append_iff.mp (one.symm.trans two) with ⟨m, rfl, rest⟩ | ⟨m, rfl, rest⟩
  · cases m with
    | nil => exact ⟨(List.append_nil u).symm, (List.cons.inj rest).1⟩
    | cons z m =>
      have less := later u one (List.cons.inj rest).2
      rw [same] at less
      exact absurd less (Nat.lt_irrefl _)
  · cases m with
    | nil => exact ⟨List.append_nil u', (List.cons.inj rest).1.symm⟩
    | cons z m =>
      have less := later u' two (List.cons.inj rest).2
      rw [same] at less
      exact absurd less (Nat.lt_irrefl _)

/-- The first report is at a token of the text. -/
theorem first_report_found (run : parse source = .ok p) (first : p.diagnostics = d :: ds)
    (us : List Token) : ∃ before after, tokenize source = before ++ d.found :: after ∧
      (∃ z, Accepted .program (before ++ z)) ∧
      (Parser.Shared (before.length + 1) (tokenize source) us →
        ∀ q, parseTokens us = .ok q → q.diagnostics ≠ []) := by
  obtain ⟨w, rest, split, heads, ⟨z, viable⟩, never⟩ := first_report run first us
  rcases heads with ⟨rfl, -⟩ | ⟨after, rfl⟩
  · -- the end of input is a token of the text, and it is part of no program
    obtain ⟨ts, c, -, same⟩ := tokenize_reads source
    rw [split, List.append_nil] at same
    have member : TokenKind.eof ∈ kinds (w ++ z) := by
      simp [same, Token.endOfInput]
    exact absurd member viable.1.eof_not_mem
  · exact ⟨w, after, split, ⟨z, viable⟩, never⟩

/-- The token at the position of the first diagnostic is the first that cannot be right. The tokens
before it begin a text that parses without a diagnostic; with it they begin none, and if it is the
end of input, they are not the tokens of such a text. -/
theorem first_diagnostic_earliest (run : parse source = .ok p) (first : p.diagnostics = d :: ds) :
    (∃ before t after, tokenize source = before ++ t :: after ∧ t.start = d.position) ∧
    ∀ before t after, tokenize source = before ++ t :: after → t.start = d.position →
      (∃ source', ParsesClean source' ∧ before <+: tokenize source') ∧
      (∀ source', ParsesClean source' → ¬lexemes (before ++ [t]) <+: lexemes (tokenize source')) ∧
      (t.kind = .eof → ∀ source', ParsesClean source' →
        lexemes (tokenize source') ≠ lexemes (tokenize source)) := by
  constructor
  · obtain ⟨before, after, split, -⟩ := first_report_found run first []
    exact ⟨before, d.found, after, split, rfl⟩
  intro before t after split start
  have found (us : List Token) : (∃ z, Accepted .program (before ++ z)) ∧
      (Parser.Shared (before.length + 1) (tokenize source) us →
        ∀ q, parseTokens us = .ok q → q.diagnostics ≠ []) := by
    obtain ⟨before', after', split', facts⟩ := first_report_found run first us
    obtain ⟨rfl, -⟩ := split_unique (tokenize_tokenization source).increasing split split' start
    exact facts
  have never (source' : Text) (clean : ParsesClean source') :
      ¬lexemes (before ++ [t]) <+: lexemes (tokenize source') := by
    rintro ⟨rest, same⟩
    obtain ⟨q, run', silent⟩ := clean
    obtain ⟨_, v, -, -, rfl⟩ := List.map_eq_append_iff.mp same.symm
    have moved : lexemes (before ++ [t] ++ v) = lexemes (tokenize source') :=
      List.map_append.trans same
    obtain ⟨q', run', silent⟩ := silent_of_lexemes run' silent moved
    refine (found (before ++ [t] ++ v)).2 ⟨before ++ [t], by simp, ?_, ?_⟩ q' run' silent
    · exact ⟨after, by simp [split]⟩
    · exact List.prefix_append _ _
  refine ⟨?_, never, fun _ source' clean same => never source' clean ?_⟩
  · obtain ⟨z, viable⟩ := (found []).1
    obtain ⟨ts, c, read, tokens⟩ := tokenize_reads source
    have begins : ts = before ++ (t :: after).dropLast := by
      rw [← List.dropLast_append_of_ne_nil (List.cons_ne_nil t after), ← split, tokens,
        List.dropLast_concat]
    rw [begins] at read
    exact exists_program read viable
  · rw [same, split]
    exact ⟨lexemes after, by simp [lexemes]⟩

/-- `let x 5` -/
def missingAssign : Text := utf16 "let x 5"

theorem first_diagnostic_earliest_missingAssign : ∃ p d ds before t after,
    parse missingAssign = .ok p ∧ p.diagnostics = d :: ds ∧
    tokenize missingAssign = before ++ t :: after ∧ t.start = d.position ∧
    lexemes (before ++ [t]) =
      [(.letWord, utf16 "let"), (.ident, utf16 "x"), (.int, utf16 "5")] ∧
    (∃ source', ParsesClean source' ∧ before <+: tokenize source') ∧
    ∀ source', ParsesClean source' → ¬lexemes (before ++ [t]) <+: lexemes (tokenize source') := by
  have reported : (parse missingAssign).toOption.map (fun p => p.diagnostics.map (·.position)) =
      some [⟨0, 6, 6⟩] := by decide +kernel
  cases run : parse missingAssign with
  | error f =>
    rw [run] at reported
    cases reported
  | ok p =>
    rw [run] at reported
    obtain ⟨d, ds, first, position, -⟩ := List.map_eq_cons_iff.mp (Option.some.inj reported)
    have split : tokenize missingAssign = (tokenize missingAssign).take 2 ++
        ⟨.int, utf16 "5", ⟨0, 6, 6⟩⟩ :: [.endOfInput ⟨0, 7, 7⟩] := by decide +kernel
    have start : (⟨0, 6, 6⟩ : Cursor) = d.position := position.symm
    obtain ⟨begins, never, -⟩ := (first_diagnostic_earliest run first).2 _ _ _ split start
    exact ⟨p, d, ds, _, _, _, rfl, first, split, start, by decide +kernel, begins, never⟩

end Monkey
