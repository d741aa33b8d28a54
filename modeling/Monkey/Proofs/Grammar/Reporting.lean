import Mathlib.Data.List.Nodup
import Monkey.Proofs.Grammar.Lockstep
import Monkey.Proofs.Grammar.Outcome
import Monkey.Proofs.Grammar.Recognition
import Monkey.Proofs.Token.Tokenization

/-! What the diagnostics of a parse tell. They come in the order of the text and stand at its
tokens: a report is made at the current token or at the next one, and the parser moves on before it
reports again, so no token but the end of input is reported more than twice. Each diagnostic stands
for one statement that was given up. -/
namespace Monkey

/-- Tokens in the order in which they start, with the end of input behind them. -/
structure Lined (ts : List Token) : Prop where
  increasing : ts.Pairwise fun x y => x.start.offset < y.start.offset
  ended : ∃ us c, ts = us ++ [.endOfInput c]

theorem tokenize_lined (source : Text) : Lined (tokenize source) where
  increasing := (tokenize_tokenization source).increasing
  ended := by
    obtain ⟨us, c, -, tokens⟩ := tokenize_reads source
    exact ⟨us, c, tokens⟩

/-- An opening brace among the tokens starts there. -/
def BraceAt (ts : List Token) (c : Cursor) : Prop := ∃ t ∈ ts, t.kind = .lbrace ∧ t.start = c

/-- How many of the diagnostics stand at the place. -/
def reportsAt (ds : List Diagnostic) (c : Cursor) : Nat := ds.countP fun d => d.position = c

/-- The diagnostics so far are in order and stand at tokens, none of them behind the current one,
where one report at most was made. The end of input may be reported any number of times. -/
structure Reported (ts : List Token) (s : ParserState) : Prop where
  left : s.stream.tokens <:+ ts
  finish : s.stream.finish = (TokenStream.ofTokens ts).finish
  ordered : s.diagnostics.Pairwise fun d d' => d.position.offset ≤ d'.position.offset
  reached : ∀ d ∈ s.diagnostics, d.position.offset ≤ s.stream.current.start.offset
  found : ∀ d ∈ s.diagnostics, d.found ∈ ts
  opened : ∀ d ∈ s.diagnostics, ∀ c, d.problem = .unclosedBlock c → BraceAt ts c
  once : s.stream.current.kind ≠ .eof → reportsAt s.diagnostics s.stream.current.start ≤ 1
  twice : ∀ t ∈ ts, t.kind ≠ .eof → reportsAt s.diagnostics t.start ≤ 2

section Places

variable {ts : List Token} {s : ParserState} {d : Diagnostic}

/-- Tokens that start at one place are the same. -/
theorem Lined.eq_of_start (lined : Lined ts) (one : x ∈ ts) (two : y ∈ ts)
    (same : x.start = y.start) : x = y := by
  have apart : (ts.map (·.start.offset)).Nodup :=
    List.pairwise_map.mpr (lined.increasing.imp Nat.ne_of_lt)
  exact List.inj_on_of_nodup_map apart one two (by rw [same])

theorem Lined.mem_finish (lined : Lined ts) :
    Token.endOfInput (TokenStream.ofTokens ts).finish ∈ ts := by
  obtain ⟨us, c, rfl⟩ := lined.ended
  rw [TokenStream.finish_ofTokens]
  exact List.mem_concat_self

theorem reportsAt_report (s : ParserState) (d : Diagnostic) (c : Cursor) :
    reportsAt (s.report d).diagnostics c =
      reportsAt s.diagnostics c + if d.position = c then 1 else 0 := by
  simp [reportsAt, ParserState.report, List.countP_singleton]

namespace Reported

theorem initial (ts : List Token) : Reported ts ⟨.ofTokens ts, [], 0⟩ where
  left := List.suffix_refl ts
  finish := rfl
  ordered := .nil
  reached := List.forall_mem_nil _
  found := List.forall_mem_nil _
  opened := List.forall_mem_nil _
  once _ := Nat.zero_le 1
  twice _ _ _ := Nat.zero_le 2

theorem mem_current (reported : Reported ts s) (lined : Lined ts) : s.stream.current ∈ ts := by
  unfold TokenStream.current
  cases tokens : s.stream.tokens with
  | nil =>
    rw [reported.finish]
    exact lined.mem_finish
  | cons t rest => exact reported.left.subset (by simp [tokens])

theorem mem_peek (reported : Reported ts s) (lined : Lined ts) : s.stream.peek ∈ ts := by
  unfold TokenStream.peek
  cases tokens : s.stream.tokens.tail with
  | nil =>
    rw [reported.finish]
    exact lined.mem_finish
  | cons t rest => exact reported.left.subset (List.mem_of_mem_tail (by simp [tokens]))

/-- The next token starts behind the current one, unless both are the end of input. -/
theorem current_before_peek (reported : Reported ts s) (lined : Lined ts) :
    s.stream.current.start.offset ≤ s.stream.peek.start.offset ∧
      (s.stream.peek.kind ≠ .eof →
        s.stream.current.start.offset < s.stream.peek.start.offset) := by
  have increasing := lined.increasing.sublist reported.left.sublist
  unfold TokenStream.current TokenStream.peek
  cases tokens : s.stream.tokens with
  | nil => exact ⟨Nat.le_refl _, fun real => absurd rfl real⟩
  | cons x rest =>
    cases rest with
    | nil =>
      -- the last token is the end of input, and it stands where the stream ends
      obtain ⟨us, c, rfl⟩ := lined.ended
      have last := reported.left
      rw [tokens] at last
      obtain rfl : x = .endOfInput c := by simpa using last
      refine ⟨?_, fun real => absurd rfl real⟩
      rw [reported.finish, TokenStream.finish_ofTokens]
      exact Nat.le_refl _
    | cons y rest =>
      rw [tokens] at increasing
      have less := (List.pairwise_cons.mp increasing).1 y List.mem_cons_self
      exact ⟨Nat.le_of_lt less, fun _ => less⟩

/-- Nothing was reported at the next token yet. -/
theorem none_ahead (reported : Reported ts s) (lined : Lined ts)
    (real : s.stream.peek.kind ≠ .eof) : reportsAt s.diagnostics s.stream.peek.start = 0 := by
  refine List.countP_eq_zero.mpr fun d member => ?_
  have less := (reported.current_before_peek lined).2 real
  have reached := reported.reached d member
  simp only [decide_eq_true_eq]
  intro same
  rw [same] at reached
  omega

theorem advance (reported : Reported ts s) (lined : Lined ts) : Reported ts s.advance where
  left := (List.tail_suffix _).trans reported.left
  finish := reported.finish
  ordered := reported.ordered
  reached d member :=
    Nat.le_trans (reported.reached d member) (reported.current_before_peek lined).1
  found := reported.found
  opened := reported.opened
  once real := Nat.le_trans (Nat.le_of_eq (reported.none_ahead lined real)) (Nat.zero_le 1)
  twice := reported.twice

/-- A report is made at the current token or at the next one, and then the parser moves on. -/
theorem report (reported : Reported ts s) (lined : Lined ts)
    (place : d.found = s.stream.current ∨ d.found = s.stream.peek)
    (opened : ∀ c, d.problem = .unclosedBlock c → BraceAt ts c) :
    Reported ts (s.report d).advance := by
  obtain ⟨order, -⟩ := reported.current_before_peek lined
  have behind : s.stream.current.start.offset ≤ d.position.offset ∧
      d.position.offset ≤ s.stream.peek.start.offset := by
    unfold Diagnostic.position
    rcases place with here | ahead
    · rw [here]
      exact ⟨Nat.le_refl _, order⟩
    · rw [ahead]
      exact ⟨order, Nat.le_refl _⟩
  have member : d.found ∈ ts := by
    rcases place with here | ahead
    · exact here ▸ reported.mem_current lined
    · exact ahead ▸ reported.mem_peek lined
  have before (real : d.found.kind ≠ .eof) : reportsAt s.diagnostics d.position ≤ 1 := by
    unfold Diagnostic.position
    rcases place with here | ahead
    · rw [here] at real ⊢
      exact reported.once real
    · rw [ahead] at real ⊢
      exact Nat.le_trans (Nat.le_of_eq (reported.none_ahead lined real)) (Nat.zero_le 1)
  have each {P : Diagnostic → Prop} (old : ∀ d ∈ s.diagnostics, P d) (new : P d) :
      ∀ e ∈ (s.report d).diagnostics, P e :=
    List.forall_mem_append.mpr ⟨old, List.forall_mem_singleton.mpr new⟩
  refine ⟨(List.tail_suffix _).trans reported.left, reported.finish, ?_, ?_, ?_, ?_, ?_, ?_⟩
  · refine List.pairwise_append.mpr ⟨reported.ordered, List.pairwise_singleton _ _, ?_⟩
    intro old listed new single
    obtain rfl := List.mem_singleton.mp single
    exact Nat.le_trans (reported.reached old listed) behind.1
  · refine each (fun old listed => ?_) behind.2
    exact Nat.le_trans (reported.reached old listed) order
  · exact each reported.found member
  · exact each reported.opened opened
  · intro real
    have none := reported.none_ahead lined real
    show reportsAt (s.report d).diagnostics s.stream.peek.start ≤ 1
    rw [reportsAt_report, none]
    split <;> decide
  · intro t listed real
    show reportsAt (s.report d).diagnostics t.start ≤ 2
    rw [reportsAt_report]
    split
    next same =>
      obtain rfl := lined.eq_of_start member listed same
      exact Nat.succ_le_succ (before real)
    next => exact reported.twice t listed real

end Reported
end Places

namespace Parser

/-- The run keeps the diagnostics in order. One that gives up leaves them in order for the parser
to move on. -/
def Reports (ts : List Token) (p : Parser α) (s : ParserState) : Prop :=
  Ensures p s (fun _ s' => Reported ts s') fun e s' => e = .recorded → Reported ts s'.advance

section Rules

variable {ts : List Token} {s : ParserState}

theorem Reports.bind {p : Parser α} {q : α → Parser β} (first : Reports ts p s)
    (next : ∀ a s', Reported ts s' → Reports ts (q a) s') : Reports ts (p >>= q) s :=
  ensures_bind.mpr (first.weaken (fun a s' reported => next a s' reported) fun _ _ stop => stop)

theorem reports_pure (a : α) (reported : Reported ts s) : Reports ts (pure a) s := reported

theorem reports_fail (f : ParseFault) : Reports ts (fail f : Parser α) s := nofun

theorem reports_ite {c : Prop} [Decidable c] {p q : Parser α} (yes : c → Reports ts p s)
    (no : ¬c → Reports ts q s) : Reports ts (if c then p else q) s := ensures_ite.mpr ⟨yes, no⟩

theorem reports_current {q : Token → Parser α} (next : Reports ts (q s.stream.current) s) :
    Reports ts (current >>= q) s := next

theorem reports_peek {q : Token → Parser α} (next : Reports ts (q s.stream.peek) s) :
    Reports ts (peek >>= q) s := next

variable (lined : Lined ts) (reported : Reported ts s)
include lined reported

theorem reports_advance {q : Unit → Parser α}
    (next : ∀ s', Reported ts s' → Reports ts (q ()) s') : Reports ts (advance >>= q) s :=
  next s.advance (reported.advance lined)

theorem reports_reject {problem : Problem} {found : Token}
    (place : found = s.stream.current ∨ found = s.stream.peek)
    (opened : ∀ c, problem = .unclosedBlock c → BraceAt ts c) :
    Reports ts (reject problem found : Parser α) s :=
  fun _ => reported.report (d := ⟨problem, found⟩) lined place opened

/-- The token that was expected is the current one afterwards. -/
theorem reports_expect {kind : TokenKind} {q : Unit → Parser α}
    (next : ∀ s', Reported ts s' → s'.stream.current.kind = kind → Reports ts (q ()) s') :
    Reports ts (expect kind >>= q) s := by
  unfold Reports Ensures
  rw [run_bind, run_expect]
  by_cases same : s.stream.peek.kind = kind
  · rw [if_pos same]
    exact next s.advance (reported.advance lined) same
  · rw [if_neg same]
    exact fun _ => reported.report (d := ⟨.expected kind, s.stream.peek⟩) lined (.inr rfl) nofun

theorem reports_skipSemicolon : Reports ts skipSemicolon s := by
  refine reports_peek (reports_ite (fun _ => ?_) fun _ => reports_pure _ reported)
  exact reported.advance lined

theorem reports_parameter : Reports ts parameter s := by
  refine reports_current (reports_ite (fun _ => reports_pure _ reported) fun _ => ?_)
  exact reports_reject lined reported (.inl rfl) nofun

theorem reports_integerLiteral : Reports ts (integerLiteral s.stream.current) s := by
  unfold integerLiteral
  split
  · exact reports_fail _
  · refine reports_ite (fun _ => ?_) fun _ => reports_pure _ reported
    exact reports_reject lined reported (.inl rfl) nofun

end Rules

section Lists

variable {ts : List Token} (lined : Lined ts) {item : Parser α}
  (each : ∀ {s}, Reported ts s → Reports ts item s)
include lined each

theorem reports_moreItems (n : Nat) (reported : Reported ts s) :
    Reports ts (moreItems item n) s := by
  induction n generalizing s with
  | zero => exact reports_fail _
  | succ n ih =>
    refine reports_peek (reports_ite (fun _ => ?_) fun _ => reports_pure _ reported)
    refine reports_advance lined reported fun s reported => ?_
    refine reports_peek (reports_ite (fun _ => reports_pure _ reported) fun _ => ?_)
    refine reports_advance lined reported fun s reported => ?_
    refine (each reported).bind fun first s reported => ?_
    exact (ih reported).bind fun rest s reported => reports_pure _ reported

theorem reports_items (n : Nat) (reported : Reported ts s) : Reports ts (items item n) s := by
  refine reports_peek (reports_ite (fun _ => ?_) fun _ => ?_)
  · exact reports_advance lined reported fun s reported => reports_pure _ reported
  · refine reports_advance lined reported fun s reported => ?_
    refine (each reported).bind fun first s reported => ?_
    refine (reports_moreItems lined each n reported).bind fun rest s reported => ?_
    exact reports_expect lined reported fun s reported _ => reports_pure _ reported

end Lists

/-- A statement that is given up leaves the diagnostics in order for the parser to move on. -/
theorem reports_round {p : Parser Node} {loop : Parser (List Node)} (lined : Lined ts)
    (first : Reports ts p s) (further : ∀ {s}, Reported ts s → Reports ts loop s) :
    Reports ts (do let o ← orOmit p; advance; let rest ← loop; return o.toList ++ rest) s := by
  have rest (o : Option Node) {s : ParserState} (reported : Reported ts s.advance) :
      Reports ts (do advance; let rest ← loop; return o.toList ++ rest) s :=
    (further reported).bind fun rest s reported => reports_pure _ reported
  unfold Reports Ensures at first ⊢
  rw [run_bind, orOmit]
  cases run : p s with
  | ok node s' =>
    rw [run] at first
    exact rest (some node) (first.advance lined)
  | error e s' =>
    rw [run] at first
    cases e with
    | recorded => exact rest none (s := s'.giveUp) { first rfl with }
    | fault f =>
      intro recorded
      cases recorded

section Forms

variable {ts : List Token} (lined : Lined ts) {expr : Precedence → Parser Node}
  (parts : ∀ {s} floor, Reported ts s → Reports ts (expr floor) s)
include lined parts

theorem reports_statement (reported : Reported ts s) : Reports ts (statement expr) s := by
  have ending {s : ParserState} (reported : Reported ts s) (make : Node → Node) :
      Reports ts (do let value ← expr .lowest; skipSemicolon; return make value) s :=
    (parts .lowest reported).bind fun value s reported =>
      (reports_skipSemicolon lined reported).bind fun _ s reported => reports_pure _ reported
  refine reports_current ?_
  split
  · refine reports_expect lined reported fun s reported _ => reports_current ?_
    refine reports_expect lined reported fun s reported _ => ?_
    exact reports_advance lined reported fun s reported => ending reported _
  · exact reports_advance lined reported fun s reported => ending reported _
  · exact ending reported _

theorem reports_blockBody (opening : BraceAt ts c) (n : Nat) (reported : Reported ts s) :
    Reports ts (blockBody expr c n) s := by
  induction n generalizing s with
  | zero => exact reports_fail _
  | succ n ih =>
    refine reports_current (reports_ite (fun _ => reports_pure _ reported) fun _ => ?_)
    refine reports_ite (fun _ => ?_) fun _ => ?_
    · refine reports_reject lined reported (.inl rfl) ?_
      rintro _ ⟨⟩
      exact opening
    · exact reports_round lined (reports_statement lined parts reported) ih

/-- The opening that a block remembers is the brace that was expected. -/
theorem reports_block (n : Nat) (reported : Reported ts s)
    (brace : s.stream.current.kind = .lbrace) : Reports ts (block expr n) s := by
  have opening : BraceAt ts s.stream.current.start :=
    ⟨s.stream.current, reported.mem_current lined, brace, rfl⟩
  refine reports_current (reports_advance lined reported fun s reported => ?_)
  exact reports_blockBody lined parts opening n reported

theorem reports_conditional (n : Nat) (reported : Reported ts s) :
    Reports ts (conditional expr n) s := by
  refine reports_expect lined reported fun s reported _ => ?_
  refine reports_advance lined reported fun s reported => ?_
  refine (parts .lowest reported).bind fun condition s reported => ?_
  refine reports_expect lined reported fun s reported _ => ?_
  refine reports_expect lined reported fun s reported brace => ?_
  refine (reports_block lined parts n reported brace).bind fun consequence s reported => ?_
  refine reports_peek (reports_ite (fun _ => ?_) fun _ => reports_pure _ reported)
  refine reports_advance lined reported fun s reported => ?_
  refine reports_expect lined reported fun s reported brace => ?_
  refine (reports_block lined parts n reported brace).bind fun alternative s reported => ?_
  exact reports_pure _ reported

theorem reports_functionLiteral (n : Nat) (reported : Reported ts s) :
    Reports ts (functionLiteral expr n) s := by
  refine reports_expect lined reported fun s reported _ => ?_
  refine (reports_items lined (reports_parameter lined) n reported).bind
    fun params s reported => ?_
  refine reports_expect lined reported fun s reported brace => ?_
  refine (reports_block lined parts n reported brace).bind fun body s reported => ?_
  exact reports_pure _ reported

theorem reports_operand (n : Nat) (reported : Reported ts s) :
    Reports ts (operand expr n) s := by
  have unary (operator : Text) : Reports ts (unaryExpression expr operator) s :=
    reports_advance lined reported fun s reported =>
      (parts .unary reported).bind fun operand s reported => reports_pure _ reported
  refine reports_current ?_
  split
  · exact reports_pure _ reported
  · exact reports_integerLiteral lined reported
  · exact reports_pure _ reported
  · exact reports_pure _ reported
  · exact unary _
  · exact unary _
  · refine reports_advance lined reported fun s reported => ?_
    refine (parts .lowest reported).bind fun inner s reported => ?_
    exact reports_expect lined reported fun s reported _ => reports_pure _ reported
  · exact reports_conditional lined parts n reported
  · exact reports_functionLiteral lined parts n reported
  · exact reports_reject lined reported (.inl rfl) nofun

theorem reports_operators (floor : Precedence) (n : Nat) (left : Node)
    (reported : Reported ts s) : Reports ts (operators expr floor n left) s := by
  induction n generalizing left s with
  | zero => exact reports_fail _
  | succ n ih =>
    refine reports_peek (reports_ite (fun _ => ?_) fun _ => reports_pure _ reported)
    refine reports_advance lined reported fun s reported => ?_
    refine Reports.bind ?_ fun longer s reported => ih longer reported
    refine reports_ite (fun _ => ?_) fun _ => ?_
    · refine (reports_items lined (parts .lowest) n reported).bind fun args s reported => ?_
      exact reports_pure _ reported
    · refine reports_advance lined reported fun s reported => ?_
      exact (parts _ reported).bind fun right s reported => reports_pure _ reported

theorem reports_programBody (n : Nat) (reported : Reported ts s) :
    Reports ts (programBody expr n) s := by
  induction n generalizing s with
  | zero => exact reports_fail _
  | succ n ih =>
    refine reports_current (reports_ite (fun _ => reports_pure _ reported) fun _ => ?_)
    exact reports_round lined (reports_statement lined parts reported) ih

end Forms

theorem reports_expression (lined : Lined ts) (n : Nat) (floor : Precedence)
    (reported : Reported ts s) : Reports ts (expression n floor) s := by
  induction n generalizing floor s with
  | zero => exact reports_fail _
  | succ n ih =>
    refine (reports_operand lined ih n reported).bind fun left s reported => ?_
    exact reports_operators lined ih floor n left reported

end Parser

theorem reported_of_parse (run : parse source = .ok p) :
    ∃ s, Reported (tokenize source) s ∧ s.diagnostics = p.diagnostics := by
  obtain ⟨s, loop, diagnostics, -⟩ := parseTokens_eq_ok_iff.mp run
  have lined := tokenize_lined source
  let fuel := (tokenize source).length + 1
  have reports := Parser.reports_programBody lined (Parser.reports_expression lined fuel) fuel
    (.initial (tokenize source))
  unfold Parser.Reports Parser.Ensures at reports
  rw [loop] at reports
  exact ⟨s, reports, diagnostics⟩

/-- The diagnostics of a text come in its order and stand at its tokens, no more than two at any
token but the end of input. The place that the report of an open block quotes, counted from one, is
that of an opening brace of the text. -/
theorem diagnostics_in_order (source : Text) : ∃ p, parse source = .ok p ∧
    p.diagnostics.Pairwise (fun d d' => d.position.offset ≤ d'.position.offset) ∧
    (∀ d ∈ p.diagnostics, ∃ t ∈ tokenize source, d.position = t.start) ∧
    (∀ t ∈ tokenize source, t.kind ≠ .eof →
      p.diagnostics.countP (fun d => d.position = t.start) ≤ 2) ∧
    ∀ d ∈ p.diagnostics, ∀ opening, d.problem = .unclosedBlock opening →
      ∃ t ∈ tokenize source, t.kind = .lbrace ∧ t.start = opening ∧
        d.message = utf16 "expected '\x7d' to close block started at line " ++
          decimalNat (t.start.line + 1) ++ utf16 " column " ++ decimalNat (t.start.col + 1) ++
          utf16 ", got end of input instead" := by
  obtain ⟨p, run, -⟩ := parse_ends source
  obtain ⟨s, reported, same⟩ := reported_of_parse run
  refine ⟨p, run, ?_⟩
  rw [← same]
  refine ⟨reported.ordered, ?_, reported.twice, ?_⟩
  · intro d member
    exact ⟨d.found, reported.found d member, rfl⟩
  · intro d member opening unclosed
    obtain ⟨t, listed, brace, start⟩ := reported.opened d member opening unclosed
    refine ⟨t, listed, brace, start, ?_⟩
    rw [Diagnostic.message, unclosed, start]

namespace Parser

/-- What a run added to the diagnostics is counted by the statements that it gave up. -/
theorem Surplus.added (surplus : Surplus extra s s') (grown : s.diagnostics <+: s'.diagnostics) :
    ∃ added, s'.diagnostics = s.diagnostics ++ added ∧ extra ≤ added.length ∧
      s.omitted + added.length = s'.omitted + extra := by
  obtain ⟨more, counted⟩ := surplus
  obtain ⟨added, same⟩ := grown
  refine ⟨added, same.symm, ?_⟩
  rw [← same, List.length_append] at counted
  constructor <;> omega

theorem statement_added (fuel : Nat) (s : ParserState) :
    Ensures (statement (expression fuel)) s
      (fun _ s' => ∃ added, s'.diagnostics = s.diagnostics ++ added ∧
        s.omitted + added.length = s'.omitted)
      fun e s' => e = .recorded → ∃ added, s'.diagnostics = s.diagnostics ++ added ∧
        added ≠ [] ∧ s.omitted + added.length = s'.omitted + 1 := by
  have balanced := balanced_inherited.statement (balanced_inherited.expression fuel)
  have grows := grows_inherited.statement (grows_inherited.expression fuel) s
  unfold Ensures at grows ⊢
  cases run : statement (expression fuel) s with
  | ok n s' =>
    rw [run] at grows
    obtain ⟨added, same, -, counted⟩ := (balanced.ok run).added grows
    exact ⟨added, same, counted⟩
  | error e s' =>
    rw [run] at grows
    rintro rfl
    obtain ⟨added, same, some, counted⟩ := (balanced.recorded run).added grows
    exact ⟨added, same, List.length_pos_iff.mp some, counted⟩

end Parser

/-- There is one diagnostic for each statement that is given up, and none for anything else. A parse
has as many of them as it gave up statements, at the top and in blocks at any depth. Every attempt
at a statement, from whatever state, adds as many as are given up within it, and one more if it is
given up itself. -/
theorem one_diagnostic_per_omission (run : parseTokens ts = .ok p) :
    p.diagnostics.length = p.omitted ∧
    ∀ fuel s, Parser.Ensures (Parser.statement (Parser.expression fuel)) s
      (fun _ s' => ∃ added, s'.diagnostics = s.diagnostics ++ added ∧
        s.omitted + added.length = s'.omitted)
      fun e s' => e = .recorded → ∃ added, s'.diagnostics = s.diagnostics ++ added ∧
        added ≠ [] ∧ s.omitted + added.length = s'.omitted + 1 := by
  refine ⟨?_, Parser.statement_added⟩
  obtain ⟨s, loop, diagnostics, omitted⟩ := parseTokens_eq_ok_iff.mp run
  have balanced := Parser.balanced_inherited.programBody
    (Parser.balanced_inherited.expression (ts.length + 1)) (ts.length + 1)
  obtain ⟨-, counted⟩ := balanced.ok loop
  rw [← diagnostics, ← omitted]
  simpa using counted

/-- Two blocks, one in the other, with statements that are given up before, inside and behind the
inner one. The first closing brace is reported as an operand, so the outer block stays open. -/
def brokenBlocks : Text := utf16 "fn(x) \x7b let = 1; if (x) \x7b ) ; y + \x7d 2 \x7d; let"

theorem one_diagnostic_per_omission_brokenBlocks : ∃ p,
    parseTokens (tokenize brokenBlocks) = .ok p ∧
      p.diagnostics.map (·.position.offset) = [12, 12, 26, 28, 34, 44, 44] ∧
      p.diagnostics.length = p.omitted := by
  have reported : (parseTokens (tokenize brokenBlocks)).toOption.map
      (fun p => p.diagnostics.map (·.position.offset)) =
        some [12, 12, 26, 28, 34, 44, 44] := by decide +kernel
  cases run : parseTokens (tokenize brokenBlocks) with
  | error f =>
    rw [run] at reported
    cases reported
  | ok p =>
    rw [run] at reported
    exact ⟨p, rfl, Option.some.inj reported, (one_diagnostic_per_omission run).1⟩

end Monkey
