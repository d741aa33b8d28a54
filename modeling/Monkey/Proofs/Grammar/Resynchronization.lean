import Monkey.Proofs.Grammar.Lockstep
import Monkey.Proofs.Grammar.Outcome
import Monkey.Proofs.Token.Splicing
import Monkey.Proofs.Token.Tokenization

/-! Semicolons as places to start afresh. While the tokens up to a semicolon are read, the parser
cannot tell what stands behind it; and unless a block is open there, the next statement begins
behind it, however broken the text before it is. So a source behind a semicolon parses as it does
on its own, with its places moved. -/
namespace Monkey

/-- The problem in a text that starts at `base`. -/
def Problem.translate (base : Cursor) : Problem → Problem
  | .unclosedBlock opening => .unclosedBlock (base.translate opening)
  | other => other

def Problem.isUnclosedBlock : Problem → Bool
  | .unclosedBlock _ => true
  | _ => false

/-- The diagnostic of a text that starts at `base`. -/
def Diagnostic.translate (base : Cursor) (d : Diagnostic) : Diagnostic :=
  ⟨d.problem.translate base, d.found.translate base⟩

/-- Both runs have `ts` to read up to a semicolon. There the first one finds the end of input, the
second one `rest`. -/
structure Splices (rest : List Token) (finish : Cursor) (ts : List Token) (s t : ParserState) :
    Prop where
  closed : Closed ts
  real : ∀ x ∈ ts, x.kind ≠ .eof
  first : ∃ c, s.stream.tokens = ts ++ [Token.endOfInput c]
  second : t.stream.tokens = ts ++ rest
  finish : t.stream.finish = finish
  diagnostics : t.diagnostics = s.diagnostics
  omitted : t.omitted = s.omitted

namespace Splices

variable {rest : List Token} {finish : Cursor}

theorem current (splices : Splices rest finish (x :: ts) s t) :
    s.stream.current = x ∧ t.stream.current = x := by
  obtain ⟨c, first⟩ := splices.first
  unfold TokenStream.current
  rw [first, splices.second]
  exact ⟨rfl, rfl⟩

theorem advance (splices : Splices rest finish (x :: ts) s t) :
    Splices rest finish ts s.advance t.advance where
  closed := splices.closed.tail
  real y member := splices.real y (List.mem_cons_of_mem x member)
  first := by
    obtain ⟨c, first⟩ := splices.first
    exact ⟨c, congrArg List.tail first⟩
  second := congrArg List.tail splices.second
  finish := splices.finish
  diagnostics := splices.diagnostics
  omitted := splices.omitted

theorem report (splices : Splices rest finish ts s t) (d : Diagnostic) :
    Splices rest finish ts (s.report d) (t.report d) :=
  { splices with diagnostics := congrArg (· ++ [d]) splices.diagnostics }

theorem giveUp (splices : Splices rest finish ts s t) :
    Splices rest finish ts s.giveUp t.giveUp :=
  { splices with omitted := congrArg (· + 1) splices.omitted }

end Splices

namespace ParserState

variable (s : ParserState)

/-- Nothing but the end of input is left. -/
def Exhausted : Prop := ∀ x ∈ s.stream.tokens, x.kind = .eof

/-- A block was found open. -/
def Unclosed : Prop := ∃ d ∈ s.diagnostics, d.problem.isUnclosedBlock = true

variable {s}

theorem Exhausted.current (exhausted : s.Exhausted) : s.stream.current.kind = .eof := by
  unfold TokenStream.current
  cases tokens : s.stream.tokens with
  | nil => rfl
  | cons x ts => exact exhausted x (by simp [tokens])

theorem Exhausted.advance (exhausted : s.Exhausted) : s.advance.Exhausted :=
  fun x member => exhausted x (List.mem_of_mem_tail member)

end ParserState

theorem Problem.Alike.eq (alike : Problem.Alike Eq problem problem') : problem = problem' := by
  cases alike with
  | unclosedBlock same => rw [same]
  | _ => rfl

theorem Diagnostic.Alike.eq (alike : Diagnostic.Alike Eq d d') : d = d' := by
  obtain ⟨problem, found⟩ := alike
  cases d
  cases d'
  rw [Diagnostic.mk.injEq]
  exact ⟨problem.eq, found⟩

/-- Up to the semicolon the runs go in lockstep. The first one is lost behind it, and it goes astray
where a block is open. -/
def Lockstep.splicing (rest : List Token) (finish : Cursor) : Lockstep where
  token := Eq
  kind same := congrArg Token.kind same
  literal same := congrArg Token.literal same
  near s t := ∃ x ts, Splices rest finish (x :: ts) s t
  ahead s t := ∃ x y ts, Splices rest finish (x :: y :: ts) s t
  lost := ParserState.Exhausted
  stray s := s.Exhausted ∧ s.Unclosed
  near_of_ahead := fun ⟨x, y, ts, splices⟩ => ⟨x, y :: ts, splices⟩
  ahead_of_near := by
    rintro s t ⟨x, _ | ⟨y, ts⟩, splices⟩ other
    · rw [splices.current.1] at other
      exact absurd (splices.closed x rfl) other
    · exact ⟨x, y, ts, splices⟩
  current := fun ⟨_, _, splices⟩ => splices.current.1.trans splices.current.2.symm
  peek := fun ⟨_, _, _, splices⟩ =>
    splices.advance.current.1.trans splices.advance.current.2.symm
  advance := fun ⟨_, y, ts, splices⟩ => ⟨y, ts, splices.advance⟩
  leave := by
    rintro s t ⟨x, _ | ⟨y, ts⟩, splices⟩
    · refine .inr fun y member => ?_
      obtain ⟨c, first⟩ := splices.advance.first
      rw [first] at member
      rw [List.mem_singleton.mp member]
      rfl
    · exact .inl ⟨y, ts, splices.advance⟩
  report := by
    rintro s t d d' ⟨x, ts, splices⟩ alike
    rw [← alike.eq]
    exact ⟨x, ts, splices.report d⟩
  giveUp := fun ⟨x, ts, splices⟩ => ⟨x, ts, splices.giveUp⟩
  lost_end := ParserState.Exhausted.current
  lost_report opening lost := ⟨lost, _, List.mem_concat_self, rfl⟩
  stray_giveUp stray := stray
  stray_advance := fun ⟨lost, _⟩ => lost.advance

namespace Parser

variable {expr : Precedence → Parser Node}

theorem programBody_ended (ended : s.stream.current.kind = .eof)
    (run : programBody expr n s = .ok body s') : body = [] ∧ s' = s := by
  cases n with
  | zero => cases run
  | succ n =>
    unfold programBody at run
    rw [run_then (run_current s), if_pos ended] at run
    cases run
    exact ⟨rfl, rfl⟩

theorem programBody_round (real : s.stream.current.kind ≠ .eof) (n : Nat) :
    programBody expr (n + 1) s =
      (do let first ← orOmit (statement expr); advance; let rest ← programBody expr n
          return first.toList ++ rest) s := by
  rw [programBody, run_then (run_current s), if_neg real]

/-- What was found before is put before all that is found later. -/
theorem run_before {p q : Parser (List Node)} (before middle : List Node)
    (same : p s = (do let rest ← q; return middle ++ rest) t) :
    (do let rest ← p; return before ++ rest) s =
      (do let rest ← q; return (before ++ middle) ++ rest) t := by
  rw [run_bind, same, run_bind, run_bind]
  cases q t with
  | ok rest t' =>
    dsimp only [pure, EStateM.pure]
    rw [List.append_assoc]
  | error e t' => rfl

/-- A round takes a token at least. -/
theorem tokens_round (run : orOmit (statement (expression n)) s = .ok o s')
    (left : s'.stream.tokens ≠ []) :
    s'.advance.stream.tokens.length < s.stream.tokens.length := by
  have shrinks := shrinks_inherited.orOmit
    (shrinks_inherited.statement (shrinks_inherited.expression n)) s
  unfold Ensures at shrinks
  rw [run] at shrinks
  have shorter := shrinks.length_le
  have positive := List.length_pos_iff.mpr left
  rw [ParserState.tokens_advance, List.length_tail]
  omega

end Parser

namespace Splices

variable {rest : List Token} {finish : Cursor}

theorem ended (splices : Splices rest finish [] s t) : s.stream.current.kind = .eof := by
  obtain ⟨c, first⟩ := splices.first
  rw [ParserState.current_kind, first]
  rfl

/-- One statement, which both runs take or both give up. -/
theorem round (splices : Splices rest finish (x :: ts) s t) (le : n ≤ m)
    (run : Parser.orOmit (Parser.statement (Parser.expression n)) s = .ok o s') :
    s'.Exhausted ∧ s'.Unclosed ∨
      ∃ t' us, Parser.orOmit (Parser.statement (Parser.expression m)) t = .ok o t' ∧
        Splices rest finish us s'.advance t'.advance ∧
        t'.advance.stream.tokens.length < t.stream.tokens.length := by
  have near : (Lockstep.splicing rest finish).near s t := ⟨x, ts, splices⟩
  have follows := Parser.follows_statement (Parser.follows_expression le) near
  rcases follows.orOmit run with stray | ⟨t', run', y, us, splices⟩
  · exact .inl stray
  · have shorter := Parser.tokens_round run' (by simp [splices.second])
    exact .inr ⟨t', us, run', splices.advance, shorter⟩

/-- Where the first run comes to its end, the second one goes on with `rest` as at a beginning,
unless a block was open. -/
theorem programBody (splices : Splices rest finish (x :: ts) s t) (le : n ≤ m)
    (enough : t.stream.tokens.length < l)
    (run : Parser.programBody (Parser.expression n) k s = .ok body s') :
    s'.Unclosed ∨ ∃ t' l', Splices rest finish [] s' t' ∧ rest.length < l' ∧
      Parser.programBody (Parser.expression m) l t =
        (do let more ← Parser.programBody (Parser.expression m) l'; return body ++ more) t' := by
  induction k generalizing l x ts s t body with
  | zero => cases run
  | succ k ih =>
    cases l with
    | zero => exact absurd enough (Nat.not_lt_zero _)
    | succ l =>
      have kind : x.kind ≠ .eof := splices.real x List.mem_cons_self
      rw [Parser.programBody_round (splices.current.1 ▸ kind)] at run
      rw [Parser.programBody_round (splices.current.2 ▸ kind)]
      obtain ⟨o, s₁, first, run⟩ := Parser.bind_ok run
      rw [Parser.run_then (Parser.run_advance s₁)] at run
      obtain ⟨later, s₂, run, last⟩ := Parser.bind_ok run
      cases last
      rcases splices.round le first with ⟨lost, unclosed⟩ | ⟨t₁, us, first', moved, shorter⟩
      · -- the first run stands at the end, inside a block that is open
        obtain ⟨-, rfl⟩ := Parser.programBody_ended lost.advance.current run
        exact .inl unclosed
      · rw [Parser.run_then first', Parser.run_then (Parser.run_advance t₁)]
        cases us with
        | nil =>
          -- the semicolon was the last token of this round
          obtain ⟨rfl, rfl⟩ := Parser.programBody_ended moved.ended run
          rw [moved.second, List.nil_append] at shorter
          refine .inr ⟨t₁.advance, l, moved, by omega, ?_⟩
          rw [List.append_nil]
          rfl
        | cons z us =>
          rcases ih (l := l) moved (by omega) run with unclosed | ⟨t', l', ended, enough, run'⟩
          · exact .inl unclosed
          · exact .inr ⟨t', l', ended, enough, Parser.run_before o.toList later run'⟩

end Splices

theorem Problem.Alike.eq_translate {base : Cursor}
    (alike : Problem.Alike (fun x y => y = x.translate base) problem problem') :
    problem' = problem.translate base := by
  cases alike with
  | unclosedBlock same => rw [same]; rfl
  | _ => rfl

theorem Diagnostic.Alike.eq_translate {base : Cursor}
    (alike : Diagnostic.Alike (fun x y => y = x.translate base) d d') :
    d' = d.translate base := by
  obtain ⟨problem, found⟩ := alike
  cases d'
  exact congrArg₂ Diagnostic.mk problem.eq_translate found

theorem eq_map_translate {base : Cursor} {ds ds' : List Diagnostic}
    (alike : List.Forall₂ (Diagnostic.Alike fun x y => y = x.translate base) ds ds') :
    ds' = ds.map (·.translate base) := by
  induction alike with
  | nil => rfl
  | cons first _ ih => rw [List.map_cons, ← first.eq_translate, ← ih]

/-- A run that finds a moved text goes on as a run over that text. -/
theorem copies_translate {base c : Cursor} {us : List Token}
    (tokens : t.stream.tokens = us.map (·.translate base) ++ [Token.endOfInput (base.translate c)])
    (finish : t.stream.finish = base.translate c) :
    Copies (fun x y => y = x.translate base) t.diagnostics t.omitted
      ⟨.ofTokens (us ++ [Token.endOfInput c]), [], 0⟩ t where
  tokens := by
    rw [tokens]
    refine List.rel_append ?_ (.cons rfl .nil)
    rw [List.forall₂_map_right_iff]
    exact List.forall₂_same.mpr fun _ _ => rfl
  finish := by
    rw [TokenStream.finish_ofTokens, finish]
    rfl
  diagnostics := ⟨[], (List.append_nil _).symm, .nil⟩
  omitted := rfl

/-- Tokens behind a semicolon outside of blocks are parsed as on their own. -/
theorem parseTokens_splice {ts us : List Token} {c c' : Cursor} (nonempty : ts ≠ [])
    (closed : Closed ts) (real : ∀ x ∈ ts, x.kind ≠ .eof) (base : Cursor)
    (run : parseTokens (ts ++ [Token.endOfInput c]) = .ok p)
    (quiet : ∀ d ∈ p.diagnostics, d.problem.isUnclosedBlock = false)
    (run' : parseTokens (us ++ [Token.endOfInput c']) = .ok q) :
    parseTokens (ts ++ us.map (·.translate base) ++ [Token.endOfInput (base.translate c')]) =
      .ok ⟨p.statements ++ q.statements,
        p.diagnostics ++ q.diagnostics.map (·.translate base), p.omitted + q.omitted⟩ := by
  obtain ⟨s, loop, diagnostics, omitted⟩ := parseTokens_eq_ok_iff.mp run
  obtain ⟨s', loop', diagnostics', omitted'⟩ := parseTokens_eq_ok_iff.mp run'
  obtain ⟨x, ts, rfl⟩ := List.exists_cons_of_ne_nil nonempty
  let whole := x :: ts ++ us.map (·.translate base) ++ [Token.endOfInput (base.translate c')]
  have longer : (x :: ts ++ [Token.endOfInput c]).length + 1 ≤ whole.length + 1 := by simp [whole]
  have longer' : (us ++ [Token.endOfInput c']).length + 1 ≤ whole.length + 1 := by
    simp only [whole, List.length_append, List.length_map, List.length_cons]
    omega
  have splices : Splices (us.map (·.translate base) ++ [Token.endOfInput (base.translate c')])
      (base.translate c') (x :: ts) ⟨.ofTokens (x :: ts ++ [Token.endOfInput c]), [], 0⟩
      ⟨.ofTokens whole, [], 0⟩ :=
    ⟨closed, real, ⟨c, rfl⟩, List.append_assoc _ _ _, TokenStream.finish_ofTokens _ _, rfl, rfl⟩
  rcases splices.programBody longer (Nat.lt_succ_self whole.length) loop with
    ⟨d, member, unclosed⟩ | ⟨t, l, spliced, enough, resumed⟩
  · rw [diagnostics] at member
    exact absurd unclosed (by simp [quiet d member])
  · have copies := copies_translate spliced.second spliced.finish
    obtain ⟨t', run, copied⟩ := copies.programBody (by rintro x _ rfl; rfl)
      (by rintro x _ rfl; rfl) longer' (by simpa using Nat.succ_le_of_lt enough) loop'
    obtain ⟨ds, added, alike⟩ := copied.diagnostics
    refine parseTokens_eq_ok_iff.mpr ⟨t', ?_, ?_, ?_⟩
    · exact resumed.trans (Parser.run_then run)
    · rw [added, spliced.diagnostics, diagnostics, eq_map_translate alike, diagnostics']
    · rw [copied.omitted, spliced.omitted, omitted, omitted']

/-- A semicolon outside of blocks ends all that went before it. Whatever the source before it is,
the source behind it adds the statements and the diagnostics that it has on its own, with every
place moved to where it stands. -/
theorem parse_resynchronizes (a b : Text) : ∃ p q,
    parse (a ++ utf16 ";") = .ok p ∧ parse b = .ok q ∧
      ((∀ d ∈ p.diagnostics, d.problem.isUnclosedBlock = false) →
        parse (a ++ utf16 ";" ++ b) = .ok ⟨p.statements ++ q.statements,
          p.diagnostics ++
            q.diagnostics.map (·.translate (Cursor.zero.after (a ++ utf16 ";"))),
          p.omitted + q.omitted⟩) := by
  obtain ⟨p, run, -⟩ := parse_ends (a ++ utf16 ";")
  obtain ⟨q, run', -⟩ := parse_ends b
  refine ⟨p, q, run, run', fun quiet => ?_⟩
  obtain ⟨ts, c, read, tokens⟩ := tokenize_reads (a ++ utf16 ";")
  obtain ⟨us, c', read', tokens'⟩ := tokenize_reads b
  obtain ⟨nonempty, closed⟩ := read.closed List.getLast?_concat
  obtain ⟨-, w, whole, rfl⟩ := read.starts
  obtain rfl : a ++ utf16 ";" = w := whole.trans (List.append_nil w)
  rw [parse, tokens] at run
  rw [parse, tokens'] at run'
  rw [parse, tokenize_eq (read.splice closed read')]
  exact parseTokens_splice nonempty closed (fun x member => (read.cut x member).kind_ne_eof) _
    run quiet run'

/-- Six statements are given up on these two lines. -/
def brokenLines : Text := utf16 "let x 5)\nfn(1, \x7b"

/-- The block is opened on the first line. -/
def openBlock : Text := utf16 "a; if (b) \x7b\n c ( \x7d"

theorem parse_resynchronizes_brokenLines : ∃ p q,
    parse (brokenLines ++ utf16 ";") = .ok p ∧ p.diagnostics.length = 6 ∧
      parse openBlock = .ok q ∧
      q.diagnostics.map (·.problem) = [.noOperand, .unclosedBlock ⟨0, 10, 10⟩] ∧
      parse (brokenLines ++ utf16 ";" ++ openBlock) = .ok ⟨p.statements ++ q.statements,
        p.diagnostics ++ q.diagnostics.map (·.translate ⟨1, 8, 17⟩), p.omitted + q.omitted⟩ := by
  have before : (parse (brokenLines ++ utf16 ";")).toOption.map (fun p =>
      (p.diagnostics.length, p.diagnostics.all fun d => !d.problem.isUnclosedBlock)) =
        some (6, true) := by decide +kernel
  have behind : (parse openBlock).toOption.map (fun q => q.diagnostics.map (·.problem)) =
      some [.noOperand, .unclosedBlock ⟨0, 10, 10⟩] := by decide +kernel
  have base : Cursor.zero.after (brokenLines ++ utf16 ";") = ⟨1, 8, 17⟩ := by decide +kernel
  obtain ⟨p, q, run, run', whole⟩ := parse_resynchronizes brokenLines openBlock
  rw [run] at before
  rw [run'] at behind
  obtain ⟨six, quiet⟩ := Prod.mk.inj (Option.some.inj before)
  rw [base] at whole
  refine ⟨p, q, run, six, run', Option.some.inj behind, whole fun d member => ?_⟩
  simpa using List.all_eq_true.mp quiet d member

end Monkey
