import Monkey.Proofs.Grammar.Inheritance
import Monkey.Proofs.Grammar.Precedence

/-! The converse of reading a spelling: what a run takes without giving up a statement is a
spelling of its result, token by token. -/
namespace Monkey

namespace Parser

/-- A run that ends well and gives up no statement relates the tokens before it, its result
and the tokens after it by `Q`. -/
def Finds (p : Parser α) (Q : List Token → α → List Token → Prop) : Prop :=
  ∀ s a s', p s = .ok a s' → s.omitted ≤ s'.omitted ∧
    (s'.omitted = s.omitted → Q s.stream.tokens a s'.stream.tokens)

/-- The token that is read where `ts` is left. -/
def Heads (ts : List Token) (t : Token) : Prop := ts = [] ∧ t.kind = .eof ∨ ∃ rest, ts = t :: rest

theorem Heads.real (heads : Heads ts t) (kind : t.kind = k) (real : k ≠ .eof) :
    ∃ rest, ts = t :: rest := by
  rcases heads with ⟨-, ended⟩ | found
  · exact absurd (kind.symm.trans ended) real
  · exact found

theorem Heads.head (heads : Heads (x :: rest) t) : t = x := by
  rcases heads with ⟨empty, -⟩ | ⟨rest, same⟩
  · cases empty
  · cases same
    rfl

theorem Heads.kind (heads : Heads ts t) : kindAhead ts = t.kind := by
  rcases heads with ⟨rfl, ended⟩ | ⟨rest, rfl⟩
  · exact ended.symm
  · rfl

theorem heads_current (s : ParserState) : Heads s.stream.tokens s.stream.current := by
  unfold TokenStream.current
  cases s.stream.tokens with
  | nil => exact .inl ⟨rfl, rfl⟩
  | cons t rest => exact .inr ⟨rest, rfl⟩

theorem heads_peek (s : ParserState) : Heads s.stream.tokens.tail s.stream.peek := by
  unfold TokenStream.peek
  cases s.stream.tokens.tail with
  | nil => exact .inl ⟨rfl, rfl⟩
  | cons t rest => exact .inr ⟨rest, rfl⟩

namespace Finds

theorem pure (a : α) : Finds (pure a) fun ts b ts' => b = a ∧ ts' = ts := by
  intro s b s' run
  cases run
  exact ⟨Nat.le_refl _, fun _ => ⟨rfl, rfl⟩⟩

theorem bind {p : Parser α} {q : α → Parser β} {P : List Token → α → List Token → Prop}
    {Q : α → List Token → β → List Token → Prop} (first : Finds p P)
    (next : ∀ a, Finds (q a) (Q a)) :
    Finds (p >>= q) fun ts b ts' => ∃ a middle, P ts a middle ∧ Q a middle b ts' := by
  intro s b s' run
  obtain ⟨a, middle, one, two⟩ := bind_ok run
  obtain ⟨up, found⟩ := first s a middle one
  obtain ⟨up', found'⟩ := next a middle b s' two
  refine ⟨by omega, fun quiet => ⟨a, middle.stream.tokens, found (by omega), found' (by omega)⟩⟩

theorem weaken {p : Parser α} {P Q : List Token → α → List Token → Prop} (finds : Finds p P)
    (imp : ∀ ts a ts', P ts a ts' → Q ts a ts') : Finds p Q := by
  intro s a s' run
  obtain ⟨up, found⟩ := finds s a s' run
  exact ⟨up, fun quiet => imp _ _ _ (found quiet)⟩

theorem ite {c : Prop} [Decidable c] {p q : Parser α} {P Q : List Token → α → List Token → Prop}
    (yes : Finds p P) (no : Finds q Q) :
    Finds (if c then p else q) fun ts a ts' => c ∧ P ts a ts' ∨ ¬c ∧ Q ts a ts' := by
  split
  · exact yes.weaken fun _ _ _ found => .inl ⟨‹_›, found⟩
  · exact no.weaken fun _ _ _ found => .inr ⟨‹_›, found⟩

theorem fail {Q : List Token → α → List Token → Prop} (f : ParseFault) : Finds (fail f) Q := by
  intro s a s' run
  cases run

theorem reject (problem : Problem) (found : Token) :
    Finds (reject problem found : Parser α) fun _ _ _ => False := by
  intro s a s' run
  cases run

theorem current : Finds current fun ts t ts' => ts' = ts ∧ Heads ts t := by
  intro s t s' run
  cases run
  exact ⟨Nat.le_refl _, fun _ => ⟨rfl, heads_current s⟩⟩

theorem peek : Finds peek fun ts t ts' => ts' = ts ∧ Heads ts.tail t := by
  intro s t s' run
  cases run
  exact ⟨Nat.le_refl _, fun _ => ⟨rfl, heads_peek s⟩⟩

theorem advance : Finds advance fun ts _ ts' => ts' = ts.tail := by
  intro s _ s' run
  cases run
  exact ⟨Nat.le_refl _, fun _ => rfl⟩

theorem expect (kind : TokenKind) (real : kind ≠ .eof) :
    Finds (expect kind) fun ts _ ts' =>
      ∃ (x : Mark kind) (rest : List Token), ts.tail = x.1 :: rest ∧ ts' = x.1 :: rest := by
  refine (peek.bind fun t => advance.ite (reject (.expected kind) t)).weaken ?_
  rintro ts _ ts' ⟨t, _, ⟨rfl, heads⟩, ⟨same, rfl⟩ | ⟨-, impossible⟩⟩
  · obtain ⟨rest, tokens⟩ := heads.real same real
    exact ⟨⟨t, same⟩, rest, tokens, tokens⟩
  · exact impossible.elim

theorem orOmit {p : Parser α} {Q : List Token → α → List Token → Prop} (balanced : Balanced p)
    (finds : Finds p Q) :
    Finds (orOmit p) fun ts o ts' => ∃ a, o = some a ∧ Q ts a ts' := by
  intro s o s' run
  unfold Parser.orOmit at run
  cases result : p s with
  | ok a middle =>
    simp only [result] at run
    cases run
    obtain ⟨up, found⟩ := finds s a s' result
    exact ⟨up, fun quiet => ⟨a, rfl, found quiet⟩⟩
  | error e middle =>
    simp only [result] at run
    cases e with
    | recorded =>
      -- the count went up, so this run is not among those that give up nothing
      obtain ⟨up, -⟩ := balanced.recorded result
      cases run
      exact ⟨Nat.le_succ_of_le up, fun quiet => absurd quiet (by simp only; omega)⟩
    | fault f => cases run

end Finds

/-- The expression that was read and how tightly it can be followed. -/
def Shows (floor : Precedence) (ts : List Token) (e : Node) (ts' : List Token) : Prop :=
  ∃ n w t rest, ts = w ++ rest ∧ ts' = t :: rest ∧ Spells (.expression n) e w ∧ Fits floor n ∧
    levelAhead rest ≤ floor.level

theorem Shows.lowest (shown : Shows .lowest ts e ts') :
    ∃ w t rest, ts = w ++ rest ∧ ts' = t :: rest ∧ Spells (.expression 1) e w ∧
      levelAhead rest = 0 := by
  obtain ⟨n, w, t, rest, rfl, rfl, spelled, fits, low⟩ := shown
  rcases fits with positive | ⟨impossible, -⟩
  · exact ⟨w, t, rest, rfl, rfl, spelled.loosen positive, Nat.le_zero.mp low⟩
  · cases impossible

section Lists

variable {α : Type} {item : Parser α} {R : α → List Token → Prop}
  (each : Finds item fun ts a ts' => ∃ w t rest, ts = w ++ rest ∧ ts' = t :: rest ∧ R a w)
include each

theorem finds_moreItems (fuel : Nat) :
    Finds (moreItems item fuel) fun ts as ts' => ∀ t after, ts = t :: after →
      ∃ v u rest words, after = v ++ rest ∧ ts' = u :: rest ∧ Commas words v ∧
        Itemized R as words := by
  induction fuel with
  | zero => exact .fail _
  | succ fuel ih =>
    refine (Finds.peek.bind fun next => .ite (Finds.advance.bind fun _ => Finds.peek.bind fun _ =>
      .ite (.pure []) (Finds.advance.bind fun _ => each.bind fun a => ih.bind fun as =>
        .pure (a :: as))) (.pure [])).weaken ?_
    rintro ts as ts' ⟨next, _, ⟨rfl, heads⟩, more | none⟩ t after rfl
    · obtain ⟨comma, _, _, rfl, second, _, ⟨rfl, heads'⟩, more⟩ := more
      obtain ⟨after, rfl⟩ := heads.real comma (by decide)
      rcases more with ⟨closing, rfl, rfl⟩ | ⟨-, _, _, rfl, a, _, found, as, _, further, rfl, rfl⟩
      · exact ⟨[next], next, after, [], rfl, rfl, .trailing ⟨next, comma⟩, .nil⟩
      · obtain ⟨w, u, rest, rfl, rfl, read⟩ := found
        obtain ⟨v, u', rest', words, rfl, rfl, list, items⟩ := further u rest rfl
        refine ⟨next :: (w ++ v), u', rest', w :: words, ?_, rfl, .next ⟨next, comma⟩ list,
          .cons read items⟩
        simp
    · obtain ⟨-, rfl, rfl⟩ := none
      exact ⟨[], t, after, [], rfl, rfl, .done, .nil⟩

theorem finds_items (fuel : Nat) :
    Finds (items item fuel) fun ts as ts' => ∃ v words rest, ∃ rp : Mark .rparen,
      ts.tail = v ++ rp.1 :: rest ∧ ts' = rp.1 :: rest ∧ Listed words v ∧ Itemized R as words := by
  refine (Finds.peek.bind fun next => .ite (Finds.advance.bind fun _ => .pure [])
    (Finds.advance.bind fun _ => each.bind fun a => (finds_moreItems each fuel).bind fun as =>
      (Finds.expect .rparen (by decide)).bind fun _ => .pure (a :: as))).weaken ?_
  rintro ts as ts' ⟨next, _, ⟨rfl, heads⟩, none | some⟩
  · obtain ⟨closing, _, _, rfl, rfl, rfl⟩ := none
    obtain ⟨rest, tokens⟩ := heads.real closing (by decide)
    exact ⟨[], [], rest, ⟨next, closing⟩, tokens, tokens, .empty, .nil⟩
  · obtain ⟨-, _, _, rfl, a, _, found, as, _, further, _, _, ⟨rp, rest, tokens, rfl⟩, rfl, rfl⟩ :=
      some
    obtain ⟨w, u, after, before, rfl, read⟩ := found
    obtain ⟨v, u', rest', words, rfl, rfl, list, items⟩ := further u after rfl
    rw [List.tail_cons] at tokens
    subst tokens
    exact ⟨w ++ v, w :: words, rest, rp, by simpa using before, rfl, .items list, .cons read items⟩

end Lists

theorem finds_skipSemicolon : Finds skipSemicolon fun ts _ ts' => ts' = ts ∨
    ∃ (semi : Mark .semicolon) (rest : List Token), ts.tail = semi.1 :: rest ∧
      ts' = semi.1 :: rest := by
  refine (Finds.peek.bind fun next => Finds.advance.ite (.pure ())).weaken ?_
  rintro ts _ ts' ⟨next, _, ⟨rfl, heads⟩, ⟨semi, rfl⟩ | ⟨-, -, rfl⟩⟩
  · obtain ⟨rest, tokens⟩ := heads.real semi (by decide)
    exact .inr ⟨⟨next, semi⟩, rest, tokens, tokens⟩
  · exact .inl rfl

/-- The words of a statement stand before `ts'`, with their semicolon or before a token that
joins nothing. -/
def Ends (ts w ts' : List Token) : Prop :=
  (∃ t rest, ts = w ++ rest ∧ ts' = t :: rest ∧ levelAhead rest = 0) ∨
    ∃ (semi : Mark .semicolon) (rest : List Token), ts = w ++ semi.1 :: rest ∧
      ts' = semi.1 :: rest

theorem finds_ending {p : Parser Node} (f : Node → Node) (inner : Finds p (Shows .lowest)) :
    Finds (do let value ← p; skipSemicolon; return f value) fun ts n ts' =>
      ∃ e w, n = f e ∧ Spells (.expression 1) e w ∧ Ends ts w ts' := by
  refine (inner.bind fun e => finds_skipSemicolon.bind fun _ => .pure (f e)).weaken ?_
  rintro ts n ts' ⟨e, _, shown, _, _, skipped, rfl, rfl⟩
  obtain ⟨w, t, rest, rfl, rfl, spelled, low⟩ := shown.lowest
  rcases skipped with rfl | ⟨semi, after, rfl, rfl⟩
  · exact ⟨e, w, rfl, spelled, .inl ⟨t, rest, rfl, rfl, low⟩⟩
  · exact ⟨e, w, rfl, spelled, .inr ⟨semi, after, rfl, rfl⟩⟩

theorem Ends.after (ends : Ends ts w ts') (lead : List Token) :
    Ends (lead ++ ts) (lead ++ w) ts' := by
  rcases ends with ⟨t, rest, rfl, rfl, low⟩ | ⟨semi, rest, rfl, rfl⟩
  · exact .inl ⟨t, rest, by rw [List.append_assoc], rfl, low⟩
  · exact .inr ⟨semi, rest, by rw [List.append_assoc], rfl⟩

theorem finds_parameter : Finds parameter fun ts name ts' => ∃ w t rest, ts = w ++ rest ∧
    ts' = t :: rest ∧ ∃ x : Mark .ident, name = x.1.literal ∧ w = [x.1] := by
  refine (Finds.current.bind fun token => .ite (.pure token.literal)
    (.reject .badParameter token)).weaken ?_
  rintro ts name ts' ⟨token, _, ⟨rfl, heads⟩, ⟨kind, rfl, rfl⟩ | ⟨-, impossible⟩⟩
  · obtain ⟨rest, rfl⟩ := heads.real kind (by decide)
    exact ⟨[token], token, rest, rfl, rfl, ⟨token, kind⟩, rfl, rfl⟩
  · exact impossible.elim

/-- The statements that were read up to where the loop stops. -/
def Swept (Stop : List Token → Prop) (ts : List Token) (ns : List Node) (ts' : List Token) :
    Prop :=
  ∃ v, ts = v ++ ts' ∧ SpellsBody ns v ∧ Stop ts'

theorem joins_nothing (low : levelAhead (v ++ rest) = 0) :
    kindAhead v ≠ .lparen ∧ kindAhead v ≠ .minus := by
  cases v with
  | nil => decide
  | cons t v =>
    rw [levelAhead, List.cons_append, kindAhead] at low
    constructor
    · intro kind
      rw [kindAhead] at kind
      rw [kind] at low
      exact absurd low (by decide)
    · intro kind
      rw [kindAhead] at kind
      rw [kind] at low
      exact absurd low (by decide)

theorem Swept.stop {Stop : List Token → Prop} (stop : Stop ts) : Swept Stop ts [] ts :=
  ⟨[], rfl, .nil, stop⟩

theorem Swept.next {Stop : List Token → Prop} (first : Spells .statement n w)
    (ends : Ends ts w middle) (further : Swept Stop middle.tail ns ts') :
    Swept Stop ts (n :: ns) ts' := by
  obtain ⟨v, before, spelled, stop⟩ := further
  rcases ends with ⟨t, rest, rfl, rfl, low⟩ | ⟨semi, rest, rfl, rfl⟩
  · rw [List.tail_cons] at before
    subst before
    obtain ⟨notParen, notMinus⟩ := joins_nothing low
    exact ⟨w ++ v, by rw [List.append_assoc], .bare first spelled notParen notMinus, stop⟩
  · rw [List.tail_cons] at before
    subst before
    exact ⟨w ++ semi.1 :: v, by rw [List.append_assoc, List.cons_append],
      .ended first semi spelled, stop⟩

/-- The expression that was read before any operator, which any floor below calls allows. -/
def Primary (ts : List Token) (e : Node) (ts' : List Token) : Prop :=
  ∃ m w t rest, ts = w ++ rest ∧ ts' = t :: rest ∧ Spells (.expression m) e w ∧
    levelAhead rest ≤ m ∧ 5 ≤ m

theorem levelAhead_le (ts : List Token) : levelAhead ts ≤ 6 := by
  unfold levelAhead
  cases kindAhead ts <;> decide

theorem fits_of_le (below : floor.level ≤ 5) (tight : 5 ≤ m) : Fits floor m := by
  cases floor with
  | call => exact absurd below (by decide)
  | unary => exact (Nat.lt_or_eq_of_le tight).imp id fun same => ⟨rfl, same.symm⟩
  | _ => exact .inl (Nat.lt_of_lt_of_le (by decide) tight)

theorem level_le_of_ne (other : kind ≠ .lparen) : (Precedence.ofKind kind).level ≤ 4 := by
  cases kind <;> first | decide | exact absurd rfl other

theorem infixLevel_of_joins (joins : 0 < (Precedence.ofKind kind).level) (other : kind ≠ .lparen) :
    infixLevel? kind = some (Precedence.ofKind kind).level := by
  cases kind <;> first | rfl | exact absurd rfl other | exact absurd joins (by decide)

/-- What fits everywhere is followed by anything. -/
theorem Primary.of_spells (before : ts = w ++ rest) (spelled : Spells (.expression 6) e w) :
    Primary ts e (t :: rest) :=
  ⟨6, w, t, rest, before, rfl, spelled, levelAhead_le rest, by decide⟩

theorem finds_atom (x : Mark kind) (real : kind ≠ .eof) (spelled : Spells (.expression 6) e [x.1]) :
    Finds (return e) fun ts a ts' => Heads ts x.1 → Primary ts a ts' := by
  apply (Finds.pure e).weaken
  rintro ts _ ts' ⟨rfl, rfl⟩ heads
  obtain ⟨rest, rfl⟩ := heads.real x.2 real
  exact .of_spells rfl spelled

theorem finds_integerLiteral (x : Mark .int) :
    Finds (integerLiteral x.1) fun ts e ts' => Heads ts x.1 → Primary ts e ts' := by
  unfold integerLiteral
  cases value : integer? x.1.literal with
  | none => exact .fail _
  | some v =>
    dsimp only
    split
    · exact (Finds.reject _ _).weaken fun _ _ _ impossible => impossible.elim
    · rename_i small
      exact finds_atom x (by decide) (.int x value (Int.not_lt.mp small))

section Forms

variable {expr : Precedence → Parser Node}
  (parts : ∀ floor, floor.level ≤ 5 → Finds (expr floor) (Shows floor))
include parts

theorem finds_statement : Finds (statement expr) fun ts n ts' =>
    ∃ w, Spells .statement n w ∧ Ends ts w ts' := by
  have inner := parts .lowest (by decide)
  refine (Finds.current.bind (Q := fun token ts n ts' =>
    Heads ts token → ∃ w, Spells .statement n w ∧ Ends ts w ts') fun token => ?_).weaken ?_
  · split
    · rename_i kind
      refine ((Finds.expect .ident (by decide)).bind fun _ => Finds.current.bind fun name =>
        (Finds.expect .assign (by decide)).bind fun _ => Finds.advance.bind fun _ =>
          finds_ending (.letStmt name.literal) inner).weaken ?_
      rintro ts n ts' ⟨_, _, ⟨x, rest, one, rfl⟩, name, _, ⟨rfl, heads'⟩, _, _,
        ⟨eq, rest', two, rfl⟩, _, _, rfl, e, w, rfl, spelled, ends⟩ heads
      obtain ⟨before, rfl⟩ := heads.real kind (by decide)
      obtain rfl := heads'.head
      rw [List.tail_cons] at one two
      subst one two
      exact ⟨_, .letStmt ⟨token, kind⟩ x eq spelled, ends.after [token, x.1, eq.1]⟩
    · rename_i kind
      refine (Finds.advance.bind fun _ => finds_ending .returnStmt inner).weaken ?_
      rintro ts n ts' ⟨_, _, rfl, e, w, rfl, spelled, ends⟩ heads
      obtain ⟨before, rfl⟩ := heads.real kind (by decide)
      exact ⟨_, .returnStmt ⟨token, kind⟩ spelled, ends.after [token]⟩
    · apply (finds_ending .exprStmt inner).weaken
      rintro ts n ts' ⟨e, w, rfl, spelled, ends⟩ -
      exact ⟨w, .exprStmt spelled, ends⟩
  · rintro ts n ts' ⟨token, _, ⟨rfl, heads⟩, found⟩
    exact found heads

theorem finds_unaryExpression (op : Token) (kind : op.kind = .bang ∨ op.kind = .minus) :
    Finds (unaryExpression expr op.literal) fun ts e ts' => Heads ts op → Primary ts e ts' := by
  refine (Finds.advance.bind fun _ => (parts .unary (by decide)).bind fun e =>
    .pure (Node.unary op.literal e)).weaken ?_
  rintro ts e ts' ⟨_, _, rfl, e, _, shown, rfl, rfl⟩ heads
  have real : op.kind ≠ .eof := by
    rcases kind with kind | kind <;> rw [kind] <;> decide
  obtain ⟨rest, rfl⟩ := heads.real rfl real
  obtain ⟨n, w, t, rest, before, rfl, spelled, fits, low⟩ := shown
  rw [List.tail_cons] at before
  subst before
  have tight : 5 ≤ n := by
    rcases fits with less | ⟨-, rfl⟩
    · exact Nat.le_of_lt less
    · exact Nat.le_refl _
  exact ⟨5, op :: w, t, rest, rfl, rfl, .unary op kind (Nat.le_refl _) (spelled.loosen tight), low,
    Nat.le_refl _⟩

theorem finds_grouped (lp : Mark .lparen) :
    Finds (grouped expr) fun ts e ts' => Heads ts lp.1 → Primary ts e ts' := by
  refine (Finds.advance.bind fun _ => (parts .lowest (by decide)).bind fun e =>
    (Finds.expect .rparen (by decide)).bind fun _ => .pure e).weaken ?_
  rintro ts e ts' ⟨_, _, rfl, e, _, shown, _, _, ⟨rp, rest, two, rfl⟩, rfl, rfl⟩ heads
  obtain ⟨after, rfl⟩ := heads.real lp.2 (by decide)
  obtain ⟨w, _, _, before, rfl, spelled, -⟩ := shown.lowest
  rw [List.tail_cons] at before two
  subst before two
  exact .of_spells (by simp) (.grouped lp rp spelled)

section Blocks

variable (counts : ∀ floor, Balanced (expr floor))
include counts

/-- One round of a loop over statements. -/
theorem finds_round {loop : Parser (List Node)} {Stop : List Token → Prop}
    (further : Finds loop (Swept Stop)) :
    Finds (do
      let first ← orOmit (statement expr)
      advance
      let rest ← loop
      return first.toList ++ rest) (Swept Stop) := by
  have balanced := balanced_inherited.statement counts
  refine (((finds_statement parts).orOmit balanced).bind fun first => Finds.advance.bind fun _ =>
    further.bind fun rest => .pure (first.toList ++ rest)).weaken ?_
  rintro ts ns ts' ⟨_, _, ⟨n, rfl, w, spelled, ends⟩, _, _, rfl, rest, _, swept, rfl, rfl⟩
  exact swept.next spelled ends

theorem finds_blockBody (opening : Cursor) (rounds : Nat) :
    Finds (blockBody expr opening rounds) (Swept fun ts => kindAhead ts = .rbrace) := by
  induction rounds with
  | zero => exact .fail _
  | succ rounds ih =>
    refine (Finds.current.bind fun token => (Finds.pure []).ite
      ((Finds.reject _ token).ite (finds_round parts counts ih))).weaken ?_
    rintro ts ns ts' ⟨token, _, ⟨rfl, heads⟩, ⟨closing, rfl, rfl⟩ |
      ⟨-, ⟨-, impossible⟩ | ⟨-, swept⟩⟩⟩
    · exact .stop (heads.kind.trans closing)
    · exact impossible.elim
    · exact swept

theorem finds_programBody (rounds : Nat) :
    Finds (programBody expr rounds) (Swept fun ts => kindAhead ts = .eof) := by
  induction rounds with
  | zero => exact .fail _
  | succ rounds ih =>
    refine (Finds.current.bind fun token => (Finds.pure []).ite
      (finds_round parts counts ih)).weaken ?_
    rintro ts ns ts' ⟨token, _, ⟨rfl, heads⟩, ⟨closing, rfl, rfl⟩ | ⟨-, swept⟩⟩
    · exact .stop (heads.kind.trans closing)
    · exact swept

theorem finds_block (rounds : Nat) : Finds (block expr rounds) fun ts ns ts' =>
    ∃ v rest, ∃ rb : Mark .rbrace, ts.tail = v ++ rb.1 :: rest ∧ ts' = rb.1 :: rest ∧
      SpellsBody ns v := by
  refine (Finds.current.bind fun opening => Finds.advance.bind fun _ =>
    finds_blockBody parts counts opening.start rounds).weaken ?_
  rintro ts ns ts' ⟨_, _, ⟨rfl, -⟩, _, _, rfl, v, before, body, closing⟩
  obtain ⟨rb, rest, rfl, kind⟩ := exists_cons_of_kindAhead closing (by decide)
  exact ⟨v, rest, ⟨rb, kind⟩, before, rfl, body⟩

theorem finds_alternative (fuel : Nat) (c : Node) (body : List Node) :
    Finds (do
      if (← peek).kind = .elseWord then
        advance
        expect .lbrace
        let alternative ← block expr fuel
        return Node.ifElse c body alternative
      else return Node.ifThen c body) fun ts e ts' => e = .ifThen c body ∧ ts' = ts ∨
      ∃ (other : Mark .elseWord) (lb : Mark .lbrace) (rb : Mark .rbrace) (body' : List Node)
        (v rest : List Token), ts.tail = other.1 :: lb.1 :: (v ++ rb.1 :: rest) ∧
        ts' = rb.1 :: rest ∧ e = .ifElse c body body' ∧ SpellsBody body' v := by
  refine (Finds.peek.bind fun next => .ite
    (Finds.advance.bind fun _ => (Finds.expect .lbrace (by decide)).bind fun _ =>
      (finds_block parts counts fuel).bind fun body' => .pure (Node.ifElse c body body'))
    (.pure (Node.ifThen c body))).weaken ?_
  rintro ts e ts' ⟨next, _, ⟨rfl, heads⟩, some | none⟩
  · obtain ⟨kind, _, _, rfl, _, _, ⟨lb, after, one, rfl⟩, body', _, found, rfl, rfl⟩ := some
    obtain ⟨v, rest, rb, rfl, rfl, spelled⟩ := found
    obtain ⟨_, tokens⟩ := heads.real kind (by decide)
    rw [tokens, List.tail_cons] at one
    subst one
    exact .inr ⟨⟨next, kind⟩, lb, rb, body', v, rest, tokens, rfl, rfl, spelled⟩
  · obtain ⟨-, rfl, rfl⟩ := none
    exact .inl ⟨rfl, rfl⟩

theorem finds_conditional (fuel : Nat) : Finds (conditional expr fuel) fun ts e ts' =>
    ∀ (kw : Mark .ifWord) (after : List Token), ts = kw.1 :: after → Primary ts e ts' := by
  refine ((Finds.expect .lparen (by decide)).bind fun _ => Finds.advance.bind fun _ =>
    (parts .lowest (by decide)).bind fun c => (Finds.expect .rparen (by decide)).bind fun _ =>
    (Finds.expect .lbrace (by decide)).bind fun _ => (finds_block parts counts fuel).bind
      fun body => finds_alternative parts counts fuel c body).weaken ?_
  rintro ts e ts' ⟨_, _, ⟨lp, _, one, rfl⟩, _, _, rfl, c, _, shown, more⟩ kw after rfl
  obtain ⟨w, _, _, before, rfl, condition, -⟩ := shown.lowest
  obtain ⟨_, _, ⟨rp, _, two, rfl⟩, _, _, ⟨lb, _, three, rfl⟩, body, _, found, ending⟩ := more
  obtain ⟨v, rest, rb, four, rfl, ⟨parts, rfl, each, list⟩⟩ := found
  rw [List.tail_cons] at one two three four
  subst one before two three four
  rcases ending with ⟨rfl, rfl⟩ | ⟨other, lb', rb', body', v', rest', five, rfl, rfl, spelled⟩
  · exact .of_spells (by simp) (.ifThen kw lp rp lb rb parts condition each list)
  · obtain ⟨parts', rfl, each', list'⟩ := spelled
    rw [List.tail_cons] at five
    subst five
    exact .of_spells (by simp)
      (.ifElse kw lp rp lb rb other lb' rb' parts parts' condition each list each' list')

theorem finds_functionLiteral (fuel : Nat) : Finds (functionLiteral expr fuel) fun ts e ts' =>
    ∀ (kw : Mark .fnWord) (after : List Token), ts = kw.1 :: after → Primary ts e ts' := by
  refine ((Finds.expect .lparen (by decide)).bind fun _ =>
    (finds_items finds_parameter fuel).bind fun names =>
      (Finds.expect .lbrace (by decide)).bind fun _ =>
        (finds_block parts counts fuel).bind fun body => .pure (Node.fnLit names body)).weaken ?_
  rintro ts e ts' ⟨_, _, ⟨lp, _, one, rfl⟩, names, _, listed, more⟩ kw after rfl
  obtain ⟨u, words, _, rp, two, rfl, list, items⟩ := listed
  obtain ⟨_, _, ⟨lb, _, three, rfl⟩, body, _, ⟨v, rest, rb, four, rfl, spelled⟩, rfl, rfl⟩ := more
  obtain ⟨params, rfl, rfl⟩ := named_of_itemized items
  obtain ⟨parts, rfl, each, sequence⟩ := spelled
  rw [List.tail_cons] at one two three four
  subst one two three four
  exact .of_spells (by simp) (.fnLit kw lp rp lb rb params parts list each sequence)

theorem finds_operand (fuel : Nat) : Finds (operand expr fuel) Primary := by
  refine (Finds.current.bind (Q := fun token ts e ts' => Heads ts token → Primary ts e ts')
    fun token => ?_).weaken ?_
  · split
    · rename_i kind
      exact finds_atom ⟨token, kind⟩ (by decide) (.ident ⟨token, kind⟩)
    · rename_i kind
      exact finds_integerLiteral ⟨token, kind⟩
    · rename_i kind
      exact finds_atom ⟨token, kind⟩ (by decide) (.yes ⟨token, kind⟩)
    · rename_i kind
      exact finds_atom ⟨token, kind⟩ (by decide) (.no ⟨token, kind⟩)
    · rename_i kind
      exact finds_unaryExpression parts token (.inl kind)
    · rename_i kind
      exact finds_unaryExpression parts token (.inr kind)
    · rename_i kind
      exact finds_grouped parts ⟨token, kind⟩
    · rename_i kind
      refine (finds_conditional parts counts fuel).weaken fun ts e ts' found heads => ?_
      obtain ⟨rest, rfl⟩ := heads.real kind (by decide)
      exact found ⟨token, kind⟩ rest rfl
    · rename_i kind
      refine (finds_functionLiteral parts counts fuel).weaken fun ts e ts' found heads => ?_
      obtain ⟨rest, rfl⟩ := heads.real kind (by decide)
      exact found ⟨token, kind⟩ rest rfl
    · exact (Finds.reject _ _).weaken fun _ _ _ impossible => impossible.elim
  · rintro ts e ts' ⟨token, _, ⟨rfl, heads⟩, found⟩
    exact found heads

end Blocks

theorem finds_continuation (fuel : Nat) (left : Node) (next : Token) :
    Finds (continuation expr fuel left next) fun ts e ts' => ∀ m w rest, ts = next :: rest →
      Spells (.expression m) left w → 0 < (Precedence.ofKind next.kind).level →
      (Precedence.ofKind next.kind).level ≤ m → ∃ v t after, rest = v ++ after ∧ ts' = t :: after ∧
        Spells (.expression (Precedence.ofKind next.kind).level) e (w ++ next :: v) ∧
        levelAhead after ≤ (Precedence.ofKind next.kind).level := by
  unfold continuation
  split
  · rename_i kind
    have each := (parts .lowest (by decide)).weaken fun ts e ts' shown => by
      obtain ⟨w, t, rest, before, after, spelled, -⟩ := shown.lowest
      exact (⟨w, t, rest, before, after, spelled⟩ : ∃ w t rest, ts = w ++ rest ∧ ts' = t :: rest ∧
        Spells (.expression 1) e w)
    refine ((finds_items each fuel).bind fun args => .pure (Node.call left args)).weaken ?_
    rintro ts e ts' ⟨_, _, ⟨v, words, after, rp, before, rfl, list, args, rfl, rfl, spelled⟩, rfl,
      rfl⟩ m w rest rfl callee - tight
    rw [List.tail_cons] at before
    subst before
    rw [kind] at tight ⊢
    exact ⟨v ++ [rp.1], rp.1, after, by simp, rfl, .call ⟨next, kind⟩ rp args (Nat.le_refl _)
      (callee.loosen tight) spelled list, levelAhead_le after⟩
  · rename_i notCall
    have most := level_le_of_ne notCall
    refine (Finds.advance.bind fun _ => (parts _ (by omega)).bind fun right =>
      .pure (Node.binary next.literal left right)).weaken ?_
    rintro ts e ts' ⟨_, _, rfl, right, _, ⟨n, v, t, after, before, rfl, spelled, fits, low⟩, rfl,
      rfl⟩ m w rest rfl first joins tight
    rw [List.tail_cons] at before
    subst before
    have above : (Precedence.ofKind next.kind).level + 1 ≤ n := by
      rcases fits with less | ⟨unary, -⟩
      · exact less
      · rw [unary] at most
        exact absurd most (by decide)
    have level := infixLevel_of_joins joins notCall
    exact ⟨v, t, after, rfl, rfl, .binary next level (Nat.le_refl _) (first.loosen tight)
      (spelled.loosen above), low⟩

/-- The loop keeps a left side that the next token may follow. -/
theorem finds_operators (floor : Precedence) (fuel : Nat) (left : Node) :
    Finds (operators expr floor fuel left) fun ts e ts' => ∀ m w t rest, ts = t :: rest →
      Spells (.expression m) left w → Fits floor m → levelAhead rest ≤ m →
      ∃ v u after, rest = v ++ after ∧ ts' = u :: after ∧ levelAhead after ≤ floor.level ∧
        ∃ n, Spells (.expression n) e (w ++ v) ∧ Fits floor n := by
  induction fuel generalizing left with
  | zero => exact .fail _
  | succ fuel ih =>
    refine (Finds.peek.bind fun next => .ite (Finds.advance.bind fun _ =>
      (finds_continuation parts fuel left next).bind fun longer => ih longer)
      (.pure left)).weaken ?_
    rintro ts e ts' ⟨next, _, ⟨rfl, heads⟩, more | none⟩ m w t rest rfl spelled fits tight
    · obtain ⟨joins, _, _, rfl, longer, _, found, further⟩ := more
      obtain ⟨rest, rfl⟩ := heads.real rfl fun ended => by
        rw [ended] at joins
        exact absurd joins (Nat.not_lt_zero _)
      obtain ⟨v, u, middle, rfl, rfl, spelled', low⟩ :=
        found m w rest rfl spelled (Nat.zero_lt_of_lt joins) tight
      obtain ⟨v', u', after, rfl, rfl, stop, n, whole, fits'⟩ :=
        further _ _ u middle rfl spelled' (.inl joins) low
      refine ⟨next :: (v ++ v'), u', after, by simp, rfl, stop, n, ?_, fits'⟩
      simpa using whole
    · obtain ⟨stays, rfl, rfl⟩ := none
      refine ⟨[], t, rest, rfl, rfl, ?_, m, by simpa using spelled, fits⟩
      rw [levelAhead, show kindAhead rest = next.kind from heads.kind]
      exact Nat.not_lt.mp stays

end Forms

theorem finds_expression (fuel : Nat) (floor : Precedence) (below : floor.level ≤ 5) :
    Finds (expression fuel floor) (Shows floor) := by
  induction fuel generalizing floor with
  | zero => exact .fail _
  | succ fuel ih =>
    have counts := balanced_inherited.expression fuel
    refine ((finds_operand ih counts fuel).bind fun left =>
      finds_operators ih floor fuel left).weaken ?_
    rintro ts e ts' ⟨left, _, ⟨m, w, t, rest, rfl, rfl, spelled, tight, five⟩, found⟩
    have fits : Fits floor m := fits_of_le below five
    obtain ⟨v, u, after, rfl, rfl, stop, n, whole, fits'⟩ := found m w t rest rfl spelled fits tight
    exact ⟨n, w ++ v, u, after, by simp, rfl, whole, fits', stop⟩

end Parser

/-- A parse without diagnostics gave up nothing and took every token up to the end of input. -/
theorem spelling_of_run (run : parseTokens ts = .ok p) (silent : p.diagnostics = []) :
    p.omitted = 0 ∧ ∃ w tail, ts = w ++ tail ∧ kindAhead tail = .eof ∧
      SpellsBody p.statements w := by
  let fuel := ts.length + 1
  let start : ParserState := ⟨.ofTokens ts, [], 0⟩
  have counts := Parser.balanced_inherited.expression fuel
  have balanced := Parser.balanced_inherited.programBody counts fuel
  have finds := Parser.finds_programBody (Parser.finds_expression fuel) counts fuel
  unfold parseTokens at run
  cases result : Parser.programBody (Parser.expression fuel) fuel start with
  | ok statements s =>
    simp only [fuel, start] at result
    simp only [result, Except.ok.injEq] at run
    subst run
    obtain ⟨-, level⟩ := balanced.ok result
    simp only [show s.diagnostics = [] from silent, List.length_nil] at level
    have quiet : s.omitted = 0 := by omega
    obtain ⟨w, before, spelled, ended⟩ := (finds _ _ _ result).2 quiet
    exact ⟨quiet, w, _, before, ended, spelled⟩
  | error e s =>
    simp only [fuel, start] at result
    simp only [result] at run
    cases e with
    | recorded =>
      cases run
      -- what stops the whole parse is recorded, which the silence excludes
      obtain ⟨-, level⟩ := balanced.recorded result
      simp only [show s.diagnostics = [] from silent, List.length_nil] at level
      omega
    | fault f => cases run

/-- The parser gives a program without a diagnostic exactly for the spellings of that program
up to the end of input. -/
theorem parseTokens_eq_iff_spells (ts : List Token) (body : List Node) :
    parseTokens ts = .ok ⟨body, [], 0⟩ ↔
      ∃ w tail, ts = w ++ tail ∧ kindAhead tail = .eof ∧ SpellsBody body w := by
  constructor
  · intro run
    exact (spelling_of_run run rfl).2
  · rintro ⟨w, tail, rfl, ended, spelled⟩
    exact run_spelling spelled ended

section Mixed

/-- A token that stands nowhere in particular. -/
def placeless (kind : TokenKind) (literal : String) : Mark kind := kind.mark (utf16 literal) .zero

/-- The tokens of `-a * b(c,) - ((d)) == e f`. -/
def mixedTokens : List Token :=
  [(placeless .minus "-").1, (placeless .ident "a").1, (placeless .asterisk "*").1,
    (placeless .ident "b").1, (placeless .lparen "(").1, (placeless .ident "c").1,
    (placeless .comma ",").1, (placeless .rparen ")").1, (placeless .minus "-").1,
    (placeless .lparen "(").1, (placeless .lparen "(").1, (placeless .ident "d").1,
    (placeless .rparen ")").1, (placeless .rparen ")").1, (placeless .eq "==").1,
    (placeless .ident "e").1, (placeless .ident "f").1]

theorem parseTokens_mixedTokens : parseTokens (mixedTokens ++ [.endOfInput .zero]) = .ok
    ⟨[.exprStmt (.binary (utf16 "==") (.binary (utf16 "-") (.binary (utf16 "*")
        (.unary (utf16 "-") (.ident (utf16 "a"))) (.call (.ident (utf16 "b")) [.ident (utf16 "c")]))
        (.ident (utf16 "d"))) (.ident (utf16 "e"))), .exprStmt (.ident (utf16 "f"))], [], 0⟩ := by
  let c := placeless .ident "c"
  have negation := Spells.unary (n := 4) (placeless .minus "-").1 (.inr rfl) (by decide)
    (.ident (placeless .ident "a"))
  have call := Spells.call (n := 5) (placeless .lparen "(") (placeless .rparen ")")
    [(.ident c.1.literal, [c.1])] (by decide) (.ident (placeless .ident "b"))
    (by simpa using .ident c) (.items (.trailing (placeless .comma ",")))
  have product := Spells.binary (n := 3) (placeless .asterisk "*").1 rfl (by decide) negation call
  have groups := Spells.grouped (n := 4) (placeless .lparen "(") (placeless .rparen ")")
    (.grouped (placeless .lparen "(") (placeless .rparen ")") (.ident (placeless .ident "d")))
  have difference := Spells.binary (n := 1) (placeless .minus "-").1 rfl (by decide) product groups
  have equation := Spells.binary (n := 1) (placeless .eq "==").1 rfl (by decide) difference
    (.ident (placeless .ident "e"))
  have last := Spells.exprStmt (.ident (placeless .ident "f"))
  have sequence : Sequence [mixedTokens.dropLast, [(placeless .ident "f").1]] mixedTokens :=
    .bare (.bare .done (by decide) (by decide)) (by decide) (by decide)
  refine (parseTokens_eq_iff_spells _ _).mpr ⟨mixedTokens, [.endOfInput .zero], rfl, rfl,
    [(_, _), (_, _)], rfl, ?_, sequence⟩
  intro s member
  rcases List.mem_cons.mp member with rfl | member
  · exact .exprStmt equation
  · rw [List.mem_singleton.mp member]
    exact last

end Mixed

end Monkey
