import Monkey.Proofs.Grammar.Spelling

/-! The parser reads every spelling of a tree back as that tree. An expression is followed
through the loop of operators: after the tokens of a tree the loop stands before whatever
comes next, with the tree as its left side. -/
namespace Monkey

/-- How tightly the next token joins. -/
abbrev levelAhead (ts : List Token) : Nat := (Precedence.ofKind (kindAhead ts)).level

theorem level_infix (level : infixLevel? kind = some l) :
    (Precedence.ofKind kind).level = l ∧ kind ≠ .lparen ∧ kind ≠ .elseWord ∧ 1 ≤ l ∧ l ≤ 4 := by
  cases kind <;> first | cases level; decide | cases level

namespace Parser

/-- An expression of tightness `n` or more can stand above the floor. -/
def Fits (floor : Precedence) (n : Nat) : Prop := floor.level < n ∨ floor = .unary ∧ n = 5

/-- The tokens bring the loop of operators to the tree, whatever comes next. -/
def Climbs (n : Nat) (e : Node) (w : List Token) : Prop :=
  ∀ (fuel : Nat) (floor : Precedence) (s : ParserState) rest, w.length ≤ fuel →
    Fits floor n → levelAhead rest ≤ n → kindAhead rest ≠ .elseWord →
    ∃ k t, fuel < k + w.length ∧ expression (fuel + 1) floor (s.reading (w ++ rest)) =
      operators (expression fuel) floor k e (s.reading (t :: rest))

/-- The parser takes the tokens and nothing of what follows them. -/
def Takes (p : Parser α) (a : α) (w : List Token) (follow : List Token → Prop) : Prop :=
  ∀ (s : ParserState) rest, follow rest →
    ∃ t, p (s.reading (w ++ rest)) = .ok a (s.reading (t :: rest))

theorem operators_stop (expr : Precedence → Parser Node) (floor : Precedence) (k : Nat)
    (left : Node) (s : ParserState) (t : Token) (rest : List Token)
    (stop : levelAhead rest ≤ floor.level) :
    operators expr floor (k + 1) left (s.reading (t :: rest)) =
      .ok left (s.reading (t :: rest)) := by
  have stays : ¬floor.level < levelAhead rest := Nat.not_lt.mpr stop
  rw [operators, run_then (run_peek _), ParserState.peek_reading_kind, if_neg stays]
  rfl

theorem operators_step (expr : Precedence → Parser Node) (floor : Precedence) (k : Nat)
    (left : Node) (s : ParserState) (t next : Token) (rest : List Token)
    (joins : floor.level < (Precedence.ofKind next.kind).level) :
    operators expr floor (k + 1) left (s.reading (t :: next :: rest)) =
      (continuation expr k left next >>= operators expr floor k) (s.reading (next :: rest)) := by
  rw [operators, run_then (run_peek _), ParserState.peek_reading_cons, if_pos joins,
    run_then (run_advance _)]
  rfl

/-- What follows neither joins nor continues an expression. -/
def Closes (rest : List Token) : Prop := levelAhead rest = 0 ∧ kindAhead rest ≠ .elseWord

theorem closes_cons (t : Mark kind)
    (closing : (Precedence.ofKind kind).level = 0 ∧ kind ≠ .elseWord) (rest : List Token) :
    Closes (t.1 :: rest) := by
  simpa only [Closes, levelAhead, kindAhead, t.2] using closing

namespace Climbs

theorem takes (climbs : Climbs n e w) (fuel : Nat) (floor : Precedence) (enough : w.length < fuel)
    (fits : Fits floor n) : Takes (expression fuel floor) e w fun rest =>
      levelAhead rest ≤ floor.level ∧ kindAhead rest ≠ .elseWord := by
  intro s rest follow
  obtain ⟨stop, notElse⟩ := follow
  have low : levelAhead rest ≤ n := by
    rcases fits with less | ⟨rfl, rfl⟩
    · omega
    · exact stop
  cases fuel with
  | zero => omega
  | succ fuel =>
    obtain ⟨k, t, more, run⟩ := climbs fuel floor s rest (by omega) fits low notElse
    cases k with
    | zero => omega
    | succ k => exact ⟨t, run.trans (operators_stop _ _ _ _ _ _ _ stop)⟩

theorem takes_lowest (climbs : Climbs 1 e w) (fuel : Nat) (enough : w.length < fuel) :
    Takes (expression fuel .lowest) e w Closes := by
  intro s rest closes
  exact climbs.takes fuel .lowest enough (.inl Nat.one_pos) s rest
    ⟨Nat.le_of_eq closes.1, closes.2⟩

/-- A tree whose first token decides its form. -/
theorem of_operand (nonempty : w ≠ [])
    (run : ∀ fuel, w.length ≤ fuel → Takes (operand (expression fuel) fuel) e w
      fun rest => levelAhead rest ≤ n ∧ kindAhead rest ≠ .elseWord) : Climbs n e w := by
  intro fuel floor s rest enough _ low notElse
  obtain ⟨t, operand⟩ := run fuel enough s rest ⟨low, notElse⟩
  have positive := List.length_pos_iff.mpr nonempty
  exact ⟨fuel, t, by omega, run_then operand⟩

end Climbs

section Atoms

variable {n : Nat}

theorem climbs_ident (x : Mark .ident) : Climbs n (.ident x.1.literal) [x.1] := by
  refine .of_operand (by simp) fun fuel _ s rest _ => ⟨x.1, ?_⟩
  simp only [List.singleton_append, operand, run_bind, run_current,
    ParserState.current_reading_cons, x.2]
  rfl

theorem climbs_int (x : Mark .int) {v : Int} (read : integer? x.1.literal = some v)
    (small : v ≤ 9223372036854775807) : Climbs n (.int v) [x.1] := by
  refine .of_operand (by simp) fun fuel _ s rest _ => ⟨x.1, ?_⟩
  have fits : ¬maxInteger < v := Int.not_lt.mpr small
  simp only [List.singleton_append, operand, run_bind, run_current,
    ParserState.current_reading_cons, x.2, integerLiteral, read, fits]
  rfl

theorem climbs_yes (x : Mark .trueWord) : Climbs n (.bool true) [x.1] := by
  refine .of_operand (by simp) fun fuel _ s rest _ => ⟨x.1, ?_⟩
  simp only [List.singleton_append, operand, run_bind, run_current,
    ParserState.current_reading_cons, x.2]
  rfl

theorem climbs_no (x : Mark .falseWord) : Climbs n (.bool false) [x.1] := by
  refine .of_operand (by simp) fun fuel _ s rest _ => ⟨x.1, ?_⟩
  simp only [List.singleton_append, operand, run_bind, run_current,
    ParserState.current_reading_cons, x.2]
  rfl

end Atoms

theorem run_expect_reading (s : ParserState) (c : Token) (t : Mark kind) (rest : List Token) :
    expect kind (s.reading (c :: t.1 :: rest)) = .ok () (s.reading (t.1 :: rest)) := by
  rw [run_expect, ParserState.peek_reading_cons, if_pos t.2]
  rfl

theorem climbs_grouped (lp : Mark .lparen) (rp : Mark .rparen) (inner : Climbs 1 e w) :
    Climbs n e (lp.1 :: (w ++ [rp.1])) := by
  refine .of_operand (by simp) fun fuel enough s rest _ => ⟨rp.1, ?_⟩
  simp only [List.length_cons, List.length_append] at enough
  obtain ⟨t, run⟩ := inner.takes_lowest fuel (by omega) s (rp.1 :: rest)
    (closes_cons rp (by decide) rest)
  simp only [List.cons_append, operand, run_bind, run_current, ParserState.current_reading_cons,
    lp.2, grouped, run_advance, ParserState.reading_advance, List.tail_cons, List.append_assoc,
    List.nil_append, run, run_expect_reading]
  rfl

theorem climbs_unary (op : Token) (kind : op.kind = .bang ∨ op.kind = .minus) (le : n ≤ 5)
    (operand : Climbs 5 e w) : Climbs n (.unary op.literal e) (op :: w) := by
  refine .of_operand (by simp) fun fuel enough s rest follow => ?_
  obtain ⟨low, notElse⟩ := follow
  obtain ⟨t, run⟩ := operand.takes fuel .unary enough (.inr ⟨rfl, rfl⟩) s rest
    ⟨Nat.le_trans low le, notElse⟩
  refine ⟨t, ?_⟩
  rcases kind with kind | kind
  all_goals
    simp only [List.cons_append, Parser.operand, run_bind, run_current,
      ParserState.current_reading_cons, kind, unaryExpression, run_advance,
      ParserState.reading_advance, List.tail_cons, run]
    rfl

theorem climbs_binary (op : Token) (level : infixLevel? op.kind = some l) (le : n ≤ l)
    (left : Climbs l a w) (right : Climbs (l + 1) b v) :
    Climbs n (.binary op.literal a b) (w ++ op :: v) := by
  intro fuel floor s rest enough fits low notElse
  obtain ⟨same, notCall, opNotElse, least, most⟩ := level_infix level
  have above : floor.level < l := by
    rcases fits with less | ⟨-, rfl⟩ <;> omega
  simp only [List.length_append, List.length_cons] at enough ⊢
  -- the loop comes to the left operand and meets the operator
  obtain ⟨k, t, more, first⟩ := left fuel floor s (op :: (v ++ rest)) (by omega) (.inl above)
    (Nat.le_of_eq same) opNotElse
  cases k with
  | zero => omega
  | succ k =>
    -- the right operand ends where an operator of the same level could go on
    obtain ⟨u, second⟩ := right.takes fuel (.ofKind op.kind) (by omega) (.inl (by omega)) s rest
      ⟨by omega, notElse⟩
    refine ⟨k, u, by omega, ?_⟩
    have joins : floor.level < (Precedence.ofKind op.kind).level := by omega
    rw [List.append_assoc, List.cons_append, first, operators_step _ _ _ _ _ _ _ _ joins]
    simp only [continuation, if_neg notCall, run_bind, run_advance, ParserState.reading_advance,
      List.tail_cons, second]
    rfl

theorem ne_nil_of_starts (starts : kindAhead w ∈ starters .statement) : w ≠ [] := by
  rintro rfl
  exact absurd starts (by decide)

theorem starts_append (starts : kindAhead w ∈ starters .statement) (v : List Token) :
    kindAhead (w ++ v) ∈ starters .statement := by
  rwa [kindAhead_append (ne_nil_of_starts starts)]

theorem kindAhead_ne (starts : kindAhead w ∈ starters .statement) (kind : TokenKind)
    (other : kind ∉ starters .statement) : kindAhead w ≠ kind := by
  rintro rfl
  exact other starts

section Lists

variable {item : Parser α}

theorem closes_commas (list : Commas words v) (rp : Mark .rparen) (rest : List Token) :
    Closes (v ++ rp.1 :: rest) := by
  cases list with
  | done => exact closes_cons rp (by decide) rest
  | trailing c => exact closes_cons c (by decide) _
  | next c => exact closes_cons c (by decide) _

theorem run_moreItems (args : List (α × List Token)) (list : Commas (args.map (·.2)) v)
    (each : ∀ a ∈ args, Takes item a.1 a.2 Closes)
    (starts : ∀ a ∈ args, kindAhead a.2 ∈ starters .statement) (fuel : Nat)
    (enough : v.length < fuel) (s : ParserState) (t : Token) (rp : Mark .rparen)
    (rest : List Token) :
    ∃ u, moreItems item fuel (s.reading (t :: (v ++ rp.1 :: rest))) =
      .ok (args.map (·.1)) (s.reading (u :: rp.1 :: rest)) := by
  generalize words : args.map (·.2) = ws at list
  induction list generalizing args fuel t with
  | done =>
    obtain rfl := List.map_eq_nil_iff.mp words
    cases fuel with
    | zero => omega
    | succ fuel =>
      refine ⟨t, ?_⟩
      simp only [moreItems, run_bind, run_peek, List.nil_append, ParserState.peek_reading_cons,
        rp.2]
      rfl
  | trailing c =>
    obtain rfl := List.map_eq_nil_iff.mp words
    cases fuel with
    | zero => omega
    | succ fuel =>
      refine ⟨c.1, ?_⟩
      simp only [moreItems, run_bind, run_peek, List.singleton_append,
        ParserState.peek_reading_cons, c.2, if_true, run_advance, ParserState.reading_advance,
        List.tail_cons, rp.2]
      rfl
  | @next ws v w c list ih =>
    obtain ⟨⟨a, w'⟩, args, rfl, rfl, others⟩ := List.map_eq_cons_iff.mp words
    cases fuel with
    | zero => omega
    | succ fuel =>
      have begins := starts (a, w') (by simp)
      have more := kindAhead_ne (starts_append begins (v ++ rp.1 :: rest)) .rparen (by decide)
      have positive := List.length_pos_iff.mpr (ne_nil_of_starts begins)
      simp only [List.length_cons, List.length_append] at enough positive
      obtain ⟨u, first⟩ := each (a, w') (by simp) s (v ++ rp.1 :: rest) (closes_commas list rp rest)
      obtain ⟨u', further⟩ := ih args (fun b listed => each b (by simp [listed]))
        (fun b listed => starts b (by simp [listed])) fuel (by omega) u others
      refine ⟨u', ?_⟩
      simp only [moreItems, run_bind, run_peek, List.cons_append, List.append_assoc,
        ParserState.peek_reading_cons, c.2, if_true, run_advance, ParserState.reading_advance,
        List.tail_cons, ParserState.peek_reading_kind, if_neg more, first, further]
      rfl

theorem run_items (args : List (α × List Token)) (list : Listed (args.map (·.2)) v)
    (each : ∀ a ∈ args, Takes item a.1 a.2 Closes)
    (starts : ∀ a ∈ args, kindAhead a.2 ∈ starters .statement) (fuel : Nat)
    (enough : v.length < fuel) (s : ParserState) (t : Token) (rp : Mark .rparen)
    (rest : List Token) :
    items item fuel (s.reading (t :: (v ++ rp.1 :: rest))) =
      .ok (args.map (·.1)) (s.reading (rp.1 :: rest)) := by
  generalize words : args.map (·.2) = ws at list
  cases list with
  | empty =>
    obtain rfl := List.map_eq_nil_iff.mp words
    simp only [items, run_bind, run_peek, List.nil_append, ParserState.peek_reading_cons, rp.2,
      if_true, run_advance, ParserState.reading_advance, List.tail_cons]
    rfl
  | @items ws v w list =>
    obtain ⟨⟨a, w'⟩, args, rfl, rfl, others⟩ := List.map_eq_cons_iff.mp words
    have begins := starts (a, w') (by simp)
    have more := kindAhead_ne (starts_append begins (v ++ rp.1 :: rest)) .rparen (by decide)
    simp only [List.length_append] at enough
    obtain ⟨u, first⟩ := each (a, w') (by simp) s (v ++ rp.1 :: rest) (closes_commas list rp rest)
    obtain ⟨u', further⟩ := run_moreItems args (others ▸ list)
      (fun b listed => each b (by simp [listed])) (fun b listed => starts b (by simp [listed]))
      fuel (by omega) s u rp rest
    simp only [items, run_bind, run_peek, List.append_assoc, ParserState.peek_reading_kind,
      if_neg more, run_advance, ParserState.reading_advance, List.tail_cons, first, further,
      run_expect_reading]
    rfl

end Lists

theorem climbs_call (lp : Mark .lparen) (rp : Mark .rparen) (args : List (Node × List Token))
    (le : n ≤ 6) (callee : Climbs 6 f w) (each : ∀ a ∈ args, Climbs 1 a.1 a.2)
    (starts : ∀ a ∈ args, kindAhead a.2 ∈ starters .statement) (list : Listed (args.map (·.2)) v)
    (short : ∀ a ∈ args, a.2.length ≤ v.length) :
    Climbs n (.call f (args.map (·.1))) (w ++ lp.1 :: (v ++ [rp.1])) := by
  intro fuel floor s rest enough fits low notElse
  have above : floor.level < 6 := by
    rcases fits with less | ⟨rfl, -⟩
    · omega
    · decide
  simp only [List.length_append, List.length_cons] at enough ⊢
  obtain ⟨k, t, more, first⟩ := callee fuel floor s (lp.1 :: (v ++ [rp.1] ++ rest)) (by omega)
    (.inl above) (by simp [levelAhead, kindAhead, lp.2, Precedence.ofKind, Precedence.level])
    (by simp [kindAhead, lp.2])
  cases k with
  | zero => omega
  | succ k =>
    have takes : ∀ a ∈ args, Takes (expression fuel .lowest) a.1 a.2 Closes := by
      intro a listed
      have := short a listed
      exact (each a listed).takes_lowest fuel (by omega)
    have second := run_items args list takes starts k (by omega) s lp.1 rp rest
    refine ⟨k, rp.1, by omega, ?_⟩
    have joins : floor.level < (Precedence.ofKind lp.1.kind).level := by
      rw [lp.2]
      exact above
    rw [List.append_assoc, List.cons_append, first, operators_step _ _ _ _ _ _ _ _ joins]
    simp only [List.append_assoc, List.singleton_append, continuation, lp.2, if_true, run_bind,
      second]
    rfl

end Parser
end Monkey
