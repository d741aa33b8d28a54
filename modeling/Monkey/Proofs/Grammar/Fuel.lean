import Monkey.Proofs.Grammar.Lockstep
import Monkey.Proofs.Grammar.Outcome

/-! Fuel bounds the parser and decides nothing. A run that does not use it up goes the same way with
more of it, and the number of tokens is always enough. So parsing ends on every list of tokens,
whatever they are, with a program or at an integer that has no reading. -/
namespace Monkey

namespace Parser

/-- `q` does what `p` does, unless `p` runs out of fuel. -/
def Outlasts (p q : Parser α) : Prop :=
  ∀ s, q s = p s ∨ ∃ s', p s = .error (.fault .tooDeep) s'

namespace Outlasts

variable {p p' q q' : Parser α}

theorem refl (p : Parser α) : Outlasts p p := fun _ => .inl rfl

theorem starved (q : Parser α) : Outlasts (fail .tooDeep) q := fun s => .inr ⟨s, rfl⟩

theorem bind {k k' : α → Parser β} (first : Outlasts p q) (next : ∀ a, Outlasts (k a) (k' a)) :
    Outlasts (p >>= k) (q >>= k') := by
  intro s
  rw [run_bind, run_bind]
  rcases first s with same | ⟨s', short⟩
  · rw [same]
    cases p s with
    | ok a middle => exact next a middle
    | error e s' => exact .inl rfl
  · rw [short]
    exact .inr ⟨s', rfl⟩

theorem ite {c : Prop} [Decidable c] (yes : Outlasts p q) (no : Outlasts p' q') :
    Outlasts (if c then p else p') (if c then q else q') := by
  split
  · exact yes
  · exact no

theorem orOmit (run : Outlasts p q) : Outlasts (orOmit p) (orOmit q) := by
  intro s
  unfold Parser.orOmit
  rcases run s with same | ⟨s', short⟩
  · rw [same]
    exact .inl rfl
  · rw [short]
    exact .inr ⟨s', rfl⟩

end Outlasts

section Forms

variable {n m : Nat}

theorem outlasts_moreItems {item item' : Parser α} (each : Outlasts item item') (le : n ≤ m) :
    Outlasts (moreItems item n) (moreItems item' m) := by
  induction n generalizing m with
  | zero => exact .starved _
  | succ n ih =>
    obtain ⟨m, rfl⟩ := Nat.exists_eq_add_one_of_ne_zero (Nat.ne_zero_of_lt le)
    refine (Outlasts.refl peek).bind fun _ => .ite ?_ (.refl _)
    refine (Outlasts.refl advance).bind fun _ => (Outlasts.refl peek).bind fun _ => ?_
    refine .ite (.refl _) ((Outlasts.refl advance).bind fun _ => each.bind fun _ => ?_)
    exact (ih (Nat.le_of_succ_le_succ le)).bind fun _ => .refl _

theorem outlasts_items {item item' : Parser α} (each : Outlasts item item') (le : n ≤ m) :
    Outlasts (items item n) (items item' m) := by
  refine (Outlasts.refl peek).bind fun _ => .ite (.refl _) ?_
  refine (Outlasts.refl advance).bind fun _ => each.bind fun _ => ?_
  exact (outlasts_moreItems each le).bind fun _ => .refl _

variable {expr expr' : Precedence → Parser Node}
  (parts : ∀ floor, Outlasts (expr floor) (expr' floor))
include parts

theorem outlasts_statement : Outlasts (statement expr) (statement expr') := by
  refine (Outlasts.refl current).bind fun token => ?_
  split
  · refine (Outlasts.refl (expect .ident)).bind fun _ => (Outlasts.refl current).bind fun _ => ?_
    refine (Outlasts.refl (expect .assign)).bind fun _ => (Outlasts.refl advance).bind fun _ => ?_
    exact (parts .lowest).bind fun _ => .refl _
  · exact (Outlasts.refl advance).bind fun _ => (parts .lowest).bind fun _ => .refl _
  · exact (parts .lowest).bind fun _ => .refl _

/-- One round of a loop of statements, whose further rounds are `loop`. -/
theorem outlasts_round {loop loop' : Parser (List Node)} (further : Outlasts loop loop') :
    Outlasts
      (do let first ← orOmit (statement expr); advance; let rest ← loop
          return first.toList ++ rest)
      (do let first ← orOmit (statement expr'); advance; let rest ← loop'
          return first.toList ++ rest) := by
  refine (outlasts_statement parts).orOmit.bind fun _ => (Outlasts.refl advance).bind fun _ => ?_
  exact further.bind fun _ => .refl _

theorem outlasts_blockBody (opening : Cursor) (le : n ≤ m) :
    Outlasts (blockBody expr opening n) (blockBody expr' opening m) := by
  induction n generalizing m with
  | zero => exact .starved _
  | succ n ih =>
    obtain ⟨m, rfl⟩ := Nat.exists_eq_add_one_of_ne_zero (Nat.ne_zero_of_lt le)
    refine (Outlasts.refl current).bind fun _ => .ite (.refl _) (.ite (.refl _) ?_)
    exact outlasts_round parts (ih (Nat.le_of_succ_le_succ le))

theorem outlasts_programBody (le : n ≤ m) :
    Outlasts (programBody expr n) (programBody expr' m) := by
  induction n generalizing m with
  | zero => exact .starved _
  | succ n ih =>
    obtain ⟨m, rfl⟩ := Nat.exists_eq_add_one_of_ne_zero (Nat.ne_zero_of_lt le)
    refine (Outlasts.refl current).bind fun _ => .ite (.refl _) ?_
    exact outlasts_round parts (ih (Nat.le_of_succ_le_succ le))

theorem outlasts_block (le : n ≤ m) : Outlasts (block expr n) (block expr' m) :=
  (Outlasts.refl current).bind fun opening => (Outlasts.refl advance).bind fun _ =>
    outlasts_blockBody parts opening.start le

theorem outlasts_conditional (le : n ≤ m) :
    Outlasts (conditional expr n) (conditional expr' m) := by
  refine (Outlasts.refl (expect .lparen)).bind fun _ => (Outlasts.refl advance).bind fun _ => ?_
  refine (parts .lowest).bind fun _ => (Outlasts.refl (expect .rparen)).bind fun _ => ?_
  refine (Outlasts.refl (expect .lbrace)).bind fun _ => (outlasts_block parts le).bind fun _ => ?_
  refine (Outlasts.refl peek).bind fun _ => .ite ?_ (.refl _)
  refine (Outlasts.refl advance).bind fun _ => (Outlasts.refl (expect .lbrace)).bind fun _ => ?_
  exact (outlasts_block parts le).bind fun _ => .refl _

theorem outlasts_functionLiteral (le : n ≤ m) :
    Outlasts (functionLiteral expr n) (functionLiteral expr' m) := by
  refine (Outlasts.refl (expect .lparen)).bind fun _ => ?_
  refine (outlasts_items (.refl parameter) le).bind fun _ => ?_
  refine (Outlasts.refl (expect .lbrace)).bind fun _ => ?_
  exact (outlasts_block parts le).bind fun _ => .refl _

theorem outlasts_operand (le : n ≤ m) : Outlasts (operand expr n) (operand expr' m) := by
  have unary (operator : Text) :
      Outlasts (unaryExpression expr operator) (unaryExpression expr' operator) :=
    (Outlasts.refl advance).bind fun _ => (parts .unary).bind fun _ => .refl _
  refine (Outlasts.refl current).bind fun token => ?_
  split
  · exact .refl _
  · exact .refl _
  · exact .refl _
  · exact .refl _
  · exact unary token.literal
  · exact unary token.literal
  · exact (Outlasts.refl advance).bind fun _ => (parts .lowest).bind fun _ => .refl _
  · exact outlasts_conditional parts le
  · exact outlasts_functionLiteral parts le
  · exact .refl _

theorem outlasts_continuation (le : n ≤ m) (left : Node) (next : Token) :
    Outlasts (continuation expr n left next) (continuation expr' m left next) := by
  refine .ite ((outlasts_items (parts .lowest) le).bind fun _ => .refl _) ?_
  exact (Outlasts.refl advance).bind fun _ => (parts _).bind fun _ => .refl _

theorem outlasts_operators (floor : Precedence) (le : n ≤ m) (left : Node) :
    Outlasts (operators expr floor n left) (operators expr' floor m left) := by
  induction n generalizing m left with
  | zero => exact .starved _
  | succ n ih =>
    obtain ⟨m, rfl⟩ := Nat.exists_eq_add_one_of_ne_zero (Nat.ne_zero_of_lt le)
    have le := Nat.le_of_succ_le_succ le
    refine (Outlasts.refl peek).bind fun next => .ite ?_ (.refl _)
    refine (Outlasts.refl advance).bind fun _ => ?_
    exact (outlasts_continuation parts le left next).bind fun longer => ih le longer

end Forms

theorem outlasts_expression (le : n ≤ m) (floor : Precedence) :
    Outlasts (expression n floor) (expression m floor) := by
  -- the fuel falls with the nesting, and every loop inside has what is left of it
  induction n generalizing m floor with
  | zero => exact .starved _
  | succ n ih =>
    obtain ⟨m, rfl⟩ := Nat.exists_eq_add_one_of_ne_zero (Nat.ne_zero_of_lt le)
    have le := Nat.le_of_succ_le_succ le
    exact (outlasts_operand (ih le) le).bind fun left => outlasts_operators (ih le) floor le left

/-- How a parse may end: with statements, or at an integer among the tokens that has no reading. -/
def Concluded (ts : List Token) : EStateM.Result Interrupt ParserState (List Node) → Prop
  | .ok _ _ => True
  | .error (.fault (.unreadable literal)) _ =>
    ∃ t ∈ ts, t.kind = .int ∧ t.literal = literal ∧ integer? literal = none
  | .error _ _ => False

/-- Fuel beyond the number of tokens brings every parse to its end. -/
theorem concluded_programBody (s : ParserState) :
    Concluded s.stream.tokens (programBody (expression (s.stream.tokens.length + 1))
      (s.stream.tokens.length + 1) s) := by
  generalize here : s.stream.tokens = ts
  have run := makes_programBody ts (n := ts.length) (ts.length + 1)
    (shrinks_inherited.expression (ts.length + 1))
    (fun k le => makes_expression ts (ts.length + 1) k (by omega)) (by omega) s
    ⟨here ▸ List.suffix_refl ts, Nat.le_of_eq (congrArg List.length here)⟩
  have loop := ensures_programBody (expression (ts.length + 1)) (ts.length + 1) s
  unfold Ensures at run loop
  cases result : programBody (expression (ts.length + 1)) (ts.length + 1) s with
  | ok statements s' => trivial
  | error e s' =>
    rw [result] at run loop
    cases e with
    | recorded => exact loop rfl
    | fault f => cases f with
      | unreadable literal => exact run
      | tooDeep => exact run

end Parser

/-- Parsing ends on every list of tokens, with the end of input for ever behind them at any place.
There is one outcome for all the fuel from the number of tokens on: statements with diagnostics, or
an integer among the tokens that has no reading. -/
theorem parsing_ends (ts : List Token) :
    (∀ finish, ∃ outcome, Parser.Concluded ts outcome ∧
      ∀ more rounds, Parser.programBody (Parser.expression (ts.length + 1 + more))
        (ts.length + 1 + rounds) ⟨⟨ts, finish⟩, [], 0⟩ = outcome) ∧
    ((∃ p, parseTokens ts = .ok p) ∨ ∃ t ∈ ts, t.kind = .int ∧ integer? t.literal = none ∧
      parseTokens ts = .error (.unreadable t.literal)) := by
  refine ⟨fun finish => ?_, ?_⟩
  · have ends := Parser.concluded_programBody ⟨⟨ts, finish⟩, [], 0⟩
    refine ⟨_, ends, fun more rounds => ?_⟩
    rcases Parser.outlasts_programBody (Parser.outlasts_expression (Nat.le_add_right _ more))
      (Nat.le_add_right _ rounds) ⟨⟨ts, finish⟩, [], 0⟩ with same | ⟨s, short⟩
    · exact same
    · rw [short] at ends
      exact ends.elim
  · rcases parseTokens_ends ts with ⟨p, run, -⟩ | unread
    · exact .inl ⟨p, run⟩
    · exact .inr unread

end Monkey
