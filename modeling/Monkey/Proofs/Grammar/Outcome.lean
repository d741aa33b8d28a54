import Monkey.Proofs.Grammar.Inheritance
import Monkey.Proofs.Node.WellFormed
import Monkey.Proofs.Token.Numeral
import Monkey.Proofs.Token.Reading

/-! How a parse ends. A bound on the tokens that are left falls with every step that moves
on, so the fuel is never used up, whatever the tokens are; the only fault is an integer
that has no reading. On tokens that were cut from a text the trees are well formed. -/
namespace Monkey

namespace Parser

/-- At most `n` tokens are left, all of them from the end of `ts`. -/
def Within (ts : List Token) (n : Nat) (s : ParserState) : Prop :=
  s.stream.tokens <:+ ts ∧ s.stream.tokens.length ≤ n

/-- Why a run may break off. -/
def Halts (ts : List Token) : Interrupt → Prop
  | .recorded => True
  | .fault (.unreadable literal) =>
    ∃ t ∈ ts, t.kind = .int ∧ t.literal = literal ∧ integer? literal = none
  | .fault .tooDeep => False

/-- From at most `n` tokens the parser stops properly or leaves at most `m` of them, with a
result that satisfies `Q`. -/
def Makes (ts : List Token) (n m : Nat) (p : Parser α) (Q : α → Prop) : Prop :=
  ∀ s, Within ts n s → Ensures p s (fun a s' => Within ts m s' ∧ Q a) fun e _ => Halts ts e

theorem Within.weaken (within : Within ts n s) (le : n ≤ m) : Within ts m s :=
  ⟨within.1, Nat.le_trans within.2 le⟩

namespace Makes

variable {ts : List Token} {n m k : Nat}

theorem pure {Q : α → Prop} (value : Q a) : Makes ts n n (pure a) Q :=
  fun _ within => ⟨within, value⟩

theorem weaken {p : Parser α} {Q R : α → Prop} (run : Makes ts n m p Q) (le : m ≤ k)
    (imp : ∀ a, Q a → R a) : Makes ts n k p R :=
  fun s within => (run s within).weaken
    (fun a _ made => ⟨made.1.weaken le, imp a made.2⟩) fun _ _ halts => halts

theorem relax {p : Parser α} {Q : α → Prop} (run : Makes ts n m p Q) (le : m ≤ k) :
    Makes ts n k p Q :=
  run.weaken le fun _ made => made

theorem bind {p : Parser α} {q : α → Parser β} {P : α → Prop} {Q : β → Prop}
    (first : Makes ts n m p P) (next : ∀ a, P a → Makes ts m k (q a) Q) :
    Makes ts n k (p >>= q) Q := by
  intro s within
  apply ensures_bind.mpr
  exact (first s within).weaken (fun a middle made => next a made.2 middle made.1)
    fun _ _ halts => halts

theorem ite {c : Prop} [Decidable c] {p q : Parser α} {Q : α → Prop}
    (yes : c → Makes ts n m p Q) (no : ¬c → Makes ts n m q Q) :
    Makes ts n m (if c then p else q) Q := by
  split
  · exact yes ‹_›
  · exact no ‹_›

theorem reject {Q : α → Prop} (problem : Problem) (found : Token) :
    Makes ts n m (reject problem found) Q :=
  fun _ _ => trivial

theorem current :
    Makes ts n n current fun t => t.kind = .eof ∨ t ∈ ts ∧ 0 < n := by
  intro s within
  refine ⟨within, ?_⟩
  unfold TokenStream.current
  cases tokens : s.stream.tokens with
  | nil => exact .inl rfl
  | cons t rest =>
    have member : t ∈ s.stream.tokens := by simp [tokens]
    have bound := within.2
    rw [tokens, List.length_cons] at bound
    exact .inr ⟨within.1.subset member, by omega⟩

theorem peek : Makes ts n n peek fun t => t.kind = .eof ∨ t ∈ ts ∧ 1 < n := by
  intro s within
  refine ⟨within, ?_⟩
  unfold TokenStream.peek
  cases tokens : s.stream.tokens.tail with
  | nil => exact .inl rfl
  | cons t rest =>
    have member : t ∈ s.stream.tokens := List.mem_of_mem_tail (by simp [tokens])
    have bound := congrArg List.length tokens
    rw [List.length_tail, List.length_cons] at bound
    have := within.2
    exact .inr ⟨within.1.subset member, by omega⟩

theorem advance : Makes ts n (n - 1) advance fun _ => True := by
  intro s within
  rw [ensures_advance]
  refine ⟨⟨(List.tail_suffix _).trans within.1, ?_⟩, trivial⟩
  have := within.2
  rw [ParserState.tokens_reading, List.length_tail]
  omega

theorem expect (kind : TokenKind) (real : kind ≠ .eof) :
    Makes ts n (n - 1) (expect kind) fun _ => 1 < n := by
  refine peek.bind fun t ahead => ite (fun same => ?_) fun _ => reject _ _
  obtain ended | ⟨-, more⟩ := ahead
  · exact absurd (same.symm.trans ended) real
  · exact advance.weaken (Nat.le_refl _) fun _ _ => more

/-- The token that was looked for is the current one. -/
theorem expect_current {q : Token → Parser α} {Q : α → Prop} (kind : TokenKind)
    (real : kind ≠ .eof)
    (next : ∀ t ∈ ts, t.kind = kind → 1 < n → Makes ts (n - 1) m (q t) Q) :
    Makes ts n m (do Parser.expect kind; let t ← Parser.current; q t) Q := by
  intro s within
  apply ensures_bind.mpr
  unfold Parser.expect
  rw [ensures_bind, ensures_peek, ensures_ite]
  refine ⟨fun same => ?_, fun _ => trivial⟩
  rw [ParserState.peek_kind] at same
  obtain ⟨t, rest, tokens, kindEq⟩ := exists_cons_of_kindAhead same real
  have bound := congrArg List.length tokens
  rw [List.length_tail, List.length_cons] at bound
  have left := within.2
  have member : t ∈ ts :=
    within.1.subset (List.mem_of_mem_tail (tokens ▸ List.mem_cons_self))
  have moved : Within ts (n - 1) (s.reading (t :: rest)) := by
    refine ⟨tokens ▸ (List.tail_suffix _).trans within.1, ?_⟩
    rw [ParserState.tokens_reading, List.length_cons]
    omega
  rw [ensures_advance, tokens, ensures_bind, ensures_current]
  exact next t member kindEq (by omega) _ moved

theorem skipSemicolon : Makes ts n n skipSemicolon fun _ => True :=
  peek.bind fun _ _ => ite (fun _ => advance.weaken (Nat.sub_le n 1) fun _ _ => trivial)
    fun _ => pure trivial

theorem orOmit {p : Parser α} {Q : α → Prop} (shrinks : Shrinks p) (run : Makes ts n n p Q) :
    Makes ts n n (orOmit p) fun o => ∀ a ∈ o, Q a := by
  intro s within
  have ends := run s within
  have left := shrinks s
  unfold Ensures at ends left ⊢
  unfold Parser.orOmit
  cases result : p s with
  | ok a s' =>
    simp only [result] at ends
    refine ⟨ends.1, ?_⟩
    rintro b ⟨⟩
    exact ends.2
  | error e s' =>
    simp only [result] at ends left
    cases e with
    | recorded =>
      refine ⟨⟨left.trans within.1, Nat.le_trans left.length_le within.2⟩, ?_⟩
      rintro b ⟨⟩
    | fault f => exact ends

end Makes

/-- The tree is well formed if the tokens were cut from a text. -/
def Formed (ts : List Token) (role : Role) (n : Node) : Prop :=
  (∀ t ∈ ts, t.Lexed) → WellFormed role n

/-- Each name is one if the tokens were cut from a text. -/
def Named (ts : List Token) (x : Text) : Prop := (∀ t ∈ ts, t.Lexed) → IsName x

section Forms

variable {ts : List Token} {n m fuel : Nat}

theorem makes_integerLiteral (token : Token) (member : token ∈ ts) (kind : token.kind = .int) :
    Makes ts n n (integerLiteral token) (Formed ts .expression) := by
  unfold integerLiteral
  split
  · rename_i unread
    exact fun _ _ => ⟨token, member, kind, rfl, unread⟩
  · rename_i value read
    refine .ite (fun _ => .reject _ _) fun small => .pure fun lexed => ?_
    have taken := ((lexed token member).isNumeral kind).integer?_eq
    obtain rfl := Option.some.inj (read.symm.trans taken)
    have limit : maxInteger = 9223372036854775807 := rfl
    exact .int (by omega) (by omega)

theorem makes_parameter : Makes ts n n parameter (Named ts) := by
  refine Makes.current.bind fun t known => .ite (fun kind => .pure fun lexed => ?_)
    fun _ => .reject _ _
  obtain ended | ⟨member, -⟩ := known
  · exact absurd (kind.symm.trans ended) (by decide)
  · exact (lexed t member).isName kind

theorem makes_moreItems {item : Parser α} {Q : α → Prop}
    (each : ∀ k < n, Makes ts k k item Q) (enough : n < fuel) :
    Makes ts n n (moreItems item fuel) fun as => ∀ a ∈ as, Q a := by
  induction fuel generalizing n with
  | zero => omega
  | succ fuel ih =>
    refine Makes.peek.bind fun t ahead => .ite (fun comma => ?_) fun _ => .pure (by simp)
    obtain ended | ⟨-, more⟩ := ahead
    · exact absurd (comma.symm.trans ended) (by decide)
    refine Makes.advance.bind fun _ _ => Makes.peek.bind fun _ _ => .ite (fun _ => ?_) fun _ => ?_
    · exact (Makes.pure (by simp)).relax (Nat.sub_le n 1)
    · refine Makes.advance.bind fun _ _ => (each (n - 1 - 1) (by omega)).bind fun a first => ?_
      refine (ih (n := n - 1 - 1) (fun k lt => each k (by omega)) (by omega)).bind
        fun as rest => ?_
      exact (Makes.pure (List.forall_mem_cons.mpr ⟨first, rest⟩)).relax (by omega)

theorem makes_items {item : Parser α} {Q : α → Prop} (each : ∀ k < n, Makes ts k k item Q)
    (positive : 0 < n) (enough : n ≤ fuel) :
    Makes ts n n (items item fuel) fun as => ∀ a ∈ as, Q a := by
  refine Makes.peek.bind fun _ _ => .ite (fun _ => ?_) fun _ => ?_
  · exact Makes.advance.bind fun _ _ => (Makes.pure (by simp)).relax (Nat.sub_le n 1)
  · refine Makes.advance.bind fun _ _ => (each (n - 1) (by omega)).bind fun a first => ?_
    refine (makes_moreItems (n := n - 1) (fun k lt => each k (by omega)) (by omega)).bind
      fun as rest => ?_
    refine (Makes.expect .rparen (by decide)).bind fun _ _ => ?_
    exact (Makes.pure (List.forall_mem_cons.mpr ⟨first, rest⟩)).relax (by omega)

variable {expr : Precedence → Parser Node}

theorem makes_statement
    (parts : ∀ k ≤ n, ∀ floor, Makes ts k k (expr floor) (Formed ts .expression)) :
    Makes ts n n (statement expr) (Formed ts .statement) := by
  refine Makes.current.bind fun t _ => ?_
  split
  · refine Makes.expect_current .ident (by decide) fun x member kind more => ?_
    refine (Makes.expect .assign (by decide)).bind fun _ _ => Makes.advance.bind fun _ _ => ?_
    refine (parts _ (by omega) .lowest).bind fun e formed => Makes.skipSemicolon.bind fun _ _ => ?_
    refine (Makes.pure fun lexed => ?_).relax (by omega)
    exact .letStmt ((lexed x member).isName kind) (formed lexed)
  · refine Makes.advance.bind fun _ _ => (parts _ (by omega) .lowest).bind fun e formed => ?_
    refine Makes.skipSemicolon.bind fun _ _ => ?_
    exact (Makes.pure fun lexed => .returnStmt (formed lexed)).relax (by omega)
  · refine (parts n (Nat.le_refl n) .lowest).bind fun e formed => ?_
    refine Makes.skipSemicolon.bind fun _ _ => ?_
    exact Makes.pure fun lexed => .exprStmt (formed lexed)

theorem makes_unaryExpression (token : Token) (member : token ∈ ts)
    (kind : token.kind = .bang ∨ token.kind = .minus) (positive : 0 < n)
    (parts : ∀ k < n, ∀ floor, Makes ts k k (expr floor) (Formed ts .expression)) :
    Makes ts n n (unaryExpression expr token.literal) (Formed ts .expression) := by
  refine Makes.advance.bind fun _ _ => (parts _ (by omega) .unary).bind fun e formed => ?_
  refine (Makes.pure fun lexed => .unary ?_ (formed lexed)).relax (Nat.sub_le n 1)
  rcases kind with kind | kind
  · rw [((lexed token member).cut kind (by decide)).eq_spelling rfl]
    decide
  · rw [((lexed token member).cut kind (by decide)).eq_spelling rfl]
    decide

section Blocks

variable (shrinks : ∀ floor, Shrinks (expr floor))
include shrinks

/-- One round of a loop of statements, whose further rounds are `loop`. -/
theorem makes_round
    (parts : ∀ k ≤ n, ∀ floor, Makes ts k k (expr floor) (Formed ts .expression))
    {loop : Parser (List Node)}
    (further : Makes ts (n - 1) (n - 1) loop fun body => ∀ s ∈ body, Formed ts .statement s) :
    Makes ts n n
      (do let first ← orOmit (statement expr); advance; let rest ← loop
          return first.toList ++ rest)
      fun body => ∀ s ∈ body, Formed ts .statement s := by
  have round := Makes.orOmit (shrinks_inherited.statement shrinks) (makes_statement parts)
  refine round.bind fun first made => Makes.advance.bind fun _ _ => ?_
  refine further.bind fun rest later => ?_
  refine (Makes.pure ?_).relax (Nat.sub_le n 1)
  intro s listed
  rcases List.mem_append.mp listed with listed | listed
  · exact made s (by simpa using listed)
  · exact later s listed

theorem makes_blockBody (opening : Cursor)
    (parts : ∀ k ≤ n, ∀ floor, Makes ts k k (expr floor) (Formed ts .expression))
    (enough : n < fuel) :
    Makes ts n n (blockBody expr opening fuel) fun body => ∀ s ∈ body, Formed ts .statement s := by
  induction fuel generalizing n with
  | zero => omega
  | succ fuel ih =>
    refine Makes.current.bind fun t known => .ite (fun _ => .pure (by simp)) fun _ =>
      .ite (fun _ => .reject _ _) fun real => ?_
    obtain ended | ⟨-, positive⟩ := known
    · exact absurd ended real
    exact makes_round shrinks parts (ih (fun k le => parts k (by omega)) (by omega))

theorem makes_block (parts : ∀ k ≤ n, ∀ floor, Makes ts k k (expr floor) (Formed ts .expression))
    (enough : n < fuel) :
    Makes ts n n (block expr fuel) fun body => ∀ s ∈ body, Formed ts .statement s := by
  refine Makes.current.bind fun t _ => Makes.advance.bind fun _ _ => ?_
  refine Makes.relax ?_ (Nat.sub_le n 1)
  exact makes_blockBody shrinks t.start (fun k le => parts k (by omega)) (by omega)

theorem makes_conditional
    (parts : ∀ k < n, ∀ floor, Makes ts k k (expr floor) (Formed ts .expression))
    (enough : n ≤ fuel) :
    Makes ts n n (conditional expr fuel) (Formed ts .expression) := by
  refine (Makes.expect .lparen (by decide)).bind fun _ more => Makes.advance.bind fun _ _ => ?_
  refine (parts _ (by omega) .lowest).bind fun c condition => ?_
  refine (Makes.expect .rparen (by decide)).bind fun _ _ => ?_
  refine (Makes.expect .lbrace (by decide)).bind fun _ _ => ?_
  refine (makes_block shrinks (fun k le => parts k (by omega)) (by omega)).bind fun yes taken => ?_
  refine Makes.peek.bind fun _ _ => .ite (fun _ => ?_) fun _ => ?_
  · refine Makes.advance.bind fun _ _ => (Makes.expect .lbrace (by decide)).bind fun _ _ => ?_
    refine (makes_block shrinks (fun k le => parts k (by omega)) (by omega)).bind fun no other => ?_
    refine (Makes.pure fun lexed => ?_).relax (by omega)
    exact .ifElse (condition lexed) (fun s member => taken s member lexed)
      fun s member => other s member lexed
  · refine (Makes.pure fun lexed => ?_).relax (by omega)
    exact .ifThen (condition lexed) fun s member => taken s member lexed

theorem makes_functionLiteral
    (parts : ∀ k < n, ∀ floor, Makes ts k k (expr floor) (Formed ts .expression))
    (enough : n ≤ fuel) :
    Makes ts n n (functionLiteral expr fuel) (Formed ts .expression) := by
  refine (Makes.expect .lparen (by decide)).bind fun _ more => ?_
  refine (makes_items (fun k _ => makes_parameter) (by omega) (by omega)).bind
    fun params names => ?_
  refine (Makes.expect .lbrace (by decide)).bind fun _ _ => ?_
  refine (makes_block shrinks (fun k le => parts k (by omega)) (by omega)).bind fun body made => ?_
  refine (Makes.pure fun lexed => ?_).relax (by omega)
  exact .fnLit (fun x member => names x member lexed) fun s member => made s member lexed

/-- An operand takes a token. -/
theorem makes_operand
    (parts : ∀ k < n, ∀ floor, Makes ts k k (expr floor) (Formed ts .expression))
    (enough : n ≤ fuel) :
    Makes ts n n (operand expr fuel) fun e => 0 < n ∧ Formed ts .expression e := by
  refine Makes.current.bind fun t known => ?_
  have found (real : t.kind ≠ .eof) : t ∈ ts ∧ 0 < n := known.resolve_left real
  have taken {p : Parser Node} (real : t.kind ≠ .eof)
      (run : Makes ts n n p (Formed ts .expression)) :
      Makes ts n n p fun e => 0 < n ∧ Formed ts .expression e :=
    run.weaken (Nat.le_refl n) fun _ formed => ⟨(found real).2, formed⟩
  split <;> rename_i kind
  · refine taken (by simp [kind]) (.pure fun lexed => .ident ?_)
    exact (lexed t (found (by simp [kind])).1).isName kind
  · exact taken (by simp [kind]) (makes_integerLiteral t (found (by simp [kind])).1 kind)
  · exact taken (by simp [kind]) (.pure fun _ => .bool)
  · exact taken (by simp [kind]) (.pure fun _ => .bool)
  · obtain ⟨member, positive⟩ := found (by simp [kind])
    exact taken (by simp [kind]) (makes_unaryExpression t member (.inl kind) positive parts)
  · obtain ⟨member, positive⟩ := found (by simp [kind])
    exact taken (by simp [kind]) (makes_unaryExpression t member (.inr kind) positive parts)
  · obtain ⟨-, positive⟩ := found (by simp [kind])
    refine taken (by simp [kind]) (Makes.advance.bind fun _ _ => ?_)
    refine (parts _ (by omega) .lowest).bind fun e formed => ?_
    refine (Makes.expect .rparen (by decide)).bind fun _ _ => ?_
    exact (Makes.pure formed).relax (by omega)
  · exact taken (by simp [kind]) (makes_conditional shrinks parts enough)
  · exact taken (by simp [kind]) (makes_functionLiteral shrinks parts enough)
  · exact .reject _ _

end Blocks

/-- A token that joins two operands is an opening parenthesis or an infix operator. -/
theorem joins_cases {t : Token} (joins : 0 < (Precedence.ofKind t.kind).level) :
    t.kind = .lparen ∨ ∃ op ∈ infixOperators, t.kind.spelling? = some op := by
  generalize t.kind = kind at joins ⊢
  cases kind <;> first | exact .inl rfl | exact absurd joins (by decide) | exact .inr (by decide)

theorem makes_continuation (left : Node) (next : Token) (member : next ∈ ts)
    (joins : 0 < (Precedence.ofKind next.kind).level) (formed : Formed ts .expression left)
    (positive : 0 < n)
    (parts : ∀ k < n, ∀ floor, Makes ts k k (expr floor) (Formed ts .expression))
    (enough : n ≤ fuel) :
    Makes ts n n (continuation expr fuel left next) (Formed ts .expression) := by
  refine .ite (fun _ => ?_) fun infixed => ?_
  · refine (makes_items (fun k lt => parts k lt .lowest) positive enough).bind fun args made => ?_
    exact .pure fun lexed => .call (formed lexed) fun a listed => made a listed lexed
  · refine Makes.advance.bind fun _ _ => (parts _ (by omega) _).bind fun right made => ?_
    refine (Makes.pure fun lexed => ?_).relax (Nat.sub_le n 1)
    obtain ⟨op, listed, spelled⟩ := (joins_cases joins).resolve_left infixed
    have real : next.kind ≠ .eof := by
      intro ended
      rw [ended] at spelled
      cases spelled
    rw [((lexed next member).cut rfl real).eq_spelling spelled]
    exact .binary listed (formed lexed) (made lexed)

theorem makes_operators (floor : Precedence) (left : Node) (formed : Formed ts .expression left)
    (parts : ∀ k < n, ∀ floor, Makes ts k k (expr floor) (Formed ts .expression))
    (positive : 0 < fuel) (enough : n ≤ fuel) :
    Makes ts n n (operators expr floor fuel left) (Formed ts .expression) := by
  induction fuel generalizing n left with
  | zero => omega
  | succ fuel ih =>
    refine Makes.peek.bind fun next ahead => .ite (fun joins => ?_) fun _ => .pure formed
    obtain ended | ⟨member, more⟩ := ahead
    · rw [ended] at joins
      exact absurd joins (Nat.not_lt_zero _)
    refine Makes.advance.bind fun _ _ => ?_
    refine (makes_continuation left next member (by omega) formed (by omega)
      (fun k lt => parts k (by omega)) (by omega)).bind fun longer made => ?_
    exact (ih (n := n - 1) longer made (fun k lt => parts k (by omega)) (by omega)
      (by omega)).relax (Nat.sub_le n 1)

end Forms

/-- Fuel beyond the number of tokens is enough for an expression. -/
theorem makes_expression (ts : List Token) (fuel : Nat) :
    ∀ n < fuel, ∀ floor, Makes ts n n (expression fuel floor) (Formed ts .expression) := by
  induction fuel with
  | zero => intro n lt; omega
  | succ fuel ih =>
    intro n lt floor
    have parts : ∀ k < n, ∀ floor, Makes ts k k (expression fuel floor) (Formed ts .expression) :=
      fun k less => ih k (by omega)
    have shrinks := shrinks_inherited.expression fuel
    refine (makes_operand shrinks parts (by omega)).bind fun left made => ?_
    obtain ⟨positive, formed⟩ := made
    exact makes_operators floor left formed parts (by omega) (by omega)

theorem makes_programBody (ts : List Token) (fuel : Nat) {expr : Precedence → Parser Node}
    (shrinks : ∀ floor, Shrinks (expr floor))
    (parts : ∀ k ≤ n, ∀ floor, Makes ts k k (expr floor) (Formed ts .expression))
    (enough : n < fuel) :
    Makes ts n n (programBody expr fuel) fun body => ∀ s ∈ body, Formed ts .statement s := by
  induction fuel generalizing n with
  | zero => omega
  | succ fuel ih =>
    refine Makes.current.bind fun t known => .ite (fun _ => .pure (by simp)) fun real => ?_
    obtain ended | ⟨-, positive⟩ := known
    · exact absurd ended real
    exact makes_round shrinks parts (ih (fun k le => parts k (by omega)) (by omega))

end Parser

/-- Every token list has a parse unless some integer among them has no reading. -/
theorem parseTokens_ends (ts : List Token) :
    (∃ p, parseTokens ts = .ok p ∧ ∀ s ∈ p.statements, Parser.Formed ts .statement s) ∨
      ∃ t ∈ ts, t.kind = .int ∧ integer? t.literal = none ∧
        parseTokens ts = .error (.unreadable t.literal) := by
  have run := Parser.makes_programBody ts (n := ts.length) (ts.length + 1)
    (Parser.shrinks_inherited.expression (ts.length + 1))
    (fun k le => Parser.makes_expression ts (ts.length + 1) k (by omega)) (by omega)
    ⟨.ofTokens ts, [], 0⟩ ⟨List.suffix_refl ts, Nat.le_refl _⟩
  unfold Parser.Ensures at run
  unfold parseTokens
  cases result : Parser.programBody (Parser.expression (ts.length + 1)) (ts.length + 1)
      ⟨.ofTokens ts, [], 0⟩ with
  | ok statements s =>
    simp only [result] at run ⊢
    exact .inl ⟨_, rfl, run.2⟩
  | error e s =>
    simp only [result] at run ⊢
    cases e with
    | recorded => exact .inl ⟨_, rfl, fun _ listed => nomatch listed⟩
    | fault f =>
      cases f with
      | unreadable literal =>
        obtain ⟨t, member, kind, rfl, unread⟩ := run
        exact .inr ⟨t, member, kind, unread, rfl⟩
      | tooDeep => exact run.elim

/-- The integers of a text have a reading, so every text has a parse. -/
theorem parse_ends (source : Text) : ∃ p, parse source = .ok p ∧
    ∀ s ∈ p.statements, WellFormed .statement s := by
  have lexed := tokenize_lexed source
  rcases parseTokens_ends (tokenize source) with ⟨p, run, formed⟩ | ⟨t, member, kind, unread, -⟩
  · exact ⟨p, run, fun s listed => formed s listed lexed⟩
  · have read := ((lexed t member).isNumeral kind).integer?_eq
    rw [unread] at read
    cases read

end Monkey
