import Monkey.Proofs.Grammar.Recognition

/-! The forms of the grammar take what the grammar derives, and report first where no derivation
goes on. Each form is opened by the rules for its steps; what remains is a rule of the grammar. -/
namespace Monkey.Parser

section Items

variable {α : Type} [Inhabited α] {item item' : Parser α} {one more all : List Token → Prop}
  (rules : ListRules one more all) (each : Recognizes .fresh .spent item item' one)
include rules each

theorem recognizes_moreItems (fuel fuel' : Nat) :
    Recognizes .spent .spent (moreItems item fuel) (moreItems item' fuel') more := by
  refine recognizes_rounds (fun n (_ : Unit) => moreItems item n) (fun n _ => moreItems item' n)
    ⟨[], rules.stop⟩ (fun _ => rfl) (fun _ => rfl)
    (fun n _ => grows_inherited.moreItems (each default).grows' n) ?_ fuel fuel' ()
  intro n n' ih _
  refine recognizes_peek fun t => .ite (fun comma => ?_) fun _ => .pure _ rules.stop
  refine .advance (.take (by rw [comma]; decide) ?_)
  refine recognizes_peek fun _ => .ite (fun _ => .pure _ (rules.comma ⟨t, comma⟩)) fun _ => ?_
  refine .advance ((each.bind fun a => (ih ()).bind fun as =>
    recognizes_pure (a :: as)).weaken ?_ _)
  rintro _ ⟨u, _, first, ⟨v, _, rest, rfl, rfl⟩, rfl⟩
  simpa using rules.next ⟨t, comma⟩ first rest

theorem recognizes_items (fuel fuel' : Nat) :
    Recognizes .spent .spent (items item fuel) (items item' fuel') (Chain all (One .rparen)) := by
  refine recognizes_peek fun t => .ite (fun closing => ?_) fun _ => ?_
  · refine .advance (.take (by rw [closing]; decide) fun _ => .pure _ ?_)
    exact ⟨[], [t], rules.none, ⟨⟨t, closing⟩, rfl⟩, rfl⟩
  · refine .advance ((each.bind fun a => (recognizes_moreItems rules each fuel fuel').bind fun as =>
      (recognizes_expect .rparen (by decide)).bind fun _ => recognizes_pure (a :: as)).weaken ?_ _)
    rintro _ ⟨u, _, first, ⟨v, _, rest, ⟨z, _, closing, rfl, rfl⟩, rfl⟩, rfl⟩
    exact ⟨u ++ v, z, rules.some first rest, closing, by simp⟩

end Items

theorem recognizes_parameter : Recognizes .fresh .spent parameter parameter (One .ident) := by
  refine recognizes_current fun t => .ite (fun kind => ?_) fun _ => ?_
  · exact .take (by rw [kind]; decide) fun _ => .pure _ ⟨⟨t, kind⟩, rfl⟩
  · exact .reject _ _ (one_inhabited .ident)

theorem expression_inhabited : ∃ w, Accepted .expression w :=
  ⟨_, .ident (TokenKind.ident.mark [] .zero)⟩

theorem meets_integerLiteral (t : Token) (kind : t.kind = .int) :
    Meets .fresh .spent t (integerLiteral t) (integerLiteral t) (Accepted .expression) := by
  unfold integerLiteral
  split
  next => exact .fail _ (grows_inherited.fail _) expression_inhabited
  next value read =>
    refine .ite (fun _ => .reject _ _ expression_inhabited) fun small => ?_
    exact .take (by rw [kind]; decide) fun _ =>
      .pure _ (.int ⟨t, kind⟩ read (Int.not_lt.mp small))

theorem Semicolon.statement (semi : Semicolon z) (clause : Accepted .clause u) :
    Accepted .statement (u ++ z) := by
  rcases semi with rfl | ⟨semi, rfl⟩
  · simpa using clause.bare
  · exact clause.ended semi

/-- Statements up to the closing brace. -/
def BlockEnd (w : List Token) : Prop := Chain (Accepted .program) (One .rbrace) w

theorem BlockEnd.block (lb : Mark .lbrace) (ends : BlockEnd w) : Accepted .block (lb.1 :: w) := by
  obtain ⟨u, _, body, ⟨rb, rfl⟩, rfl⟩ := ends
  exact .block lb rb body

/-- The rest of a conditional behind its first block. -/
def Alternative (w : List Token) : Prop :=
  w = [] ∨ ∃ (other : Mark .elseWord) (v : List Token), Accepted .block v ∧ w = other.1 :: v

/-- What may stand behind an expression so that it is still one. -/
def Extends (v : List Token) : Prop := ∀ u, Accepted .expression u → Accepted .expression (u ++ v)

section Forms

variable {expr expr' : Precedence → Parser Node}
  (parts : ∀ floor, Recognizes .fresh .spent (expr floor) (expr' floor) (Accepted .expression))
include parts

theorem recognizes_ending (f : Node → Node) :
    Recognizes .fresh .spent (do let value ← expr .lowest; skipSemicolon; return f value)
      (do let value ← expr' .lowest; skipSemicolon; return f value)
      (Chain (Accepted .expression) Semicolon) := by
  refine ((parts .lowest).bind fun value => recognizes_skipSemicolon.bind fun _ =>
    recognizes_pure (f value)).weaken ?_
  rintro _ ⟨u, _, value, ⟨v, _, semi, rfl, rfl⟩, rfl⟩
  exact ⟨u, v, value, semi, by simp⟩

theorem recognizes_statement : Recognizes .fresh .spent (statement expr) (statement expr')
    (Accepted .statement) := by
  refine recognizes_current fun t => ?_
  split
  next kind =>
    refine .take (by rw [kind]; decide) (((recognizes_expect .ident (by decide)).bind fun _ =>
      recognizes_reread fun name => (recognizes_expect .assign (by decide)).bind fun _ =>
        (recognizes_ending parts (.letStmt name.literal)).advance).weaken ?_)
    rintro _ ⟨_, _, ⟨x, rfl⟩, ⟨_, _, ⟨eq, rfl⟩, ⟨u, z, value, semi, rfl⟩, rfl⟩, rfl⟩
    exact semi.statement (.letClause ⟨t, kind⟩ x eq value)
  next kind =>
    refine .take (by rw [kind]; decide)
      ((recognizes_ending parts .returnStmt).advance.weaken ?_)
    rintro _ ⟨u, z, value, semi, rfl⟩
    exact semi.statement (.returnClause ⟨t, kind⟩ value)
  next =>
    refine (recognizes_ending parts .exprStmt).weaken ?_ t
    rintro _ ⟨u, z, value, semi, rfl⟩
    exact semi.statement value.expressionClause

/-- One round of a loop over statements, up to what `stop` allows. -/
theorem recognizes_round {loop loop' : Parser (List Node)} {stop : List Token → Prop}
    (further : Recognizes .fresh c loop loop' (Chain (Accepted .program) stop)) :
    Recognizes .fresh c
      (do let first ← orOmit (statement expr); advance; let rest ← loop
          return first.toList ++ rest)
      (do let first ← orOmit (statement expr'); advance; let rest ← loop'
          return first.toList ++ rest)
      (Chain (Accepted .program) stop) := by
  refine ((recognizes_statement parts).orOmit.bind fun first =>
    (further.bind fun rest => recognizes_pure (first.toList ++ rest)).advance).weaken ?_
  rintro _ ⟨u, _, first, ⟨_, _, ⟨v, z, rest, stops, rfl⟩, rfl, rfl⟩, rfl⟩
  exact ⟨u ++ v, z, .programNext first rest, stops, by simp⟩

theorem recognizes_blockBody (opening : Cursor) (fuel fuel' : Nat) :
    Recognizes .fresh .spent (blockBody expr opening fuel) (blockBody expr' opening fuel')
      BlockEnd := by
  have inhabited : ∃ w, BlockEnd w :=
    ⟨_, [], _, .programEnd, ⟨TokenKind.rbrace.mark [] .zero, rfl⟩, rfl⟩
  refine recognizes_rounds (fun n (_ : Unit) => blockBody expr opening n)
    (fun n _ => blockBody expr' opening n) inhabited (fun _ => rfl) (fun _ => rfl)
    (fun n _ => grows_inherited.blockBody (fun floor => (parts floor default).grows') opening n) ?_
    fuel fuel' ()
  intro n n' ih _
  refine recognizes_current fun t => .ite (fun closing => ?_) fun _ =>
    .ite (fun _ => .reject _ _ inhabited) fun _ => recognizes_round parts (ih ()) t
  refine .take (by rw [closing]; decide) fun _ => .pure _ ?_
  exact ⟨[], [t], .programEnd, ⟨⟨t, closing⟩, rfl⟩, rfl⟩

theorem recognizes_block (fuel fuel' : Nat) :
    Recognizes .spent .spent (block expr fuel) (block expr' fuel') BlockEnd :=
  recognizes_reread fun opening => (recognizes_blockBody parts opening.start fuel fuel').advance

theorem recognizes_conditional (kw : Mark .ifWord) (fuel fuel' : Nat) :
    Recognizes .spent .spent (conditional expr fuel) (conditional expr' fuel')
      fun v => Accepted .expression (kw.1 :: v) := by
  have block := recognizes_block parts fuel fuel'
  refine ((recognizes_expect .lparen (by decide)).bind fun _ => ((parts .lowest).bind fun c =>
    (recognizes_expect .rparen (by decide)).bind fun _ =>
      (recognizes_expect .lbrace (by decide)).bind fun _ => block.bind fun body =>
        recognizes_peek (L := Alternative) fun t =>
          .ite (fun other => ?_) fun _ => ?_).advance).weaken ?_
  · refine .advance (.take (by rw [other]; decide) (((recognizes_expect .lbrace (by decide)).bind
      fun _ => block.bind fun body' => recognizes_pure (Node.ifElse c body body')).weaken ?_))
    rintro _ ⟨_, _, ⟨lb, rfl⟩, ⟨w, _, ends, rfl, rfl⟩, rfl⟩
    exact .inr ⟨⟨t, other⟩, _, by simpa using ends.block lb, rfl⟩
  · exact .pure _ (.inl rfl)
  · rintro _ ⟨_, _, ⟨lp, rfl⟩, ⟨u, _, condition, ⟨_, _, ⟨rp, rfl⟩, ⟨_, _, ⟨lb, rfl⟩,
      ⟨v, z, ends, alternative, rfl⟩, rfl⟩, rfl⟩, rfl⟩, rfl⟩
    have body := ends.block lb
    rcases alternative with rfl | ⟨other, v', body', rfl⟩
    · simpa using Accepted.ifThen kw lp rp condition body
    · simpa using Accepted.ifElse kw lp rp other condition body body'

theorem recognizes_functionLiteral (kw : Mark .fnWord) (fuel fuel' : Nat) :
    Recognizes .spent .spent (functionLiteral expr fuel) (functionLiteral expr' fuel')
      fun v => Accepted .expression (kw.1 :: v) := by
  refine ((recognizes_expect .lparen (by decide)).bind fun _ =>
    (recognizes_items listRules_names recognizes_parameter fuel fuel').bind fun params =>
      (recognizes_expect .lbrace (by decide)).bind fun _ => (recognizes_block parts fuel fuel').bind
        fun body => recognizes_pure (Node.fnLit params body)).weaken ?_
  rintro _ ⟨_, _, ⟨lp, rfl⟩, ⟨_, _, ⟨u, _, names, ⟨rp, rfl⟩, rfl⟩, ⟨_, _, ⟨lb, rfl⟩,
    ⟨v, _, ends, rfl, rfl⟩, rfl⟩, rfl⟩, rfl⟩
  simpa using Accepted.fnLit kw lp rp names (ends.block lb)

theorem recognizes_operand (fuel fuel' : Nat) : Recognizes .fresh .spent (operand expr fuel)
    (operand expr' fuel') (Accepted .expression) := by
  refine recognizes_current fun t => ?_
  have unary (kind : t.kind = .bang ∨ t.kind = .minus) :
      Meets .fresh .spent t (unaryExpression expr t.literal) (unaryExpression expr' t.literal)
        (Accepted .expression) := by
    refine .take (by rcases kind with kind | kind <;> rw [kind] <;> decide) ?_
    refine ((parts .unary).bind fun e =>
      recognizes_pure (Node.unary t.literal e)).advance.weaken ?_
    rintro _ ⟨u, _, operand, rfl, rfl⟩
    simpa using Accepted.unary t kind operand
  split
  next kind => exact .take (by rw [kind]; decide) fun _ => .pure _ (.ident ⟨t, kind⟩)
  next kind => exact meets_integerLiteral t kind
  next kind => exact .take (by rw [kind]; decide) fun _ => .pure _ (.yes ⟨t, kind⟩)
  next kind => exact .take (by rw [kind]; decide) fun _ => .pure _ (.no ⟨t, kind⟩)
  next kind => exact unary (.inl kind)
  next kind => exact unary (.inr kind)
  next kind =>
    refine .take (by rw [kind]; decide) ((((parts .lowest).bind fun e =>
      (recognizes_expect .rparen (by decide)).bind fun _ => recognizes_pure e).advance).weaken ?_)
    rintro _ ⟨u, _, inner, ⟨_, _, ⟨rp, rfl⟩, rfl, rfl⟩, rfl⟩
    simpa using Accepted.grouped ⟨t, kind⟩ rp inner
  next kind =>
    exact .take (by rw [kind]; decide) (recognizes_conditional parts ⟨t, kind⟩ fuel fuel')
  next kind =>
    exact .take (by rw [kind]; decide) (recognizes_functionLiteral parts ⟨t, kind⟩ fuel fuel')
  next => exact .reject _ _ expression_inhabited

theorem recognizes_continuation (fuel fuel' : Nat) (left : Node) (next : Token)
    (joins : 0 < (Precedence.ofKind next.kind).level) :
    Recognizes .spent .spent (continuation expr fuel left next) (continuation expr' fuel' left next)
      fun v => Extends (next :: v) := by
  refine fun t => .ite (fun opening => ?_) fun infixed => ?_
  · refine ((recognizes_items listRules_arguments (parts .lowest) fuel fuel').bind fun args =>
      recognizes_pure (Node.call left args)).weaken ?_ t
    rintro _ ⟨_, _, ⟨v, _, args, ⟨rp, rfl⟩, rfl⟩, rfl, rfl⟩ u callee
    simpa using callee.call ⟨next, opening⟩ rp args
  · refine (((parts (.ofKind next.kind)).bind fun right =>
      recognizes_pure (Node.binary next.literal left right)).advance).weaken ?_ t
    rintro _ ⟨v, _, right, rfl, rfl⟩ u first
    simpa using first.binary next (infixKinds_of_level (infixLevel_of_joins joins infixed)) right

theorem recognizes_operators (floor : Precedence) (fuel fuel' : Nat) (left : Node) :
    Recognizes .spent .spent (operators expr floor fuel left) (operators expr' floor fuel' left)
      Extends := by
  have stop : Extends [] := fun u first => by rwa [List.append_nil]
  refine recognizes_rounds (operators expr floor) (operators expr' floor) ⟨[], stop⟩ (fun _ => rfl)
    (fun _ => rfl) (fun n left => grows_inherited.operators
      (fun floor => (parts floor default).grows') floor n left) ?_ fuel fuel' left
  intro n m ih left
  refine recognizes_peek fun t => .ite (fun joins => ?_) fun _ => .pure _ stop
  have joins : 0 < (Precedence.ofKind t.kind).level := Nat.zero_lt_of_lt joins
  have real : t.kind ≠ .eof := by
    intro ended
    rw [ended] at joins
    exact absurd joins (by decide)
  have round := (recognizes_continuation parts n m left t joins).bind ih
  refine .advance (.take real (round.weaken ?_))
  rintro _ ⟨v, z, one, more, rfl⟩ u first
  simpa using more _ (one u first)

end Forms

theorem recognizes_expression (fuel fuel' : Nat) (floor : Precedence) :
    Recognizes .fresh .spent (expression fuel floor) (expression fuel' floor)
      (Accepted .expression) := by
  refine recognizes_rounds expression expression expression_inhabited (fun _ => rfl) (fun _ => rfl)
    grows_inherited.expression ?_ fuel fuel' floor
  intro n m ih floor
  refine ((recognizes_operand ih n m).bind fun left =>
    recognizes_operators ih floor n m left).weaken ?_
  rintro _ ⟨u, v, first, more, rfl⟩
  exact more u first

theorem recognizes_programBody {expr expr' : Precedence → Parser Node}
    (parts : ∀ floor, Recognizes .fresh .spent (expr floor) (expr' floor) (Accepted .expression))
    (fuel fuel' : Nat) :
    Recognizes .fresh .fresh (programBody expr fuel) (programBody expr' fuel')
      (Accepted .program) := by
  have stop : Chain (Accepted .program) Nothing [] := ⟨[], [], .programEnd, rfl, rfl⟩
  refine (recognizes_rounds (fun n (_ : Unit) => programBody expr n)
    (fun n _ => programBody expr' n) ⟨[], stop⟩ (fun _ => rfl) (fun _ => rfl) (fun n _ => grows_inherited.programBody
      (fun floor => (parts floor default).grows') n) ?_ fuel fuel' ()).weaken ?_
  · intro n m ih _
    exact recognizes_current fun t => .ite (fun _ => .pure _ stop) fun _ =>
      recognizes_round parts (ih ()) t
  · rintro _ ⟨u, _, body, rfl, rfl⟩
    rwa [List.append_nil]

end Monkey.Parser
