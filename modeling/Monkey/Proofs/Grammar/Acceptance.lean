import Monkey.Proofs.Grammar.Exactness
import Monkey.Proofs.Grammar.Joining
import Monkey.Proofs.Grammar.Outcome

/-! The grammar of the language as rules over the kinds of tokens, ambiguous as it is, and
the parser as its decision procedure. A spelling is one derivation among several; that every
derivable sequence has a spelling is what makes a parser right that never goes back. -/
namespace Monkey

/-- The parts of the grammar. -/
inductive Phrase where
  | program | statement | clause | expression | block
  | arguments | moreArguments | names | moreNames

/-- The kinds of the infix operators. -/
def infixKinds : List TokenKind := [.plus, .minus, .asterisk, .slash, .lt, .gt, .eq, .notEq]

/-- The rules of the grammar. They say neither how operators group nor where a statement without
a semicolon ends. -/
inductive Derives : Phrase → List TokenKind → Prop where
  | programEnd : Derives .program []
  | programNext : Derives .statement u → Derives .program v → Derives .program (u ++ v)
  | bare : Derives .clause u → Derives .statement u
  | ended : Derives .clause u → Derives .statement (u ++ [.semicolon])
  | letClause : Derives .expression u → Derives .clause (.letWord :: .ident :: .assign :: u)
  | returnClause : Derives .expression u → Derives .clause (.returnWord :: u)
  | expressionClause : Derives .expression u → Derives .clause u
  | ident : Derives .expression [.ident]
  | int : Derives .expression [.int]
  | yes : Derives .expression [.trueWord]
  | no : Derives .expression [.falseWord]
  | unary : op = .bang ∨ op = .minus → Derives .expression u → Derives .expression (op :: u)
  | binary : op ∈ infixKinds → Derives .expression u → Derives .expression v →
      Derives .expression (u ++ op :: v)
  | grouped : Derives .expression u → Derives .expression (.lparen :: (u ++ [.rparen]))
  | ifThen : Derives .expression u → Derives .block v →
      Derives .expression (.ifWord :: .lparen :: (u ++ .rparen :: v))
  | ifElse : Derives .expression u → Derives .block v → Derives .block v' →
      Derives .expression (.ifWord :: .lparen :: (u ++ .rparen :: (v ++ .elseWord :: v')))
  | function : Derives .names u → Derives .block v →
      Derives .expression (.fnWord :: .lparen :: (u ++ .rparen :: v))
  | call : Derives .expression u → Derives .arguments v →
      Derives .expression (u ++ .lparen :: (v ++ [.rparen]))
  | block : Derives .program u → Derives .block (.lbrace :: (u ++ [.rbrace]))
  | noArguments : Derives .arguments []
  | argumentsFrom : Derives .expression u → Derives .moreArguments v →
      Derives .arguments (u ++ v)
  | argumentsEnd : Derives .moreArguments []
  | argumentsComma : Derives .moreArguments [.comma]
  | argumentsNext : Derives .expression u → Derives .moreArguments v →
      Derives .moreArguments (.comma :: (u ++ v))
  | noNames : Derives .names []
  | namesFrom : Derives .moreNames u → Derives .names (.ident :: u)
  | namesEnd : Derives .moreNames []
  | namesComma : Derives .moreNames [.comma]
  | namesNext : Derives .moreNames u → Derives .moreNames (.comma :: .ident :: u)

def kinds (ts : List Token) : List TokenKind := ts.map (·.kind)

@[simp] theorem kinds_nil : kinds [] = [] := rfl

@[simp] theorem kinds_cons (t : Token) (ts : List Token) :
    kinds (t :: ts) = t.kind :: kinds ts := rfl

@[simp] theorem kinds_append (u v : List Token) : kinds (u ++ v) = kinds u ++ kinds v :=
  List.map_append

/-- An integer token is an integer of the language. -/
def Token.InRange (t : Token) : Prop :=
  t.kind = .int → ∃ v, integer? t.literal = some v ∧ v ≤ 9223372036854775807

/-- The tokens hold no integer that is out of range. -/
def Ranged (w : List Token) : Prop := ∀ t ∈ w, t.InRange

@[simp] theorem ranged_nil : Ranged [] := by
  intro t member
  cases member

@[simp] theorem ranged_cons : Ranged (t :: w) ↔ t.InRange ∧ Ranged w := List.forall_mem_cons

@[simp] theorem ranged_append : Ranged (u ++ v) ↔ Ranged u ∧ Ranged v := List.forall_mem_append

/-- The tokens can be derived, and their integers are in range. -/
def Accepted (phrase : Phrase) (w : List Token) : Prop := Derives phrase (kinds w) ∧ Ranged w

@[simp] theorem Mark.inRange (x : Mark kind) (other : kind ≠ .int) : x.1.InRange :=
  fun isInt => absurd (x.2.symm.trans isInt) other

namespace Accepted

theorem ident (x : Mark .ident) : Accepted .expression [x.1] :=
  ⟨by simpa [x.2] using .ident, by simp [x.inRange]⟩

theorem int (x : Mark .int) (value : integer? x.1.literal = some v)
    (small : v ≤ 9223372036854775807) : Accepted .expression [x.1] := by
  have ranged : x.1.InRange := fun _ => ⟨v, value, small⟩
  exact ⟨by simpa [x.2] using .int, by simp [ranged]⟩

theorem yes (x : Mark .trueWord) : Accepted .expression [x.1] :=
  ⟨by simpa [x.2] using .yes, by simp [x.inRange]⟩

theorem no (x : Mark .falseWord) : Accepted .expression [x.1] :=
  ⟨by simpa [x.2] using .no, by simp [x.inRange]⟩

theorem unary (op : Token) (kind : op.kind = .bang ∨ op.kind = .minus)
    (operand : Accepted .expression u) : Accepted .expression (op :: u) := by
  have ranged : op.InRange := by
    intro isInt
    rcases kind with kind | kind <;> cases kind.symm.trans isInt
  exact ⟨by simpa using Derives.unary kind operand.1, by simp [ranged, operand.2]⟩

theorem binary (op : Token) (listed : op.kind ∈ infixKinds) (left : Accepted .expression u)
    (right : Accepted .expression v) : Accepted .expression (u ++ op :: v) := by
  have ranged : op.InRange := fun isInt => absurd (isInt ▸ listed) (by decide)
  exact ⟨by simpa using Derives.binary listed left.1 right.1, by simp [left.2, ranged, right.2]⟩

theorem grouped (lp : Mark .lparen) (rp : Mark .rparen) (inner : Accepted .expression u) :
    Accepted .expression (lp.1 :: (u ++ [rp.1])) :=
  ⟨by simpa [lp.2, rp.2] using Derives.grouped inner.1, by simp [lp.inRange, rp.inRange, inner.2]⟩

theorem call (lp : Mark .lparen) (rp : Mark .rparen) (callee : Accepted .expression u)
    (args : Accepted .arguments v) : Accepted .expression (u ++ lp.1 :: (v ++ [rp.1])) :=
  ⟨by simpa [lp.2, rp.2] using Derives.call callee.1 args.1,
    by simp [callee.2, lp.inRange, args.2, rp.inRange]⟩

theorem ifThen (kw : Mark .ifWord) (lp : Mark .lparen) (rp : Mark .rparen)
    (condition : Accepted .expression u) (body : Accepted .block v) :
    Accepted .expression (kw.1 :: lp.1 :: (u ++ rp.1 :: v)) :=
  ⟨by simpa [kw.2, lp.2, rp.2] using Derives.ifThen condition.1 body.1,
    by simp [kw.inRange, lp.inRange, rp.inRange, condition.2, body.2]⟩

theorem ifElse (kw : Mark .ifWord) (lp : Mark .lparen) (rp : Mark .rparen) (other : Mark .elseWord)
    (condition : Accepted .expression u) (body : Accepted .block v) (body' : Accepted .block v') :
    Accepted .expression (kw.1 :: lp.1 :: (u ++ rp.1 :: (v ++ other.1 :: v'))) :=
  ⟨by simpa [kw.2, lp.2, rp.2, other.2] using Derives.ifElse condition.1 body.1 body'.1,
    by simp [kw.inRange, lp.inRange, rp.inRange, other.inRange, condition.2, body.2, body'.2]⟩

theorem fnLit (kw : Mark .fnWord) (lp : Mark .lparen) (rp : Mark .rparen)
    (params : Accepted .names u) (body : Accepted .block v) :
    Accepted .expression (kw.1 :: lp.1 :: (u ++ rp.1 :: v)) :=
  ⟨by simpa [kw.2, lp.2, rp.2] using Derives.function params.1 body.1,
    by simp [kw.inRange, lp.inRange, rp.inRange, params.2, body.2]⟩

theorem letClause (kw : Mark .letWord) (x : Mark .ident) (eq : Mark .assign)
    (value : Accepted .expression u) : Accepted .clause (kw.1 :: x.1 :: eq.1 :: u) :=
  ⟨by simpa [kw.2, x.2, eq.2] using Derives.letClause value.1,
    by simp [kw.inRange, x.inRange, eq.inRange, value.2]⟩

theorem returnClause (kw : Mark .returnWord) (value : Accepted .expression u) :
    Accepted .clause (kw.1 :: u) :=
  ⟨by simpa [kw.2] using Derives.returnClause value.1, by simp [kw.inRange, value.2]⟩

theorem expressionClause (value : Accepted .expression u) : Accepted .clause u :=
  ⟨.expressionClause value.1, value.2⟩

theorem bare (clause : Accepted .clause u) : Accepted .statement u := ⟨.bare clause.1, clause.2⟩

theorem ended (clause : Accepted .clause u) (semi : Mark .semicolon) :
    Accepted .statement (u ++ [semi.1]) :=
  ⟨by simpa [semi.2] using Derives.ended clause.1, by simp [clause.2, semi.inRange]⟩

theorem programEnd : Accepted .program [] := ⟨.programEnd, ranged_nil⟩

theorem programNext (first : Accepted .statement u) (rest : Accepted .program v) :
    Accepted .program (u ++ v) :=
  ⟨by simpa using Derives.programNext first.1 rest.1, by simp [first.2, rest.2]⟩

theorem block (lb : Mark .lbrace) (rb : Mark .rbrace) (body : Accepted .program u) :
    Accepted .block (lb.1 :: (u ++ [rb.1])) :=
  ⟨by simpa [lb.2, rb.2] using Derives.block body.1, by simp [lb.inRange, rb.inRange, body.2]⟩

end Accepted

/-- What a list in the grammar may be made of: items, what comes after the first one, and all of
it. -/
structure ListRules (one more all : List Token → Prop) : Prop where
  stop : more []
  comma (c : Mark .comma) : more [c.1]
  next (c : Mark .comma) : one u → more v → more (c.1 :: (u ++ v))
  none : all []
  some : one u → more v → all (u ++ v)

theorem listRules_arguments :
    ListRules (Accepted .expression) (Accepted .moreArguments) (Accepted .arguments) where
  stop := ⟨.argumentsEnd, ranged_nil⟩
  comma c := ⟨by simpa [c.2] using .argumentsComma, by simp [c.inRange]⟩
  next c item more := ⟨by simpa [c.2] using Derives.argumentsNext item.1 more.1,
    by simp [c.inRange, item.2, more.2]⟩
  none := ⟨.noArguments, ranged_nil⟩
  some item more := ⟨by simpa using Derives.argumentsFrom item.1 more.1, by simp [item.2, more.2]⟩

/-- A token of the kind and nothing else. -/
def One (kind : TokenKind) (w : List Token) : Prop := ∃ x : Mark kind, w = [x.1]

theorem listRules_names : ListRules (One .ident) (Accepted .moreNames) (Accepted .names) where
  stop := ⟨.namesEnd, ranged_nil⟩
  comma c := ⟨by simpa [c.2] using .namesComma, by simp [c.inRange]⟩
  next := by
    rintro _ v c ⟨x, rfl⟩ more
    exact ⟨by simpa [c.2, x.2] using Derives.namesNext more.1,
      by simp [c.inRange, x.inRange, more.2]⟩
  none := ⟨.noNames, ranged_nil⟩
  some := by
    rintro _ v ⟨x, rfl⟩ more
    exact ⟨by simpa [x.2] using Derives.namesFrom more.1, by simp [x.inRange, more.2]⟩

section Lists

variable {one more all : List Token → Prop}

theorem ListRules.commas (rules : ListRules one more all) (list : Commas words v)
    (each : ∀ w ∈ words, one w) : more v := by
  induction list with
  | done => exact rules.stop
  | trailing c => exact rules.comma c
  | next c list ih =>
    obtain ⟨first, others⟩ := List.forall_mem_cons.mp each
    exact rules.next c first (ih others)

theorem ListRules.listed (rules : ListRules one more all) (list : Listed words v)
    (each : ∀ w ∈ words, one w) : all v := by
  cases list with
  | empty => exact rules.none
  | items list =>
    obtain ⟨first, others⟩ := List.forall_mem_cons.mp each
    exact rules.some first (rules.commas list others)

theorem Sequence.accepted (list : Sequence words v) (each : ∀ w ∈ words, Accepted .clause w) :
    Accepted .program v := by
  induction list with
  | done => exact .programEnd
  | ended semi list ih =>
    obtain ⟨first, others⟩ := List.forall_mem_cons.mp each
    rw [List.append_cons]
    exact .programNext (first.ended semi) (ih others)
  | bare list _ _ ih =>
    obtain ⟨first, others⟩ := List.forall_mem_cons.mp each
    exact .programNext first.bare (ih others)

end Lists

/-- What stands in a slot is derived as this. -/
@[simp] def Slot.phrase : Slot → Phrase
  | .statement => .clause
  | .expression _ => .expression

theorem infixKinds_of_level (level : infixLevel? kind = some l) : kind ∈ infixKinds := by
  cases kind <;> first | cases level; decide | cases level

theorem each_accepted {parts : List (Node × List Token)}
    (each : ∀ a ∈ parts, Accepted phrase a.2) : ∀ w ∈ parts.map (·.2), Accepted phrase w := by
  simpa using fun w n => each (n, w)

theorem Spells.accepted (spelled : Spells slot n w) : Accepted slot.phrase w := by
  induction spelled with
  | grouped lp rp _ inner => exact .grouped lp rp inner
  | ident x => exact .ident x
  | int x value small => exact .int x value small
  | yes x => exact .yes x
  | no x => exact .no x
  | unary op kind _ _ operand => exact .unary op kind operand
  | binary op level _ _ _ left right => exact .binary op (infixKinds_of_level level) left right
  | call lp rp args _ _ _ list callee each =>
    exact .call lp rp callee (listRules_arguments.listed list (each_accepted each))
  | ifThen kw lp rp lb rb body _ _ list condition each =>
    exact .ifThen kw lp rp condition (.block lb rb (list.accepted (each_accepted each)))
  | ifElse kw lp rp lb rb other lb' rb' body body' _ _ list _ list' condition each each' =>
    have whole := Accepted.ifElse kw lp rp other condition
      (.block lb rb (list.accepted (each_accepted each)))
      (.block lb' rb' (list'.accepted (each_accepted each')))
    simpa using whole
  | fnLit kw lp rp lb rb params body names _ list each =>
    have params := listRules_names.listed names fun w listed => by
      obtain ⟨x, -, same⟩ := List.mem_map.mp listed
      exact ⟨x, same.symm⟩
    exact .fnLit kw lp rp params (.block lb rb (list.accepted (each_accepted each)))
  | letStmt kw x eq _ value => exact .letClause kw x eq value
  | returnStmt kw _ value => exact .returnClause kw value
  | exprStmt _ value => exact value.expressionClause

theorem SpellsBody.accepted (spelled : SpellsBody body w) : Accepted .program w := by
  obtain ⟨parts, rfl, each, list⟩ := spelled
  exact list.accepted (each_accepted fun a listed => (each a listed).accepted)

section Splitting

theorem kinds_eq_cons (same : kinds w = k :: u) :
    ∃ (x : Mark k) (v : List Token), w = x.1 :: v ∧ kinds v = u := by
  obtain ⟨t, v, rfl, kind, rest⟩ := List.map_eq_cons_iff.mp same
  exact ⟨⟨t, kind⟩, v, rfl, rest⟩

theorem kinds_eq_append (same : kinds w = u ++ v) :
    ∃ x y, w = x ++ y ∧ kinds x = u ∧ kinds y = v := List.map_eq_append_iff.mp same

theorem kinds_eq_singleton (same : kinds w = [k]) : ∃ x : Mark k, w = [x.1] := by
  obtain ⟨x, v, rfl, rest⟩ := kinds_eq_cons same
  rw [List.map_eq_nil_iff.mp rest]
  exact ⟨x, rfl⟩

end Splitting

/-- What tokens that are derived as a phrase spell. -/
def Phrase.Spelled : Phrase → List Token → Prop
  | .program, w => ∃ body, SpellsBody body w
  | .statement, w => ∃ n v, Spells .statement n v ∧
      (w = v ∨ ∃ semi : Mark .semicolon, w = v ++ [semi.1])
  | .clause, w => ∃ n, Spells .statement n w
  | .expression, w => ∃ e, Spells (.expression 1) e w
  | .block, w => ∃ (lb : Mark .lbrace) (rb : Mark .rbrace) (v : List Token) (body : List Node),
      w = lb.1 :: (v ++ [rb.1]) ∧ SpellsBody body v
  | .arguments, w => ∃ args : List (Node × List Token),
      (∀ a ∈ args, Spells (.expression 1) a.1 a.2) ∧ Listed (args.map (·.2)) w
  | .moreArguments, w => ∃ args : List (Node × List Token),
      (∀ a ∈ args, Spells (.expression 1) a.1 a.2) ∧ Commas (args.map (·.2)) w
  | .names, w => ∃ params : List (Mark .ident), Listed (params.map fun x => [x.1]) w
  | .moreNames, w => ∃ params : List (Mark .ident), Commas (params.map fun x => [x.1]) w

theorem exists_infixLevel (listed : op ∈ infixKinds) : ∃ l, infixLevel? op = some l := by
  simp only [infixKinds, List.mem_cons, List.not_mem_nil, or_false] at listed
  rcases listed with rfl | rfl | rfl | rfl | rfl | rfl | rfl | rfl <;> exact ⟨_, rfl⟩

theorem Derives.spelled (derived : Derives phrase u) (w : List Token) (same : kinds w = u)
    (ranged : Ranged w) : phrase.Spelled w := by
  induction derived generalizing w with
  | programEnd =>
    rw [List.map_eq_nil_iff.mp same]
    exact ⟨[], .nil⟩
  | programNext _ _ first rest =>
    obtain ⟨x, y, rfl, hx, hy⟩ := kinds_eq_append same
    rw [ranged_append] at ranged
    obtain ⟨n, v, spelled, ending⟩ := first x hx ranged.1
    obtain ⟨body, further⟩ := rest y hy ranged.2
    rcases ending with rfl | ⟨semi, rfl⟩
    · exact further.join spelled
    · rw [List.append_assoc]
      exact ⟨_, .ended spelled semi further⟩
  | bare _ ih =>
    obtain ⟨n, spelled⟩ := ih w same ranged
    exact ⟨n, w, spelled, .inl rfl⟩
  | ended _ ih =>
    obtain ⟨x, y, rfl, hx, hy⟩ := kinds_eq_append same
    rw [ranged_append] at ranged
    obtain ⟨semi, rfl⟩ := kinds_eq_singleton hy
    obtain ⟨n, spelled⟩ := ih x hx ranged.1
    exact ⟨n, x, spelled, .inr ⟨semi, rfl⟩⟩
  | letClause _ ih =>
    obtain ⟨kw, _, rfl, one⟩ := kinds_eq_cons same
    obtain ⟨x, _, rfl, two⟩ := kinds_eq_cons one
    obtain ⟨eq, v, rfl, three⟩ := kinds_eq_cons two
    simp only [ranged_cons] at ranged
    obtain ⟨e, value⟩ := ih v three ranged.2.2.2
    exact ⟨_, .letStmt kw x eq value⟩
  | returnClause _ ih =>
    obtain ⟨kw, v, rfl, one⟩ := kinds_eq_cons same
    rw [ranged_cons] at ranged
    obtain ⟨e, value⟩ := ih v one ranged.2
    exact ⟨_, .returnStmt kw value⟩
  | expressionClause _ ih =>
    obtain ⟨e, value⟩ := ih w same ranged
    exact ⟨_, .exprStmt value⟩
  | ident =>
    obtain ⟨x, rfl⟩ := kinds_eq_singleton same
    exact ⟨_, .ident x⟩
  | int =>
    obtain ⟨x, rfl⟩ := kinds_eq_singleton same
    obtain ⟨v, value, small⟩ := ranged x.1 (by simp) x.2
    exact ⟨_, .int x value small⟩
  | yes =>
    obtain ⟨x, rfl⟩ := kinds_eq_singleton same
    exact ⟨_, .yes x⟩
  | no =>
    obtain ⟨x, rfl⟩ := kinds_eq_singleton same
    exact ⟨_, .no x⟩
  | unary kind _ ih =>
    obtain ⟨op, v, rfl, one⟩ := kinds_eq_cons same
    rw [ranged_cons] at ranged
    obtain ⟨e, operand⟩ := ih v one ranged.2
    exact Spells.join_unary op.1 (by rwa [op.2]) e v operand (by decide)
  | binary listed _ _ left right =>
    obtain ⟨x, _, rfl, hx, one⟩ := kinds_eq_append same
    obtain ⟨op, y, rfl, hy⟩ := kinds_eq_cons one
    simp only [ranged_append, ranged_cons] at ranged
    obtain ⟨a, first⟩ := left x hx ranged.1
    obtain ⟨b, second⟩ := right y hy ranged.2.2
    obtain ⟨l, level⟩ := exists_infixLevel listed
    rw [← op.2] at level
    obtain ⟨-, -, -, least, -⟩ := level_infix level
    exact Spells.join_binary op.1 level a b x y first second least
  | grouped _ ih =>
    obtain ⟨lp, _, rfl, one⟩ := kinds_eq_cons same
    obtain ⟨v, _, rfl, hv, two⟩ := kinds_eq_append one
    obtain ⟨rp, rfl⟩ := kinds_eq_singleton two
    simp only [ranged_append, ranged_cons] at ranged
    obtain ⟨e, inner⟩ := ih v hv ranged.2.1
    exact ⟨e, .grouped lp rp inner⟩
  | ifThen _ _ condition body =>
    obtain ⟨kw, _, rfl, one⟩ := kinds_eq_cons same
    obtain ⟨lp, _, rfl, two⟩ := kinds_eq_cons one
    obtain ⟨x, _, rfl, hx, three⟩ := kinds_eq_append two
    obtain ⟨rp, y, rfl, hy⟩ := kinds_eq_cons three
    simp only [ranged_append, ranged_cons] at ranged
    obtain ⟨c, first⟩ := condition x hx ranged.2.2.1
    obtain ⟨lb, rb, v, _, rfl, parts, rfl, each, list⟩ := body y hy ranged.2.2.2.2
    exact ⟨_, .ifThen kw lp rp lb rb parts first each list⟩
  | ifElse _ _ _ condition body body' =>
    obtain ⟨kw, _, rfl, one⟩ := kinds_eq_cons same
    obtain ⟨lp, _, rfl, two⟩ := kinds_eq_cons one
    obtain ⟨x, _, rfl, hx, three⟩ := kinds_eq_append two
    obtain ⟨rp, _, rfl, four⟩ := kinds_eq_cons three
    obtain ⟨y, _, rfl, hy, five⟩ := kinds_eq_append four
    obtain ⟨other, z, rfl, hz⟩ := kinds_eq_cons five
    simp only [ranged_append, ranged_cons] at ranged
    obtain ⟨c, first⟩ := condition x hx ranged.2.2.1
    obtain ⟨lb, rb, v, _, rfl, parts, rfl, each, list⟩ := body y hy ranged.2.2.2.2.1
    obtain ⟨lb', rb', v', _, rfl, parts', rfl, each', list'⟩ := body' z hz ranged.2.2.2.2.2.2
    have whole := Spells.ifElse (n := 1) kw lp rp lb rb other lb' rb' parts parts' first each list
      each' list'
    exact ⟨_, by simpa using whole⟩
  | function _ _ names body =>
    obtain ⟨kw, _, rfl, one⟩ := kinds_eq_cons same
    obtain ⟨lp, _, rfl, two⟩ := kinds_eq_cons one
    obtain ⟨x, _, rfl, hx, three⟩ := kinds_eq_append two
    obtain ⟨rp, y, rfl, hy⟩ := kinds_eq_cons three
    simp only [ranged_append, ranged_cons] at ranged
    obtain ⟨params, listed⟩ := names x hx ranged.2.2.1
    obtain ⟨lb, rb, v, _, rfl, parts, rfl, each, list⟩ := body y hy ranged.2.2.2.2
    exact ⟨_, .fnLit kw lp rp lb rb params parts listed each list⟩
  | call _ _ callee arguments =>
    obtain ⟨x, _, rfl, hx, one⟩ := kinds_eq_append same
    obtain ⟨lp, _, rfl, two⟩ := kinds_eq_cons one
    obtain ⟨y, _, rfl, hy, three⟩ := kinds_eq_append two
    obtain ⟨rp, rfl⟩ := kinds_eq_singleton three
    simp only [ranged_append, ranged_cons] at ranged
    obtain ⟨f, first⟩ := callee x hx ranged.1
    obtain ⟨args, each, list⟩ := arguments y hy ranged.2.2.1
    exact Spells.join_call lp rp args each list f x first (by decide)
  | block _ ih =>
    obtain ⟨lb, _, rfl, one⟩ := kinds_eq_cons same
    obtain ⟨v, _, rfl, hv, two⟩ := kinds_eq_append one
    obtain ⟨rb, rfl⟩ := kinds_eq_singleton two
    simp only [ranged_append, ranged_cons] at ranged
    obtain ⟨body, spelled⟩ := ih v hv ranged.2.1
    exact ⟨lb, rb, v, body, rfl, spelled⟩
  | noArguments =>
    rw [List.map_eq_nil_iff.mp same]
    exact ⟨[], by simp, .empty⟩
  | argumentsFrom _ _ first more =>
    obtain ⟨x, y, rfl, hx, hy⟩ := kinds_eq_append same
    rw [ranged_append] at ranged
    obtain ⟨e, spelled⟩ := first x hx ranged.1
    obtain ⟨args, each, list⟩ := more y hy ranged.2
    exact ⟨(e, x) :: args, List.forall_mem_cons.mpr ⟨spelled, each⟩, .items list⟩
  | argumentsEnd =>
    rw [List.map_eq_nil_iff.mp same]
    exact ⟨[], by simp, .done⟩
  | argumentsComma =>
    obtain ⟨c, rfl⟩ := kinds_eq_singleton same
    exact ⟨[], by simp, .trailing c⟩
  | argumentsNext _ _ first more =>
    obtain ⟨c, _, rfl, one⟩ := kinds_eq_cons same
    obtain ⟨x, y, rfl, hx, hy⟩ := kinds_eq_append one
    simp only [ranged_append, ranged_cons] at ranged
    obtain ⟨e, spelled⟩ := first x hx ranged.2.1
    obtain ⟨args, each, list⟩ := more y hy ranged.2.2
    exact ⟨(e, x) :: args, List.forall_mem_cons.mpr ⟨spelled, each⟩, .next c list⟩
  | noNames =>
    rw [List.map_eq_nil_iff.mp same]
    exact ⟨[], .empty⟩
  | namesFrom _ ih =>
    obtain ⟨x, v, rfl, one⟩ := kinds_eq_cons same
    rw [ranged_cons] at ranged
    obtain ⟨params, list⟩ := ih v one ranged.2
    exact ⟨x :: params, .items (w := [x.1]) list⟩
  | namesEnd =>
    rw [List.map_eq_nil_iff.mp same]
    exact ⟨[], .done⟩
  | namesComma =>
    obtain ⟨c, rfl⟩ := kinds_eq_singleton same
    exact ⟨[], .trailing c⟩
  | namesNext _ ih =>
    obtain ⟨c, _, rfl, one⟩ := kinds_eq_cons same
    obtain ⟨x, v, rfl, two⟩ := kinds_eq_cons one
    simp only [ranged_cons] at ranged
    obtain ⟨params, list⟩ := ih v two ranged.2.2
    exact ⟨x :: params, .next c (w := [x.1]) list⟩

theorem ranged_iff (lexed : ∀ t ∈ ts, t.Lexed) :
    Ranged ts ↔ ∀ t ∈ ts, t.kind = .int → decimalValue t.literal ≤ 9223372036854775807 := by
  have value : ∀ t ∈ ts, t.kind = .int → integer? t.literal = some (decimalValue t.literal : Int) :=
    fun t member isInt => ((lexed t member).isNumeral isInt).integer?_eq
  constructor
  · intro ranged t member isInt
    obtain ⟨v, read, small⟩ := ranged t member isInt
    rw [value t member isInt] at read
    obtain rfl := Option.some.inj read
    omega
  · intro small t member isInt
    have bound := small t member isInt
    exact ⟨_, value t member isInt, by omega⟩

/-- The end of input is no part of the grammar. -/
theorem Derives.eof_not_mem (derived : Derives phrase u) : .eof ∉ u := by
  induction derived with
  | unary kind _ ih => rcases kind with rfl | rfl <;> simp [ih]
  | @binary op _ _ listed _ _ left right =>
    have other : .eof ≠ op := by
      rintro rfl
      exact absurd listed (by decide)
    simp [left, right, other]
  | _ => simp_all

/-- Of a text that ends in its only end of input, all the rest is spelled. -/
theorem SpellsBody.eq_of_append (spelled : SpellsBody body w) (real : ∀ t ∈ ts, t.kind ≠ .eof)
    (split : ts ++ [last] = w ++ tail) (ended : kindAhead tail = .eof) (isEnd : last.kind = .eof) :
    w = ts := by
  have none : .eof ∉ kinds w := spelled.accepted.1.eof_not_mem
  rcases List.append_eq_append_iff.mp split with ⟨middle, rfl, rest⟩ | ⟨middle, rfl, rest⟩
  · cases middle with
    | nil => exact (List.append_nil _)
    | cons t middle =>
      obtain ⟨rfl, -⟩ := List.cons.inj rest
      exact absurd (by simp [isEnd]) none
  · cases middle with
    | nil => exact (List.append_nil _).symm
    | cons t middle =>
      rw [rest, List.cons_append] at ended
      exact absurd ended (real t (by simp))

/-- Without a diagnostic the parser reads exactly the texts that the grammar derives and whose
integers are at most the greatest one. -/
theorem diagnostics_eq_nil_iff_derives (source : Text) :
    ∃ p, parse source = .ok p ∧ (p.diagnostics = [] ↔
      Derives .program (kinds (tokenize source).dropLast) ∧
        ∀ t ∈ tokenize source, t.kind = .int → decimalValue t.literal ≤ 9223372036854775807) := by
  obtain ⟨p, run, -⟩ := parse_ends source
  obtain ⟨ts, c, read, same⟩ := tokenize_reads source
  have cut := read.cut
  refine ⟨p, run, ?_⟩
  rw [← ranged_iff (tokenize_lexed source), same, List.dropLast_concat, ranged_append]
  constructor
  · intro silent
    obtain ⟨-, w, tail, split, ended, spelled⟩ := spelling_of_run run silent
    rw [same] at split
    obtain rfl := spelled.eq_of_append (fun t member => (cut t member).kind_ne_eof) split ended rfl
    obtain ⟨derived, ranged⟩ := spelled.accepted
    exact ⟨derived, ranged, by simp [Token.InRange, Token.endOfInput]⟩
  · rintro ⟨derived, ranged, -⟩
    obtain ⟨body, spelled⟩ := derived.spelled ts rfl ranged
    have whole : parseTokens (ts ++ [.endOfInput c]) = .ok ⟨body, [], 0⟩ :=
      run_spelling spelled rfl
    rw [← same] at whole
    obtain rfl := Except.ok.inj (run.symm.trans whole)
    rfl

end Monkey
