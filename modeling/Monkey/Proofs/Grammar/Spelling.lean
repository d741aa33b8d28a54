import Monkey.Proofs.Grammar.Steps

/-! How trees may be written as tokens. A place asks for a least tightness, which an
expression in it has or gets by parentheses. The operators `==` and `!=` have tightness 1,
`<` and `>` 2, `+` and `-` 3, `*` and `/` 4, the prefix operators 5, calls 6; every other
expression fits everywhere. -/
namespace Monkey

/-- A token of a kind. -/
abbrev Mark (kind : TokenKind) := { t : Token // t.kind = kind }

def TokenKind.mark (kind : TokenKind) (literal : Text) (start : Cursor) : Mark kind :=
  ⟨⟨kind, literal, start⟩, rfl⟩

def infixLevel? : TokenKind → Option Nat
  | .eq | .notEq => some 1
  | .lt | .gt => some 2
  | .plus | .minus => some 3
  | .asterisk | .slash => some 4
  | _ => none

/-- Further words of a list, each after a comma; one more comma may end the list. -/
inductive Commas : List (List Token) → List Token → Prop where
  | done : Commas [] []
  | trailing (c : Mark .comma) : Commas [] [c.1]
  | next (c : Mark .comma) : Commas words v → Commas (w :: words) (c.1 :: (w ++ v))

/-- The words of a list between parentheses. -/
inductive Listed : List (List Token) → List Token → Prop where
  | empty : Listed [] []
  | items : Commas words v → Listed (w :: words) (w ++ v)

/-- The words of statements. A semicolon may be left out where the next token, if there is
one, is no parenthesis and no minus. -/
inductive Sequence : List (List Token) → List Token → Prop where
  | done : Sequence [] []
  | ended (semi : Mark .semicolon) : Sequence words v → Sequence (w :: words) (w ++ semi.1 :: v)
  | bare : Sequence words v → kindAhead v ≠ .lparen → kindAhead v ≠ .minus →
      Sequence (w :: words) (w ++ v)

/-- The items stand for the words one by one. -/
def Itemized (R : α → List Token → Prop) (as : List α) (words : List (List Token)) : Prop :=
  ∃ args : List (α × List Token), args.map (·.1) = as ∧ args.map (·.2) = words ∧
    ∀ a ∈ args, R a.1 a.2

theorem Itemized.nil {R : α → List Token → Prop} : Itemized R [] [] := ⟨[], rfl, rfl, by simp⟩

theorem Itemized.cons {R : α → List Token → Prop} (first : R a w) (rest : Itemized R as words) :
    Itemized R (a :: as) (w :: words) := by
  obtain ⟨args, rfl, rfl, each⟩ := rest
  exact ⟨(a, w) :: args, rfl, rfl, List.forall_mem_cons.mpr ⟨first, each⟩⟩

theorem named_of_itemized {names : List Text}
    (items : Itemized (fun name w => ∃ x : Mark .ident, name = x.1.literal ∧ w = [x.1]) names
      words) :
    ∃ params : List (Mark .ident), names = params.map (·.1.literal) ∧
      words = params.map fun x => [x.1] := by
  obtain ⟨args, rfl, rfl, each⟩ := items
  induction args with
  | nil => exact ⟨[], rfl, rfl⟩
  | cons a args ih =>
    obtain ⟨params, names, words⟩ := ih fun b member => each b (by simp [member])
    obtain ⟨x, name, word⟩ := each a (by simp)
    exact ⟨x :: params, by simp [name, names], by simp [word, words]⟩

/-- Where a tree stands. -/
inductive Slot where
  | statement
  | expression (least : Nat)

/-- The tokens spell the tree in the place, with as many more parentheses as one likes. -/
inductive Spells : Slot → Node → List Token → Prop where
  | grouped (lp : Mark .lparen) (rp : Mark .rparen) : Spells (.expression 1) e w →
      Spells (.expression n) e (lp.1 :: (w ++ [rp.1]))
  | ident (x : Mark .ident) : Spells (.expression n) (.ident x.1.literal) [x.1]
  | int (x : Mark .int) {v : Int} : integer? x.1.literal = some v → v ≤ 9223372036854775807 →
      Spells (.expression n) (.int v) [x.1]
  | yes (x : Mark .trueWord) : Spells (.expression n) (.bool true) [x.1]
  | no (x : Mark .falseWord) : Spells (.expression n) (.bool false) [x.1]
  | unary (op : Token) : op.kind = .bang ∨ op.kind = .minus → n ≤ 5 →
      Spells (.expression 5) e w → Spells (.expression n) (.unary op.literal e) (op :: w)
  | binary (op : Token) : infixLevel? op.kind = some l → n ≤ l →
      Spells (.expression l) left w → Spells (.expression (l + 1)) right v →
      Spells (.expression n) (.binary op.literal left right) (w ++ op :: v)
  | call (lp : Mark .lparen) (rp : Mark .rparen) (args : List (Node × List Token)) : n ≤ 6 →
      Spells (.expression 6) f w → (∀ a ∈ args, Spells (.expression 1) a.1 a.2) →
      Listed (args.map (·.2)) v →
      Spells (.expression n) (.call f (args.map (·.1))) (w ++ lp.1 :: (v ++ [rp.1]))
  | ifThen (kw : Mark .ifWord) (lp : Mark .lparen) (rp : Mark .rparen) (lb : Mark .lbrace)
      (rb : Mark .rbrace) (body : List (Node × List Token)) : Spells (.expression 1) c w →
      (∀ s ∈ body, Spells .statement s.1 s.2) → Sequence (body.map (·.2)) v →
      Spells (.expression n) (.ifThen c (body.map (·.1)))
        (kw.1 :: lp.1 :: (w ++ rp.1 :: lb.1 :: (v ++ [rb.1])))
  | ifElse (kw : Mark .ifWord) (lp : Mark .lparen) (rp : Mark .rparen) (lb : Mark .lbrace)
      (rb : Mark .rbrace) (other : Mark .elseWord) (lb' : Mark .lbrace) (rb' : Mark .rbrace)
      (body body' : List (Node × List Token)) : Spells (.expression 1) c w →
      (∀ s ∈ body, Spells .statement s.1 s.2) → Sequence (body.map (·.2)) v →
      (∀ s ∈ body', Spells .statement s.1 s.2) → Sequence (body'.map (·.2)) v' →
      Spells (.expression n) (.ifElse c (body.map (·.1)) (body'.map (·.1)))
        (kw.1 :: lp.1 :: (w ++ rp.1 :: lb.1 ::
          (v ++ rb.1 :: other.1 :: lb'.1 :: (v' ++ [rb'.1]))))
  | fnLit (kw : Mark .fnWord) (lp : Mark .lparen) (rp : Mark .rparen) (lb : Mark .lbrace)
      (rb : Mark .rbrace) (params : List (Mark .ident)) (body : List (Node × List Token)) :
      Listed (params.map fun x => [x.1]) u → (∀ s ∈ body, Spells .statement s.1 s.2) →
      Sequence (body.map (·.2)) v →
      Spells (.expression n) (.fnLit (params.map (·.1.literal)) (body.map (·.1)))
        (kw.1 :: lp.1 :: (u ++ rp.1 :: lb.1 :: (v ++ [rb.1])))
  | letStmt (kw : Mark .letWord) (x : Mark .ident) (eq : Mark .assign) :
      Spells (.expression 1) e w →
      Spells .statement (.letStmt x.1.literal e) (kw.1 :: x.1 :: eq.1 :: w)
  | returnStmt (kw : Mark .returnWord) : Spells (.expression 1) e w →
      Spells .statement (.returnStmt e) (kw.1 :: w)
  | exprStmt : Spells (.expression 1) e w → Spells .statement (.exprStmt e) w

/-- The tokens spell the statements of a program or a block. -/
def SpellsBody (body : List Node) (v : List Token) : Prop :=
  ∃ parts : List (Node × List Token), parts.map (·.1) = body ∧
    (∀ s ∈ parts, Spells .statement s.1 s.2) ∧ Sequence (parts.map (·.2)) v

namespace SpellsBody

theorem nil : SpellsBody [] [] := ⟨[], rfl, by simp, .done⟩

theorem of_parts (parts : List (Node × List Token)) (each : ∀ s ∈ parts, Spells .statement s.1 s.2)
    (list : Sequence (parts.map (·.2)) v) : SpellsBody (parts.map (·.1)) v :=
  ⟨parts, rfl, each, list⟩

theorem ended (first : Spells .statement n w) (semi : Mark .semicolon) (rest : SpellsBody body v) :
    SpellsBody (n :: body) (w ++ semi.1 :: v) := by
  obtain ⟨parts, rfl, each, list⟩ := rest
  exact of_parts ((n, w) :: parts) (List.forall_mem_cons.mpr ⟨first, each⟩) (.ended semi list)

theorem bare (first : Spells .statement n w) (rest : SpellsBody body v)
    (notParen : kindAhead v ≠ .lparen) (notMinus : kindAhead v ≠ .minus) :
    SpellsBody (n :: body) (w ++ v) := by
  obtain ⟨parts, rfl, each, list⟩ := rest
  exact of_parts ((n, w) :: parts) (List.forall_mem_cons.mpr ⟨first, each⟩)
    (.bare list notParen notMinus)

/-- The first statement of several, with its semicolon or without. -/
theorem uncons (spelled : SpellsBody body v) : body = [] ∧ v = [] ∨
    ∃ n w ns u, Spells .statement n w ∧ SpellsBody ns u ∧
      ((∃ semi : Mark .semicolon, v = w ++ semi.1 :: u) ∨
        v = w ++ u ∧ kindAhead u ≠ .lparen ∧ kindAhead u ≠ .minus) := by
  obtain ⟨parts, rfl, each, list⟩ := spelled
  cases parts with
  | nil => cases list; exact .inl ⟨rfl, rfl⟩
  | cons part parts =>
    obtain ⟨first, others⟩ := List.forall_mem_cons.mp each
    cases list with
    | @ended _ u _ semi list =>
      exact .inr ⟨part.1, part.2, _, u, first, of_parts parts others list, .inl ⟨semi, rfl⟩⟩
    | @bare _ u _ list notParen notMinus =>
      exact .inr ⟨part.1, part.2, _, u, first, of_parts parts others list,
        .inr ⟨rfl, notParen, notMinus⟩⟩

end SpellsBody

/-- The kinds that may begin an expression. -/
def operandKinds : List TokenKind :=
  [.ident, .int, .trueWord, .falseWord, .bang, .minus, .lparen, .ifWord, .fnWord]

/-- The kinds that may begin what stands in a slot. -/
def starters : Slot → List TokenKind
  | .expression _ => operandKinds
  | .statement => .letWord :: .returnWord :: operandKinds

theorem kindAhead_append {w : List Token} (nonempty : w ≠ []) (v : List Token) :
    kindAhead (w ++ v) = kindAhead w := by
  cases w with
  | nil => exact absurd rfl nonempty
  | cons t w => rfl

theorem Commas.length_le (list : Commas words v) : ∀ w ∈ words, w.length ≤ v.length := by
  induction list with
  | done => simp
  | trailing => simp
  | next c list ih =>
    intro x member
    simp only [List.length_cons, List.length_append]
    rcases List.mem_cons.mp member with rfl | member
    · omega
    · have := ih x member
      omega

theorem Listed.length_le (list : Listed words v) : ∀ w ∈ words, w.length ≤ v.length := by
  cases list with
  | empty => simp
  | items list =>
    intro x member
    rw [List.length_append]
    rcases List.mem_cons.mp member with rfl | member
    · omega
    · have := list.length_le x member
      omega

theorem Sequence.length_le (list : Sequence words v) : ∀ w ∈ words, w.length ≤ v.length := by
  induction list with
  | done => simp
  | ended semi list ih =>
    intro x member
    simp only [List.length_append, List.length_cons]
    rcases List.mem_cons.mp member with rfl | member
    · omega
    · have := ih x member
      omega
  | bare list _ _ ih =>
    intro x member
    rw [List.length_append]
    rcases List.mem_cons.mp member with rfl | member
    · omega
    · have := ih x member
      omega

namespace Spells

theorem nonempty (spelled : Spells slot n w) : w ≠ [] := by
  induction spelled with
  | exprStmt _ ih => exact ih
  | binary => simp
  | call => simp
  | _ => exact List.cons_ne_nil _ _

theorem mark_starts (x : Mark kind) (w : List Token) (listed : kind ∈ starters slot) :
    kindAhead (x.1 :: w) ∈ starters slot := by
  rwa [kindAhead, x.2]

theorem starts (spelled : Spells slot n w) : kindAhead w ∈ starters slot := by
  induction spelled with
  | grouped lp => exact mark_starts lp _ (by simp [starters, operandKinds])
  | ident x => exact mark_starts x _ (by simp [starters, operandKinds])
  | int x => exact mark_starts x _ (by simp [starters, operandKinds])
  | yes x => exact mark_starts x _ (by simp [starters, operandKinds])
  | no x => exact mark_starts x _ (by simp [starters, operandKinds])
  | unary op kind =>
    rcases kind with kind | kind
    · exact mark_starts ⟨op, kind⟩ _ (by simp [starters, operandKinds])
    · exact mark_starts ⟨op, kind⟩ _ (by simp [starters, operandKinds])
  | binary _ _ _ left _ ih => rwa [kindAhead_append left.nonempty]
  | call _ _ _ _ callee _ _ ih => rwa [kindAhead_append callee.nonempty]
  | ifThen kw => exact mark_starts kw _ (by simp [starters, operandKinds])
  | ifElse kw => exact mark_starts kw _ (by simp [starters, operandKinds])
  | fnLit kw => exact mark_starts kw _ (by simp [starters, operandKinds])
  | letStmt kw => exact mark_starts kw _ (by decide)
  | returnStmt kw => exact mark_starts kw _ (by decide)
  | exprStmt _ ih => exact List.mem_cons_of_mem _ (List.mem_cons_of_mem _ ih)

/-- What leads a spelling: an operator, a call, or nothing that a place could object to. -/
inductive Led (k : Nat) : Node → List Token → Prop where
  | atom : (∀ n, Spells (.expression n) e w) → Led k e w
  | unary (op : Token) : op.kind = .bang ∨ op.kind = .minus → k ≤ 5 →
      Spells (.expression 5) e w → Led k (.unary op.literal e) (op :: w)
  | binary (op : Token) : infixLevel? op.kind = some l → k ≤ l → Spells (.expression l) left w →
      Spells (.expression (l + 1)) right v → Led k (.binary op.literal left right) (w ++ op :: v)
  | call (lp : Mark .lparen) (rp : Mark .rparen) (args : List (Node × List Token)) : k ≤ 6 →
      Spells (.expression 6) f w → (∀ a ∈ args, Spells (.expression 1) a.1 a.2) →
      Listed (args.map (·.2)) v → Led k (.call f (args.map (·.1))) (w ++ lp.1 :: (v ++ [rp.1]))

theorem led (spelled : Spells (.expression k) e w) : Led k e w := by
  cases spelled with
  | grouped lp rp inner => exact .atom fun _ => .grouped lp rp inner
  | ident x => exact .atom fun _ => .ident x
  | int x value small => exact .atom fun _ => .int x value small
  | yes x => exact .atom fun _ => .yes x
  | no x => exact .atom fun _ => .no x
  | unary op kind fits operand => exact .unary op kind fits operand
  | binary op level fits left right => exact .binary op level fits left right
  | call lp rp args fits callee each list => exact .call lp rp args fits callee each list
  | ifThen kw lp rp lb rb body condition each list =>
    exact .atom fun _ => .ifThen kw lp rp lb rb body condition each list
  | ifElse kw lp rp lb rb other lb' rb' body body' condition each list each' list' =>
    exact .atom fun _ =>
      .ifElse kw lp rp lb rb other lb' rb' body body' condition each list each' list'
  | fnLit kw lp rp lb rb params body names each list =>
    exact .atom fun _ => .fnLit kw lp rp lb rb params body names each list

/-- What fits a place fits every place that asks for less. -/
theorem loosen (spelled : Spells (.expression n) e w) (le : m ≤ n) :
    Spells (.expression m) e w := by
  cases spelled.led with
  | atom fits => exact fits m
  | unary op kind fits operand => exact .unary op kind (Nat.le_trans le fits) operand
  | binary op level fits left right => exact .binary op level (Nat.le_trans le fits) left right
  | call lp rp args fits callee each list =>
    exact .call lp rp args (Nat.le_trans le fits) callee each list

end Spells
end Monkey
