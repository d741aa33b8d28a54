import Monkey.Proofs.Grammar.Climbing

/-! Spellings stay spellings when they are put together without regard to precedence: the
tokens around an operator, after a prefix operator or before an argument list are those of
some tree, though not of the tree that was meant. -/
namespace Monkey

namespace Spells

/-- A spelling that is too loose for a place is led by an operator that is. -/
theorem tight_or_split (spelled : Spells (.expression k) e w) (least : n ≤ 5) :
    Spells (.expression n) e w ∨
      ∃ (op : Token) (l : Nat) (a b : Node) (u v : List Token), infixLevel? op.kind = some l ∧
        k ≤ l ∧ l < n ∧ Spells (.expression l) a u ∧ Spells (.expression (l + 1)) b v ∧
        e = .binary op.literal a b ∧ w = u ++ op :: v := by
  cases spelled.led with
  | atom fits => exact .inl (fits n)
  | unary op kind _ operand => exact .inl (.unary op kind least operand)
  | @binary l a u b v op level le left right =>
    by_cases fits : n ≤ l
    · exact .inl (.binary op level fits left right)
    · exact .inr ⟨op, l, a, b, u, v, level, le, by omega, left, right, rfl, rfl⟩
  | call lp rp args _ callee each list =>
    exact .inl (.call lp rp args (by omega) callee each list)

/-- Tokens around an infix operator. The argument is on the number of tokens: an operand that
is too loose gives up its own operator, which then leads the whole. -/
theorem join_binary (op : Token) (level : infixLevel? op.kind = some l) (a b : Node)
    (u v : List Token) (left : Spells (.expression k) a u) (right : Spells (.expression k) b v)
    (le : k ≤ l) : ∃ e, Spells (.expression k) e (u ++ op :: v) := by
  obtain ⟨-, -, -, -, most⟩ := level_infix level
  rcases right.tight_or_split (n := l + 1) (by omega) with tight | split
  · rcases left.tight_or_split (n := l) (by omega) with tight' | split'
    · exact ⟨_, .binary op level le tight' tight⟩
    · obtain ⟨op', l', c, d, x, y, level', le', less, first, second, rfl, rfl⟩ := split'
      obtain ⟨e, joined⟩ := join_binary op level d b y v second (tight.loosen (by omega)) less
      rw [List.append_assoc, List.cons_append]
      exact ⟨_, .binary op' level' le' first joined⟩
  · obtain ⟨op₂, l₂, c₂, d₂, x₂, y₂, level₂, le₂, less₂, first₂, second₂, rfl, rfl⟩ := split
    obtain ⟨-, -, -, -, most₂⟩ := level_infix level₂
    rcases left.tight_or_split (n := l₂) (by omega) with tight' | split'
    · obtain ⟨e, joined⟩ := join_binary op level a c₂ u x₂ tight' first₂ (by omega)
      have whole := Spells.binary op₂ level₂ le₂ joined second₂
      rw [List.append_assoc, List.cons_append] at whole
      exact ⟨_, whole⟩
    · obtain ⟨op', l', c, d, x, y, level', le', less, first, second, rfl, rfl⟩ := split'
      have whole : Spells (.expression (l' + 1)) (.binary op₂.literal c₂ d₂) (x₂ ++ op₂ :: y₂) :=
        .binary op₂ level₂ (by omega) first₂ second₂
      obtain ⟨e, joined⟩ := join_binary op level d _ y _ second whole (by omega)
      rw [List.append_assoc, List.cons_append]
      exact ⟨_, .binary op' level' le' first joined⟩
termination_by u.length + v.length
decreasing_by
  all_goals
    subst_vars
    simp only [List.length_append, List.length_cons]
    omega

/-- A prefix operator before tokens binds the first operand of what they spell. -/
theorem join_unary (op : Token) (kind : op.kind = .bang ∨ op.kind = .minus) (e : Node)
    (w : List Token) (spelled : Spells (.expression k) e w) (le : k ≤ 5) :
    ∃ e', Spells (.expression k) e' (op :: w) := by
  rcases spelled.tight_or_split (n := 5) (Nat.le_refl _) with tight | split
  · exact ⟨_, .unary op kind le tight⟩
  · obtain ⟨op', l, a, b, u, v, level, le', less, left, right, rfl, rfl⟩ := split
    obtain ⟨e', joined⟩ := join_unary op kind a u left (by omega)
    exact ⟨.binary op'.literal e' b, .binary op' level le' joined right⟩
termination_by w.length
decreasing_by
  subst_vars
  simp only [List.length_append, List.length_cons]
  omega

/-- An argument list after tokens goes to the last operand of what they spell. -/
theorem join_call (lp : Mark .lparen) (rp : Mark .rparen) (args : List (Node × List Token))
    (each : ∀ a ∈ args, Spells (.expression 1) a.1 a.2) (list : Listed (args.map (·.2)) v)
    (f : Node) (w : List Token) (spelled : Spells (.expression k) f w) (le : k ≤ 6) :
    ∃ e, Spells (.expression k) e (w ++ lp.1 :: (v ++ [rp.1])) := by
  cases spelled.led with
  | atom fits => exact ⟨_, .call lp rp args le (fits 6) each list⟩
  | call lp' rp' args' _ callee each' list' =>
    have whole := Spells.call (n := 6) lp' rp' args' (Nat.le_refl _) callee each' list'
    exact ⟨_, .call lp rp args le whole each list⟩
  | @unary a u op kind fits operand =>
    obtain ⟨e, joined⟩ := join_call lp rp args each list a u operand (by decide)
    exact ⟨_, .unary op kind fits joined⟩
  | @binary l a u b x op level fits left right =>
    obtain ⟨-, -, -, -, most⟩ := level_infix level
    obtain ⟨e, joined⟩ := join_call lp rp args each list b x right (by omega)
    rw [List.append_assoc, List.cons_append]
    exact ⟨_, .binary op level fits left joined⟩
termination_by w.length
decreasing_by
  all_goals
    subst_vars
    simp only [List.length_append, List.length_cons]
    omega

/-- Whether tokens continue an expression before them. -/
def Continues (v : List Token) : Prop := kindAhead v = .lparen ∨ kindAhead v = .minus

theorem not_continues (x : Mark kind) (v : List Token) (other : kind ≠ .lparen ∧ kind ≠ .minus) :
    ¬Continues (x.1 :: v) := by
  unfold Continues
  rw [kindAhead, x.2]
  exact fun same => same.elim other.1 other.2

theorem join_next (a b : Node) (u v : List Token) (first : Spells (.expression 1) a u)
    (next : Spells (.expression 1) b v) (continues : Continues v) :
    ∃ e, Spells (.expression 1) e (u ++ v) := by
  cases next with
  | @grouped _ w _ lp rp inner =>
    have list : Listed ([(b, w)].map (·.2)) w := by simpa using Listed.items (w := w) .done
    exact join_call lp rp [(b, w)] (by simpa using inner) list a u first (by decide)
  | @unary _ c w op kind _ operand =>
    have minus : op.kind = .minus := by
      rcases continues with paren | minus
      · rcases kind with kind | kind <;> cases kind.symm.trans paren
      · exact minus
    have level : infixLevel? op.kind = some 3 := by rw [minus]; rfl
    exact join_binary op level a c u w first (operand.loosen (by decide)) (by decide)
  | @binary l _ c w d x op level le left right =>
    unfold Continues at continues
    rw [kindAhead_append left.nonempty] at continues
    obtain ⟨e, joined⟩ := join_next a c u w first (left.loosen le) continues
    rw [← List.append_assoc]
    exact join_binary op level e d (u ++ w) x joined (right.loosen (by omega)) le
  | @call _ f w x lp rp args _ callee each list =>
    unfold Continues at continues
    rw [kindAhead_append callee.nonempty] at continues
    obtain ⟨e, joined⟩ := join_next a f u w first (callee.loosen (by decide)) continues
    rw [← List.append_assoc]
    exact join_call lp rp args each list e (u ++ w) joined (by decide)
  | ident x => exact absurd continues (not_continues x _ (by decide))
  | int x => exact absurd continues (not_continues x _ (by decide))
  | yes x => exact absurd continues (not_continues x _ (by decide))
  | no x => exact absurd continues (not_continues x _ (by decide))
  | ifThen kw => exact absurd continues (not_continues kw _ (by decide))
  | ifElse kw => exact absurd continues (not_continues kw _ (by decide))
  | fnLit kw => exact absurd continues (not_continues kw _ (by decide))
termination_by v.length
decreasing_by
  all_goals
    subst_vars
    simp only [List.length_append, List.length_cons]
    omega

/-- The same for statements, which end with the expression that is continued. -/
theorem join_statement (first : Spells .statement n u) (next : Spells (.expression 1) b v)
    (continues : Continues v) : ∃ n', Spells .statement n' (u ++ v) := by
  cases first with
  | @letStmt e w kw x eq value =>
    obtain ⟨e', joined⟩ := join_next e b w v value next continues
    exact ⟨_, .letStmt kw x eq joined⟩
  | @returnStmt e w kw value =>
    obtain ⟨e', joined⟩ := join_next e b w v value next continues
    exact ⟨_, .returnStmt kw joined⟩
  | @exprStmt e w value =>
    obtain ⟨e', joined⟩ := join_next e b u v value next continues
    exact ⟨_, .exprStmt joined⟩

end Spells

/-- A statement before others, of which it takes the first where that one continues it. -/
theorem SpellsBody.join (first : Spells .statement n w) (rest : SpellsBody body v) :
    ∃ body', SpellsBody body' (w ++ v) := by
  by_cases continues : Spells.Continues v
  · rcases rest.uncons with ⟨rfl, rfl⟩ | ⟨next, u, ns, x, spelled, further, ending⟩
    · exact ⟨[n], .bare first .nil (by decide) (by decide)⟩
    · have continues' : Spells.Continues u := by
        unfold Spells.Continues at continues ⊢
        rcases ending with ⟨semi, rfl⟩ | ⟨rfl, -, -⟩ <;>
          rwa [kindAhead_append spelled.nonempty] at continues
      obtain ⟨n', joined⟩ : ∃ n', Spells .statement n' (w ++ u) := by
        cases spelled with
        | letStmt kw => exact absurd continues' (Spells.not_continues kw _ (by decide))
        | returnStmt kw => exact absurd continues' (Spells.not_continues kw _ (by decide))
        | exprStmt value => exact first.join_statement value continues'
      rcases ending with ⟨semi, rfl⟩ | ⟨rfl, notParen, notMinus⟩
      · have whole := ended joined semi further
        rw [List.append_assoc] at whole
        exact ⟨_, whole⟩
      · have whole := bare joined further notParen notMinus
        rw [List.append_assoc] at whole
        exact ⟨_, whole⟩
  · obtain ⟨notParen, notMinus⟩ := not_or.mp continues
    exact ⟨n :: body, bare first rest notParen notMinus⟩

end Monkey
