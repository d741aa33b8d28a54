import Monkey.Proofs.Grammar.Steps

/-! Properties that every form of the grammar inherits from the steps it is made of. Two of
them: no step goes back in the tokens, and the diagnostics are counted by the statements that
were given up. -/
namespace Monkey.Parser

/-- A property of parsers that the steps have and that sequencing keeps. -/
structure Inherited (P : {α : Type} → Parser α → Prop) : Prop where
  pure {α : Type} (a : α) : P (pure a)
  bind {α β : Type} {p : Parser α} {q : α → Parser β} : P p → (∀ a, P (q a)) → P (p >>= q)
  current : P current
  peek : P peek
  advance : P advance
  fail {α : Type} (f : ParseFault) : P (fail f : Parser α)
  reject {α : Type} (problem : Problem) (found : Token) : P (reject problem found : Parser α)
  orOmit {α : Type} {p : Parser α} : P p → P (orOmit p)

namespace Inherited

variable {P : {α : Type} → Parser α → Prop}

theorem ite (_ : Inherited P) {α : Type} {c : Prop} [Decidable c] {p q : Parser α} (yes : P p)
    (no : P q) : P (if c then p else q) := by
  split
  · exact yes
  · exact no

variable (h : Inherited P)
include h

theorem expect (kind : TokenKind) : P (expect kind) :=
  h.bind h.peek fun _ => h.ite h.advance (h.reject _ _)

theorem skipSemicolon : P skipSemicolon :=
  h.bind h.peek fun _ => h.ite h.advance (h.pure _)

theorem integerLiteral (token : Token) : P (integerLiteral token) := by
  unfold Parser.integerLiteral
  split
  · exact h.fail _
  · exact h.ite (h.reject _ _) (h.pure _)

theorem parameter : P parameter :=
  h.bind h.current fun _ => h.ite (h.pure _) (h.reject _ _)

section Lists

variable {α : Type} {item : Parser α} (each : P item)
include each

theorem moreItems (fuel : Nat) : P (moreItems item fuel) := by
  induction fuel with
  | zero => exact h.fail _
  | succ fuel ih =>
    refine h.bind h.peek fun _ => h.ite (h.bind h.advance fun _ => ?_) (h.pure _)
    refine h.bind h.peek fun _ => h.ite (h.pure _) (h.bind h.advance fun _ => ?_)
    exact h.bind each fun _ => h.bind ih fun _ => h.pure _

theorem items (fuel : Nat) : P (items item fuel) := by
  refine h.bind h.peek fun _ => h.ite (h.bind h.advance fun _ => h.pure _)
    (h.bind h.advance fun _ => h.bind each fun _ => ?_)
  exact h.bind (h.moreItems each fuel) fun _ => h.bind (h.expect _) fun _ => h.pure _

end Lists

section Forms

variable {expr : Precedence → Parser Node} (parts : ∀ floor, P (expr floor))
include parts

theorem statement : P (statement expr) := by
  refine h.bind h.current fun token => ?_
  split
  · exact h.bind (h.expect _) fun _ => h.bind h.current fun _ => h.bind (h.expect _) fun _ =>
      h.bind h.advance fun _ => h.bind (parts _) fun _ => h.bind h.skipSemicolon fun _ => h.pure _
  · exact h.bind h.advance fun _ => h.bind (parts _) fun _ =>
      h.bind h.skipSemicolon fun _ => h.pure _
  · exact h.bind (parts _) fun _ => h.bind h.skipSemicolon fun _ => h.pure _

theorem blockBody (opening : Cursor) (fuel : Nat) : P (blockBody expr opening fuel) := by
  induction fuel with
  | zero => exact h.fail _
  | succ fuel ih =>
    refine h.bind h.current fun _ => h.ite (h.pure _) (h.ite (h.reject _ _) ?_)
    exact h.bind (h.orOmit (h.statement parts)) fun _ => h.bind h.advance fun _ =>
      h.bind ih fun _ => h.pure _

theorem block (fuel : Nat) : P (block expr fuel) :=
  h.bind h.current fun _ => h.bind h.advance fun _ => h.blockBody parts _ fuel

theorem conditional (fuel : Nat) : P (conditional expr fuel) := by
  refine h.bind (h.expect _) fun _ => h.bind h.advance fun _ => h.bind (parts _) fun _ =>
    h.bind (h.expect _) fun _ => h.bind (h.expect _) fun _ =>
      h.bind (h.block parts fuel) fun _ => ?_
  refine h.bind h.peek fun _ => h.ite (h.bind h.advance fun _ => h.bind (h.expect _) fun _ => ?_)
    (h.pure _)
  exact h.bind (h.block parts fuel) fun _ => h.pure _

theorem functionLiteral (fuel : Nat) : P (functionLiteral expr fuel) :=
  h.bind (h.expect _) fun _ => h.bind (h.items h.parameter fuel) fun _ =>
    h.bind (h.expect _) fun _ => h.bind (h.block parts fuel) fun _ => h.pure _

theorem operand (fuel : Nat) : P (operand expr fuel) := by
  refine h.bind h.current fun token => ?_
  split
  · exact h.pure _
  · exact h.integerLiteral _
  · exact h.pure _
  · exact h.pure _
  · exact h.bind h.advance fun _ => h.bind (parts _) fun _ => h.pure _
  · exact h.bind h.advance fun _ => h.bind (parts _) fun _ => h.pure _
  · exact h.bind h.advance fun _ => h.bind (parts _) fun _ => h.bind (h.expect _) fun _ => h.pure _
  · exact h.conditional parts fuel
  · exact h.functionLiteral parts fuel
  · exact h.reject _ _

theorem continuation (fuel : Nat) (left : Node) (next : Token) :
    P (continuation expr fuel left next) :=
  h.ite (h.bind (h.items (parts _) fuel) fun _ => h.pure _)
    (h.bind h.advance fun _ => h.bind (parts _) fun _ => h.pure _)

theorem operators (floor : Precedence) (fuel : Nat) (left : Node) :
    P (operators expr floor fuel left) := by
  induction fuel generalizing left with
  | zero => exact h.fail _
  | succ fuel ih =>
    exact h.bind h.peek fun _ => h.ite (h.bind h.advance fun _ =>
      h.bind (h.continuation parts fuel left _) fun _ => ih _) (h.pure _)

theorem programBody (fuel : Nat) : P (programBody expr fuel) := by
  induction fuel with
  | zero => exact h.fail _
  | succ fuel ih =>
    refine h.bind h.current fun _ => h.ite (h.pure _) ?_
    exact h.bind (h.orOmit (h.statement parts)) fun _ => h.bind h.advance fun _ =>
      h.bind ih fun _ => h.pure _

end Forms

theorem expression (fuel : Nat) (floor : Precedence) : P (expression fuel floor) := by
  induction fuel generalizing floor with
  | zero => exact h.fail _
  | succ fuel ih => exact h.bind (h.operand ih fuel) fun _ => h.operators ih floor fuel _

end Inherited

/-- However the run ends, the tokens it leaves are the last of those it found. -/
def Shrinks (p : Parser α) : Prop :=
  ∀ s, Ensures p s (fun _ s' => s'.stream.tokens <:+ s.stream.tokens)
    fun _ s' => s'.stream.tokens <:+ s.stream.tokens

theorem shrinks_inherited : Inherited @Shrinks where
  pure _ s := List.suffix_refl _
  bind {α β p q} first next s := by
    refine ensures_bind.mpr ((first s).weaken (fun a middle moved => ?_) fun _ _ moved => moved)
    exact (next a middle).weaken (fun _ _ last => last.trans moved) fun _ _ last => last.trans moved
  current s := List.suffix_refl _
  peek s := List.suffix_refl _
  advance s := List.tail_suffix _
  fail f s := List.suffix_refl _
  reject problem found s := List.suffix_refl _
  orOmit {α p} run s := by
    have left := run s
    unfold Ensures at left ⊢
    unfold orOmit
    cases result : p s with
    | ok a s' => simpa only [result] using left
    | error e s' =>
      simp only [result] at left
      cases e <;> exact left

/-- The run from `s` to `s'` adds `extra` diagnostics more than it gives up statements. -/
def Surplus (extra : Nat) (s s' : ParserState) : Prop :=
  s.omitted ≤ s'.omitted ∧
    s'.diagnostics.length + s.omitted = s.diagnostics.length + s'.omitted + extra

theorem Surplus.trans (first : Surplus 0 s middle) (last : Surplus extra middle s') :
    Surplus extra s s' := by
  obtain ⟨_, _⟩ := first
  obtain ⟨_, _⟩ := last
  constructor <;> omega

/-- A run that ends well has one diagnostic for each statement it gave up, and a run that
gives up has one more. -/
def Balanced (p : Parser α) : Prop :=
  ∀ s, Ensures p s (fun _ s' => Surplus 0 s s') (fun e s' => e = .recorded → Surplus 1 s s')

theorem balanced_inherited : Inherited @Balanced where
  pure _ s := ⟨Nat.le_refl _, rfl⟩
  bind {α β p q} first next s := by
    refine ensures_bind.mpr ((first s).weaken (fun a middle moved => ?_) fun _ _ moved => moved)
    exact (next a middle).weaken (fun _ _ last => moved.trans last)
      fun _ _ last recorded => moved.trans (last recorded)
  current s := ⟨Nat.le_refl _, rfl⟩
  peek s := ⟨Nat.le_refl _, rfl⟩
  advance s := ⟨Nat.le_refl _, rfl⟩
  fail f s := by
    intro recorded
    cases recorded
  reject problem found s := by
    intro _
    refine ⟨Nat.le_refl _, ?_⟩
    simp only [List.length_append, List.length_singleton]
    omega
  orOmit {α p} run s := by
    have counted := run s
    unfold Ensures at counted ⊢
    unfold orOmit
    cases result : p s with
    | ok a s' => simpa only [result] using counted
    | error e s' =>
      simp only [result] at counted
      cases e with
      | recorded =>
        obtain ⟨_, _⟩ := counted rfl
        constructor <;> dsimp only <;> omega
      | fault f => intro recorded; cases recorded

theorem Balanced.ok {p : Parser α} (balanced : Balanced p) (run : p s = .ok a s') :
    Surplus 0 s s' := by
  have counted := balanced s
  unfold Ensures at counted
  rw [run] at counted
  exact counted

theorem Balanced.recorded {p : Parser α} (balanced : Balanced p)
    (run : p s = .error .recorded s') : Surplus 1 s s' := by
  have counted := balanced s
  unfold Ensures at counted
  rw [run] at counted
  exact counted rfl

end Monkey.Parser
