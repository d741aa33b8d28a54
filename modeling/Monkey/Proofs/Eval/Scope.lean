import Monkey.Proofs.Eval.Invariant

/-! Scope. In every store that frames, definitions, evaluations and calls can lead to, each
frame is nested in an earlier one and each function belongs to a frame of the store. -/
namespace Monkey

/-- A function in the value was made in one of the first `n` frames. -/
def Value.Within (n : Nat) : Value → Prop
  | function c => c.env < n
  | returning v => v.Within n
  | _ => True

/-- Every reference in the store leads to a frame of it, and outwards to an earlier one. -/
def Store.Scoped (s : Store) : Prop := s.Holds Value.Within

theorem Value.Within.grow (within : Value.Within n v) (le : n ≤ m) : v.Within m := by
  induction v with
  | function c => exact Nat.lt_of_lt_of_le within le
  | returning v ih => exact ih within
  | _ => trivial

theorem Value.Within.unwrap (within : Value.Within n v) : v.unwrap.Within n := by
  cases v <;> exact within

/-- Any code may run, as long as references lead to frames. -/
def scoping : Invariant where
  code _ := True
  held := Value.Within
  fails _ := True
  parts _ _ _ := trivial
  grow := Value.Within.grow
  literal _ := trivial
  wrapped := trivial
  bool := trivial
  null := trivial
  unwrap := Value.Within.unwrap
  function _ inside := inside
  closure within := ⟨within, fun _ _ => trivial⟩
  tooDeep := trivial
  divisionByZero := trivial
  argumentCount _ := trivial
  unexpectedNode _ := trivial

/-- The stores that operations on frames lead to, failing ones included. -/
inductive Store.Reachable : Store → Prop where
  | empty : Reachable .empty
  | newFrame : Reachable s → (∀ o, outer = some o → o < s.frames.size) →
      Reachable ((Eval.newFrame outer).after s)
  | define : Reachable s → e < s.frames.size → v.Within s.frames.size →
      Reachable ((Eval.define e name v).after s)
  | extend : Reachable s → outer < s.frames.size → (∀ v ∈ args, v.Within s.frames.size) →
      Reachable ((Eval.extend params args outer).after s)
  | evaluate : Reachable s → e < s.frames.size → Reachable ((Eval.node depth n e).after s)
  | apply : Reachable s → f.env < s.frames.size → (∀ v ∈ args, v.Within s.frames.size) →
      Reachable ((applyFunction depth f args).after s)

namespace Eval

/-- Names that match their values make the frame of a call; others leave the store alone. -/
theorem after_extend (params : List Text) (args : List Value) (outer : FrameId) (s : Store) :
    (extend params args outer).after s = (bindParams params args outer).after s := by
  unfold bindParams
  split
  · rfl
  next count => rw [extend, if_neg fun same => count same.symm]; rfl

end Eval

theorem Store.Reachable.scoped (reachable : Store.Reachable s) : s.Scoped := by
  induction reachable with
  | empty => exact Store.holds_empty
  | newFrame _ outside ih => exact (Eval.respects_newFrame outside).after (I := scoping) ih
  | define _ _ within ih =>
    exact (Eval.respects_define (I := scoping) _ _ within).after ih
  | extend _ inside within ih =>
    rw [Eval.after_extend]
    exact (Eval.respects_bindParams (I := scoping) _ inside within).after ih
  | evaluate _ inside ih =>
    exact (Eval.respects_node (I := scoping) _ trivial inside).after ih
  | apply _ inside within ih =>
    exact (Eval.respects_apply (I := scoping) (Eval.respects_node _) _ inside within).after ih

end Monkey
