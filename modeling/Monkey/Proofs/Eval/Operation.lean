import Monkey.Proofs.Eval.Scope

/-! Operations on a store of frames, as a program that embeds the language may perform them. An
invariant of evaluation is kept by every operation that is given what the invariant admits. -/
namespace Monkey

/-- The invariant with every failure allowed. -/
def Invariant.lenient (I : Invariant) : Invariant :=
  { I with
    fails := fun _ => True
    tooDeep := trivial
    divisionByZero := trivial
    argumentCount := fun _ => trivial
    unexpectedNode := fun _ => trivial }

theorem Eval.respects_extend {I : Invariant} (params : List Text) (inside : outer < n)
    (values : ∀ v ∈ args, I.held n v) :
    Respects I.lenient n (extend params args outer) fun k e => e < k := by
  by_cases count : params.length = args.length
  · have made := respects_bindParams (I := I.lenient) params inside values
    rwa [bindParams, if_pos count.symm] at made
  · rw [extend, if_neg count]
    exact .fail trivial

namespace Store

/-- What can be done with a store of frames. -/
inductive Operation where
  | newFrame (outer : Option FrameId)
  | define (e : FrameId) (name : Text) (v : Value)
  | extend (params : List Text) (args : List Value) (outer : FrameId)
  | bindParams (params : List Text) (args : List Value) (outer : FrameId)
  | evaluate (depth : Nat) (n : Node) (e : FrameId)
  | apply (depth : Nat) (f : Closure) (args : List Value)

namespace Operation

/-- Whatever the operation is given belongs to the first `n` frames. -/
def Refers (n : Nat) : Operation → Prop
  | newFrame outer => ∀ o, outer = some o → o < n
  | define e _ v => e < n ∧ v.Within n
  | extend _ args outer => outer < n ∧ ∀ v ∈ args, v.Within n
  | bindParams _ args outer => outer < n ∧ ∀ v ∈ args, v.Within n
  | evaluate _ _ e => e < n
  | apply _ f args => f.env < n ∧ ∀ v ∈ args, v.Within n

/-- Evaluations and calls give a value. -/
def run : Operation → Eval (Option Value)
  | newFrame outer => do
    let _ ← Eval.newFrame outer
    return none
  | define e name v => do
    Eval.define e name v
    return none
  | extend params args outer => do
    let _ ← Eval.extend params args outer
    return none
  | bindParams params args outer => do
    let _ ← Eval.bindParams params args outer
    return none
  | evaluate depth n e => do
    let v ← Monkey.evaluate depth n e
    return some v
  | apply depth f args => do
    let v ← applyFunction depth f args
    return some v

/-- The operation is given only what the invariant admits among `n` frames. -/
def Admitted (I : Invariant) (n : Nat) : Operation → Prop
  | newFrame outer => ∀ o, outer = some o → o < n
  | define e _ v => e < n ∧ I.held n v
  | extend _ args outer => outer < n ∧ ∀ v ∈ args, I.held n v
  | bindParams _ args outer => outer < n ∧ ∀ v ∈ args, I.held n v
  | evaluate _ m e => e < n ∧ I.code m
  | apply _ f args => I.held n (.function f) ∧ ∀ v ∈ args, I.held n v

theorem Refers.admitted {op : Operation} (refers : op.Refers n) : op.Admitted scoping n := by
  cases op with
  | evaluate depth m e => exact ⟨refers, trivial⟩
  | _ => exact refers

/-- What an operation gives may be held among `n` frames. -/
def Given (I : Invariant) (n : Nat) (given : Option Value) : Prop := ∀ v ∈ given, I.held n v

theorem respects_nothing (I : Invariant) : Eval.Respects I.lenient n (pure none) (Given I) :=
  .pure fun _ _ => nofun

theorem respects_value {I : Invariant} (value : I.held n v) :
    Eval.Respects I.lenient n (pure (some v)) (Given I) :=
  .pure fun _ le => by
    rintro w ⟨⟩
    exact I.grow value le

theorem respects_run {I : Invariant} {op : Operation} (admitted : op.Admitted I n) :
    Eval.Respects I.lenient n op.run (Given I) := by
  cases op with
  | newFrame outer => exact (Eval.respects_newFrame admitted).bind fun _ _ _ _ => respects_nothing I
  | define e name v =>
    have made := Eval.respects_define (I := I.lenient) e name admitted.2
    exact made.bind fun _ _ _ _ => respects_nothing I
  | extend params args outer =>
    have made := Eval.respects_extend params admitted.1 admitted.2
    exact made.bind fun _ _ _ _ => respects_nothing I
  | bindParams params args outer =>
    have made := Eval.respects_bindParams (I := I.lenient) params admitted.1 admitted.2
    exact made.bind fun _ _ _ _ => respects_nothing I
  | evaluate depth m e =>
    have run := (Eval.respects_node (I := I.lenient) depth admitted.2 admitted.1).unwrapped
    exact run.bind fun _ _ _ value => respects_value value
  | apply depth f args =>
    have run := Eval.respects_apply (I := I.lenient) (Eval.respects_node depth) f admitted.1
      admitted.2
    exact run.bind fun _ _ _ value => respects_value value

end Operation
end Store
end Monkey
