import Monkey.Eval.Basic

/-! Statements one after another. Going on with plain values is associative, so that statements may
be split anywhere, and a program may be split behind statements that do not return. -/
namespace Monkey

namespace Eval

theorem onValue_pure (m : Eval Value) : onValue m (pure ·) = m := by
  funext s
  simp only [onValue, bind, EStateM.bind]
  cases m s with
  | error e s' => rfl
  | ok v s' => cases v <;> rfl

theorem onValue_assoc (m : Eval Value) (f g : Value → Eval Value) :
    onValue (onValue m f) g = onValue m fun v => onValue (f v) g := by
  funext s
  simp only [onValue, bind, EStateM.bind]
  cases m s with
  | error e s' => rfl
  | ok v s' => cases v <;> rfl

/-- What comes next sees plain values only. -/
theorem onValue_congr (m : Eval Value)
    (same : ∀ v : Value, v.isReturning = false → f v = g v) : onValue m f = onValue m g := by
  funext s
  simp only [onValue, bind, EStateM.bind]
  cases m s with
  | error e s' => rfl
  | ok v s' =>
    cases v with
    | returning v => rfl
    | _ => exact congrFun (same _ rfl) s'

theorem onValue_run {s s' : Store} (run : m s = .ok v s') (plain : v.isReturning = false)
    (next : Value → Eval Value) : onValue m next s = next v s' := by
  simp only [onValue, bind, EStateM.bind, run]
  cases v with
  | returning v => cases plain
  | _ => rfl

theorem onValue_error {s s' : Store} (run : m s = .error e s') (next : Value → Eval Value) :
    onValue m next s = .error e s' := by
  simp only [onValue, bind, EStateM.bind, run]

theorem statements_append (eval : Node → Eval Value) (last : Value)
    (plain : last.isReturning = false) (ns ms : List Node) :
    statements eval last (ns ++ ms) =
      onValue (statements eval last ns) fun v => statements eval v ms := by
  induction ns generalizing last with
  | nil =>
    funext s
    have run : statements eval last [] s = .ok last s := rfl
    exact (onValue_run run plain fun v => statements eval v ms).symm
  | cons n ns ih =>
    rw [List.cons_append, statements, statements, onValue_assoc]
    exact onValue_congr _ ih

/-- The value before statements is seen only if there are none. -/
theorem statements_eq_block (eval : Node → Eval Value) (last : Value) (nonempty : ns ≠ []) :
    statements eval last ns = block eval ns := by
  cases ns with
  | nil => exact absurd rfl nonempty
  | cons n ns => rfl

end Eval

/-- The statements of a program in two parts, of which the first does not return. -/
theorem evaluateProgram_append {s : Store} (ns : List Node) (nonempty : ms ≠ [])
    (plain : ∀ v s', evaluateBlock depth ns frame s = .ok v s' → v.isReturning = false) :
    evaluateProgram depth (ns ++ ms) frame s =
      (do
        let _ ← evaluateProgram depth ns frame
        evaluateProgram depth ms frame) s := by
  have whole := Eval.statements_append (Eval.node depth · frame) .null rfl ns ms
  unfold evaluateProgram Eval.program
  rw [whole]
  simp only [bind, EStateM.bind]
  cases run : Eval.statements (Eval.node depth · frame) .null ns s with
  | error e s' => rw [Eval.onValue_error run]
  | ok v s' =>
    rw [Eval.onValue_run run (plain v s' run), Eval.statements_eq_block _ _ nonempty]
    rfl

end Monkey
