import Mathlib.Algebra.Group.Nat.Defs
import Monkey.Proofs.Eval.Sequencing

/-! Arithmetic of words. The language computes with unbounded integers and wraps each result; a
machine computes with 64-bit words throughout. On trees of sums, differences, products, quotients
and negations of words the two agree at every node, up to the first quotient by zero, and without
quotients both are the exact value of the tree, reduced once. -/
namespace Monkey

inductive ArithmeticOperator where
  | sum | difference | product | quotient

inductive Comparison where
  | less | greater | equal | unequal

namespace ArithmeticOperator

def symbol : ArithmeticOperator → Text
  | sum => utf16 "+"
  | difference => utf16 "-"
  | product => utf16 "*"
  | quotient => utf16 "/"

/-- What a machine makes of two words. It has no quotient by zero. -/
def onWords (a b : Int64) : ArithmeticOperator → Option Int64
  | sum => some (a + b)
  | difference => some (a - b)
  | product => some (a * b)
  | quotient => if b = 0 then none else some (a / b)

/-- The operator on unbounded integers, where a quotient goes toward zero. -/
def onIntegers (a b : Int) : ArithmeticOperator → Int
  | sum => a + b
  | difference => a - b
  | product => a * b
  | quotient => a.tdiv b

end ArithmeticOperator

namespace Comparison

def symbol : Comparison → Text
  | less => utf16 "<"
  | greater => utf16 ">"
  | equal => utf16 "=="
  | unequal => utf16 "!="

/-- Words are compared as signed numbers. -/
def onWords (a b : Int64) : Comparison → Bool
  | less => a < b
  | greater => b < a
  | equal => a == b
  | unequal => a != b

end Comparison

inductive Arithmetic where
  | literal (value : Int)
  | name (x : Text)
  | negation (operand : Arithmetic)
  | operation (operator : ArithmeticOperator) (left right : Arithmetic)

/-- A quotient that has no value: its operands, and the word that is to be divided. -/
structure ZeroDivisor where
  left : Arithmetic
  right : Arithmetic
  dividend : Int64

/-- The integer is a signed 64-bit word. -/
def FitsInt64 (k : Int) : Prop := -9223372036854775808 ≤ k ∧ k ≤ 9223372036854775807

namespace Arithmetic

def toNode : Arithmetic → Node
  | literal value => .int value
  | name x => .ident x
  | negation operand => .unary (utf16 "-") operand.toNode
  | operation operator left right => .binary operator.symbol left.toNode right.toNode

def height : Arithmetic → Nat
  | literal _ | name _ => 1
  | negation operand => operand.height + 1
  | operation _ left right => max left.height right.height + 1

/-- Evaluation by a machine, operands from left to right, up to the first divisor that is zero. -/
def machine (value : Text → Int64) : Arithmetic → Except ZeroDivisor Int64
  | literal k => return .ofInt k
  | name x => return value x
  | negation operand => return -(← operand.machine value)
  | operation operator left right => do
    let a ← left.machine value
    let b ← right.machine value
    match operator.onWords a b with
    | some w => return w
    | none => throw ⟨left, right, a⟩

/-- The value in unbounded integers. -/
def exact (value : Text → Int) : Arithmetic → Int
  | literal k => k
  | name x => value x
  | negation operand => -operand.exact value
  | operation operator left right => operator.onIntegers (left.exact value) (right.exact value)

def QuotientFree : Arithmetic → Prop
  | literal _ | name _ => True
  | negation operand => operand.QuotientFree
  | operation operator left right =>
    operator ≠ .quotient ∧ left.QuotientFree ∧ right.QuotientFree

/-- Literals are words, and names are bound to words. -/
def OnWords (s : Store) (e : FrameId) : Arithmetic → Prop
  | literal k => FitsInt64 k
  | name x => ∃ k, s.lookup e x = some (.int k) ∧ FitsInt64 k
  | negation operand => operand.OnWords s e
  | operation _ left right => left.OnWords s e ∧ right.OnWords s e

end Arithmetic

/-- Two trees under a comparison, evaluated by a machine. -/
def Comparison.machine (comparison : Comparison) (value : Text → Int64)
    (left right : Arithmetic) : Except ZeroDivisor Bool := do
  let a ← left.machine value
  let b ← right.machine value
  return comparison.onWords a b

/-- The integer that a name is bound to. -/
def Store.integerAt (s : Store) (e : FrameId) (x : Text) : Int :=
  match s.lookup e x with
  | some (.int k) => k
  | _ => 0

/-- The word that a name is bound to. -/
def Store.wordAt (s : Store) (e : FrameId) (x : Text) : Int64 := .ofInt (s.integerAt e x)

/-- The failure of the language for a quotient by zero. -/
def ZeroDivisor.failure (z : ZeroDivisor) : Failure :=
  .divisionByZero (.binary (utf16 "/") z.left.toNode z.right.toNode) (.int z.dividend.toInt) (.int 0)

/-- The run that gives what the machine gives and leaves the store as it is. -/
def machineRun (give : α → Value) (s : Store) :
    Except ZeroDivisor α → EStateM.Result Failure Store Value
  | .ok a => .ok (give a) s
  | .error z => .error z.failure s

def Value.ofInt64 (w : Int64) : Value := .int w.toInt

section Operators

theorem wrap_eq_toInt_ofInt (k : Int) : wrap k = (Int64.ofInt k).toInt :=
  Int64.toInt_ofInt.symm

theorem FitsInt64.toInt_ofInt (fits : FitsInt64 k) : (Int64.ofInt k).toInt = k := by
  rw [← wrap_eq_toInt_ofInt, wrap_eq_self fits.1 fits.2]

theorem toInt_eq_zero_iff {b : Int64} : b.toInt = 0 ↔ b = 0 := Int64.toInt_inj (y := 0)

theorem applyUnary_word (w : Int64) : applyUnary (utf16 "-") (.ofInt64 w) = .ofInt64 (-w) := by
  show Value.int (wrap (-w.toInt)) = .int (-w).toInt
  rw [Int64.toInt_neg]
  rfl

theorem applyBinary_words (operator : ArithmeticOperator) (a b : Int64) :
    applyBinary operator.symbol (.ofInt64 a) (.ofInt64 b) =
      (operator.onWords a b).map Value.ofInt64 := by
  cases operator with
  | sum =>
    show some (Value.int (wrap (a.toInt + b.toInt))) = some (.int (a + b).toInt)
    rw [Int64.toInt_add]
    rfl
  | difference =>
    show some (Value.int (wrap (a.toInt - b.toInt))) = some (.int (a - b).toInt)
    rw [Int64.toInt_sub]
    rfl
  | product =>
    show some (Value.int (wrap (a.toInt * b.toInt))) = some (.int (a * b).toInt)
    rw [Int64.toInt_mul]
    rfl
  | quotient =>
    show (if b.toInt = 0 then none else some (Value.int (wrap (a.toInt.tdiv b.toInt)))) =
      (if b = 0 then none else some (a / b)).map Value.ofInt64
    by_cases zero : b = 0
    · rw [if_pos (toInt_eq_zero_iff.mpr zero), if_pos zero]
      rfl
    · rw [if_neg (mt toInt_eq_zero_iff.mp zero), if_neg zero]
      show some (Value.int (wrap (a.toInt.tdiv b.toInt))) = some (.int (a / b).toInt)
      rw [Int64.toInt_div]
      rfl

theorem applyBinary_compare (comparison : Comparison) (a b : Int64) :
    applyBinary comparison.symbol (.ofInt64 a) (.ofInt64 b) =
      some (.bool (comparison.onWords a b)) := by
  have same : (a.toInt == b.toInt) = (a == b) :=
    Bool.eq_iff_iff.mpr (by rw [beq_iff_eq, beq_iff_eq, Int64.toInt_inj])
  cases comparison with
  | less =>
    show some (Value.bool (decide (a.toInt < b.toInt))) = some (.bool (decide (a < b)))
    rw [decide_eq_decide.mpr Int64.lt_iff_toInt_lt]
  | greater =>
    show some (Value.bool (decide (b.toInt < a.toInt))) = some (.bool (decide (b < a)))
    rw [decide_eq_decide.mpr Int64.lt_iff_toInt_lt]
  | equal => exact congrArg (fun c => some (Value.bool c)) same
  | unequal => exact congrArg (fun c => some (Value.bool !c)) same

/-- Only a quotient by zero has no value. -/
theorem onWords_eq_none {operator : ArithmeticOperator} {a b : Int64}
    (undefined : operator.onWords a b = none) : operator = .quotient ∧ b = 0 := by
  cases operator with
  | quotient =>
    refine ⟨rfl, Classical.byContradiction fun other => ?_⟩
    rw [ArithmeticOperator.onWords, if_neg other] at undefined
    cases undefined
  | sum | difference | product => cases undefined

end Operators

namespace Eval

/-- Operands that the machine evaluates are followed by what it does with their words. -/
theorem onValue_machine {s : Store} {m : Eval Value} {word : Except ZeroDivisor Int64}
    {next : Value → Eval Value} {rest : Int64 → Except ZeroDivisor α} {give : α → Value}
    (first : m s = machineRun .ofInt64 s word)
    (further : ∀ w, next (.ofInt64 w) s = machineRun give s (rest w)) :
    onValue m next s = machineRun give s (word >>= rest) := by
  cases word with
  | error z => exact onValue_error first next
  | ok w =>
    rw [onValue_run first rfl]
    exact further w

theorem node_literal (fits : FitsInt64 k) (depth : Nat) (e : FrameId) (s : Store) :
    node (depth + 1) (.int k) e s = .ok (.ofInt64 (.ofInt k)) s := by
  show EStateM.Result.ok (Value.int k) s = .ok (.int (Int64.ofInt k).toInt) s
  rw [fits.toInt_ofInt]

theorem node_name {s : Store} (bound : s.lookup e x = some (.int k)) (fits : FitsInt64 k)
    (depth : Nat) : node (depth + 1) (.ident x) e s = .ok (.ofInt64 (s.wordAt e x)) s := by
  have value : s.wordAt e x = .ofInt k := by rw [Store.wordAt, Store.integerAt, bound]
  show EStateM.Result.ok ((s.lookup e x).getD .null) s = .ok (.int (s.wordAt e x).toInt) s
  rw [bound, value, fits.toInt_ofInt]
  rfl

/-- Evaluation does at every node what the machine does there. -/
theorem node_arithmetic (t : Arithmetic) {s : Store} (words : t.OnWords s e)
    (deep : t.height ≤ depth) :
    node depth t.toNode e s = machineRun .ofInt64 s (t.machine (s.wordAt e)) := by
  induction t generalizing depth with
  | literal k =>
    obtain ⟨depth, rfl⟩ := Nat.exists_eq_add_of_lt deep
    exact node_literal words _ e s
  | name x =>
    obtain ⟨depth, rfl⟩ := Nat.exists_eq_add_of_lt deep
    obtain ⟨k, bound, word⟩ := words
    exact node_name bound word _
  | negation operand ih =>
    cases depth with
    | zero => cases deep
    | succ depth =>
      refine onValue_machine (ih words (Nat.le_of_succ_le_succ deep)) fun w => ?_
      show EStateM.Result.ok (applyUnary (utf16 "-") (.ofInt64 w)) s = .ok (.ofInt64 (-w)) s
      rw [applyUnary_word]
  | operation operator left right first second =>
    cases depth with
    | zero => cases deep
    | succ depth =>
      obtain ⟨low, low'⟩ := Nat.max_le.mp (Nat.le_of_succ_le_succ deep)
      refine onValue_machine (first words.1 low) fun a => ?_
      refine onValue_machine (second words.2 low') fun b => ?_
      rw [binary, applyBinary_words]
      cases result : operator.onWords a b with
      | some w => rfl
      | none =>
        obtain ⟨rfl, rfl⟩ := onWords_eq_none result
        rfl

theorem node_comparison (comparison : Comparison) (left right : Arithmetic) {s : Store}
    (words : left.OnWords s e) (words' : right.OnWords s e) (low : left.height ≤ depth)
    (low' : right.height ≤ depth) :
    node (depth + 1) (.binary comparison.symbol left.toNode right.toNode) e s =
      machineRun .bool s (comparison.machine (s.wordAt e) left right) := by
  refine onValue_machine (node_arithmetic left words low) fun a => ?_
  refine onValue_machine (node_arithmetic right words' low') fun b => ?_
  rw [binary, applyBinary_compare]
  rfl

end Eval

/-- Without quotients, words are what exact values leave of themselves. -/
theorem machine_eq_exact (t : Arithmetic) (free : t.QuotientFree) (value : Text → Int) :
    t.machine (fun x => .ofInt (value x)) = .ok (.ofInt (t.exact value)) := by
  induction t with
  | literal k => rfl
  | name x => rfl
  | negation operand ih =>
    rw [Arithmetic.machine, ih free, Arithmetic.exact, Int64.ofInt_neg]
    rfl
  | operation operator left right first second =>
    obtain ⟨other, freeLeft, freeRight⟩ := free
    rw [Arithmetic.machine, first freeLeft, second freeRight, Arithmetic.exact]
    cases operator with
    | sum => exact congrArg Except.ok (Int64.ofInt_add _ _).symm
    | difference => exact congrArg Except.ok (Int64.ofInt_sub _ _).symm
    | product => exact congrArg Except.ok (Int64.ofInt_mul _ _).symm
    | quotient => exact absurd rfl other

/-- A run that gives what a machine gives gives no signal, so there is nothing to open. -/
theorem evaluate_machine {s : Store} {m : Except ZeroDivisor α} {give : α → Value}
    (run : Eval.node depth n e s = machineRun give s m) (plain : ∀ a, (give a).unwrap = give a) :
    evaluate depth n e s = machineRun give s m := by
  simp only [evaluate, bind, EStateM.bind, run]
  cases m with
  | error z => rfl
  | ok a => exact congrArg (EStateM.Result.ok · s) (plain a)

/-- Evaluation of arithmetic on words is that of a 64-bit machine: it gives the same word, or fails
with a division by zero at the quotient where the machine first meets a divisor that is zero. The
same holds of a comparison of two trees. Without quotients the result is the exact value, reduced
once. -/
theorem evaluate_eq_machine (s : Store) (e : FrameId) :
    (∀ (t : Arithmetic) depth, t.OnWords s e → t.height ≤ depth →
      evaluate depth t.toNode e s = machineRun .ofInt64 s (t.machine (s.wordAt e))) ∧
    (∀ (comparison : Comparison) (left right : Arithmetic) depth, left.OnWords s e →
      right.OnWords s e → left.height < depth → right.height < depth →
      evaluate depth (.binary comparison.symbol left.toNode right.toNode) e s =
        machineRun .bool s (comparison.machine (s.wordAt e) left right)) ∧
    (∀ z : ZeroDivisor, z.failure.message = utf16 "division by zero") ∧
    ∀ (t : Arithmetic) depth, t.OnWords s e → t.QuotientFree → t.height ≤ depth →
      evaluate depth t.toNode e s = .ok (.int ((t.exact (s.integerAt e)).bmod (2 ^ 64))) s := by
  have first (t : Arithmetic) (depth : Nat) (words : t.OnWords s e) (deep : t.height ≤ depth) :=
    evaluate_machine (Eval.node_arithmetic t words deep) fun _ => rfl
  refine ⟨first, ?_, fun _ => rfl, ?_⟩
  · intro comparison left right depth words words' low low'
    cases depth with
    | zero => cases low
    | succ depth =>
      refine evaluate_machine ?_ fun _ => rfl
      exact Eval.node_comparison comparison left right words words' (Nat.le_of_lt_succ low)
        (Nat.le_of_lt_succ low')
  · intro t depth words free deep
    rw [first t depth words deep, show s.wordAt e = fun x => .ofInt (s.integerAt e x) from rfl,
      machine_eq_exact t free]
    exact congrArg (EStateM.Result.ok · s) (congrArg Value.int Int64.toInt_ofInt)

/-- One frame, in which `a` is the least word. -/
def leastStore : Store := ⟨#[⟨[(utf16 "a", .int (-9223372036854775808))], none⟩], 0⟩

/-- The tree of `a / -1 - 1`. -/
def wrappedQuotient : Arithmetic :=
  .operation .difference (.operation .quotient (.name (utf16 "a")) (.literal (-1))) (.literal 1)

/-- The least word divided by minus one is itself, and one less is the greatest word. -/
theorem evaluate_wrappedQuotient : wrappedQuotient.OnWords leastStore 0 ∧
    wrappedQuotient.height ≤ 3 ∧
    wrappedQuotient.machine (leastStore.wordAt 0) = .ok Int64.maxValue ∧
    evaluate 3 wrappedQuotient.toNode 0 leastStore =
      machineRun .ofInt64 leastStore (wrappedQuotient.machine (leastStore.wordAt 0)) := by
  have bound : leastStore.lookup 0 (utf16 "a") = some (.int (-9223372036854775808)) := rfl
  have words : wrappedQuotient.OnWords leastStore 0 :=
    ⟨⟨⟨_, bound, by decide, by decide⟩, by decide, by decide⟩, by decide, by decide⟩
  have deep : wrappedQuotient.height ≤ 3 := Nat.le_refl 3
  exact ⟨words, deep, rfl, (evaluate_eq_machine leastStore 0).1 wrappedQuotient 3 words deep⟩

end Monkey
