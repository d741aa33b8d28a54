import Monkey.Proofs.Eval.Invariant
import Monkey.Proofs.Node.WellFormed
import Monkey.Value.Printer

/-! Values that come from sources. Well-formed code holds only 64-bit integers, booleans, `null`
and functions with well-formed code, and fails only by a division by zero, by a call with the
wrong number of arguments or by nesting too deep. -/
namespace Monkey

/-- A 64-bit integer, a boolean, `null` or a function of well-formed code that was made in one
of the first `n` frames. -/
def Value.Sourced (n : Nat) : Value → Prop
  | int k => -9223372036854775808 ≤ k ∧ k ≤ 9223372036854775807
  | bool _ => True
  | null => True
  | function c => c.env < n ∧ (∀ x ∈ c.params, IsName x) ∧ ∀ m ∈ c.body, WellFormed .statement m
  | returning _ => False
  | unknown _ => False

/-- The failures that a source may lead to, with what is said about them. -/
def Failure.Documented (f : Failure) : Prop :=
  match f with
  | rejected diagnostics => diagnostics ≠ []
  | divisionByZero _ _ _ => f.message = utf16 "division by zero"
  | argumentCount params args => args.length ≠ params.length ∧
    f.message = utf16 "Arguments length mismatch: fn accepts " ++ decimalNat params.length ++
      utf16 " arguments, but " ++ decimalNat args.length ++ utf16 " were provided"
  | tooDeep => True
  | _ => False

theorem WellFormed.part (formed : WellFormed role n) :
    ∀ m ∈ n.parts, ∃ role, WellFormed role m := by
  intro m member
  cases formed with
  | program body => exact ⟨_, body m member⟩
  | letStmt _ value | returnStmt value | exprStmt value | unary _ value =>
    cases List.mem_singleton.mp member
    exact ⟨_, value⟩
  | ident | int | bool => cases member
  | binary _ left right =>
    rcases List.mem_cons.mp member with rfl | member
    · exact ⟨_, left⟩
    · cases List.mem_singleton.mp member
      exact ⟨_, right⟩
  | ifThen condition yes =>
    rcases List.mem_cons.mp member with rfl | member
    · exact ⟨_, condition⟩
    · exact ⟨_, yes m member⟩
  | ifElse condition yes no =>
    rcases List.mem_cons.mp member with rfl | member
    · exact ⟨_, condition⟩
    rcases List.mem_append.mp member with member | member
    · exact ⟨_, yes m member⟩
    · exact ⟨_, no m member⟩
  | fnLit _ body => exact ⟨_, body m member⟩
  | call callee args =>
    rcases List.mem_cons.mp member with rfl | member
    · exact ⟨_, callee⟩
    · exact ⟨_, args m member⟩

namespace Value.Sourced

theorem grow (sourced : Value.Sourced n v) (le : n ≤ m) : v.Sourced m := by
  cases v with
  | function c => exact ⟨Nat.lt_of_lt_of_le sourced.1 le, sourced.2⟩
  | _ => exact sourced

theorem unwrap (sourced : Value.Sourced n v) : v.unwrap.Sourced n := by
  cases v with
  | returning v => exact sourced.elim
  | _ => exact sourced

/-- What comes from a source can be printed. -/
theorem prints (sourced : Value.Sourced n v) : ∃ text, v.print = .ok text := by
  cases v with
  | function c =>
    have known := Node.unknownIn?_eq_none fun m member => (sourced.2.2 m member).known
    exact ⟨_, by rw [Value.print, Closure.print, known]⟩
  | returning v => exact sourced.elim
  | unknown kind => exact sourced.elim
  | _ => exact ⟨_, rfl⟩

end Value.Sourced

/-- Well-formed code runs on values that come from sources. -/
def sourcing : Invariant where
  code n := ∃ role, WellFormed role n
  held := Value.Sourced
  fails := Failure.Documented
  parts := fun ⟨_, formed⟩ => formed.part
  grow := Value.Sourced.grow
  literal := fun ⟨_, formed⟩ => by
    cases formed with
    | int least most => exact ⟨Int.le_trans (by decide) least, most⟩
  wrapped := wrap_bounds _
  bool := trivial
  null := trivial
  unwrap := Value.Sourced.unwrap
  function := fun ⟨_, formed⟩ inside => by
    cases formed with
    | fnLit names body => exact ⟨inside, names, body⟩
  closure sourced := ⟨sourced.1, fun m member => ⟨_, sourced.2.2 m member⟩⟩
  tooDeep := trivial
  divisionByZero := rfl
  argumentCount count := ⟨count, rfl⟩
  unexpectedNode := fun ⟨_, formed⟩ => by cases formed

end Monkey
