import Monkey.Failure

/-! Operators on values. Arithmetic is that of signed 64-bit words. -/
namespace Monkey

/-- The signed 64-bit word that an integer leaves after wrapping around. -/
def wrap (n : Int) : Int := n.bmod 18446744073709551616

theorem wrap_bounds (n : Int) :
    -9223372036854775808 ≤ wrap n ∧ wrap n ≤ 9223372036854775807 := by
  have low := Int.le_bmod (x := n) (m := 18446744073709551616) (by decide)
  have high := Int.bmod_lt (x := n) (m := 18446744073709551616) (by decide)
  unfold wrap
  omega

theorem wrap_eq_self {n : Int} (low : -9223372036854775808 ≤ n)
    (high : n ≤ 9223372036854775807) : wrap n = n := by
  unfold wrap
  exact Int.bmod_eq_of_le (by omega) (by omega)

/-- An operator that the language does not have gives `null`. -/
def applyUnary (operator : Text) (v : Value) : Value :=
  if operator == utf16 "!" then
    match v with
    | .bool b => .bool (!b)
    | v => .bool v.isNull
  else if operator == utf16 "-" then
    match v with
    | .int n => .int (wrap (-n))
    | _ => .null
  else .null

/-- The operator on two integers; `none` is a division by zero. Division goes toward
zero, and comparison looks at the integers as they are. -/
def applyInts (operator : Text) (l r : Int) : Option Value :=
  if operator == utf16 "+" then some (.int (wrap (l + r)))
  else if operator == utf16 "-" then some (.int (wrap (l - r)))
  else if operator == utf16 "*" then some (.int (wrap (l * r)))
  else if operator == utf16 "/" then
    if r = 0 then none else some (.int (wrap (l.tdiv r)))
  else if operator == utf16 "<" then some (.bool (l < r))
  else if operator == utf16 ">" then some (.bool (r < l))
  else if operator == utf16 "==" then some (.bool (l == r))
  else if operator == utf16 "!=" then some (.bool (l != r))
  else some .null

/-- Operands that are neither integers nor booleans give `null`. -/
def applyBinary (operator : Text) (left right : Value) : Option Value :=
  match left.asInt?, right.asInt? with
  | some l, some r => applyInts operator l r
  | _, _ => some .null

/-- The values that operators give. -/
inductive Computed : Value → Prop where
  | int (k : Int) : Computed (.int (wrap k))
  | bool (b : Bool) : Computed (.bool b)
  | null : Computed .null

theorem applyUnary_computed (operator : Text) (v : Value) : Computed (applyUnary operator v) := by
  unfold applyUnary
  split
  · cases v <;> exact .bool _
  split
  · cases v with
    | int k => exact .int _
    | _ => exact .null
  · exact .null

theorem computed_ite {c : Prop} [Decidable c] {a b : Option Value} (yes : ∀ v ∈ a, Computed v)
    (no : ∀ v ∈ b, Computed v) : ∀ v ∈ if c then a else b, Computed v := by
  split
  · exact yes
  · exact no

theorem applyInts_computed (operator : Text) (l r : Int) :
    ∀ v ∈ applyInts operator l r, Computed v := by
  unfold applyInts
  repeat' apply computed_ite
  all_goals rintro v ⟨⟩
  all_goals constructor

theorem applyBinary_computed (result : applyBinary operator l r = some v) : Computed v := by
  unfold applyBinary at result
  split at result
  · exact applyInts_computed operator _ _ v result
  · cases result
    exact .null

end Monkey
