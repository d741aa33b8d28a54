import Monkey.Proofs.Token.Lexeme
import Monkey.Text.Numeral

/-! Digit runs as numbers: reading takes a run at its value, and writing a number gives a
run with that value. -/
namespace Monkey

/-- The number that a digit run stands for. -/
def decimalValue (x : Text) : Nat :=
  x.foldl (fun n u => n * 10 + (u.toNat - (unit '0').toNat)) 0

theorem digitValue_digit (digit : isDigit u = true) :
    digitValue u = u.toNat - (unit '0').toNat ∧ digitValue u < 10 := by
  have range := (isDigit_iff u).mp digit
  have value : digitValue u = u.toNat - (unit '0').toNat := by
    unfold digitValue
    exact if_pos digit
  refine ⟨value, ?_⟩
  have zero : (unit '0').toNat = 48 := rfl
  omega

theorem not_blank_of_ascii {u : CodeUnit} (low : 32 < u.toNat) (high : u.toNat < 160) :
    isBlank u = false := by
  simp only [isBlank, Bool.or_eq_false_iff, Bool.and_eq_false_iff, beq_eq_false_iff_ne,
    decide_eq_false_iff_not, UInt16.le_iff_toNat_le, ne_eq, ← UInt16.toNat_inj]
  simp only [UInt16.toNat_ofNat]
  omega

theorem isDigit_not_blank (digit : isDigit u = true) : isBlank u = false := by
  have range := (isDigit_iff u).mp digit
  exact not_blank_of_ascii (by omega) (by omega)

namespace IsNumeral

theorem trim_eq (numeral : IsNumeral x) : trim x = x := by
  have keeps : ∀ y : Text, (∀ u ∈ y, isDigit u = true) → y.dropWhile isBlank = y := by
    intro y digits
    cases y with
    | nil => rfl
    | cons u y =>
      rw [List.dropWhile_cons_of_neg]
      simp [isDigit_not_blank (digits u (by simp))]
  unfold trim trimStart trimEnd
  rw [keeps x numeral.digits, keeps x.reverse fun u member =>
    numeral.digits u (List.mem_reverse.mp member), List.reverse_reverse]

theorem digits?_eq (numeral : IsNumeral x) : digits? 10 x = some (decimalValue x) := by
  have small : x.any (10 ≤ digitValue ·) = false := by
    rw [List.any_eq_false]
    intro u member
    have := (digitValue_digit (numeral.digits u member)).2
    simp only [decide_eq_true_eq]
    omega
  have folds : ∀ (y : Text) (n : Nat), (∀ u ∈ y, isDigit u = true) →
      y.foldl (fun n u => n * 10 + digitValue u) n =
        y.foldl (fun n u => n * 10 + (u.toNat - (unit '0').toNat)) n := by
    intro y
    induction y with
    | nil => exact fun _ _ => rfl
    | cons u y ih =>
      intro n digits
      rw [List.foldl_cons, List.foldl_cons, (digitValue_digit (digits u (by simp))).1]
      exact ih _ fun v member => digits v (by simp [member])
  have kept : x.isEmpty = false := by simpa using numeral.nonempty
  simp only [digits?, kept, small, Bool.or_self, Bool.false_eq_true, if_false, decimalValue,
    folds x 0 numeral.digits]

theorem unsigned?_eq (numeral : IsNumeral x) : unsigned? x = some (decimalValue x) := by
  unfold unsigned?
  split
  · rename_i zero mark ds
    have plain : radixMark? mark = none := by
      have range := (isDigit_iff mark).mp (numeral.digits mark (by simp))
      have letter : ∀ c : Char, 58 ≤ (unit c).toNat → (mark == unit c) = false := by
        intro c far
        rw [beq_eq_false_iff_ne]
        rintro rfl
        omega
      simp [radixMark?, letter 'x' (by decide), letter 'X' (by decide), letter 'o' (by decide),
        letter 'O' (by decide), letter 'b' (by decide), letter 'B' (by decide)]
    simp only [plain, ite_self]
    exact numeral.digits?_eq
  · exact numeral.digits?_eq

/-- A digit run is read at its value. -/
theorem integer?_eq (numeral : IsNumeral x) : integer? x = some (decimalValue x : Int) := by
  unfold integer?
  rw [numeral.trim_eq]
  split
  · exact absurd rfl numeral.nonempty
  · rename_i u rest
    have range := (isDigit_iff u).mp (numeral.digits u (by simp))
    have sign : ∀ c : Char, (unit c).toNat < 48 → (u == unit c) = false := by
      intro c near
      rw [beq_eq_false_iff_ne]
      rintro rfl
      omega
    rw [sign '-' (by decide), sign '+' (by decide), numeral.unsigned?_eq]
    rfl

end IsNumeral

theorem unitsOf_digit {d : Char} (digit : d.isDigit = true) :
    unitsOf d = [unit d] ∧ isDigit (unit d) = true ∧ (unit d).toNat = d.toNat := by
  have range : 48 ≤ d.toNat ∧ d.toNat ≤ 57 := by
    simp only [Char.isDigit, Bool.and_eq_true, decide_eq_true_eq, ge_iff_le,
      UInt32.le_iff_toNat_le] at digit
    exact digit
  have value : (unit d).toNat = d.toNat := by
    simp only [unit, Nat.toUInt16, UInt16.toNat_ofNat']
    omega
  refine ⟨if_pos (by omega), (isDigit_iff _).mpr ?_, value⟩
  omega

theorem flatMap_digits (ds : List Char) (digits : ∀ d ∈ ds, d.isDigit = true) :
    ds.flatMap unitsOf = ds.map unit := by
  induction ds with
  | nil => rfl
  | cons d ds ih =>
    rw [List.flatMap_cons, (unitsOf_digit (digits d (by simp))).1,
      ih fun e member => digits e (by simp [member])]
    rfl

theorem decimalNat_eq_map (n : Nat) : decimalNat n = (Nat.toDigits 10 n).map unit :=
  flatMap_digits _ fun _ member => Nat.isDigit_of_mem_toDigits (by decide) (by decide) member

theorem decimalNat_isNumeral (n : Nat) : IsNumeral (decimalNat n) := by
  rw [decimalNat_eq_map]
  refine ⟨by simp [Nat.toDigits_ne_nil], ?_⟩
  intro u member
  obtain ⟨d, listed, rfl⟩ := List.mem_map.mp member
  exact (unitsOf_digit (Nat.isDigit_of_mem_toDigits (by decide) (by decide) listed)).2.1

/-- A number is written as a run with its value. -/
theorem decimalValue_decimalNat (n : Nat) : decimalValue (decimalNat n) = n := by
  have folds : ∀ (ds : List Char) (m : Nat), (∀ d ∈ ds, d.isDigit = true) →
      (ds.map unit).foldl (fun n u => n * 10 + (u.toNat - (unit '0').toNat)) m =
        Nat.ofDigitChars 10 ds m := by
    intro ds
    induction ds with
    | nil => intro m _; simp
    | cons d ds ih =>
      intro m digits
      have value := (unitsOf_digit (digits d (by simp))).2.2
      rw [List.map_cons, List.foldl_cons, Nat.ofDigitChars_cons, value, Nat.mul_comm]
      exact ih _ fun e member => digits e (by simp [member])
  rw [decimalValue, decimalNat_eq_map, folds _ 0 fun _ member =>
    Nat.isDigit_of_mem_toDigits (by decide) (by decide) member]
  exact Nat.ofDigitChars_ten_toDigits

end Monkey
