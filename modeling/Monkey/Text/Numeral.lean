import Monkey.Text.Blank

/-! Integers as text: decimal writing, and reading of signed decimal, hexadecimal,
octal and binary numerals. -/
namespace Monkey

def decimalNat (n : Nat) : Text := (Nat.toDigits 10 n).flatMap unitsOf

def decimal (z : Int) : Text :=
  if z < 0 then utf16 "-" ++ decimalNat z.natAbs else decimalNat z.natAbs

/-- The value of a digit of some radix up to sixteen; sixteen for any other unit. -/
def digitValue (u : CodeUnit) : Nat :=
  if unit '0' ≤ u && u ≤ unit '9' then u.toNat - (unit '0').toNat
  else if unit 'a' ≤ u && u ≤ unit 'f' then u.toNat - (unit 'a').toNat + 10
  else if unit 'A' ≤ u && u ≤ unit 'F' then u.toNat - (unit 'A').toNat + 10
  else 16

/-- A non-empty run of digits of the radix. -/
def digits? (radix : Nat) (t : Text) : Option Nat :=
  if t.isEmpty || t.any (radix ≤ digitValue ·) then none
  else some (t.foldl (fun n u => n * radix + digitValue u) 0)

/-- The radix that the letter after a leading zero announces. -/
def radixMark? (u : CodeUnit) : Option Nat :=
  if u == unit 'x' || u == unit 'X' then some 16
  else if u == unit 'o' || u == unit 'O' then some 8
  else if u == unit 'b' || u == unit 'B' then some 2
  else none

def unsigned? : Text → Option Nat
  | zero :: mark :: ds =>
    match (if zero == unit '0' then radixMark? mark else none) with
    | some radix => digits? radix ds
    | none => digits? 10 (zero :: mark :: ds)
  | t => digits? 10 t

/-- Blanks around a numeral are skipped and a blank text is zero. Only a decimal
numeral takes a sign. -/
def integer? (t : Text) : Option Int :=
  match trim t with
  | [] => some 0
  | u :: rest =>
    if u == unit '-' then (digits? 10 rest).map fun n => -(n : Int)
    else if u == unit '+' then (digits? 10 rest).map fun n => (n : Int)
    else (unsigned? (u :: rest)).map fun n => (n : Int)

end Monkey
