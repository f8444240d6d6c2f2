import Mathlib.Algebra.Ring.Int.Defs
import Mathlib.Algebra.Ring.Nat
import Mathlib.Data.List.Basic
import MiniWaf.Std.Text

/-! Decimal text of integers: Rust's `to_string` and `str::parse` for `i32` and `i64`. -/

set_option autoImplicit false

namespace MiniWaf

namespace Text

def ofNat (n : Nat) : Text := Nat.toDigits 10 n

def ofInt : Int → Text
  | .ofNat n => ofNat n
  | .negSucc n => '-' :: ofNat (n + 1)

def digitsValue (digits : Text) : Nat :=
  digits.foldl (fun value c => 10 * value + (c.toNat - '0'.toNat)) 0

def parseNat (digits : Text) : Option Nat :=
  if digits ≠ [] ∧ digits.all Char.isDigit then some (digitsValue digits) else none

/-- `str::parse` accepts one optional sign before the digits. -/
def parseInt : Text → Option Int
  | '-' :: digits => (parseNat digits).map fun n => -(n : Int)
  | '+' :: digits => (parseNat digits).map fun n => (n : Int)
  | digits => (parseNat digits).map fun n => (n : Int)

/-- `str::parse::<i64>`; out of range is an error. -/
def parseI64 (s : Text) : Option Int64 :=
  match parseInt s with
  | some i => if -2 ^ 63 ≤ i ∧ i < 2 ^ 63 then some (Int64.ofInt i) else none
  | none => none

/-- `str::parse::<i32>`. -/
def parseI32 (s : Text) : Option Int32 :=
  match parseInt s with
  | some i => if -2 ^ 31 ≤ i ∧ i < 2 ^ 31 then some (Int32.ofInt i) else none
  | none => none

theorem ofNat_ne_nil (n : Nat) : ofNat n ≠ [] := Nat.toDigits_ne_nil

theorem isDigit_of_mem_ofNat {n : Nat} {c : Char} (member : c ∈ ofNat n) : c.isDigit = true :=
  Nat.isDigit_of_mem_toDigits (by decide) (by decide) member

theorem digitsValue_concat (digits : Text) (c : Char) :
    digitsValue (digits ++ [c]) = 10 * digitsValue digits + (c.toNat - '0'.toNat) := by
  simp [digitsValue, List.foldl_append]

theorem digitsValue_ofNat (n : Nat) : digitsValue (ofNat n) = n := by
  induction n using Nat.strongRecOn with
  | ind n ih =>
    have last : ∀ d < 10, d.digitChar.toNat - '0'.toNat = d := fun d bound =>
      Nat.toNat_digitChar_sub_48_of_lt_ten bound
    rw [ofNat, Nat.toDigits_eq_if (by decide)]
    split
    · rename_i small
      simpa [digitsValue] using last n small
    · rename_i large
      have front := ih (n / 10) (by omega)
      rw [ofNat] at front
      rw [digitsValue_concat, front, last _ (Nat.mod_lt _ (by decide))]
      omega

@[simp] theorem parseNat_ofNat (n : Nat) : parseNat (ofNat n) = some n := by
  have digits : (ofNat n).all Char.isDigit = true :=
    List.all_eq_true.mpr fun _ => isDigit_of_mem_ofNat
  simp [parseNat, ofNat_ne_nil, digits, digitsValue_ofNat]

theorem ofNat_eq_cons (n : Nat) : ∃ c rest, ofNat n = c :: rest ∧ c.isDigit = true := by
  cases shape : ofNat n with
  | nil => exact absurd shape (ofNat_ne_nil n)
  | cons c rest => exact ⟨c, rest, rfl, isDigit_of_mem_ofNat (n := n) (by simp [shape])⟩

theorem parseInt_unsigned {c : Char} (notMinus : c ≠ '-') (notPlus : c ≠ '+') (rest : Text) :
    parseInt (c :: rest) = (parseNat (c :: rest)).map fun n : Nat => (n : Int) := by
  rw [parseInt]
  · cases parseNat (c :: rest) with
    | none => rfl
    | some n => rfl
  · exact fun _ same => notMinus (List.cons.inj same).1
  · exact fun _ same => notPlus (List.cons.inj same).1

theorem parseInt_ofInt (i : Int) : parseInt (ofInt i) = some i := by
  cases i with
  | ofNat n =>
    obtain ⟨c, rest, shape, digit⟩ := ofNat_eq_cons n
    have notMinus : c ≠ '-' := by rintro rfl; simp at digit
    have notPlus : c ≠ '+' := by rintro rfl; simp at digit
    have unsigned := parseInt_unsigned notMinus notPlus rest
    rw [← shape] at unsigned
    simp [ofInt, unsigned]
  | negSucc n => simp [ofInt, parseInt]; omega

theorem parseI64_ofInt (i : Int64) : parseI64 (ofInt i.toInt) = some i := by
  simp only [parseI64, parseInt_ofInt]
  rw [if_pos ⟨i.le_toInt, i.toInt_lt⟩, Int64.ofInt_toInt]

theorem parseI32_ofInt (i : Int32) : parseI32 (ofInt i.toInt) = some i := by
  simp only [parseI32, parseInt_ofInt]
  rw [if_pos ⟨i.le_toInt, i.toInt_lt⟩, Int32.ofInt_toInt]

/-- Digits are read as their value, provided it fits. -/
theorem parseI64_digits {c : Char} {rest : Text} (digits : (c :: rest).all Char.isDigit = true) :
    parseI64 (c :: rest) =
      if digitsValue (c :: rest) < 2 ^ 63 then some (Int64.ofInt (digitsValue (c :: rest))) else none := by
  have digit := List.all_eq_true.mp digits c List.mem_cons_self
  have notMinus : c ≠ '-' := by rintro rfl; simp at digit
  have notPlus : c ≠ '+' := by rintro rfl; simp at digit
  have number : parseNat (c :: rest) = some (digitsValue (c :: rest)) := if_pos ⟨List.cons_ne_nil _ _, digits⟩
  rw [parseI64, parseInt_unsigned notMinus notPlus, number, Option.map_some]
  apply if_congr _ rfl rfl
  omega

theorem parseI64_none {c : Char} (notMinus : c ≠ '-') (notPlus : c ≠ '+') (notDigit : c.isDigit = false) (rest : Text) :
    parseI64 (c :: rest) = none := by
  have number : parseNat (c :: rest) = none := by
    rw [parseNat, List.all_cons, notDigit, Bool.false_and, if_neg fun all => Bool.noConfusion all.2]
  rw [parseI64, parseInt_unsigned notMinus notPlus, number]
  rfl

example : parseI64 "-9223372036854775808".toList = some (-9223372036854775808) := by decide

end Text

end MiniWaf
