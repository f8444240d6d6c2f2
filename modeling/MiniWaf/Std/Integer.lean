import Mathlib.Data.Int.Order.Basic
import MiniWaf.Std.Decimal

/-! `i64` arithmetic against unbounded integers. -/

set_option autoImplicit false

namespace MiniWaf

def FitsI64 (n : Int) : Prop := -2 ^ 63 ≤ n ∧ n < 2 ^ 63

instance (n : Int) : Decidable (FitsI64 n) := inferInstanceAs (Decidable (_ ∧ _))

/-- What a debug build computes; `none` is a panic. -/
def checkedI64 (n : Int) : Option Int64 := if FitsI64 n then some (Int64.ofInt n) else none

theorem fitsI64_toInt (i : Int64) : FitsI64 i.toInt := ⟨i.le_toInt, i.toInt_lt⟩

theorem toInt_ofI64 {n : Int} (fits : FitsI64 n) : (Int64.ofInt n).toInt = n := Int64.toInt_ofInt_of_le fits.1 fits.2

theorem ofI64_inj {m n : Int} (fitsM : FitsI64 m) (fitsN : FitsI64 n) (same : Int64.ofInt m = Int64.ofInt n) : m = n := by
  rw [← toInt_ofI64 fitsM, ← toInt_ofI64 fitsN, same]

theorem toInt_max_one (i : Int64) : (max i 1).toInt = max i.toInt 1 := by
  have unfolded : max i 1 = if i ≤ 1 then 1 else i := rfl
  rw [unfolded]
  split
  case isTrue below => exact (max_eq_right (Int64.le_iff_toInt_le.mp below)).symm
  case isFalse above =>
    have atLeast := Int64.le_iff_toInt_le.mp (Int64.le_of_lt (Int64.not_le.mp above))
    exact (max_eq_left atLeast).symm

theorem fitsI64_tdiv {m n : Int} (fits : FitsI64 m) (positive : 1 ≤ n) : FitsI64 (m.tdiv n) := by
  unfold FitsI64 at *
  have smaller : (m.tdiv n).natAbs ≤ m.natAbs := by
    rw [Int.natAbs_tdiv]
    exact Nat.div_le_self _ _
  rcases Int.le_total 0 m with up | down
  · have sign : 0 ≤ m.tdiv n := Int.tdiv_nonneg up (by omega)
    omega
  · have sign : 0 ≤ (-m).tdiv n := Int.tdiv_nonneg (by omega) (by omega)
    rw [Int.neg_tdiv] at sign
    omega

theorem eq_zero_of_tdiv_eq {m n : Int} (negative : n < 0) (same : m.tdiv n = m) : m = 0 := by
  by_cases one : n = -1
  · rw [one, Int.tdiv_neg, Int.tdiv_one] at same
    omega
  · have sizes := congrArg Int.natAbs same
    rw [Int.natAbs_tdiv] at sizes
    by_contra nonzero
    have less : m.natAbs / n.natAbs < m.natAbs := Nat.div_lt_self (by omega) (by omega)
    exact absurd sizes (Nat.ne_of_lt less)

theorem ofI64_tdiv (a b : Int64) : Int64.ofInt (a.toInt.tdiv b.toInt) = a / b := by
  rw [Int64.ofInt_tdiv a.minValue_le_toInt a.toInt_le b.minValue_le_toInt b.toInt_le, Int64.ofInt_toInt,
    Int64.ofInt_toInt]

/-- With a divisor raised to one, a quotient is exact only for a positive divisor or a dividend of zero. -/
theorem clamped_div_iff {m n : Int} (fitsM : FitsI64 m) (fitsN : FitsI64 n) (fits : FitsI64 (m.tdiv n)) (nonzero : n ≠ 0) :
    Int64.ofInt m / max (Int64.ofInt n) 1 = Int64.ofInt (m.tdiv n) ↔ 0 < n ∨ m = 0 := by
  have clamped : Int64.ofInt m / max (Int64.ofInt n) 1 = Int64.ofInt (m.tdiv (max n 1)) := by
    rw [← ofI64_tdiv, toInt_max_one, toInt_ofI64 fitsM, toInt_ofI64 fitsN]
  have fitsClamped : FitsI64 (m.tdiv (max n 1)) := fitsI64_tdiv fitsM (by omega)
  rw [clamped]
  by_cases positive : 0 < n
  · rw [max_eq_left (by omega)]
    exact iff_of_true rfl (.inl positive)
  · rw [max_eq_right (by omega), Int.tdiv_one]
    constructor
    · intro same
      exact .inr (eq_zero_of_tdiv_eq (by omega) (ofI64_inj fitsM fits same).symm)
    · rintro (above | rfl)
      · exact absurd above positive
      · rw [Int.zero_tdiv]

theorem parseI64_of_fits {s : Text} (fits : FitsI64 ((Text.parseInt s).getD 0)) :
    ((Text.parseI64 s).getD 0).toInt = (Text.parseInt s).getD 0 := by
  unfold Text.parseI64
  cases read : Text.parseInt s with
  | none => rfl
  | some n =>
    rw [read] at fits
    have bounds : -2 ^ 63 ≤ n ∧ n < 2 ^ 63 := fits
    simp only [if_pos bounds, Option.getD_some]
    exact toInt_ofI64 fits

end MiniWaf
