import Mathlib

/-! # The integer types of C

Values of the unsigned types are natural numbers and those of the signed types integers.  A
conversion that does not change the bits takes an unsigned number of `w` bits to `signed w`, and an
`int` to the `size_t` that is congruent to it. -/

namespace Imola.CInts

/-- An unsigned number of `w` bits as a signed one. -/
def signed (w n : ℕ) : ℤ := (n : ℤ).bmod (2 ^ w)

theorem signed_range {w : ℕ} (hpos : 0 < w) (hw : w ≤ 64) (n : ℕ) :
    -2 ^ 63 ≤ signed w n ∧ signed w n < 2 ^ 63 := by
  have hle : 2 ^ w ≤ 2 ^ 64 := Nat.pow_le_pow_right (by norm_num) hw
  have hlo := Int.le_bmod (x := n) (m := 2 ^ w) (Nat.two_pow_pos w)
  have hhi := Int.bmod_lt (x := n) (m := 2 ^ w) (Nat.two_pow_pos w)
  have heven : 2 ∣ 2 ^ w := dvd_pow_self 2 hpos.ne'
  unfold signed
  omega

/-- What was an `int` of `w` bits or fewer is that `int` again. -/
theorem signed_emod {w : ℕ} (hw : 32 ≤ w) {v : ℤ} (h : -2 ^ 31 ≤ v ∧ v < 2 ^ 31) :
    signed w (v % 2 ^ w).toNat = v := by
  have hle : 2 ^ 32 ≤ 2 ^ w := Nat.pow_le_pow_right (by norm_num) hw
  have hcast : ((2 ^ w : ℕ) : ℤ) = 2 ^ w := by push_cast; rfl
  rw [signed, Int.toNat_of_nonneg (Int.emod_nonneg _ (by positivity)), ← hcast, Int.emod_bmod]
  exact Int.bmod_eq_of_le (by omega) (by omega)

/-- An `unsigned int` as an `int`. -/
def toInt (n : ℕ) : ℤ := signed 32 n

theorem toInt_of_lt {n : ℕ} (h : n < 2 ^ 31) : toInt n = n := by
  unfold toInt signed
  exact Int.bmod_eq_of_le (by omega) (by omega)

/-- An `int` as a `size_t`. -/
def toSize (v : ℤ) : ℕ := (v % 2 ^ 64).toNat

theorem toSize_of_nonneg {v : ℤ} (h : 0 ≤ v) (hmax : v < 2 ^ 31) : (toSize v : ℤ) = v := by
  unfold toSize
  omega

theorem toSize_of_neg {v : ℤ} (h : v < 0) (hmin : -2 ^ 31 ≤ v) : (toSize v : ℤ) = v + 2 ^ 64 := by
  unfold toSize
  omega

theorem toSize_eq_zero {v : ℤ} (h : -2 ^ 31 ≤ v ∧ v < 2 ^ 31) : toSize v = 0 ↔ v = 0 := by
  rcases lt_or_ge v 0 with hneg | hpos
  · have := toSize_of_neg hneg h.1
    omega
  · have := toSize_of_nonneg hpos h.2
    omega

end Imola.CInts
