import Mathlib

/-! # Byte strings and fixed-width numbers

Little- and big-endian numbers of a fixed width over `List UInt8`.  `toLE w n` writes the
low `w` bytes of `n`, least significant first, and `ofLE` reads them back
(`ofLE_toLE`); `toBE` and `ofBE` are the same with the most significant byte first. -/

namespace Imola.Bytes

/-- The number a little-endian byte string denotes. -/
def ofLE : List UInt8 → ℕ
  | [] => 0
  | b :: bs => b.toNat + 256 * ofLE bs

/-- The low `w` bytes of `n`, least significant first. -/
def toLE : ℕ → ℕ → List UInt8
  | 0, _ => []
  | w + 1, n => UInt8.ofNat n :: toLE w (n / 256)

/-- The number a big-endian byte string denotes. -/
def ofBE (bs : List UInt8) : ℕ := ofLE bs.reverse

/-- The low `w` bytes of `n`, most significant first. -/
def toBE (w n : ℕ) : List UInt8 := (toLE w n).reverse

@[simp] theorem toLE_length (w n : ℕ) : (toLE w n).length = w := by
  induction w generalizing n with
  | zero => rfl
  | succ w ih => simp [toLE, ih]

@[simp] theorem toBE_length (w n : ℕ) : (toBE w n).length = w := by simp [toBE]

theorem ofLE_toLE_mod (w n : ℕ) : ofLE (toLE w n) = n % 256 ^ w := by
  induction w generalizing n with
  | zero => simp [toLE, ofLE, Nat.mod_one]
  | succ w ih =>
      have hb : (UInt8.ofNat n).toNat = n % 256 := by simp
      rw [toLE, ofLE, ih, hb, Nat.pow_succ', Nat.mod_mul]

theorem ofLE_toLE {w n : ℕ} (h : n < 256 ^ w) : ofLE (toLE w n) = n := by
  rw [ofLE_toLE_mod, Nat.mod_eq_of_lt h]

theorem ofBE_toBE {w n : ℕ} (h : n < 256 ^ w) : ofBE (toBE w n) = n := by
  rw [ofBE, toBE, List.reverse_reverse, ofLE_toLE h]

theorem ofLE_lt (bs : List UInt8) : ofLE bs < 256 ^ bs.length := by
  induction bs with
  | nil => simp [ofLE]
  | cons b bs ih =>
      have hb : b.toNat < 256 := b.toNat_lt
      simp only [ofLE, List.length_cons, Nat.pow_succ']
      omega

theorem ofBE_lt (bs : List UInt8) : ofBE bs < 256 ^ bs.length := by
  have h := ofLE_lt bs.reverse
  rwa [List.length_reverse] at h

end Imola.Bytes
