import Imola.CStrings

/-! # Printing and reading decimal numbers

What `%d` prints is read back by `strtol` and `atoi`, for the numbers in the range of their types.
The text has no NUL, and its length follows from the size of the number. -/

namespace Imola.CStrings

theorem ascii_append (s t : String) : ascii (s ++ t) = ascii s ++ ascii t := by
  rw [ascii, String.toList_append, List.map_append, ascii, ascii]

/-- The text of a natural number. -/
def natText (n : ℕ) : List UInt8 := ascii (toString n)

theorem natText_eq_map (n : ℕ) :
    natText n = (Nat.toDigits 10 n).map fun c => UInt8.ofNat c.toNat := by
  rw [natText, ascii, Nat.toString_eq_repr, Nat.toList_repr]

theorem decimal_natCast (n : ℕ) : decimal n = natText n := rfl

theorem decimal_negSucc (n : ℕ) : decimal (Int.negSucc n) = 45 :: natText (n + 1) := by
  show ascii ("-" ++ Nat.repr (n + 1)) = _
  rw [ascii_append, ← Nat.toString_eq_repr]
  rfl

theorem natText_eq (n : ℕ) :
    natText n = (if n < 10 then [] else natText (n / 10)) ++ [UInt8.ofNat (48 + n % 10)] := by
  have hdigit : ∀ d < 10, UInt8.ofNat (Nat.digitChar d).toNat = UInt8.ofNat (48 + d) := by decide
  rw [natText_eq_map, Nat.toDigits_eq_if (by omega)]
  by_cases hn : n < 10
  · rw [if_pos hn, if_pos hn, Nat.mod_eq_of_lt hn, List.nil_append, ← hdigit n hn]
    rfl
  · rw [if_neg hn, if_neg hn, List.map_append, natText_eq_map,
      ← hdigit (n % 10) (Nat.mod_lt _ (by omega))]
    rfl

theorem isDigit_ofNat : ∀ d < 10, isDigit (UInt8.ofNat (48 + d)) := by decide

theorem isDigit_natText (n : ℕ) : ∀ b ∈ natText n, isDigit b := by
  induction n using Nat.strongRecOn with
  | ind n ih =>
      intro b hb
      rw [natText_eq, List.mem_append, List.mem_singleton] at hb
      rcases hb with hb | rfl
      · by_cases hn : n < 10
        · rw [if_pos hn] at hb
          cases hb
        · rw [if_neg hn] at hb
          exact ih (n / 10) (by omega) b hb
      · exact isDigit_ofNat (n % 10) (Nat.mod_lt _ (by omega))

theorem natText_ne_nil (n : ℕ) : natText n ≠ [] := by
  rw [natText_eq]
  exact List.append_ne_nil_of_right_ne_nil _ (List.cons_ne_nil _ _)

theorem digits_natText (n : ℕ) : digits (natText n) = n := by
  unfold digits
  rw [List.takeWhile_eq_self_iff.mpr (isDigit_natText n)]
  induction n using Nat.strongRecOn with
  | ind n ih =>
      have hvalue : ∀ d < 10, (UInt8.ofNat (48 + d)).toNat - 48 = d := by decide
      have hlast := hvalue (n % 10) (Nat.mod_lt _ (by omega))
      rw [natText_eq, List.foldl_append, List.foldl_cons, List.foldl_nil, hlast]
      by_cases hn : n < 10
      · rw [if_pos hn, List.foldl_nil]
        omega
      · rw [if_neg hn, ih (n / 10) (by omega)]
        omega

/-- A text of digits is neither skipped as space nor taken as signed. -/
theorem strtol_natText (n : ℕ) : strtol (natText n) = min (2 ^ 63 - 1) (n : ℤ) := by
  obtain ⟨b, rest, htext⟩ := List.exists_cons_of_ne_nil (natText_ne_nil n)
  have hdigit : isDigit b := isDigit_natText n b (by rw [htext]; exact List.mem_cons_self ..)
  have hskip : (natText n).dropWhile isSpace = natText n := by
    rw [htext]
    exact List.dropWhile_cons_of_neg (not_isSpace_of_isDigit hdigit)
  have hminus : b ≠ 45 := by
    rintro rfl
    exact absurd hdigit (by decide)
  have hplus : b ≠ 43 := by
    rintro rfl
    exact absurd hdigit (by decide)
  have hread := digits_natText n
  unfold strtol
  rw [hskip]
  split
  · next h => exact absurd (List.cons.inj (htext.symm.trans h)).1 hminus
  · next h => exact absurd (List.cons.inj (htext.symm.trans h)).1 hplus
  · rw [hread]

/-- **A number that is printed is read back.** -/
theorem strtol_decimal {v : ℤ} (hmin : -2 ^ 63 ≤ v) (hmax : v < 2 ^ 63) :
    strtol (decimal v) = v := by
  cases v with
  | ofNat n =>
      rw [Int.ofNat_eq_natCast] at hmax ⊢
      rw [decimal_natCast, strtol_natText]
      exact min_eq_right (by omega)
  | negSucc n =>
      rw [decimal_negSucc]
      show max (-2 ^ 63) (-(digits (natText (n + 1)) : ℤ)) = _
      rw [digits_natText]
      rw [Int.negSucc_eq] at hmin ⊢
      exact max_eq_right (by push_cast; omega)

theorem atoi_decimal {v : ℤ} (hmin : -2 ^ 31 ≤ v) (hmax : v < 2 ^ 31) : atoi (decimal v) = v := by
  rw [atoi, strtol_decimal (by omega) (by omega)]
  exact Int.bmod_eq_of_le (by omega) (by omega)

theorem decimal_ne_zero (v : ℤ) : ∀ b ∈ decimal v, b ≠ 0 := by
  have hnat : ∀ n, ∀ b ∈ natText n, b ≠ 0 := by
    rintro n b hb rfl
    exact absurd (isDigit_natText n 0 hb) (by decide)
  cases v with
  | ofNat n => exact hnat n
  | negSucc n =>
      intro b hb
      rw [decimal_negSucc, List.mem_cons] at hb
      rcases hb with rfl | hb
      · decide
      · exact hnat (n + 1) b hb

theorem length_decimal_le {v : ℤ} (hmin : -2 ^ 63 ≤ v) (hmax : v < 2 ^ 63) :
    (decimal v).length ≤ 20 := by
  have hnat : ∀ n ≤ 2 ^ 63, (natText n).length ≤ 19 := by
    intro n hn
    rw [natText_eq_map, List.length_map, Nat.length_toDigits_le_iff (by omega) (by omega)]
    omega
  cases v with
  | ofNat n => exact (hnat n (by simp only [Int.ofNat_eq_natCast] at hmax; omega)).trans (by omega)
  | negSucc n =>
      have hlen := hnat (n + 1) (by omega)
      rw [decimal_negSucc, List.length_cons]
      omega

end Imola.CStrings
