import Mathlib

/-! # Linear probing

A search in a table of `n` slots that starts at the home slot `k % n` of a key and goes round the
table once.  `dist n k j` is the round in which it comes to slot `j`, so what a search finds is the
slot that satisfies the condition with the least `dist` (`search_eq_some_iff`).

The order of rounds is the order of slots, except that the slots below the home slot come last
(`dist_of_le`, `dist_of_lt`). -/

namespace Imola.Probing

/-- Search `rounds` slots from slot `idx` on. -/
def searchFrom (p : ℕ → Bool) (n : ℕ) : (rounds idx : ℕ) → Option ℕ
  | 0, _ => none
  | rounds + 1, idx => if p idx then some idx else searchFrom p n rounds ((idx + 1) % n)

/-- Search the table from the home slot of `k`. -/
def search (p : ℕ → Bool) (n k : ℕ) : Option ℕ := searchFrom p n n (k % n)

/-- The number of rounds from the home slot of `k` to slot `j`. -/
def dist (n k j : ℕ) : ℕ := if k % n ≤ j then j - k % n else j + n - k % n

section Dist

variable {n k i j : ℕ}

theorem dist_of_le (h : k % n ≤ j) : dist n k j = j - k % n := if_pos h

theorem dist_of_lt (h : j < k % n) : dist n k j = j + n - k % n := if_neg (by omega)

theorem dist_lt (hj : j < n) : dist n k j < n := by
  have hhome : k % n < n := Nat.mod_lt _ (by omega)
  unfold dist
  split_ifs
  · omega
  · omega

theorem slot_dist (hj : j < n) : (k % n + dist n k j) % n = j := by
  have hhome : k % n < n := Nat.mod_lt _ (by omega)
  unfold dist
  split_ifs with h
  · rw [Nat.add_sub_cancel' h, Nat.mod_eq_of_lt hj]
  · have hsum : k % n + (j + n - k % n) = j + n := by omega
    rw [hsum, Nat.add_mod_right, Nat.mod_eq_of_lt hj]

theorem dist_slot (hi : i < n) : dist n k ((k % n + i) % n) = i := by
  have hhome : k % n < n := Nat.mod_lt _ (by omega)
  by_cases h : k % n + i < n
  · rw [Nat.mod_eq_of_lt h, dist_of_le (by omega)]
    omega
  · have hwrap : (k % n + i) % n = k % n + i - n := by
      rw [Nat.mod_eq_sub_mod (by omega), Nat.mod_eq_of_lt (by omega)]
    rw [hwrap, dist_of_lt (by omega)]
    omega

theorem dist_inj (hi : i < n) (hj : j < n) (h : dist n k i = dist n k j) : i = j := by
  rw [← @slot_dist n k i hi, h, slot_dist hj]

end Dist

section Search

variable {p : ℕ → Bool} {n k : ℕ}

theorem searchFrom_eq_some_iff (rounds : ℕ) : ∀ {idx j : ℕ}, idx < n →
    (searchFrom p n rounds idx = some j ↔
      ∃ i < rounds, (idx + i) % n = j ∧ p j = true ∧ ∀ i' < i, p ((idx + i') % n) = false) := by
  induction rounds with
  | zero =>
      intro idx j _
      simp [searchFrom]
  | succ rounds ih =>
      intro idx j hidx
      have hself : (idx + 0) % n = idx := Nat.mod_eq_of_lt hidx
      have hshift : ∀ i, ((idx + 1) % n + i) % n = (idx + (i + 1)) % n := by
        intro i
        rw [Nat.mod_add_mod]
        congr 1
        omega
      rw [searchFrom]
      by_cases hp : p idx = true
      · rw [if_pos hp]
        constructor
        · intro h
          obtain rfl := Option.some.inj h
          exact ⟨0, by omega, hself, hp, by omega⟩
        · rintro ⟨i, hi, rfl, hpj, hbefore⟩
          cases i with
          | zero => rw [hself]
          | succ i =>
              have hfirst := hbefore 0 (by omega)
              rw [hself, hp] at hfirst
              cases hfirst
      · rw [if_neg hp, ih (Nat.mod_lt _ (by omega))]
        constructor
        · rintro ⟨i, hi, hj, hpj, hbefore⟩
          refine ⟨i + 1, by omega, by rw [← hshift]; exact hj, hpj, ?_⟩
          intro i' hi'
          cases i' with
          | zero => rw [hself, Bool.eq_false_iff.mpr hp]
          | succ i' => rw [← hshift, hbefore i' (by omega)]
        · rintro ⟨i, hi, hj, hpj, hbefore⟩
          cases i with
          | zero =>
              rw [hself] at hj
              exact absurd (hj ▸ hpj) hp
          | succ i =>
              refine ⟨i, by omega, by rw [hshift]; exact hj, hpj, ?_⟩
              intro i' hi'
              rw [hshift]
              exact hbefore (i' + 1) (by omega)

/-- **What a search finds**: the first slot in the order of rounds. -/
theorem search_eq_some_iff {j : ℕ} : search p n k = some j ↔
    j < n ∧ p j = true ∧ ∀ i < n, dist n k i < dist n k j → p i = false := by
  rcases Nat.eq_zero_or_pos n with rfl | hn
  · simp [search, searchFrom]
  · rw [search, searchFrom_eq_some_iff n (Nat.mod_lt _ hn)]
    constructor
    · rintro ⟨i, hi, rfl, hpj, hbefore⟩
      refine ⟨Nat.mod_lt _ hn, hpj, ?_⟩
      intro i' hi' hlt
      rw [dist_slot hi] at hlt
      have hslot := hbefore _ hlt
      rwa [slot_dist hi'] at hslot
    · rintro ⟨hj, hpj, hbefore⟩
      refine ⟨dist n k j, dist_lt hj, slot_dist hj, hpj, ?_⟩
      intro i hi
      apply hbefore _ (Nat.mod_lt _ hn)
      rw [dist_slot (hi.trans (dist_lt hj))]
      exact hi

/-- A search fails when no slot satisfies the condition. -/
theorem search_eq_none_iff : search p n k = none ↔ ∀ j < n, p j = false := by
  constructor
  · intro h j hj
    by_contra hp
    have hex : ∃ d, ∃ i < n, dist n k i = d ∧ p i = true :=
      ⟨_, j, hj, rfl, Bool.not_eq_false _ ▸ hp⟩
    classical
    obtain ⟨i, hi, hd, hpi⟩ := Nat.find_spec hex
    have hfound : search p n k = some i := by
      refine search_eq_some_iff.mpr ⟨hi, hpi, ?_⟩
      intro i' hi' hlt
      rw [hd] at hlt
      have hmin := Nat.find_min hex hlt
      by_contra hp'
      exact hmin ⟨i', hi', rfl, Bool.not_eq_false _ ▸ hp'⟩
    rw [h] at hfound
    cases hfound
  · intro h
    cases hs : search p n k with
    | none => rfl
    | some j =>
        obtain ⟨hj, hpj, -⟩ := search_eq_some_iff.mp hs
        rw [h j hj] at hpj
        cases hpj

theorem searchFrom_of_search {j rounds : ℕ} (h : search p n k = some j) (hrounds : n ≤ rounds) :
    searchFrom p n rounds (k % n) = some j := by
  obtain ⟨hj, -, -⟩ := search_eq_some_iff.mp h
  have hhome : k % n < n := Nat.mod_lt _ (by omega)
  obtain ⟨i, hi, hrest⟩ := (searchFrom_eq_some_iff n hhome).mp h
  exact (searchFrom_eq_some_iff rounds hhome).mpr ⟨i, by omega, hrest⟩

end Search

end Imola.Probing
