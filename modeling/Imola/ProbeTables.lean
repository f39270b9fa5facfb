import Imola.Probing

/-! # Tables with linear probing

A table has `size` slots, each empty or with an entry of a key and a value.  The search for a key
goes from the home slot of the key to the first slot that is empty or has the key.

`Ok` says that a key is in one slot only, and that no empty slot lies between the home slot of a key
and its entry.  Then the search finds the entry of the key (`Ok.search`), and the table with an
entry stored where the search ends is a table of the entries with the one for the key replaced
(`Ok.put`, `mem_entries_put`). -/

namespace Imola.ProbeTables

open Imola.Probing

variable {κ ν : Type}

structure Table (κ ν : Type) where
  size : ℕ
  slots : ℕ → Option (κ × ν)

namespace Table

/-- The search for `k` ends at slot `j`. -/
def stops [DecidableEq κ] (t : Table κ ν) (k : κ) (j : ℕ) : Bool := (t.slots j).all fun e => e.1 = k

/-- The entries, in the order of the slots. -/
def entries (t : Table κ ν) : List (κ × ν) := (List.range t.size).filterMap t.slots

/-- The keys of the entries. -/
def keys [DecidableEq κ] (t : Table κ ν) : Finset κ := (t.entries.map Prod.fst).toFinset

/-- The table with an entry stored in slot `j`. -/
def put (t : Table κ ν) (j : ℕ) (k : κ) (v : ν) : Table κ ν :=
  ⟨t.size, Function.update t.slots j (some (k, v))⟩

/-- The table without entries. -/
def empty (n : ℕ) : Table κ ν := ⟨n, fun _ => none⟩

/-- Every key is in one slot, and the search for it comes there. -/
structure Ok (hash : κ → ℕ) (t : Table κ ν) : Prop where
  unique : ∀ {i j k v w}, i < t.size → j < t.size → t.slots i = some (k, v) →
    t.slots j = some (k, w) → i = j
  reach : ∀ {j k v}, j < t.size → t.slots j = some (k, v) → ∀ i < t.size,
    dist t.size (hash k) i < dist t.size (hash k) j → t.slots i ≠ none

variable {hash : κ → ℕ} {t : Table κ ν} {k : κ} {v : ν} {j : ℕ}

theorem mem_entries {e : κ × ν} : e ∈ t.entries ↔ ∃ j < t.size, t.slots j = some e := by
  simp [entries, List.mem_filterMap]

@[simp] theorem entries_empty (n : ℕ) : (empty n : Table κ ν).entries = [] := by
  simp [entries, empty]

theorem ok_empty (n : ℕ) : (empty n : Table κ ν).Ok hash :=
  ⟨fun _ _ h _ => (by cases h), fun _ h => (by cases h)⟩

theorem Ok.nodup_keys (h : t.Ok hash) : (t.entries.map Prod.fst).Nodup := by
  rw [entries, List.Nodup, List.pairwise_map, List.pairwise_filterMap]
  refine List.pairwise_lt_range.imp_of_mem ?_
  rintro i j hi hj hlt ⟨k, v⟩ hv ⟨k', w⟩ hw rfl
  have hij := h.unique (List.mem_range.mp hi) (List.mem_range.mp hj) hv hw
  omega

/-- A table with fewer entries than slots has an empty slot. -/
theorem exists_empty (hroom : t.entries.length < t.size) : ∃ j < t.size, t.slots j = none := by
  by_contra hall
  have hsome : ∀ j ∈ List.range t.size, (t.slots j).isSome = true := by
    intro j hj
    rw [Option.isSome_iff_ne_none]
    exact fun hnone => hall ⟨j, List.mem_range.mp hj, hnone⟩
  rw [entries, List.length_filterMap_eq_countP, List.countP_eq_length.mpr hsome,
    List.length_range] at hroom
  exact lt_irrefl _ hroom

variable [DecidableEq κ]

theorem stops_eq_true_iff :
    t.stops k j = true ↔ t.slots j = none ∨ ∃ v, t.slots j = some (k, v) := by
  cases hslot : t.slots j with
  | none => simp [stops, hslot]
  | some e =>
      obtain ⟨k', v⟩ := e
      simp [stops, hslot, eq_comm]

/-- **The search for a key** ends at its entry, or at an empty slot when there is none. -/
theorem Ok.search (h : t.Ok hash) (hroom : t.entries.length < t.size) (k : κ) :
    ∃ j, search (t.stops k) t.size (hash k) = some j ∧ j < t.size ∧ ∀ v, (k, v) ∈ t.entries ↔
    t.slots j = some (k, v) := by
  cases hsearch : Probing.search (t.stops k) t.size (hash k) with
  | none =>
      obtain ⟨i, hi, hnone⟩ := exists_empty hroom
      have hstop := search_eq_none_iff.mp hsearch i hi
      rw [stops_eq_true_iff.mpr (Or.inl hnone)] at hstop
      cases hstop
  | some j =>
      obtain ⟨hj, hstop, hbefore⟩ := search_eq_some_iff.mp hsearch
      refine ⟨j, rfl, hj, fun v => ⟨fun hmem => ?_, fun hslot => mem_entries.mpr ⟨j, hj, hslot⟩⟩⟩
      obtain ⟨i, hi, hslot⟩ := mem_entries.mp hmem
      rcases lt_trichotomy (dist t.size (hash k) i) (dist t.size (hash k) j) with hlt | heq | hgt
      · have hpass := hbefore i hi hlt
        rw [stops_eq_true_iff.mpr (Or.inr ⟨v, hslot⟩)] at hpass
        cases hpass
      · rwa [← dist_inj hi hj heq]
      · rcases stops_eq_true_iff.mp hstop with hnone | ⟨w, hw⟩
        · exact absurd hnone (h.reach hi hslot j hj hgt)
        · rwa [h.unique hj hi hw hslot]

omit [DecidableEq κ] in
theorem slots_put (i : ℕ) : (t.put j k v).slots i = if i = j then some (k, v) else t.slots i := by
  simp only [put, Function.update_apply]

/-- The table with an entry stored where the search for its key ended. -/
theorem Ok.put (h : t.Ok hash) (hsearch : Probing.search (t.stops k) t.size (hash k) = some j)
    (hfound : ∀ w, (k, w) ∈ t.entries ↔ t.slots j = some (k, w)) (v : ν) :
    (t.put j k v).Ok hash := by
  obtain ⟨hj, -, hbefore⟩ := search_eq_some_iff.mp hsearch
  have hother : ∀ i < t.size, i ≠ j → ∀ w, t.slots i ≠ some (k, w) := by
    intro i hi hij w hw
    exact hij (h.unique hi hj hw ((hfound w).mp (mem_entries.mpr ⟨i, hi, hw⟩)))
  refine ⟨fun {a b k' x y} ha hb hx hy => ?_, fun {a k' x} ha hx i hi hlt => ?_⟩
  · rw [slots_put] at hx hy
    by_cases haj : a = j
    · by_cases hbj : b = j
      · rw [haj, hbj]
      · rw [if_pos haj, Option.some.injEq, Prod.mk.injEq] at hx
        rw [if_neg hbj, ← hx.1] at hy
        exact absurd hy (hother b hb hbj y)
    · rw [if_neg haj] at hx
      by_cases hbj : b = j
      · rw [if_pos hbj, Option.some.injEq, Prod.mk.injEq] at hy
        rw [← hy.1] at hx
        exact absurd hx (hother a ha haj x)
      · rw [if_neg hbj] at hy
        exact h.unique ha hb hx hy
  · rw [slots_put] at hx ⊢
    by_cases hij : i = j
    · rw [if_pos hij]
      exact Option.some_ne_none _
    rw [if_neg hij]
    by_cases haj : a = j
    · rw [if_pos haj, Option.some.injEq, Prod.mk.injEq] at hx
      obtain ⟨rfl, -⟩ := hx
      rw [haj] at hlt
      intro hnone
      have hpass := hbefore i hi hlt
      rw [stops_eq_true_iff.mpr (Or.inl hnone)] at hpass
      cases hpass
    · rw [if_neg haj] at hx
      exact h.reach ha hx i hi hlt

omit [DecidableEq κ] in
theorem mem_entries_put (h : t.Ok hash) (hj : j < t.size)
    (hempty : t.slots j = none ∨ ∃ w, t.slots j = some (k, w))
    (hfound : ∀ w, (k, w) ∈ t.entries ↔ t.slots j = some (k, w)) {e : κ × ν} :
    e ∈ (t.put j k v).entries ↔ e = (k, v) ∨ e ∈ t.entries ∧ e.1 ≠ k := by
  rw [mem_entries]
  constructor
  · rintro ⟨i, hi, hslot⟩
    rw [slots_put] at hslot
    by_cases hij : i = j
    · rw [if_pos hij, Option.some.injEq] at hslot
      exact Or.inl hslot.symm
    · rw [if_neg hij] at hslot
      refine Or.inr ⟨mem_entries.mpr ⟨i, hi, hslot⟩, ?_⟩
      rintro rfl
      exact hij (h.unique hi hj hslot ((hfound e.2).mp (mem_entries.mpr ⟨i, hi, hslot⟩)))
  · rintro (rfl | ⟨hmem, hne⟩)
    · exact ⟨j, hj, by rw [slots_put, if_pos rfl]⟩
    · obtain ⟨i, hi, hslot⟩ := mem_entries.mp hmem
      refine ⟨i, hi, ?_⟩
      rw [slots_put, if_neg, hslot]
      rintro rfl
      rcases hempty with hnone | ⟨w, hw⟩
      · rw [hnone] at hslot
        cases hslot
      · rw [hw, Option.some.injEq] at hslot
        exact hne (congrArg Prod.fst hslot).symm

theorem mem_keys : k ∈ t.keys ↔ ∃ v, (k, v) ∈ t.entries := by
  simp [keys]

theorem Ok.card_keys (h : t.Ok hash) : t.keys.card = t.entries.length := by
  rw [keys, List.toFinset_card_of_nodup h.nodup_keys, List.length_map]

theorem keys_put (hmem : ∀ e, e ∈ (t.put j k v).entries ↔ e = (k, v) ∨ e ∈ t.entries ∧ e.1 ≠ k) :
    (t.put j k v).keys = insert k t.keys := by
  ext k'
  rw [mem_keys, Finset.mem_insert, mem_keys]
  by_cases hk : k' = k
  · subst hk
    exact iff_of_true ⟨v, (hmem _).mpr (Or.inl rfl)⟩ (Or.inl rfl)
  · simp [hmem, hk]

end Table

end Imola.ProbeTables
