import Imola.Probing

/-! # The hash map of `qrtr`

`map.c` is a table with linear probing.  An item carries its own key, so a table holds pointers to
items, and the keys are in the memory the pointers refer to: the functions on a table take that
memory, `key`.  A removed item leaves a marker behind, which a search passes.

The `int` and `unsigned int` sizes and slots are natural numbers, as they can be in tables below
`2 ^ 31` slots; `QrtrMapGrowth.lean` has the functions with `int`s (`returns_mapReput`).

`Wf` holds of every table the functions build: the counter is right, and no search ends in front of
an item.  So `map_find` finds the first item with the key, in the order of the search
(`mapFind_eq_some_iff`). -/

namespace Imola.Qrtr

open Imola.Probing

/-- A slot: NULL, the marker `deleted`, or an item. -/
inductive Entry (ι : Type) where
  | free
  | deleted
  | item (i : ι)
deriving DecidableEq, Repr

namespace Entry

variable {ι : Type}

def item? : Entry ι → Option ι
  | item i => some i
  | _ => none

/-- An item with the key `k`. -/
def hasKey (key : ι → UInt32) (k : UInt32) : Entry ι → Bool
  | item i => key i = k
  | _ => false

end Entry

/-- `struct map`. -/
structure Map (ι : Type) where
  size : ℕ
  count : ℕ
  data : ℕ → Entry ι

section Functions

variable {ι : Type} (key : ι → UInt32)

/-- `map_create`. -/
def mapCreate : Map ι := ⟨0, 0, fun _ => .free⟩

/-- `map_hash`: the slot for a key, and the map with the new count; `none` is a negative result. -/
def mapHash (m : Map ι) (k : UInt32) : Option (ℕ × Map ι) :=
  if m.count = m.size then none
  else
    match search (fun j => (m.data j).item?.isNone || (m.data j).hasKey key k) m.size k.toNat with
    | none => none
    | some j => some (j, if (m.data j).item?.isNone then { m with count := m.count + 1 } else m)

/-- The end of `map_reput`: store the item in the slot that was found. -/
def mapStore (v : ι) (r : ℕ × Map ι) : Option ι × Map ι :=
  ((r.2.data r.1).item?, { r.2 with data := Function.update r.2.data r.1 (.item v) })

/-- `map_rehash`, when `calloc` succeeds.  The new table has a slot for every item, so `map_put`
does not come back here. -/
def mapRehash (m : Map ι) : Option (Map ι) :=
  (List.range m.size).foldlM (fun n j =>
    match m.data j with
    | .item v => (mapHash key n (key v)).map fun r => (mapStore v r).2
    | _ => some n) ⟨m.size + 256, 0, fun _ => .free⟩

/-- `map_reput`: the item it displaced and the map after it; `none` when memory is exhausted.  The
loop ends at the latest after one `map_rehash`, which leaves free slots.  The key in `v` is set by
the caller's side of the model. -/
def mapReput (calloc : Bool) (m : Map ι) (k : UInt32) (v : ι) : Option (Option ι × Map ι) :=
  match mapHash key m k with
  | some r => some (mapStore v r)
  | none =>
      if calloc then do
        let m ← mapRehash key m
        let r ← mapHash key m k
        some (mapStore v r)
      else none

/-- `map_put`. -/
def mapPut (calloc : Bool) (m : Map ι) (k : UInt32) (v : ι) : Option (Map ι) :=
  (mapReput key calloc m k v).map Prod.snd

/-- `map_find`: the slot of the item. -/
def mapFind (m : Map ι) (k : UInt32) : Option ℕ :=
  if m.size = 0 then none
  else
    match search (fun j => m.data j matches .free || (m.data j).hasKey key k) m.size k.toNat with
    | none => none
    | some j => if m.data j matches .free then none else some j

/-- `map_get`. -/
def mapGet (m : Map ι) (k : UInt32) : Option ι :=
  match mapFind key m k with
  | none => none
  | some j => (m.data j).item?

/-- `map_remove`: whether there was no such item, and the map after it. -/
def mapRemove (m : Map ι) (k : UInt32) : Bool × Map ι :=
  match mapFind key m k with
  | none => (true, m)
  | some j => (false, { m with count := m.count - 1, data := Function.update m.data j .deleted })

/-- `map_length`. -/
def mapLength (m : Map ι) : ℕ := m.count

/-- The items `map_for_each` visits: `map_iter_first` and `map_iter_next` go through the slots and
stop at those with an item. -/
def mapItems (m : Map ι) : List ι := (List.range m.size).filterMap fun j => (m.data j).item?

end Functions

/-! ### Well-formed tables -/

section Wf

variable {ι : Type} {key : ι → UInt32} {m : Map ι} {k : UInt32} {i j : ℕ} {v w : ι}

@[simp] theorem item?_eq_some {e : Entry ι} : e.item? = some v ↔ e = .item v := by
  cases e with
  | item i => simp [Entry.item?]
  | _ => simp [Entry.item?]

@[simp] theorem hasKey_iff {e : Entry ι} :
    e.hasKey key k = true ↔ ∃ v, e = .item v ∧ key v = k := by
  cases e with
  | item i => simp [Entry.hasKey]
  | _ => simp [Entry.hasKey]

/-- The slots with an item. -/
def Map.live (m : Map ι) : Finset ℕ := (Finset.range m.size).filter fun j => (m.data j).item?.isSome

theorem mem_live : j ∈ m.live ↔ j < m.size ∧ ∃ v, m.data j = .item v := by
  rw [Map.live, Finset.mem_filter, Finset.mem_range, Option.isSome_iff_exists]
  simp only [item?_eq_some]

theorem mem_mapItems : v ∈ mapItems m ↔ ∃ j < m.size, m.data j = .item v := by
  simp [mapItems, List.mem_filterMap]

/-- The counter counts the items, and the slots between the home slot of an item and the item are
not free. -/
structure Map.Wf (key : ι → UInt32) (m : Map ι) : Prop where
  count_eq : m.count = m.live.card
  reach : ∀ {j v}, j < m.size → m.data j = .item v → ∀ i < m.size,
    dist m.size (key v).toNat i < dist m.size (key v).toNat j → m.data i ≠ .free

/-- No two items have the same key. -/
def Map.Unique (key : ι → UInt32) (m : Map ι) : Prop :=
  ∀ ⦃i j v w⦄, i < m.size → j < m.size → m.data i = .item v → m.data j = .item w →
    key v = key w → i = j

theorem wf_mapCreate : (mapCreate : Map ι).Wf key :=
  ⟨rfl, fun hj => absurd hj (Nat.not_lt_zero _)⟩

theorem unique_mapCreate : (mapCreate : Map ι).Unique key :=
  fun _ _ _ _ hi => absurd hi (Nat.not_lt_zero _)

theorem Map.Wf.congr {key' : ι → UInt32} (hwf : m.Wf key) (h : ∀ w ∈ mapItems m, key' w = key w) :
    m.Wf key' := by
  refine ⟨hwf.count_eq, fun {j v} hj hv => ?_⟩
  rw [h v (mem_mapItems.mpr ⟨j, hj, hv⟩)]
  exact hwf.reach hj hv

theorem Map.Unique.congr {key' : ι → UInt32} (hu : m.Unique key)
    (h : ∀ w ∈ mapItems m, key' w = key w) :
    m.Unique key' := by
  intro i j v w hi hj hv hw hkey
  rw [h v (mem_mapItems.mpr ⟨i, hi, hv⟩), h w (mem_mapItems.mpr ⟨j, hj, hw⟩)] at hkey
  exact hu hi hj hv hw hkey

/-- **What `map_find` finds**: of the items with the key, the one that the search meets first. -/
theorem mapFind_eq_some_iff (hwf : m.Wf key) : mapFind key m k = some j ↔
    j < m.size ∧ (∃ v, m.data j = .item v ∧ key v = k) ∧
      ∀ i < m.size, ∀ w, m.data i = .item w → key w = k →
        dist m.size k.toNat j ≤ dist m.size k.toNat i := by
  unfold mapFind
  constructor
  · intro h
    split_ifs at h with hsize
    split at h
    · cases h
    · rename_i j' hsearch
      split_ifs at h with hfree
      obtain rfl := Option.some.inj h
      obtain ⟨hj, hstop, hbefore⟩ := search_eq_some_iff.mp hsearch
      have hkey : (m.data j').hasKey key k = true := by
        rw [Bool.or_eq_true] at hstop
        exact hstop.resolve_left hfree
      refine ⟨hj, hasKey_iff.mp hkey, ?_⟩
      intro i hi w hw hk
      by_contra hlt
      have hnot := hbefore i hi (by omega)
      rw [Bool.or_eq_false_iff] at hnot
      have hyes : (m.data i).hasKey key k = true := hasKey_iff.mpr ⟨w, hw, hk⟩
      rw [hnot.2] at hyes
      cases hyes
  · rintro ⟨hj, ⟨v, hv, hk⟩, hmin⟩
    have hsearch : search (fun j => m.data j matches .free || (m.data j).hasKey key k)
        m.size k.toNat =
        some j := by
      refine search_eq_some_iff.mpr ⟨hj, ?_, ?_⟩
      · rw [Bool.or_eq_true]
        exact Or.inr (hasKey_iff.mpr ⟨v, hv, hk⟩)
      · intro i hi hlt
        rw [Bool.or_eq_false_iff]
        constructor
        · have hreach := hwf.reach hj hv i hi (by rw [hk]; exact hlt)
          cases hentry : m.data i with
          | free => exact absurd hentry hreach
          | _ => rfl
        · rw [Bool.eq_false_iff]
          intro hkey
          obtain ⟨w, hw, hwk⟩ := hasKey_iff.mp hkey
          have := hmin i hi w hw hwk
          omega
    rw [if_neg (by omega), hsearch]
    simp only [hv, Bool.false_eq_true, if_false]

theorem mapFind_eq_none_iff (hwf : m.Wf key) :
    mapFind key m k = none ↔ ∀ v ∈ mapItems m, key v ≠ k := by
  constructor
  · intro h v hv hk
    obtain ⟨j, hj, hdata⟩ := mem_mapItems.mp hv
    have hex : ∃ d, ∃ i < m.size, dist m.size k.toNat i = d ∧ ∃ w, m.data i = .item w ∧ key w = k :=
      ⟨_, j, hj, rfl, v, hdata, hk⟩
    classical
    obtain ⟨i, hi, hd, hw⟩ := Nat.find_spec hex
    have hfound : mapFind key m k = some i := by
      refine (mapFind_eq_some_iff hwf).mpr ⟨hi, hw, ?_⟩
      intro i' hi' w' hw' hk'
      rw [hd]
      exact Nat.find_min' hex ⟨i', hi', rfl, w', hw', hk'⟩
    rw [h] at hfound
    cases hfound
  · intro h
    cases hfind : mapFind key m k with
    | none => rfl
    | some j =>
        obtain ⟨hj, ⟨v, hv, hk⟩, -⟩ := (mapFind_eq_some_iff hwf).mp hfind
        exact absurd hk (h v (mem_mapItems.mpr ⟨j, hj, hv⟩))

/-- An item that is found is in the table, with the key. -/
theorem mem_of_mapGet (hwf : m.Wf key) (h : mapGet key m k = some v) :
    v ∈ mapItems m ∧ key v = k := by
  unfold mapGet at h
  split at h
  · cases h
  · rename_i j hfind
    obtain ⟨hj, ⟨w, hw, hk⟩, -⟩ := (mapFind_eq_some_iff hwf).mp hfind
    rw [hw] at h
    obtain rfl := Option.some.inj h
    exact ⟨mem_mapItems.mpr ⟨j, hj, hw⟩, hk⟩

theorem mapGet_eq_none_iff (hwf : m.Wf key) :
    mapGet key m k = none ↔ ∀ v ∈ mapItems m, key v ≠ k := by
  rw [← mapFind_eq_none_iff hwf]
  unfold mapGet
  cases hfind : mapFind key m k with
  | none => simp
  | some j =>
      obtain ⟨-, ⟨v, hv, -⟩, -⟩ := (mapFind_eq_some_iff hwf).mp hfind
      simp [hv, Entry.item?]

/-- **`map_get`** on a table without two items for a key. -/
theorem mapGet_eq_some_iff (hwf : m.Wf key) (hu : m.Unique key) :
    mapGet key m k = some v ↔ v ∈ mapItems m ∧ key v = k := by
  refine ⟨mem_of_mapGet hwf, ?_⟩
  rintro ⟨hv, hk⟩
  cases hget : mapGet key m k with
  | none => exact absurd hk ((mapGet_eq_none_iff hwf).mp hget v hv)
  | some w =>
      obtain ⟨hw, hwk⟩ := mem_of_mapGet hwf hget
      obtain ⟨i, hi, hdi⟩ := mem_mapItems.mp hv
      obtain ⟨j, hj, hdj⟩ := mem_mapItems.mp hw
      obtain rfl := hu hi hj hdi hdj (hk.trans hwk.symm)
      rw [hdi] at hdj
      cases hdj
      rfl

end Wf

/-! ### Storing an item -/

section Store

variable {ι : Type} {key key' : ι → UInt32} {m : Map ι} {k : UInt32} {j : ℕ} {v w : ι}

/-- The slot `map_hash` picks: the first that has no item, or the key. -/
structure Map.Picks (key : ι → UInt32) (m : Map ι) (k : UInt32) (j : ℕ) : Prop where
  lt : j < m.size
  stop : (∀ v, m.data j ≠ .item v) ∨ ∃ v, m.data j = .item v ∧ key v = k
  before : ∀ i < m.size, dist m.size k.toNat i < dist m.size k.toNat j →
    ∃ w, m.data i = .item w ∧ key w ≠ k

/-- The map after an item is stored in a slot that `map_hash` picked. -/
def Map.store (m : Map ι) (j : ℕ) (v : ι) : Map ι where
  size := m.size
  count := if (m.data j).item?.isNone then m.count + 1 else m.count
  data := Function.update m.data j (.item v)

/-- The map after the item in a slot is removed. -/
def Map.erase (m : Map ι) (j : ℕ) : Map ι where
  size := m.size
  count := m.count - 1
  data := Function.update m.data j .deleted

theorem item?_isNone {e : Entry ι} : e.item?.isNone = true ↔ ∀ v, e ≠ .item v := by
  cases e with
  | item i => simp [Entry.item?]
  | _ => simp [Entry.item?]

/-- A table that is not full has a slot for every key. -/
theorem mapHash_spec (hcount : m.count = m.live.card) (hroom : m.count < m.size) (k : UInt32) :
    ∃ r j, mapHash key m k = some r ∧ m.Picks key k j ∧
    ∀ v, mapStore v r = ((m.data j).item?, m.store j v) := by
  have hslot : ∃ j < m.size, j ∉ m.live := by
    by_contra hall
    have hsub : Finset.range m.size ⊆ m.live := by
      intro j hj
      by_contra hnot
      exact hall ⟨j, Finset.mem_range.mp hj, hnot⟩
    have hcard := Finset.card_le_card hsub
    rw [Finset.card_range, ← hcount] at hcard
    omega
  obtain ⟨i, hi, hnot⟩ := hslot
  have hfree : ∀ v, m.data i ≠ .item v := fun v hv => hnot (mem_live.mpr ⟨hi, v, hv⟩)
  cases hsearch : search (fun j => (m.data j).item?.isNone || (m.data j).hasKey key k) m.size
    k.toNat with
  | none =>
      have hstop := search_eq_none_iff.mp hsearch i hi
      rw [Bool.or_eq_false_iff, item?_isNone.mpr hfree] at hstop
      cases hstop.1
  | some j =>
      obtain ⟨hj, hstop, hbefore⟩ := search_eq_some_iff.mp hsearch
      rw [Bool.or_eq_true, item?_isNone, hasKey_iff] at hstop
      refine ⟨_, j, by rw [mapHash, if_neg hroom.ne, hsearch], ⟨hj, hstop, ?_⟩, ?_⟩
      · intro i' hi' hlt
        have hpass := hbefore i' hi' hlt
        rw [Bool.or_eq_false_iff, Bool.eq_false_iff, Bool.eq_false_iff, ne_eq, item?_isNone,
          ne_eq, hasKey_iff]
          at hpass
        simp only [not_forall, not_not, not_exists, not_and] at hpass
        obtain ⟨⟨w, hw⟩, hkey⟩ := hpass
        exact ⟨w, hw, hkey w hw⟩
      · intro v
        by_cases hnone : (m.data j).item?.isNone = true
        · simp [mapStore, Map.store, hnone]
        · simp [mapStore, Map.store, hnone]

theorem data_store (i : ℕ) : (m.store j v).data i = if i = j then .item v else m.data i := by
  simp only [Map.store, Function.update_apply]

theorem data_erase (i : ℕ) : (m.erase j).data i = if i = j then .deleted else m.data i := by
  simp only [Map.erase, Function.update_apply]

theorem live_store (hj : j < m.size) : (m.store j v).live = insert j m.live := by
  ext i
  rw [Finset.mem_insert, mem_live, mem_live, data_store]
  by_cases hij : i = j
  · subst hij
    simp [Map.store, hj]
  · simp [Map.store, hij]

theorem live_erase : (m.erase j).live = m.live.erase j := by
  ext i
  rw [Finset.mem_erase, mem_live, mem_live, data_erase]
  by_cases hij : i = j
  · simp [hij]
  · simp [Map.erase, hij]

theorem count_store (hcount : m.count = m.live.card) (hj : j < m.size) :
    (m.store j v).count = (m.store j v).live.card := by
  rw [live_store hj]
  by_cases hlive : j ∈ m.live
  · obtain ⟨-, w, hw⟩ := mem_live.mp hlive
    rw [Finset.insert_eq_self.mpr hlive]
    simp [Map.store, hw, Entry.item?, hcount]
  · have hnone : (m.data j).item?.isNone = true :=
      item?_isNone.mpr fun w hw => hlive (mem_live.mpr ⟨hj, w, hw⟩)
    rw [Finset.card_insert_of_notMem hlive, ← hcount]
    exact if_pos hnone

theorem count_erase (hcount : m.count = m.live.card) (hlive : j ∈ m.live) :
    (m.erase j).count = (m.erase j).live.card := by
  rw [live_erase, Finset.card_erase_of_mem hlive, ← hcount]
  rfl

/-- Storing keeps the table well-formed, if the keys of the items in the other slots stay as they
are. -/
theorem Map.Wf.store (hwf : m.Wf key) (hp : m.Picks key k j) (hv : key' v = k)
    (hother : ∀ i < m.size, i ≠ j → ∀ w, m.data i = .item w → key' w = key w) :
    (m.store j v).Wf key' := by
  refine ⟨count_store hwf.count_eq hp.lt, ?_⟩
  intro i w hi hdata i' hi' hlt
  rw [data_store] at hdata ⊢
  have hsize : (m.store j v).size = m.size := rfl
  rw [hsize] at hi hi' hlt
  by_cases hi'j : i' = j
  · simp [hi'j]
  rw [if_neg hi'j]
  by_cases hij : i = j
  · rw [if_pos hij, Entry.item.injEq] at hdata
    rw [← hdata, hv, hij] at hlt
    obtain ⟨u, hu, -⟩ := hp.before i' hi' hlt
    simp [hu]
  · rw [if_neg hij] at hdata
    rw [hother i hi hij w hdata] at hlt
    exact hwf.reach hi hdata i' hi' hlt

theorem Map.Wf.erase (hwf : m.Wf key) (hlive : j ∈ m.live) : (m.erase j).Wf key := by
  refine ⟨count_erase hwf.count_eq hlive, ?_⟩
  intro i w hi hdata i' hi' hlt
  rw [data_erase] at hdata ⊢
  have hsize : (m.erase j).size = m.size := rfl
  rw [hsize] at hi hi' hlt
  by_cases hi'j : i' = j
  · simp [hi'j]
  rw [if_neg hi'j]
  by_cases hij : i = j
  · simp [hij] at hdata
  · rw [if_neg hij] at hdata
    exact hwf.reach hi hdata i' hi' hlt

theorem mem_mapItems_store (hj : j < m.size) :
    w ∈ mapItems (m.store j v) ↔ w = v ∨ ∃ i < m.size, i ≠ j ∧ m.data i = .item w := by
  rw [mem_mapItems]
  constructor
  · rintro ⟨i, hi, hdata⟩
    rw [data_store] at hdata
    by_cases hij : i = j
    · rw [if_pos hij, Entry.item.injEq] at hdata
      exact Or.inl hdata.symm
    · rw [if_neg hij] at hdata
      exact Or.inr ⟨i, hi, hij, hdata⟩
  · rintro (rfl | ⟨i, hi, hij, hdata⟩)
    · exact ⟨j, hj, by rw [data_store, if_pos rfl]⟩
    · exact ⟨i, hi, by rw [data_store, if_neg hij, hdata]⟩

theorem mem_mapItems_erase :
    w ∈ mapItems (m.erase j) ↔ ∃ i < m.size, i ≠ j ∧ m.data i = .item w := by
  rw [mem_mapItems]
  constructor
  · rintro ⟨i, hi, hdata⟩
    rw [data_erase] at hdata
    by_cases hij : i = j
    · simp [hij] at hdata
    · rw [if_neg hij] at hdata
      exact ⟨i, hi, hij, hdata⟩
  · rintro ⟨i, hi, hij, hdata⟩
    exact ⟨i, hi, by rw [data_erase, if_neg hij, hdata]⟩

end Store

/-! ### Tables without two items for a key -/

section Unique

variable {ι : Type} {key key' : ι → UInt32} {m : Map ι} {k : UInt32} {j : ℕ} {v w : ι}

/-- No marker stands between the home slot of `k` and an item with the key `k`. -/
def Map.Clear (key : ι → UInt32) (m : Map ι) (k : UInt32) : Prop :=
  ∀ j < m.size, ∀ v, m.data j = .item v → key v = k → ∀ i < m.size,
    dist m.size k.toNat i < dist m.size k.toNat j → m.data i ≠ .deleted

theorem Map.Picks.key_ne (hp : m.Picks key k j) (hwf : m.Wf key) (hu : m.Unique key)
    (hclear : m.Clear key k) :
    ∀ i < m.size, i ≠ j → ∀ w, m.data i = .item w → key w ≠ k := by
  intro i hi hij w hw hk
  rcases lt_trichotomy (dist m.size k.toNat i) (dist m.size k.toNat j) with hlt | heq | hgt
  · obtain ⟨w', hw', hne⟩ := hp.before i hi hlt
    rw [hw, Entry.item.injEq] at hw'
    exact hne (hw' ▸ hk)
  · exact hij (dist_inj hi hp.lt heq)
  · rcases hp.stop with hnone | ⟨u, hu', huk⟩
    · cases hdata : m.data j with
      | free => exact hwf.reach hi hw j hp.lt (by rw [hk]; exact hgt) hdata
      | deleted => exact hclear i hi w hw hk j hp.lt hgt hdata
      | item u => exact hnone u hdata
    · exact hij (hu hi hp.lt hw hu' (hk.trans huk.symm))

theorem Map.Unique.store (hu : m.Unique key) (hv : key' v = k)
    (hother : ∀ i < m.size, i ≠ j → ∀ w, m.data i = .item w → key' w = key w ∧ key w ≠ k) :
    (m.store j v).Unique key' := by
  intro a b x y ha hb hx hy hkey
  rw [data_store] at hx hy
  by_cases haj : a = j
  · by_cases hbj : b = j
    · rw [haj, hbj]
    · rw [if_pos haj, Entry.item.injEq] at hx
      rw [if_neg hbj] at hy
      obtain ⟨hsame, hne⟩ := hother b hb hbj y hy
      rw [← hx, hv, hsame] at hkey
      exact absurd hkey.symm hne
  · rw [if_neg haj] at hx
    obtain ⟨hsame, hne⟩ := hother a ha haj x hx
    by_cases hbj : b = j
    · rw [if_pos hbj, Entry.item.injEq] at hy
      rw [← hy, hv, hsame] at hkey
      exact absurd hkey hne
    · rw [if_neg hbj] at hy
      rw [hsame, (hother b hb hbj y hy).1] at hkey
      exact hu ha hb hx hy hkey

theorem Map.Unique.erase (hu : m.Unique key) : (m.erase j).Unique key := by
  intro a b x y ha hb hx hy hkey
  rw [data_erase] at hx hy
  by_cases haj : a = j
  · simp [haj] at hx
  · by_cases hbj : b = j
    · simp [hbj] at hy
    · rw [if_neg haj] at hx
      rw [if_neg hbj] at hy
      exact hu ha hb hx hy hkey

theorem mem_mapItems_store_of_key (hj : j < m.size)
    (hstop : (∀ v, m.data j ≠ .item v) ∨ ∃ v, m.data j = .item v ∧ key v = k)
    (hother : ∀ i < m.size, i ≠ j → ∀ w, m.data i = .item w → key w ≠ k) :
    w ∈ mapItems (m.store j v) ↔ w = v ∨ (w ∈ mapItems m ∧ key w ≠ k) := by
  rw [mem_mapItems_store hj, mem_mapItems]
  refine or_congr_right ⟨?_, ?_⟩
  · rintro ⟨i, hi, hij, hdata⟩
    exact ⟨⟨i, hi, hdata⟩, hother i hi hij w hdata⟩
  · rintro ⟨⟨i, hi, hdata⟩, hne⟩
    refine ⟨i, hi, ?_, hdata⟩
    rintro rfl
    rcases hstop with hnone | ⟨u, hu, huk⟩
    · exact hnone w hdata
    · rw [hdata, Entry.item.injEq] at hu
      exact hne (hu ▸ huk)

theorem nodup_keys (hu : m.Unique key) : ((mapItems m).map key).Nodup := by
  rw [mapItems, List.Nodup, List.pairwise_map, List.pairwise_filterMap]
  refine List.pairwise_lt_range.imp_of_mem ?_
  intro i j hi hj hlt v hv w hw hkey
  have hij := hu (List.mem_range.mp hi) (List.mem_range.mp hj) (item?_eq_some.mp hv)
    (item?_eq_some.mp hw) hkey
  omega

end Unique

/-! ### Growing the table -/

section Rehash

variable {ι : Type} {key : ι → UInt32}

/-- A table in which nothing has been removed. -/
def Map.Clean (m : Map ι) : Prop := ∀ i < m.size, m.data i ≠ .deleted

instance [DecidableEq ι] (m : Map ι) : Decidable m.Clean :=
  inferInstanceAs (Decidable (∀ i < _, _))

theorem Map.Clean.clear {m : Map ι} (h : m.Clean) (k : UInt32) : m.Clear key k :=
  fun _ _ _ _ _ i hi _ => h i hi

theorem Map.Clean.store {m : Map ι} (h : m.Clean) (j : ℕ) (v : ι) : (m.store j v).Clean := by
  intro i hi
  rw [data_store]
  split_ifs
  · simp
  · exact h i hi

/-- **Induction over the loop of `map_rehash`**: `P vs n` is true of the items that have been put
into the new table and the new table. -/
theorem mapRehash_rec (m : Map ι) {P : List ι → Map ι → Prop}
    (hnil : P [] ⟨m.size + 256, 0, fun _ => .free⟩)
    (hstep : ∀ vs n j v, n.Wf key → n.Clean → n.Picks key (key v) j → P vs n →
      P (vs ++ [v]) (n.store j v)) :
    ∃ n, mapRehash key m = some n ∧ n.Wf key ∧ n.Clean ∧ n.count < n.size ∧ P (mapItems m) n := by
  have hloop : ∀ (js : List ℕ) (vs : List ι) (n : Map ι), n.Wf key → n.Clean →
      n.count + js.length < n.size → P vs n →
      ∃ n', js.foldlM (fun n j => match m.data j with
          | .item v => (mapHash key n (key v)).map fun r => (mapStore v r).2
          | _ => some n) n = some n' ∧
        n'.Wf key ∧ n'.Clean ∧ n'.size = n.size ∧ n'.count ≤ n.count + js.length ∧
        P (vs ++ js.filterMap fun j => (m.data j).item?) n' := by
    intro js
    induction js with
    | nil =>
        intro vs n hwf hclean _ hP
        exact ⟨n, rfl, hwf, hclean, rfl, le_rfl, by simpa using hP⟩
    | cons j js ih =>
        intro vs n hwf hclean hroom hP
        rw [List.length_cons] at hroom
        simp only [List.foldlM_cons, List.length_cons, List.filterMap_cons]
        cases hdata : m.data j with
        | item v =>
            obtain ⟨r, i, hhash, hp, hstore⟩ := mapHash_spec hwf.count_eq (by omega) (key v)
            have hput : (mapHash key n (key v)).map (fun r => (mapStore v r).2) =
                some (n.store i v) := by
              rw [hhash, Option.map_some, hstore]
            have hcount : (n.store i v).count ≤ n.count + 1 := by
              simp only [Map.store]
              split_ifs
              · exact le_rfl
              · exact Nat.le_succ _
            have hsize : (n.store i v).size = n.size := rfl
            obtain ⟨n', hfold, hwf', hclean', hsize', hle, hP'⟩ := ih (vs ++ [v]) (n.store i v)
              (hwf.store hp rfl fun _ _ _ _ _ => rfl) (hclean.store i v) (by omega)
              (hstep vs n i v hwf hclean hp hP)
            refine ⟨n', ?_, hwf', hclean', hsize'.trans hsize, by omega, ?_⟩
            · simp only [hput]
              exact hfold
            · rw [List.append_assoc] at hP'
              exact hP'
        | _ =>
            obtain ⟨n', hfold, hwf', hclean', hsize, hle, hP'⟩ := ih vs n hwf hclean (by omega) hP
            exact ⟨n', hfold, hwf', hclean', hsize, by omega, hP'⟩
  have hwf : (⟨m.size + 256, 0, fun _ => .free⟩ : Map ι).Wf key := by
    refine ⟨?_, fun _ h => by cases h⟩
    simp [Map.live, Entry.item?]
  obtain ⟨n, hfold, hwf', hclean, hsize, hle, hP⟩ := hloop (List.range m.size) [] _ hwf
    (fun _ _ h => by cases h) (by simp) hnil
  refine ⟨n, hfold, hwf', hclean, ?_, hP⟩
  rw [List.length_range] at hle
  simp only at hle hsize
  omega

/-- **`map_rehash`** gives a larger table without markers, with one of the items for every key. -/
theorem mapRehash_items (m : Map ι) :
    ∃ n, mapRehash key m = some n ∧ n.Wf key ∧ n.Clean ∧ n.count < n.size ∧
    n.Unique key ∧ (∀ w ∈ mapItems n, w ∈ mapItems m) ∧
    ∀ w ∈ mapItems m, ∃ u ∈ mapItems n, key u = key w := by
  refine mapRehash_rec m (P := fun vs n => n.Unique key ∧ (∀ w ∈ mapItems n, w ∈ vs) ∧
    ∀ w ∈ vs, ∃ u ∈ mapItems n, key u = key w) ?_ ?_
  · refine ⟨fun _ _ _ _ _ _ h => (by cases h), fun w hw => ?_, fun w hw => (by cases hw)⟩
    obtain ⟨j, -, h⟩ := mem_mapItems.mp hw
    cases h
  · rintro vs n j v hwf hclean hp ⟨hu, hsub, hkeys⟩
    have hne := hp.key_ne hwf hu (hclean.clear _)
    refine ⟨hu.store rfl fun i hi hij w hw => ⟨rfl, hne i hi hij w hw⟩,
      fun w hw => ?_, fun w hw => ?_⟩
    · cases (mem_mapItems_store hp.lt).mp hw with
      | inl h => simp [h]
      | inr h =>
          obtain ⟨i, hi, -, hdata⟩ := h
          exact List.mem_append_left _ (hsub w (mem_mapItems.mpr ⟨i, hi, hdata⟩))
    · simp only [mem_mapItems_store_of_key hp.lt hp.stop hne]
      by_cases hwv : key w = key v
      · exact ⟨v, Or.inl rfl, hwv.symm⟩
      · have hold : w ∈ vs := by
          refine (List.mem_append.mp hw).resolve_right fun hmem => hwv ?_
          rw [List.mem_singleton.mp hmem]
        obtain ⟨u, hu, huw⟩ := hkeys w hold
        exact ⟨u, Or.inr ⟨hu, fun huv => hwv (huw.symm.trans huv)⟩, huw⟩

/-- Without two items for a key nothing is lost. -/
theorem mapRehash_spec (m : Map ι) :
    ∃ n, mapRehash key m = some n ∧ n.Wf key ∧ n.Clean ∧ n.count < n.size ∧
    (∀ w ∈ mapItems n, w ∈ mapItems m) ∧
    (m.Unique key → n.Unique key ∧ ∀ w, w ∈ mapItems n ↔ w ∈ mapItems m) := by
  obtain ⟨n, hrehash, hwf, hclean, hroom, hu, hsub, hkeys⟩ := @mapRehash_items ι key m
  refine ⟨n, hrehash, hwf, hclean, hroom, hsub, fun hm => ⟨hu, fun w => ⟨hsub w, fun hw => ?_⟩⟩⟩
  obtain ⟨u, hu', huw⟩ := hkeys w hw
  obtain ⟨i, hi, hdi⟩ := mem_mapItems.mp (hsub u hu')
  obtain ⟨j, hj, hdj⟩ := mem_mapItems.mp hw
  obtain rfl := hm hi hj hdi hdj huw
  rw [hdi, Entry.item.injEq] at hdj
  rwa [← hdj]

end Rehash

/-! ### The operations -/

section Operations

variable {ι : Type} {key : ι → UInt32} {m : Map ι} {k : UInt32}

theorem mapReput_of_room (hwf : m.Wf key) (hroom : m.count < m.size) (calloc : Bool)
    (k : UInt32) (v : ι) :
    ∃ j, m.Picks key k j ∧ mapReput key calloc m k v = some ((m.data j).item?, m.store j v) := by
  obtain ⟨r, j, hhash, hp, hstore⟩ := mapHash_spec hwf.count_eq hroom k
  refine ⟨j, hp, ?_⟩
  rw [mapReput, hhash]
  exact congrArg some (hstore v)

/-- `map_reput` into a full table: the item goes into a larger one. -/
theorem mapReput_of_full (hfull : m.count = m.size) (k : UInt32) (v : ι) :
    mapReput key false m k v = none ∧ ∃ n j, mapRehash key m = some n ∧ n.Wf key ∧ n.Clean ∧
    n.Picks key k j ∧
      mapReput key true m k v = some ((n.data j).item?, n.store j v) := by
  have hnone : mapHash key m k = none := by rw [mapHash, if_pos hfull]
  refine ⟨by simp [mapReput, hnone], ?_⟩
  obtain ⟨n, hrehash, hwf, hclean, hroom, -, -⟩ := @mapRehash_spec ι key m
  obtain ⟨r, j, hhash, hp, hstore⟩ := mapHash_spec hwf.count_eq hroom k
  refine ⟨n, j, hrehash, hwf, hclean, hp, ?_⟩
  rw [mapReput, hnone]
  simp only [if_true, hrehash, hhash, hstore, Option.bind_eq_bind, Option.bind_some]

theorem card_live_le (m : Map ι) : m.live.card ≤ m.size := by
  have h := Finset.card_filter_le (Finset.range m.size) fun j => (m.data j).item?.isSome
  rwa [Finset.card_range] at h

theorem count_le_size (hwf : m.Wf key) : m.count ≤ m.size := by
  rw [hwf.count_eq]
  exact card_live_le m

/-- **`map_reput`** stores the item in the slot that `map_hash` picks, in the table or, when it is
full, in a larger one. -/
theorem mapReput_spec (hwf : m.Wf key) (calloc : Bool) (k : UInt32) (v : ι) :
    (calloc = false ∧ mapReput key calloc m k v = none) ∨
    ∃ n j, (n = m ∨ (mapRehash key m = some n ∧ n.Clean)) ∧ n.Wf key ∧ n.Picks key k j ∧
      mapReput key calloc m k v = some ((n.data j).item?, n.store j v) := by
  cases Nat.lt_or_eq_of_le (count_le_size hwf) with
  | inl hroom =>
      obtain ⟨j, hp, hreput⟩ := mapReput_of_room hwf hroom calloc k v
      exact Or.inr ⟨m, j, Or.inl rfl, hwf, hp, hreput⟩
  | inr hfull =>
      obtain ⟨hfalse, n, j, hrehash, hwf', hclean, hp, htrue⟩ := @mapReput_of_full ι key m hfull k v
      cases calloc with
      | false => exact Or.inl ⟨rfl, hfalse⟩
      | true => exact Or.inr ⟨n, j, Or.inr ⟨hrehash, hclean⟩, hwf', hp, htrue⟩

/-- **`map_remove`** removes the item that `map_find` finds. -/
theorem mapRemove_spec (hwf : m.Wf key) (k : UInt32) :
    ((∀ v ∈ mapItems m, key v ≠ k) ∧ mapRemove key m k = (true, m)) ∨
    ∃ j, mapFind key m k = some j ∧ j ∈ m.live ∧ mapRemove key m k = (false, m.erase j) := by
  cases hfind : mapFind key m k with
  | none => exact Or.inl ⟨(mapFind_eq_none_iff hwf).mp hfind, by simp [mapRemove, hfind]⟩
  | some j =>
      obtain ⟨hj, ⟨v, hv, -⟩, -⟩ := (mapFind_eq_some_iff hwf).mp hfind
      exact Or.inr ⟨j, rfl, mem_live.mpr ⟨hj, v, hv⟩, by simp [mapRemove, hfind, Map.erase]⟩

theorem mapReput_items (hwf : m.Wf key) {calloc : Bool} {v : ι} {old : Option ι} {n : Map ι}
    (hv : key v = k)
    (h : mapReput key calloc m k v = some (old, n)) :
    n.Wf key ∧ ∀ w ∈ mapItems n, w = v ∨ w ∈ mapItems m := by
  rcases mapReput_spec hwf calloc k v with ⟨-, hnone⟩ | ⟨t, j, ht, hwf', hp, hstore⟩
  · rw [hnone] at h
    cases h
  rw [hstore] at h
  cases h
  refine ⟨hwf'.store hp hv fun _ _ _ _ _ => rfl, fun w hw => ?_⟩
  rcases (mem_mapItems_store hp.lt).mp hw with rfl | ⟨i, hi, -, hdata⟩
  · exact Or.inl rfl
  have hmem : w ∈ mapItems t := mem_mapItems.mpr ⟨i, hi, hdata⟩
  rcases ht with rfl | ⟨hrehash, -⟩
  · exact Or.inr hmem
  · obtain ⟨t', ht', -, -, -, hsub, -⟩ := @mapRehash_spec ι key m
    rw [hrehash] at ht'
    cases ht'
    exact Or.inr (hsub w hmem)

theorem mapRemove_items (hwf : m.Wf key) (k : UInt32) :
    (mapRemove key m k).2.Wf key ∧ ∀ w ∈ mapItems (mapRemove key m k).2, w ∈ mapItems m := by
  rcases mapRemove_spec hwf k with ⟨-, hremove⟩ | ⟨j, -, hlive, hremove⟩
  · rw [hremove]
    exact ⟨hwf, fun _ hw => hw⟩
  · rw [hremove]
    refine ⟨hwf.erase hlive, fun w hw => ?_⟩
    obtain ⟨i, hi, -, hdata⟩ := mem_mapItems_erase.mp hw
    exact mem_mapItems.mpr ⟨i, hi, hdata⟩

/-- **`map_reput` on a table without two items for a key**, when no marker stands in front of the
item with the key: the item takes the place of the one with its key.  `key'` are the keys with the
one of the item set. -/
theorem mapReput_unique {key' : ι → UInt32} {v : ι} (hwf : m.Wf key) (hu : m.Unique key)
    (hclear : m.Clear key k)
    (hmem : v ∈ mapItems m → key v = k) (hv : key' v = k) (hsame : ∀ w, w ≠ v → key' w = key w)
    (calloc : Bool) :
    (calloc = false ∧ mapReput key calloc m k v = none) ∨
    ∃ n, mapReput key calloc m k v = some (mapGet key m k, n) ∧ n.Wf key' ∧ n.Unique key' ∧
    (m.Clean → n.Clean) ∧
      ∀ w, w ∈ mapItems n ↔ w = v ∨ (w ∈ mapItems m ∧ key w ≠ k) := by
  rcases mapReput_spec hwf calloc k v with hnone | ⟨n, j, hn, hwf', hp, hreput⟩
  · exact Or.inl hnone
  have hn' : n.Unique key ∧ n.Clear key k ∧ (m.Clean → n.Clean) ∧ ∀ w, w ∈ mapItems n ↔
      w ∈ mapItems m := by
    rcases hn with rfl | ⟨hrehash, hclean⟩
    · exact ⟨hu, hclear, id, fun _ => Iff.rfl⟩
    · obtain ⟨n', hn', -, -, -, -, huniq⟩ := @mapRehash_spec ι key m
      obtain rfl := Option.some.inj (hrehash.symm.trans hn')
      exact ⟨(huniq hu).1, hclean.clear k, fun _ => hclean, (huniq hu).2⟩
  obtain ⟨hu', hclear', hclean, hitems⟩ := hn'
  have hne := hp.key_ne hwf' hu' hclear'
  have hdiff : ∀ i < n.size, i ≠ j → ∀ w, n.data i = .item w → w ≠ v := by
    rintro i hi hij w hw rfl
    exact hne i hi hij w hw (hmem ((hitems w).mp (mem_mapItems.mpr ⟨i, hi, hw⟩)))
  have hold : (n.data j).item? = mapGet key m k := by
    rcases hp.stop with hnone | ⟨u, hdata, huk⟩
    · have habsent : mapGet key m k = none := by
        rw [mapGet_eq_none_iff hwf]
        intro w hw
        obtain ⟨i, hi, hdata⟩ := mem_mapItems.mp ((hitems w).mpr hw)
        refine hne i hi ?_ w hdata
        rintro rfl
        exact hnone w hdata
      rw [habsent]
      exact Option.isNone_iff_eq_none.mp (item?_isNone.mpr hnone)
    · have hget : mapGet key m k = some u :=
        (mapGet_eq_some_iff hwf hu).mpr ⟨(hitems u).mp (mem_mapItems.mpr ⟨j, hp.lt, hdata⟩), huk⟩
      rw [hget, item?_eq_some]
      exact hdata
  refine Or.inr ⟨n.store j v, by rw [hreput, hold], ?_, ?_, fun h => (hclean h).store j v, ?_⟩
  · exact hwf'.store hp hv fun i hi hij w hw => hsame w (hdiff i hi hij w hw)
  · exact hu'.store hv fun i hi hij w hw => ⟨hsame w (hdiff i hi hij w hw), hne i hi hij w hw⟩
  · intro w
    rw [mem_mapItems_store_of_key hp.lt hp.stop hne, hitems]

/-- **`map_remove` on a table without two items for a key** removes the item with the key. -/
theorem mapRemove_unique (hwf : m.Wf key) (hu : m.Unique key) (k : UInt32) :
    (mapRemove key m k).1 = (mapGet key m k).isNone ∧ (mapRemove key m k).2.Wf key ∧
      (mapRemove key m k).2.Unique key ∧
      ∀ w, w ∈ mapItems (mapRemove key m k).2 ↔ w ∈ mapItems m ∧ key w ≠ k := by
  rcases mapRemove_spec hwf k with ⟨habsent, hremove⟩ | ⟨j, hfind, hlive, hremove⟩
  · rw [hremove, (mapGet_eq_none_iff hwf).mpr habsent]
    exact ⟨rfl, hwf, hu, fun w => ⟨fun hw => ⟨hw, habsent w hw⟩, And.left⟩⟩
  · obtain ⟨hj, ⟨u, hdata, huk⟩, -⟩ := (mapFind_eq_some_iff hwf).mp hfind
    have hget : mapGet key m k = some u :=
      (mapGet_eq_some_iff hwf hu).mpr ⟨mem_mapItems.mpr ⟨j, hj, hdata⟩, huk⟩
    rw [hremove, hget]
    refine ⟨rfl, hwf.erase hlive, hu.erase, fun w => ?_⟩
    rw [mem_mapItems_erase, mem_mapItems]
    constructor
    · rintro ⟨i, hi, hij, hw⟩
      exact ⟨⟨i, hi, hw⟩, fun hwk => hij (hu hi hj hw hdata (hwk.trans huk.symm))⟩
    · rintro ⟨⟨i, hi, hw⟩, hne⟩
      refine ⟨i, hi, ?_, hw⟩
      rintro rfl
      rw [hdata, Entry.item.injEq] at hw
      exact hne (hw ▸ huk)

end Operations

end Imola.Qrtr
