import Imola.ProbeTables

/-! # The string set of `pd-mapper`

`assoc.c` is a table with linear probing over strings.  `assoc_set` first makes the table a quarter
larger when it is filled to more than 80 percent, and puts the entries into the new one with
`assoc_set` itself.

The loops of the source have no bound of their own, and neither has the nesting of the calls: a run
has a number of steps, and a result is what all sufficiently long runs have.  A table is `calloc`ed,
so it has fewer than `2 ^ 64 / 8` slots; with more the call fails, and what is computed modulo
`2 ^ 64` is never larger.

From the table of 20 slots that `pd_load_maps` starts with, a sequence of calls of `assoc_set` gives
a table of the strings and the values last set for them (`isMap_of_sets`). -/

namespace Imola.PdMapper

open Imola.Probing Imola.ProbeTables

/-- `struct assoc`.  `values[i]` is written when `keys[i]` is, and read only where there is a key.
A value is a pointer, `none` is NULL. -/
structure Assoc (ν : Type) extends Table (List UInt8) (Option ν) where
  fill : ℕ

/-- Why a call has no result: an assertion, an allocation, or it has not come back yet. -/
inductive AssocError where
  | assertion
  | memory
  | running
deriving DecidableEq, Repr

section Functions

variable {ν : Type}

/-- `assoc_hash`; `char` says how a character becomes an `unsigned long`. -/
def assocHash (char : UInt8 → UInt64) (value : List UInt8) : UInt64 :=
  value.foldl (fun hash v =>
    let hash := (hash <<< 4) + char v
    let g := hash &&& 0xF0000000
    let hash := if g ≠ 0 then hash ^^^ (g >>> 24) else hash
    hash &&& ~~~g) 0

/-- `assoc_init`. -/
def assocInit (size : ℕ) : Except AssocError (Assoc ν) :=
  if size = 0 then .error .assertion
  else if 2 ^ 64 ≤ 8 * size then .error .memory
  else .ok ⟨Table.empty size, 0⟩

variable (char : UInt8 → UInt64)

/-- The loop of `assoc_get` and `_assoc_set`: the slot at which it ends. -/
def assocProbe (s : Assoc ν) (key : List UInt8) (rounds : ℕ) : Except AssocError ℕ :=
  match searchFrom (s.stops key) s.size rounds ((assocHash char key).toNat % s.size) with
  | none => .error .running
  | some hash => .ok hash

/-- `assoc_get`. -/
def assocGet (fuel : ℕ) (s : Assoc ν) (key : List UInt8) : Except AssocError (Option ν) :=
  (assocProbe char s key fuel).map fun hash => (s.slots hash).bind Prod.snd

/-- The end of `_assoc_set`. -/
def assocStore (s : Assoc ν) (key : List UInt8) (value : Option ν) (hash : ℕ) : Assoc ν :=
  match s.slots hash with
  | some e => { s with slots := Function.update s.slots hash (some (e.1, value)) }
  | none =>
      { s with
        slots := Function.update s.slots hash (some (key, value))
        fill := (s.fill + 1) % 2 ^ 64 }

/-- The growth in `_assoc_set`, with the calls of `assoc_set` it makes. -/
def assocGrow (set : Assoc ν → List UInt8 → Option ν → Except AssocError (Assoc ν)) (s : Assoc ν) :
    Except AssocError (Assoc ν) :=
  (assocInit (s.size * 5 % 2 ^ 64 / 4)).bind fun new =>
    (List.range s.size).foldlM (fun t i => match s.slots i with
      | some e => set t e.1 e.2
      | none => .ok t) new

/-- `assoc_set`. -/
def assocSet : (fuel : ℕ) → Assoc ν → List UInt8 → Option ν → Except AssocError (Assoc ν)
  | 0, _, _, _ => .error .running
  | fuel + 1, s, key, value =>
      if s.fill < s.size then
        (if 4 * s.size % 2 ^ 64 < 5 * s.fill % 2 ^ 64 then assocGrow (assocSet fuel) s
          else .ok s).bind fun s =>
          (assocProbe char s key fuel).map (assocStore s key value)
      else .error .assertion

/-- The loop of `assoc_next`. -/
def skipEmpty (s : Assoc ν) : (rounds it : ℕ) → ℕ
  | 0, it => it
  | rounds + 1, it => if it < s.size ∧ (s.slots it).isNone then skipEmpty s rounds (it + 1) else it

/-- `assoc_next`: the key and value, and the new `*iter`. -/
def assocNext (s : Assoc ν) (iter : ℕ) : Option ((List UInt8 × Option ν) × ℕ) :=
  let it := skipEmpty s (s.size - iter) iter
  if it < s.size then (s.slots it).map fun e => (e, it + 1) else none

/-- `assoc_foreach` from `iter` on: the keys and values it comes to. -/
def foreachFrom (s : Assoc ν) : (fuel iter : ℕ) → Option (List (List UInt8 × Option ν))
  | 0, _ => none
  | fuel + 1, iter =>
      match assocNext s iter with
      | none => some []
      | some (e, iter') => (foreachFrom s fuel iter').map fun es => e :: es

/-- `assoc_foreach`. -/
def assocForeach (fuel : ℕ) (s : Assoc ν) : Option (List (List UInt8 × Option ν)) :=
  foreachFrom s fuel 0

/-- `assoc_init` as `pd_load_maps` calls it, and calls of `assoc_set`. -/
def assocSets (fuel : ℕ) (sets : List (List UInt8 × Option ν)) : Except AssocError (Assoc ν) :=
  (assocInit 20).bind fun s => sets.foldlM (fun s e => assocSet char fuel s e.1 e.2) s

/-! ### The map that is meant -/

/-- The value last set for a key. -/
def lastSet (sets : List (List UInt8 × Option ν)) : List UInt8 → Option (Option ν) :=
  sets.foldl (fun A e => Function.update A e.1 (some e.2)) fun _ => none

/-- All sufficiently long runs have the result `r`. -/
def Yields {α : Type} (run : ℕ → α) (r : α) : Prop := ∃ fuel, ∀ fuel' ≥ fuel, run fuel' = r

/-- The table is the map: there is room for the next key, `fill` is the number of keys, `assoc_get`
gives the values, and `assoc_foreach` comes to every key once. -/
structure IsMap (sets : List (List UInt8 × Option ν)) (s : Assoc ν) : Prop where
  room : s.fill < s.size
  fill : s.fill = (sets.map Prod.fst).toFinset.card
  get : ∀ key, Yields (fun fuel => assocGet char fuel s key) (.ok (lastSet sets key).join)
  foreach : ∃ es, Yields (fun fuel => assocForeach fuel s) (some es) ∧ (es.map Prod.fst).Nodup ∧
    ∀ key, key ∈ es.map Prod.fst ↔ key ∈ sets.map Prod.fst

end Functions

theorem Yields.of_le {α : Type} {run : ℕ → α} {r : α} (n : ℕ) (h : ∀ fuel, run (fuel + n) = r) :
    Yields run r := by
  refine ⟨n, fun fuel hfuel => ?_⟩
  obtain ⟨fuel, rfl⟩ := Nat.exists_eq_add_of_le' hfuel
  exact h fuel

/-! ### One table -/

section Tables

variable {ν : Type} {char : UInt8 → UInt64} {s : Assoc ν}

/-- The entries can be found, and `fill` counts them. -/
structure Assoc.Sound (char : UInt8 → UInt64) (s : Assoc ν) : Prop where
  ok : s.Ok fun key => (assocHash char key).toNat
  fill : s.fill = s.keys.card
  memory : 8 * s.size < 2 ^ 64

theorem sound_empty {n : ℕ} (h : 8 * n < 2 ^ 64) : (⟨Table.empty n, 0⟩ : Assoc ν).Sound char := by
  refine ⟨Table.ok_empty n, ?_, h⟩
  simp [Table.keys]

/-- The loop of `assoc_get` and `_assoc_set` ends when there is an empty slot. -/
theorem Assoc.Sound.probe (h : s.Sound char) (hroom : s.fill < s.size) (key : List UInt8) :
    ∃ j, search (s.stops key) s.size (assocHash char key).toNat = some j ∧
      (∀ rounds, assocProbe char s key (rounds + s.size) = .ok j) ∧ j < s.size ∧
      (s.slots j = none ∨ ∃ v, s.slots j = some (key, v)) ∧ ∀ v, (key, v) ∈ s.entries ↔
      s.slots j = some (key, v) := by
  obtain ⟨j, hsearch, hj, hfound⟩ :=
    h.ok.search (by rw [← h.ok.card_keys, ← h.fill]; exact hroom) key
  refine ⟨j, hsearch, fun rounds => ?_, hj,
    Table.stops_eq_true_iff.mp (search_eq_some_iff.mp hsearch).2.1, hfound⟩
  rw [assocProbe, searchFrom_of_search hsearch (by omega)]

theorem Assoc.Sound.store (h : s.Sound char) (hroom : s.fill < s.size) {key : List UInt8} {j : ℕ}
    (hsearch : search (s.stops key) s.size (assocHash char key).toNat = some j) (hj : j < s.size)
    (hstop : s.slots j = none ∨ ∃ v, s.slots j = some (key, v))
    (hfound : ∀ v, (key, v) ∈ s.entries ↔ s.slots j = some (key, v)) (value : Option ν) :
    (assocStore s key value j).toTable = s.toTable.put j key value ∧
    (assocStore s key value j).Sound char := by
  have hmem : ∀ e, e ∈ (s.toTable.put j key value).entries ↔
      e = (key, value) ∨ e ∈ s.entries ∧ e.1 ≠ key :=
    fun e => Table.mem_entries_put h.ok hj hstop hfound
  have hkeys := Table.keys_put hmem
  have hok := h.ok.put hsearch hfound value
  have hmemory := h.memory
  rcases hstop with hnone | ⟨v, hv⟩
  · have hstore : assocStore s key value j = ⟨s.toTable.put j key value, s.fill + 1⟩ := by
      rw [assocStore, hnone, Nat.mod_eq_of_lt (by omega)]
      rfl
    have hnew : key ∉ s.keys := by
      rw [Table.mem_keys]
      rintro ⟨v, hv⟩
      rw [hfound, hnone] at hv
      cases hv
    rw [hstore]
    refine ⟨rfl, hok, ?_, h.memory⟩
    rw [hkeys, Finset.card_insert_of_notMem hnew, h.fill]
  · have hstore : assocStore s key value j = ⟨s.toTable.put j key value, s.fill⟩ := by
      rw [assocStore, hv]
      rfl
    have hold : key ∈ s.keys := Table.mem_keys.mpr ⟨v, (hfound v).mpr hv⟩
    rw [hstore]
    refine ⟨rfl, hok, ?_, h.memory⟩
    rw [hkeys, Finset.insert_eq_self.mpr hold, h.fill]

/-- What a call of `assoc_set` leaves. -/
structure Assoc.SetIn (char : UInt8 → UInt64) (s : Assoc ν) (key : List UInt8) (value : Option ν)
    (s' : Assoc ν) : Prop where
  sound : s'.Sound char
  size : s'.size = s.size
  mem : ∀ e, e ∈ s'.entries ↔ e = (key, value) ∨ e ∈ s.entries ∧ e.1 ≠ key
  keys : s'.keys = insert key s.keys

theorem Assoc.Sound.place (h : s.Sound char) (hroom : s.fill < s.size) (key : List UInt8)
    (value : Option ν) :
    ∃ s',
    (∀ rounds, (assocProbe char s key (rounds + s.size)).map (assocStore s key value) = .ok s') ∧
      s.SetIn char key value s' := by
  obtain ⟨j, hsearch, hprobe, hj, hstop, hfound⟩ := h.probe hroom key
  obtain ⟨htable, hsound⟩ := h.store hroom hsearch hj hstop hfound value
  have hmem : ∀ e, e ∈ (s.toTable.put j key value).entries ↔ e = (key, value) ∨ e ∈ s.entries ∧
      e.1 ≠ key :=
    fun e => Table.mem_entries_put h.ok hj hstop hfound
  refine ⟨assocStore s key value j, fun rounds => by rw [hprobe]; rfl, hsound, ?_, ?_, ?_⟩
  · rw [htable]
    rfl
  · rw [htable]
    exact hmem
  · rw [htable]
    exact Table.keys_put hmem

/-- **`assoc_set` in a table that is not filled to more than 80 percent.** -/
theorem Assoc.Sound.set (h : s.Sound char) (hroom : s.fill < s.size)
    (hload : 5 * s.fill ≤ 4 * s.size)
    (key : List UInt8) (value : Option ν) :
    ∃ s', (∀ fuel, assocSet char (fuel + s.size + 1) s key value = .ok s') ∧
      s.SetIn char key value s' := by
  obtain ⟨s', hplace, hset⟩ := h.place hroom key value
  have hmemory := h.memory
  refine ⟨s', fun fuel => ?_, hset⟩
  rw [assocSet, if_pos hroom, if_neg, ← hplace fuel]
  · rfl
  · rw [Nat.mod_eq_of_lt (by omega), Nat.mod_eq_of_lt (by omega)]
    omega

/-! ### Growth -/

/-- Entries with new keys are put into a table that stays filled to at most 80 percent. -/
theorem set_entries {n f : ℕ} (hload : 5 * f ≤ 4 * n + 5) (hroom : f ≤ n)
    (es : List (List UInt8 × Option ν)) :
    ∀ t : Assoc ν, t.Sound char → t.size = n → t.fill + es.length ≤ f → (es.map Prod.fst).Nodup →
    (∀ e ∈ es, e.1 ∉ t.keys) →
    ∃ t' : Assoc ν,
      (∀ fuel, es.foldlM (fun t e => assocSet char (fuel + n + 1) t e.1 e.2) t = .ok t') ∧
      t'.Sound char ∧ t'.size = n ∧ ∀ e, e ∈ t'.entries ↔ e ∈ t.entries ∨ e ∈ es := by
  induction es with
  | nil => exact fun t hsound hsize _ _ _ => ⟨t, fun _ => rfl, hsound, hsize, by simp⟩
  | cons e es ih =>
      intro t hsound hsize hlen hnodup hnew
      rw [List.length_cons] at hlen
      rw [List.map_cons, List.nodup_cons] at hnodup
      obtain ⟨t₁, hset, hin⟩ := hsound.set (by omega) (by omega) e.1 e.2
      have hfill : t₁.fill ≤ t.fill + 1 := by
        rw [hin.sound.fill, hin.keys, hsound.fill]
        exact Finset.card_insert_le _ _
      have hnew₁ : ∀ e' ∈ es, e'.1 ∉ t₁.keys := by
        intro e' he'
        rw [hin.keys, Finset.mem_insert, not_or]
        exact ⟨fun heq => hnodup.1 (heq ▸ List.mem_map_of_mem he'),
          hnew e' (List.mem_cons_of_mem _ he')⟩
      obtain ⟨t', hfold, hsound', hsize', hmem⟩ :=
        ih t₁ hin.sound (hin.size.trans hsize) (by omega) hnodup.2 hnew₁
      refine ⟨t', fun fuel => ?_, hsound', hsize', fun e' => ?_⟩
      · rw [List.foldlM_cons, ← hsize, hset, hsize]
        exact hfold fuel
      · have hkept : e' ∈ t.entries → e'.1 ≠ e.1 := fun he' heq =>
          hnew e List.mem_cons_self (heq ▸ Table.mem_keys.mpr ⟨e'.2, he'⟩)
        rw [hmem, hin.mem, List.mem_cons]
        constructor
        · rintro ((rfl | ⟨he', -⟩) | he')
          · exact Or.inr (Or.inl rfl)
          · exact Or.inl he'
          · exact Or.inr (Or.inr he')
        · rintro (he' | rfl | he')
          · exact Or.inl (Or.inr ⟨he', hkept he'⟩)
          · exact Or.inl (Or.inl rfl)
          · exact Or.inr he'

/-- **The growth** keeps the entries, and makes none of the nested calls grow again. -/
theorem Assoc.Sound.grow (h : s.Sound char) (hsize : 20 ≤ s.size)
    (hload : 5 * s.fill ≤ 4 * s.size + 5) :
    (2 ^ 64 ≤ 8 * (s.size * 5 / 4) ∧ ∀ set, assocGrow set s = .error .memory) ∨
    ∃ t : Assoc ν, (∀ fuel, assocGrow (assocSet char (fuel + s.size * 5 / 4 + 1)) s = .ok t) ∧
    t.Sound char ∧
      t.size = s.size * 5 / 4 ∧ ∀ e, e ∈ t.entries ↔ e ∈ s.entries := by
  have hmemory := h.memory
  have hmod : s.size * 5 % 2 ^ 64 = s.size * 5 := Nat.mod_eq_of_lt (by omega)
  by_cases hlarge : 2 ^ 64 ≤ 8 * (s.size * 5 / 4)
  · refine Or.inl ⟨hlarge, fun set => ?_⟩
    rw [assocGrow, hmod, assocInit, if_neg (by omega), if_pos hlarge]
    rfl
  · have hlen : s.entries.length = s.fill := by rw [← h.ok.card_keys, h.fill]
    obtain ⟨t, hfold, hsound, hsize', hmem⟩ :=
      @set_entries ν char (s.size * 5 / 4) s.fill (by omega) (by omega) s.entries
      ⟨Table.empty (s.size * 5 / 4), 0⟩ (sound_empty (by omega)) rfl
        (show 0 + s.entries.length ≤ s.fill by omega)
      h.ok.nodup_keys (by simp [Table.keys])
    refine Or.inr ⟨t, fun fuel => ?_, hsound, hsize', fun e => ?_⟩
    · have hloop := hfold fuel
      rw [Table.entries, List.foldlM_filterMap] at hloop
      rw [assocGrow, hmod, assocInit, if_neg (by omega), if_neg hlarge, ← hloop]
      show List.foldlM _ _ _ = List.foldlM _ _ _
      congr 1
      funext t i
      cases s.slots i with
      | none => rfl
      | some e => rfl
    · rw [hmem]
      simp

end Tables

/-! ### Sequences of calls -/

section Runs

variable {ν : Type} {char : UInt8 → UInt64} {s : Assoc ν} {sets : List (List UInt8 × Option ν)}

/-- The table after some calls of `assoc_set`. -/
structure AssocInv (char : UInt8 → UInt64) (sets : List (List UInt8 × Option ν)) (s : Assoc ν) :
    Prop where
  sound : s.Sound char
  size : 20 ≤ s.size
  load : 5 * s.fill ≤ 4 * s.size + 5
  keys : s.keys = (sets.map Prod.fst).toFinset
  mem : ∀ key value, (key, value) ∈ s.entries ↔ lastSet sets key = some value

theorem AssocInv.room (h : AssocInv char sets s) : s.fill < s.size := by
  have hsize := h.size
  have hload := h.load
  omega

theorem lastSet_concat (sets : List (List UInt8 × Option ν)) (e : List UInt8 × Option ν) :
    lastSet (sets ++ [e]) = Function.update (lastSet sets) e.1 (some e.2) := by
  rw [lastSet, List.foldl_append]
  rfl

theorem AssocInv.of_setIn (h : AssocInv char sets s) {t s' : Assoc ν}
    (hmem : ∀ e, e ∈ t.entries ↔ e ∈ s.entries)
    (hsize : 20 ≤ t.size) (hload : 5 * s.fill ≤ 4 * t.size) {key : List UInt8} {value : Option ν}
    (hin : t.SetIn char key value s') : AssocInv char (sets ++ [(key, value)]) s' := by
  have hkeys : t.keys = s.keys := by
    ext k
    simp only [Table.mem_keys, hmem]
  have hfill : s'.fill ≤ s.fill + 1 := by
    rw [hin.sound.fill, hin.keys, hkeys, h.sound.fill]
    exact Finset.card_insert_le _ _
  refine ⟨hin.sound, hin.size ▸ hsize, by rw [hin.size]; omega, ?_, fun k v => ?_⟩
  · rw [hin.keys, hkeys, h.keys, List.map_append, List.toFinset_append]
    ext k
    simp
  · rw [hin.mem, hmem, lastSet_concat, Function.update_apply]
    by_cases hk : k = key
    · simp [hk, eq_comm]
    · simp [hk, h.mem]

/-- **One call of `assoc_set`.** -/
theorem AssocInv.set (h : AssocInv char sets s) (key : List UInt8) (value : Option ν) :
    2 ^ 60 < s.fill ∧ Yields (fun fuel => assocSet char fuel s key value) (.error .memory) ∨
    ∃ s', Yields (fun fuel => assocSet char fuel s key value) (.ok s') ∧
    AssocInv char (sets ++ [(key, value)]) s' := by
  have hsize := h.size
  have hload := h.load
  have hroom := h.room
  have hmemory := h.sound.memory
  by_cases hfull : 5 * s.fill ≤ 4 * s.size
  · obtain ⟨s', hset, hin⟩ := h.sound.set hroom hfull key value
    exact Or.inr ⟨s', Yields.of_le (s.size + 1) hset, h.of_setIn (fun _ => Iff.rfl) hsize hfull hin⟩
  have hgrows : 4 * s.size % 2 ^ 64 < 5 * s.fill % 2 ^ 64 := by
    rw [Nat.mod_eq_of_lt (by omega), Nat.mod_eq_of_lt (by omega)]
    omega
  rcases h.sound.grow hsize hload with ⟨hlarge, hfails⟩ | ⟨t, hgrow, hsound, hsize', hmem⟩
  · refine Or.inl ⟨by omega, Yields.of_le 1 fun fuel => ?_⟩
    rw [assocSet, if_pos hroom, if_pos hgrows, hfails]
    rfl
  · have hkeys : t.keys = s.keys := by
      ext k
      simp only [Table.mem_keys, hmem]
    have hfill : t.fill = s.fill := by rw [hsound.fill, hkeys, h.sound.fill]
    obtain ⟨s', hplace, hin⟩ := hsound.place (by omega) key value
    refine Or.inr ⟨s', Yields.of_le (s.size * 5 / 4 + 2) fun fuel => ?_,
      h.of_setIn hmem (by omega) (by omega) hin⟩
    have hfuel : fuel + (s.size * 5 / 4 + 2) = fuel + s.size * 5 / 4 + 1 + 1 := by omega
    have hrounds : fuel + s.size * 5 / 4 + 1 = fuel + 1 + t.size := by omega
    rw [hfuel, assocSet, if_pos hroom, if_pos hgrows, hgrow, ← hplace (fuel + 1), ← hrounds]
    rfl

theorem Yields.bind {ε α β : Type} {run : ℕ → Except ε α} {a : α} (h : Yields run (.ok a))
    {next : ℕ → α → Except ε β}
    {r : Except ε β} (hnext : Yields (fun fuel => next fuel a) r) :
    Yields (fun fuel => (run fuel).bind (next fuel)) r := by
  obtain ⟨n, hn⟩ := h
  obtain ⟨m, hm⟩ := hnext
  refine ⟨max n m, fun fuel hfuel => ?_⟩
  show (run fuel).bind (next fuel) = r
  rw [hn fuel (le_of_max_le_left hfuel)]
  exact hm fuel (le_of_max_le_right hfuel)

theorem Yields.bind_error {ε α β : Type} {run : ℕ → Except ε α} {e : ε} (h : Yields run (.error e))
    (next : ℕ → α → Except ε β) : Yields (fun fuel => (run fuel).bind (next fuel)) (.error e) := by
  obtain ⟨n, hn⟩ := h
  refine ⟨n, fun fuel hfuel => ?_⟩
  show (run fuel).bind (next fuel) = _
  rw [hn fuel hfuel]
  rfl

theorem assocSets_concat (fuel : ℕ) (sets : List (List UInt8 × Option ν))
    (e : List UInt8 × Option ν) :
    assocSets char fuel (sets ++ [e]) = (assocSets char fuel sets).bind fun s =>
    assocSet char fuel s e.1 e.2 := by
  rw [assocSets, assocSets]
  cases (assocInit 20 : Except AssocError (Assoc ν)) with
  | error e => rfl
  | ok s =>
      show List.foldlM (fun s e => assocSet char fuel s e.1 e.2) s (sets ++ [e]) = _
      rw [List.foldlM_append]
      simp only [List.foldlM_cons, List.foldlM_nil, bind_pure]
      rfl

theorem assocInv_of_sets (char : UInt8 → UInt64) (sets : List (List UInt8 × Option ν)) :
    2 ^ 60 < (sets.map Prod.fst).toFinset.card ∧
    Yields (fun fuel => assocSets char fuel sets) (.error .memory) ∨
    ∃ s, Yields (fun fuel => assocSets char fuel sets) (.ok s) ∧ AssocInv char sets s := by
  induction sets using List.reverseRecOn with
  | nil =>
      refine Or.inr ⟨⟨Table.empty 20, 0⟩, Yields.of_le 0 fun _ => rfl, sound_empty (by decide),
        le_rfl, by simp, ?_, ?_⟩
      · simp [Table.keys]
      · simp [lastSet]
  | append_singleton sets e ih =>
      have hgrows : (sets.map Prod.fst).toFinset.card ≤
          ((sets ++ [e]).map Prod.fst).toFinset.card := by
        rw [List.map_append, List.toFinset_append]
        exact Finset.card_le_card Finset.subset_union_left
      simp only [assocSets_concat]
      rcases ih with ⟨hlarge, hfails⟩ | ⟨s, hrun, hinv⟩
      · exact Or.inl ⟨hlarge.trans_le hgrows, hfails.bind_error _⟩
      · rcases hinv.set e.1 e.2 with ⟨hlarge, hfails⟩ | ⟨s', hset, hinv'⟩
        · rw [hinv.sound.fill, hinv.keys] at hlarge
          exact Or.inl ⟨hlarge.trans_le hgrows, hrun.bind hfails⟩
        · exact Or.inr ⟨s', hrun.bind hset, hinv'⟩

/-! ### Reading the table -/

theorem AssocInv.get (h : AssocInv char sets s) (key : List UInt8) :
    Yields (fun fuel => assocGet char fuel s key) (.ok (lastSet sets key).join) := by
  obtain ⟨j, -, hprobe, -, hstop, hfound⟩ := h.sound.probe h.room key
  refine Yields.of_le s.size fun rounds => ?_
  rw [assocGet, hprobe]
  show Except.ok ((s.slots j).bind Prod.snd) = _
  rcases hstop with hnone | ⟨v, hv⟩
  · have habsent : lastSet sets key = none := by
      rw [Option.eq_none_iff_forall_ne_some]
      intro v hv
      rw [← h.mem, hfound, hnone] at hv
      cases hv
    rw [hnone, habsent]
    rfl
  · rw [hv, (h.mem key v).mp ((hfound v).mpr hv)]
    rfl

theorem assocNext_of_empty {iter : ℕ} (hiter : iter < s.size) (hnone : s.slots iter = none) :
    assocNext s iter = assocNext s (iter + 1) := by
  have hrounds : s.size - iter = s.size - (iter + 1) + 1 := by omega
  have hskip : skipEmpty s (s.size - iter) iter = skipEmpty s (s.size - (iter + 1)) (iter + 1) := by
    rw [hrounds, skipEmpty, if_pos ⟨hiter, by rw [hnone]; rfl⟩]
  rw [assocNext, assocNext, hskip]

theorem assocNext_of_entry {iter : ℕ} (hiter : iter < s.size) {e : List UInt8 × Option ν}
    (he : s.slots iter = some e) :
    assocNext s iter = some (e, iter + 1) := by
  have hrounds : s.size - iter = s.size - (iter + 1) + 1 := by omega
  have hskip : skipEmpty s (s.size - iter) iter = iter := by
    rw [hrounds, skipEmpty, if_neg]
    rintro ⟨-, hnone⟩
    rw [he] at hnone
    cases hnone
  rw [assocNext, hskip, if_pos hiter, he]
  rfl

/-- `assoc_foreach` comes to the entries behind `iter`. -/
theorem foreachFrom_eq (s : Assoc ν) (n : ℕ) : ∀ iter fuel, iter + n = s.size →
    foreachFrom s (fuel + n + 1) iter = some ((List.range' iter n).filterMap s.slots) := by
  induction n with
  | zero =>
      intro iter fuel hiter
      have hend : assocNext s iter = none := by
        rw [assocNext, ← hiter, Nat.add_zero, Nat.sub_self, skipEmpty, if_neg (lt_irrefl _)]
      rw [foreachFrom, hend]
      rfl
  | succ n ih =>
      intro iter fuel hiter
      rw [List.range'_succ]
      cases hslot : s.slots iter with
      | none =>
          have hrest := ih (iter + 1) (fuel + 1) (by omega)
          have hfuel : fuel + 1 + n + 1 = fuel + (n + 1) + 1 := by omega
          rw [hfuel, foreachFrom, ← assocNext_of_empty (by omega) hslot] at hrest
          rw [foreachFrom, hrest, List.filterMap_cons_none hslot]
      | some e =>
          rw [foreachFrom, assocNext_of_entry (by omega) hslot, List.filterMap_cons_some hslot]
          show (foreachFrom s (fuel + n + 1) (iter + 1)).map _ = _
          rw [ih (iter + 1) fuel (by omega)]
          rfl

theorem AssocInv.foreach (h : AssocInv char sets s) :
    ∃ es, Yields (fun fuel => assocForeach fuel s) (some es) ∧
    (es.map Prod.fst).Nodup ∧ ∀ key, key ∈ es.map Prod.fst ↔ key ∈ sets.map Prod.fst := by
  refine ⟨s.entries, Yields.of_le (s.size + 1) fun fuel => ?_, h.sound.ok.nodup_keys, fun key => ?_⟩
  · rw [assocForeach, Table.entries, List.range_eq_range']
    exact foreachFrom_eq s s.size 0 fuel (Nat.zero_add _)
  · rw [← List.mem_toFinset, ← List.mem_toFinset, ← h.keys]
    rfl

/-- **The string set**: unless an allocation fails, which takes more than `2 ^ 60` keys, a sequence
of calls of `assoc_set` comes back without a failed assertion, and leaves a table of the values last
set. -/
theorem isMap_of_sets (char : UInt8 → UInt64) (sets : List (List UInt8 × Option ν)) :
    2 ^ 60 < (sets.map Prod.fst).toFinset.card ∧
    Yields (fun fuel => assocSets char fuel sets) (.error .memory) ∨
    ∃ s, Yields (fun fuel => assocSets char fuel sets) (.ok s) ∧ IsMap char sets s := by
  rcases assocInv_of_sets char sets with hfails | ⟨s, hrun, hinv⟩
  · exact Or.inl hfails
  · refine Or.inr ⟨s, hrun, hinv.room, ?_, hinv.get, hinv.foreach⟩
    rw [hinv.sound.fill, hinv.keys]

end Runs

end Imola.PdMapper
