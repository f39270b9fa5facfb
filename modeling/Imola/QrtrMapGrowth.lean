import Imola.CInts
import Imola.QrtrMapRefines

/-! # Growth of the hash map of `qrtr`

`map_reput` calls `map_rehash` when the table is full, `map_rehash` puts the items into a larger
table with `map_put`, and `map_put` is `map_reput` again.  Here the three functions call each other
as in `map.c`, with a number of steps that bounds the nesting, and with a log of the calls of
`map_rehash`.  Slots are `int`s and sizes `unsigned int`s: a slot number above `INT_MAX` is
negative, and the access with it lies outside of the table.

As long as the table stays below `2 ^ 31` slots, the counter is the number of items, `map_hash`
refuses a key only when the table is full, and a call of `map_reput` comes back after at most one
`map_rehash` (`accounts_of_reaches`); it does then what `mapReput` does (`returns_mapReput`).  With
more slots the behaviour is undefined (`not_accounts_many`). -/

namespace Imola.Qrtr

open Imola.CInts Imola.Probing

/-- Why a call has no result: it has not come back yet, or its behaviour is undefined. -/
inductive Stuck where
  | running
  | undefined
deriving DecidableEq, Repr

/-- A call of `map_rehash`: the number of calls of `map_rehash` around it, and the tables before and
after it. -/
structure Rehash (ι : Type) where
  depth : ℕ
  before : Map ι
  after : Map ι

section Functions

variable {ι : Type}

/-- The loop of `map_hash`, with `rounds` slots left; `none` is undefined behaviour. -/
def hashLoop (key : ι → UInt32) (m : Map ι) (k : UInt32) : (rounds idx : ℕ) → Option (ℤ × Map ι)
  | 0, _ => some (-2, m)
  | rounds + 1, idx =>
      -- `idx` would be negative
      if intMax < idx then none
      else
        match m.data idx with
        | .item v =>
            if key v = k then some (idx, m)
            -- `idx + 1` would overflow; `i` cannot overflow earlier
            else if idx = intMax then none
            else hashLoop key m k rounds ((idx + 1) % m.size)
        | _ => some (idx, { m with count := (m.count + 1) % 2 ^ 32 })

/-- `map_hash`. -/
def mapHashInt (key : ι → UInt32) (m : Map ι) (k : UInt32) : Option (ℤ × Map ι) :=
  if m.count = m.size then some (-1, m)
  else hashLoop key m k m.size (k.toNat % m.size)

/-- The loop of `map_find`: the slot of the item, if there is one. -/
def findLoop (key : ι → UInt32) (m : Map ι) (k : UInt32) : (rounds idx : ℕ) → Option (Option ℕ)
  | 0, _ => some none
  | rounds + 1, idx =>
      -- here `idx + 1` is computed first
      if intMax ≤ idx then none
      else
        match m.data idx with
        | .free => some none
        | .deleted => findLoop key m k rounds ((idx + 1) % m.size)
        | .item v =>
            if key v = k then some (some idx) else findLoop key m k rounds ((idx + 1) % m.size)

/-- `map_find`. -/
def mapFindInt (key : ι → UInt32) (m : Map ι) (k : UInt32) : Option (Option ℕ) :=
  if m.size = 0 then some none
  else findLoop key m k m.size (k.toNat % m.size)

/-- `map_remove`: whether there was no such item, and the map after it. -/
def mapRemoveInt (key : ι → UInt32) (m : Map ι) (k : UInt32) : Option (Bool × Map ι) :=
  (mapFindInt key m k).map fun e => match e with
    | none => (true, m)
    | some j =>
        (false, { m with
          count := (m.count + 2 ^ 32 - 1) % 2 ^ 32
          data := Function.update m.data j .deleted })

/-- The loop of `map_rehash` over the slots of the old table. -/
def rehashLoop (put : Store ι → UInt32 → ι → Except Stuck (Store ι × List (Rehash ι)))
    (old : ℕ → Entry ι)
    (js : List ℕ) (r : Store ι × List (Rehash ι)) : Except Stuck (Store ι × List (Rehash ι)) :=
  js.foldlM (fun r j => match old j with
    | .item v => (put r.1 (r.1.key v) v).map fun r' => (r'.1, r.2 ++ r'.2)
    | _ => .ok r) r

/-- `map_rehash`, when `calloc` succeeds, with the calls of `map_put` it makes. -/
def mapRehashInt (put : Store ι → UInt32 → ι → Except Stuck (Store ι × List (Rehash ι))) (depth : ℕ)
    (s : Store ι) :
    Except Stuck (Store ι × List (Rehash ι)) :=
  (rehashLoop put s.map.data (List.range (toInt s.map.size).toNat)
    (⟨s.key, ⟨(s.map.size + 256) % 2 ^ 32, 0, fun _ => .free⟩⟩, [])).map fun r =>
      (r.1, r.2 ++ [⟨depth, s.map, r.1.map⟩])

variable [DecidableEq ι]

/-- `map_reput` with at most `fuel` rounds of its loop and calls around each other: the item it
displaced, the store after it, and the calls of `map_rehash`.  `map_put` is this call without the
item it displaced. -/
def mapReputInt : (fuel depth : ℕ) → Store ι → UInt32 → ι → Except Stuck
    (Option ι × Store ι × List (Rehash ι))
  | 0, _, _, _, _ => .error .running
  | fuel + 1, depth, s, k, v =>
      match mapHashInt s.key s.map k with
      | none => .error .undefined
      | some (rc, m) =>
          if rc < 0 then do
            let r ← mapRehashInt (fun t k' v' =>
              (mapReputInt fuel (depth + 1) t k' v').map Prod.snd) depth ⟨s.key, m⟩
            let t ← mapReputInt fuel depth r.1 k v
            .ok (t.1, t.2.1, r.2 ++ t.2.2)
          else
            .ok ((m.data rc.toNat).item?,
              ⟨Function.update s.key v k,
                { m with data := Function.update m.data rc.toNat (.item v) }⟩, [])

/-- A call of `map_reput` comes back with a result. -/
def Returns (s : Store ι) (k : UInt32) (v : ι) (r : Option ι × Store ι × List (Rehash ι)) : Prop :=
  ∃ fuel, ∀ fuel' ≥ fuel, mapReputInt fuel' 0 s k v = .ok r

/-- The stores that operations lead to from `map_create`, all of them called in stores with `P`. -/
inductive Reaches (P : Store ι → Prop) : Store ι → Prop
  | create (key : ι → UInt32) : Reaches P ⟨key, mapCreate⟩
  | reput {s : Store ι} {k : UInt32} {v : ι} {r : Option ι × Store ι × List (Rehash ι)} :
      Reaches P s → P s → Returns s k v r → Reaches P r.2.1
  | remove {s : Store ι} {k : UInt32} {absent : Bool} {m : Map ι} :
      Reaches P s → P s → mapRemoveInt s.key s.map k = some (absent, m) → Reaches P ⟨s.key, m⟩

/-- The accounting of a table: the counter counts the items, `map_hash` refuses a key exactly when
the table is full, and a call of `map_reput` comes back after at most one `map_rehash`, which is not
made inside of another one and leaves a larger table without markers. -/
structure Accounts (s : Store ι) : Prop where
  count : s.map.count = s.map.live.card
  hashes : ∀ k, ∃ rc m, mapHashInt s.key s.map k = some (rc, m) ∧
    (rc = -1 ↔ s.map.count = s.map.size) ∧ rc ≠ -2
  returns : ∀ k v, ∃ old t log, Returns s k v (old, t, log) ∧ log.length ≤ 1 ∧
    ∀ r ∈ log, r.depth = 0 ∧ r.before = s.map ∧ r.after.Clean ∧ r.after.size = r.before.size + 256

end Functions

/-! ### Tables below `2 ^ 31` slots -/

section Bounded

variable {ι : Type} {key : ι → UInt32} {m : Map ι} {k : UInt32}

theorem hashLoop_eq (hsize : m.size ≤ intMax) (k : UInt32) (rounds : ℕ) : ∀ idx < m.size,
    hashLoop key m k rounds idx =
      match searchFrom (fun j => (m.data j).item?.isNone || (m.data j).hasKey key k) m.size
        rounds idx with
      | none => some (-2, m)
      | some j =>
          some (j, if (m.data j).item?.isNone then { m with count := (m.count + 1) % 2 ^ 32 }
            else m) := by
  induction rounds with
  | zero => exact fun _ _ => rfl
  | succ rounds ih =>
      intro idx hidx
      rw [hashLoop, if_neg (by omega), searchFrom]
      cases hdata : m.data idx with
      | item v =>
          by_cases hkey : key v = k
          · simp [Entry.item?, Entry.hasKey, hdata, hkey]
          · simp only [if_neg (show idx ≠ intMax by omega), ih _ (Nat.mod_lt _ (by omega)),
              Entry.item?,
              Entry.hasKey, hkey, decide_false, Option.isNone_some, Bool.or_false,
              Bool.false_eq_true, if_false]
      | _ => simp [Entry.item?, hdata]

theorem findLoop_eq (hsize : m.size ≤ intMax) (k : UInt32) (rounds : ℕ) : ∀ idx < m.size,
    findLoop key m k rounds idx = some
      (match searchFrom (fun j => m.data j matches .free || (m.data j).hasKey key k) m.size
        rounds idx with
      | none => none
      | some j => if m.data j matches .free then none else some j) := by
  induction rounds with
  | zero => exact fun _ _ => rfl
  | succ rounds ih =>
      intro idx hidx
      rw [findLoop, if_neg (by omega), searchFrom]
      cases hdata : m.data idx with
      | free => simp [hdata]
      | deleted =>
          simp only [ih _ (Nat.mod_lt _ (by omega)), Entry.hasKey, Bool.or_false,
            Bool.false_eq_true, if_false]
      | item v =>
          by_cases hkey : key v = k
          · simp [Entry.hasKey, hdata, hkey]
          · simp only [ih _ (Nat.mod_lt _ (by omega)), Entry.hasKey, hkey, decide_false,
              Bool.or_false,
              Bool.false_eq_true, if_false]

/-- A slot that `mapHash` finds is the one that `map_hash` returns. -/
theorem mapHashInt_of_mapHash (hsize : m.size ≤ intMax) (hcount : m.count ≤ m.size) {r : ℕ × Map ι}
    (h : mapHash key m k = some r) : mapHashInt key m k = some ((r.1 : ℤ), r.2) := by
  unfold mapHash at h
  split_ifs at h with hfull
  have hpos : 0 < m.size := by omega
  have hwrap : (m.count + 1) % 2 ^ 32 = m.count + 1 :=
    Nat.mod_eq_of_lt (by unfold intMax at hsize; omega)
  cases hsearch : search (fun j => (m.data j).item?.isNone || (m.data j).hasKey key k) m.size
    k.toNat with
  | none =>
      rw [hsearch] at h
      cases h
  | some j =>
      rw [hsearch] at h
      obtain rfl := Option.some.inj h
      rw [mapHashInt, if_neg hfull, hashLoop_eq hsize k _ _ (Nat.mod_lt _ hpos), ← search, hsearch]
      simp only [hwrap]

theorem mapFindInt_eq (hsize : m.size ≤ intMax) (k : UInt32) :
    mapFindInt key m k = some (mapFind key m k) := by
  unfold mapFindInt mapFind
  by_cases hzero : m.size = 0
  · rw [if_pos hzero, if_pos hzero]
  · have hloop := @findLoop_eq ι key m hsize k m.size (k.toNat % m.size) (Nat.mod_lt _ (by omega))
    rw [← search] at hloop
    rw [if_neg hzero, if_neg hzero]
    exact hloop

theorem mem_live_of_mapFind {j : ℕ} (h : mapFind key m k = some j) : j ∈ m.live := by
  unfold mapFind at h
  split_ifs at h with hsize
  split at h
  · cases h
  · rename_i j' hsearch
    split_ifs at h with hfree
    obtain rfl := Option.some.inj h
    obtain ⟨hj, hstop, -⟩ := search_eq_some_iff.mp hsearch
    rw [Bool.or_eq_true] at hstop
    obtain ⟨v, hv, -⟩ := hasKey_iff.mp (hstop.resolve_left hfree)
    exact mem_live.mpr ⟨hj, v, hv⟩

theorem mapRemoveInt_eq (hsize : m.size ≤ intMax) (hcount : m.count = m.live.card) (k : UInt32) :
    mapRemoveInt key m k = some (mapRemove key m k) := by
  rw [mapRemoveInt, mapFindInt_eq hsize, Option.map_some, mapRemove]
  cases hfind : mapFind key m k with
  | none => rfl
  | some j =>
      have hpos : 0 < m.live.card := Finset.card_pos.mpr ⟨j, mem_live_of_mapFind hfind⟩
      have hle := card_live_le m
      have hwrap : (m.count + 2 ^ 32 - 1) % 2 ^ 32 = m.count - 1 := by
        unfold intMax at hsize
        omega
      simp only [hwrap]

theorem count_mapRemove (hcount : m.count = m.live.card) (k : UInt32) :
    (mapRemove key m k).2.count = (mapRemove key m k).2.live.card := by
  rw [mapRemove]
  cases hfind : mapFind key m k with
  | none => exact hcount
  | some j => exact count_erase hcount (mem_live_of_mapFind hfind)

theorem mapRehash_clean (m : Map ι) :
    ∃ n, mapRehash key m = some n ∧ n.count = n.live.card ∧ n.count < n.size ∧
    n.Clean ∧ n.size = m.size + 256 := by
  obtain ⟨n, hrehash, hwf, hclean, hroom, hsize⟩ :=
    @mapRehash_rec ι key m (fun _ n => n.size = m.size + 256) rfl
    fun _ _ _ _ _ _ _ h => h
  exact ⟨n, hrehash, hwf.count_eq, hroom, hclean, hsize⟩

end Bounded

/-! ### Calls of `map_reput` -/

section Calls

variable {ι : Type} [DecidableEq ι] {key : ι → UInt32} {s : Store ι} {k : UInt32}

theorem mapReputInt_of_slot {j : ℕ} {m : Map ι} (h : mapHashInt s.key s.map k = some ((j : ℤ), m))
    (fuel depth : ℕ) (v : ι) :
    mapReputInt (fuel + 1) depth s k v =
      .ok ((mapStore v (j, m)).1, ⟨Function.update s.key v k, (mapStore v (j, m)).2⟩, []) := by
  have hslot : ¬ (j : ℤ) < 0 := by omega
  rw [mapReputInt, h]
  simp only [if_neg hslot, Int.toNat_natCast]
  rfl

/-- The table is full: the loop goes round again, with the table that `map_rehash` leaves. -/
theorem mapReputInt_of_full (hfull : s.map.count = s.map.size) {fuel depth : ℕ}
    {r : Store ι × List (Rehash ι)}
    (h : mapRehashInt (fun t k v => (mapReputInt fuel (depth + 1) t k v).map Prod.snd) depth s =
      .ok r) (v : ι) :
    mapReputInt (fuel + 1) depth s k v =
      (mapReputInt fuel depth r.1 k v).map fun t => (t.1, t.2.1, r.2 ++ t.2.2) := by
  rw [mapReputInt, mapHashInt, if_pos hfull]
  simp only [show ((-1 : ℤ) < 0) by decide, if_true, h]
  show (mapReputInt fuel depth r.1 k v >>= fun t => Except.ok (t.1, t.2.1, r.2 ++ t.2.2)) = _
  cases mapReputInt fuel depth r.1 k v with
  | error e => rfl
  | ok t => rfl

theorem mapReputInt_of_mapHash (hsize : s.map.size ≤ intMax) (hcount : s.map.count ≤ s.map.size)
    {r : ℕ × Map ι}
    (h : mapHash s.key s.map k = some r) (fuel depth : ℕ) (v : ι) :
    mapReputInt (fuel + 1) depth s k v =
      .ok ((mapStore v r).1, ⟨Function.update s.key v k, (mapStore v r).2⟩, []) :=
  mapReputInt_of_slot (mapHashInt_of_mapHash hsize hcount h) fuel depth v

/-- The loop of `map_rehash` has a slot for every item, so none of its calls of `map_put` makes the
table grow. -/
theorem rehashLoop_eq (old : ℕ → Entry ι) (fuel depth : ℕ) (js : List ℕ) :
    ∀ n : Map ι, n.count = n.live.card →
    n.size ≤ intMax → n.count + js.length ≤ n.size →
    ∃ n', js.foldlM (fun n j => match old j with
        | .item v => (mapHash key n (key v)).map fun r => (mapStore v r).2
        | _ => some n) n = some n' ∧
      rehashLoop (fun t k v => (mapReputInt (fuel + 1) depth t k v).map Prod.snd) old js
        (⟨key, n⟩, []) =
        .ok (⟨key, n'⟩, []) := by
  induction js with
  | nil => exact fun n _ _ _ => ⟨n, rfl, rfl⟩
  | cons j js ih =>
      intro n hcount hsize hroom
      rw [List.length_cons] at hroom
      cases hdata : old j with
      | item v =>
          obtain ⟨r, i, hhash, hp, hstore⟩ := @mapHash_spec ι key n hcount (by omega) (key v)
          have hle : (n.store i v).count ≤ n.count + 1 := by
            simp only [Map.store]
            split_ifs
            · exact le_rfl
            · exact Nat.le_succ _
          obtain ⟨n', hfold, hloop⟩ := ih (n.store i v) (count_store hcount hp.lt) hsize
            (show (n.store i v).count + js.length ≤ n.size by omega)
          have hput := @mapReputInt_of_mapHash ι _ ⟨key, n⟩ (key v) hsize
            (show n.count ≤ n.size by omega) r hhash fuel depth v
          rw [hstore, Function.update_eq_self] at hput
          refine ⟨n', ?_, ?_⟩
          · simp only [List.foldlM_cons, hdata, hhash, Option.map_some, hstore]
            exact hfold
          · rw [rehashLoop, List.foldlM_cons]
            simp only [hdata, hput]
            exact hloop
      | _ =>
          obtain ⟨n', hfold, hloop⟩ := ih n hcount hsize (by omega)
          refine ⟨n', ?_, ?_⟩
          · simp only [List.foldlM_cons, hdata]
            exact hfold
          · rw [rehashLoop, List.foldlM_cons]
            simp only [hdata]
            exact hloop

/-- **A call of `map_rehash`** makes no further one. -/
theorem mapRehashInt_eq (hsmall : Small s) (fuel depth : ℕ) : ∃ n, mapRehash s.key s.map = some n ∧
    mapRehashInt (fun t k v => (mapReputInt (fuel + 1) (depth + 1) t k v).map Prod.snd) depth s =
      .ok (⟨s.key, n⟩, [⟨depth, s.map, n⟩]) := by
  unfold Small intMax at hsmall
  have hsize : toInt s.map.size = s.map.size := toInt_of_lt (by omega)
  have hwrap : (s.map.size + 256) % 2 ^ 32 = s.map.size + 256 := Nat.mod_eq_of_lt (by omega)
  obtain ⟨n, hfold, hloop⟩ :=
    @rehashLoop_eq ι _ s.key s.map.data fuel (depth + 1) (List.range s.map.size)
    ⟨s.map.size + 256, 0, fun _ => .free⟩ (by simp [Map.live, Entry.item?])
      (by unfold intMax; exact hsmall)
    (by simp)
  refine ⟨n, hfold, ?_⟩
  rw [mapRehashInt, hsize, Int.toNat_natCast, hwrap, hloop]
  rfl

/-- **A call of `map_reput`** stores the item in the table or, when it is full, in the one that
`map_rehash` leaves. -/
theorem mapReputInt_spec (hcount : s.map.count = s.map.live.card) (hsmall : Small s)
    (k : UInt32) (v : ι) :
    ∃ n j log, (n = s.map ∧ log = [] ∨ s.map.count = s.map.size ∧
      mapRehash s.key s.map = some n ∧ n.Clean ∧
        n.size = s.map.size + 256 ∧ log = [⟨0, s.map, n⟩]) ∧
      n.count = n.live.card ∧ j < n.size ∧ mapReput s.key true s.map k v =
        some ((n.data j).item?, n.store j v) ∧
      Returns s k v ((n.data j).item?, ⟨Function.update s.key v k, n.store j v⟩, log) := by
  have hsize : s.map.size ≤ intMax := by
    unfold Small at hsmall
    omega
  have hle : s.map.count ≤ s.map.size := hcount ▸ card_live_le s.map
  rcases Nat.lt_or_eq_of_le hle with hroom | hfull
  · obtain ⟨r, j, hhash, hp, hstore⟩ := @mapHash_spec ι s.key s.map hcount hroom k
    refine ⟨s.map, j, [], Or.inl ⟨rfl, rfl⟩, hcount, hp.lt, ?_, 1, fun fuel hfuel => ?_⟩
    · rw [mapReput, hhash]
      exact congrArg some (hstore v)
    · obtain ⟨fuel, rfl⟩ := Nat.exists_eq_add_of_le' hfuel
      rw [mapReputInt_of_mapHash hsize hle hhash, hstore]
  · obtain ⟨n, hrehash, hcount', hroom, hclean, hgrown⟩ := @mapRehash_clean ι s.key s.map
    obtain ⟨r, j, hhash, hp, hstore⟩ := @mapHash_spec ι s.key n hcount' hroom k
    have hnone : mapHash s.key s.map k = none := by rw [mapHash, if_pos hfull]
    refine ⟨n, j, _, Or.inr ⟨hfull, hrehash, hclean, hgrown, rfl⟩, hcount', hp.lt, ?_, 2,
      fun fuel hfuel => ?_⟩
    · rw [mapReput, hnone]
      simp only [if_true, hrehash, hhash, hstore, Option.bind_eq_bind, Option.bind_some]
    · obtain ⟨fuel, rfl⟩ := Nat.exists_eq_add_of_le' hfuel
      obtain ⟨n', hrehash', hcall⟩ := mapRehashInt_eq hsmall fuel 0
      obtain rfl := Option.some.inj (hrehash.symm.trans hrehash')
      have hagain := @mapReputInt_of_mapHash ι _ ⟨s.key, n⟩ k (hgrown.trans_le hsmall) hroom.le r
        hhash fuel 0 v
      rw [mapReputInt_of_full hfull hcall, hagain, hstore]
      rfl

omit [DecidableEq ι] in
theorem mapHashInt_spec (hcount : s.map.count = s.map.live.card) (hsmall : Small s) (k : UInt32) :
    ∃ rc m, mapHashInt s.key s.map k = some (rc, m) ∧ (rc = -1 ↔ s.map.count = s.map.size) ∧
    rc ≠ -2 := by
  have hsize : s.map.size ≤ intMax := by
    unfold Small at hsmall
    omega
  have hle : s.map.count ≤ s.map.size := hcount ▸ card_live_le s.map
  rcases Nat.lt_or_eq_of_le hle with hroom | hfull
  · obtain ⟨r, j, hhash, -, -⟩ := @mapHash_spec ι s.key s.map hcount hroom k
    exact ⟨_, _, mapHashInt_of_mapHash hsize hle hhash, by omega, by omega⟩
  · exact ⟨-1, s.map, by rw [mapHashInt, if_pos hfull], by omega, by omega⟩

end Calls

/-! ### Tables without gaps -/

section Filled

/-- Items that are their own keys, in the first `n` slots. -/
def filled (size n : ℕ) : Store UInt32 :=
  ⟨id, size, n, fun j => if j < n then .item (UInt32.ofNat j) else .free⟩

variable {size n : ℕ}

theorem filled_zero : filled size 0 = ⟨id, size, 0, fun _ => .free⟩ := by
  simp [filled]

theorem mapHashInt_filled (hn : n < size) (hint : n ≤ intMax) :
    mapHashInt (filled size n).key (filled size n).map (UInt32.ofNat n) =
      some ((n : ℤ), { (filled size n).map with count := n + 1 }) := by
  have hbound : n + 1 < 2 ^ 32 := by
    unfold intMax at hint
    omega
  have hkey : (UInt32.ofNat n).toNat = n := UInt32.toNat_ofNat_of_lt' (show n < 2 ^ 32 by omega)
  obtain ⟨rounds, rfl⟩ : ∃ rounds, size = rounds + 1 := ⟨size - 1, by omega⟩
  have hfree : (filled (rounds + 1) n).map.data n = .free := if_neg (lt_irrefl n)
  have hcount : ¬ (filled (rounds + 1) n).map.count = (filled (rounds + 1) n).map.size := by
    show ¬ n = rounds + 1
    omega
  have hcounter : ((filled (rounds + 1) n).map.count + 1) % 2 ^ 32 = n + 1 :=
    Nat.mod_eq_of_lt hbound
  rw [mapHashInt, if_neg hcount, hkey]
  show hashLoop _ _ _ (rounds + 1) (n % (rounds + 1)) = _
  rw [Nat.mod_eq_of_lt hn, hashLoop, if_neg (by omega), hfree, hcounter]

theorem mapReputInt_filled (hn : n < size) (hint : n ≤ intMax) (fuel depth : ℕ) :
    mapReputInt (fuel + 1) depth (filled size n) (UInt32.ofNat n) (UInt32.ofNat n) =
      .ok (none, filled size (n + 1), []) := by
  have hold : ((filled size n).map.data n).item? = none := by
    simp [filled, Entry.item?]
  have hkey : Function.update (filled size n).key (UInt32.ofNat n) (UInt32.ofNat n) = id :=
    Function.update_eq_self _ _
  have hdata : Function.update (filled size n).map.data n (.item (UInt32.ofNat n)) =
      fun j => if j < n + 1 then .item (UInt32.ofNat j) else .free := by
    funext j
    rw [Function.update_apply]
    by_cases hj : j = n
    · rw [if_pos hj, hj, if_pos (Nat.lt_succ_self n)]
    · rw [if_neg hj]
      exact if_congr (by omega) rfl rfl
  rw [mapReputInt_of_slot (mapHashInt_filled hn hint), hkey]
  simp only [mapStore, hold, hdata]
  rfl

theorem rehashLoop_filled {size' : ℕ} (hsize : n ≤ size') (hint : n ≤ intMax) (fuel depth : ℕ) :
    ∀ i ≤ n,
    rehashLoop (fun t k v => (mapReputInt (fuel + 1) depth t k v).map Prod.snd)
      (filled size n).map.data (List.range i)
      (filled size' 0, []) = .ok (filled size' i, []) := by
  intro i
  induction i with
  | zero => exact fun _ => rfl
  | succ i ih =>
      intro hi
      have hdata : (filled size n).map.data i = .item (UInt32.ofNat i) := if_pos (by omega)
      have hkey : (filled size' i).key (UInt32.ofNat i) = UInt32.ofNat i := rfl
      have hloop := ih (by omega)
      have hput := @mapReputInt_filled size' i (by omega) (by omega) fuel depth
      unfold rehashLoop at hloop ⊢
      rw [List.range_succ, List.foldlM_append, hloop]
      simp only [List.foldlM_cons, List.foldlM_nil, bind, Except.bind, hdata, hkey, hput]
      rfl

/-- A full table grows by 256 slots. -/
theorem returns_filled (hint : n ≤ intMax) : Returns (filled n n) (UInt32.ofNat n) (UInt32.ofNat n)
    (none, filled (n + 256) (n + 1), [⟨0, (filled n n).map, (filled (n + 256) n).map⟩]) := by
  have hwrap : ((filled n n).map.size + 256) % 2 ^ 32 = n + 256 := by
    show (n + 256) % 2 ^ 32 = n + 256
    unfold intMax at hint
    omega
  have hsize : (toInt (filled n n).map.size).toNat = n := by
    show (toInt n).toNat = n
    rw [toInt_of_lt (by unfold intMax at hint; omega), Int.toNat_natCast]
  refine ⟨2, fun fuel hfuel => ?_⟩
  obtain ⟨fuel, rfl⟩ := Nat.exists_eq_add_of_le' hfuel
  have hcall : mapRehashInt (fun t k v => (mapReputInt (fuel + 1) (0 + 1) t k v).map Prod.snd) 0
      (filled n n) =
      .ok (filled (n + 256) n, [⟨0, (filled n n).map, (filled (n + 256) n).map⟩]) := by
    have hloop := @rehashLoop_filled n n (n + 256) (by omega) hint fuel (0 + 1) n le_rfl
    rw [filled_zero] at hloop
    rw [mapRehashInt, hsize, hwrap]
    exact congrArg (Except.map _) hloop
  rw [mapReputInt_of_full rfl hcall, mapReputInt_filled (by omega) hint]
  rfl

theorem reaches_filled {P : Store UInt32 → Prop} : ∀ n ≤ 2 ^ 31,
    (∀ k < n, P (filled (256 * ((k + 255) / 256)) k)) →
    Reaches P (filled (256 * ((n + 255) / 256)) n) := by
  intro n
  induction n with
  | zero =>
      intro _ _
      rw [filled_zero]
      exact Reaches.create id
  | succ n ih =>
      intro hn hP
      have hreaches := ih (by omega) fun k hk => hP k (by omega)
      have hhere := hP n (Nat.lt_succ_self n)
      have hint : n ≤ intMax := by
        unfold intMax
        omega
      by_cases hroom : n < 256 * ((n + 255) / 256)
      · have hput : Returns (filled (256 * ((n + 255) / 256)) n) (UInt32.ofNat n) (UInt32.ofNat n)
            (none, filled (256 * ((n + 255) / 256)) (n + 1), []) := ⟨1, fun fuel hfuel => by
          obtain ⟨fuel, rfl⟩ := Nat.exists_eq_add_of_le' hfuel
          exact mapReputInt_filled hroom hint fuel 0⟩
        have hsize : (n + 1 + 255) / 256 = (n + 255) / 256 := by omega
        rw [hsize]
        exact hreaches.reput hhere hput
      · have hfull : 256 * ((n + 255) / 256) = n := by omega
        have hsize : 256 * ((n + 1 + 255) / 256) = n + 256 := by omega
        rw [hfull] at hreaches hhere
        rw [hsize]
        exact hreaches.reput hhere (returns_filled hint)

end Filled

/-! ### Runs -/

section Runs

variable {ι : Type} [DecidableEq ι] {s : Store ι}

theorem Returns.unique {k : UInt32} {v : ι} {r r' : Option ι × Store ι × List (Rehash ι)}
    (h : Returns s k v r)
    (h' : Returns s k v r') : r = r' := by
  obtain ⟨fuel, hr⟩ := h
  obtain ⟨fuel', hr'⟩ := h'
  have heq := (hr (max fuel fuel') (le_max_left _ _)).symm.trans (hr' _ (le_max_right _ _))
  exact Except.ok.inj heq

theorem count_of_reaches (h : Reaches Small s) : s.map.count = s.map.live.card := by
  induction h with
  | create key => rfl
  | reput _ hsmall hreturns hcount =>
      obtain ⟨n, j, log, -, hcount', hj, -, hreturns'⟩ := mapReputInt_spec hcount hsmall _ _
      obtain rfl := hreturns.unique hreturns'
      exact count_store hcount' hj
  | @remove s k absent m _ hsmall hremove hcount =>
      rw [mapRemoveInt_eq (by unfold Small at hsmall; omega) hcount] at hremove
      have hkept := @count_mapRemove ι s.key s.map hcount k
      rwa [Option.some.inj hremove] at hkept

/-- **Accounting and growth.** -/
theorem accounts_of_reaches (hreaches : Reaches Small s) (hsmall : Small s) : Accounts s := by
  have hcount := count_of_reaches hreaches
  refine ⟨hcount, mapHashInt_spec hcount hsmall, fun k v => ?_⟩
  obtain ⟨n, j, log, hlog, -, -, -, hreturns⟩ := mapReputInt_spec hcount hsmall k v
  refine ⟨_, _, log, hreturns, ?_⟩
  rcases hlog with ⟨-, rfl⟩ | ⟨-, -, hclean, hgrown, rfl⟩
  · exact ⟨Nat.zero_le _, fun r hr => by cases hr⟩
  · refine ⟨le_rfl, fun r hr => ?_⟩
    obtain rfl := List.mem_singleton.mp hr
    exact ⟨rfl, rfl, hclean, hgrown⟩

/-- A call of `map_reput` does what `mapReput` does. -/
theorem returns_mapReput (hreaches : Reaches Small s) (hsmall : Small s) (k : UInt32) (v : ι) :
    ∃ old m log, mapReput s.key true s.map k v = some (old, m) ∧
      Returns s k v (old, ⟨Function.update s.key v k, m⟩, log) := by
  obtain ⟨n, j, log, -, -, -, hreput, hreturns⟩ :=
    mapReputInt_spec (count_of_reaches hreaches) hsmall k v
  exact ⟨_, _, log, hreput, hreturns⟩

end Runs

/-- A table that is full. -/
theorem accounts_full : (filled 256 256).map.count = (filled 256 256).map.size ∧
    Accounts (filled 256 256) := by
  refine ⟨rfl, accounts_of_reaches (reaches_filled 256 (by decide) fun k hk => ?_) (by decide)⟩
  change 256 * ((k + 255) / 256) + 256 ≤ intMax
  unfold intMax
  omega

/-! ### A table with `2 ^ 31` slots -/

/-- No item of a full table with `2 ^ 31` slots is put into the next one, since `o_size` is
negative. -/
theorem mapRehashInt_many
    (put : Store UInt32 → UInt32 → UInt32 → Except Stuck (Store UInt32 × List (Rehash UInt32))) :
    mapRehashInt put 0 (filled (2 ^ 31) (2 ^ 31)) =
      .ok (filled (2 ^ 31 + 256) 0,
        [⟨0, (filled (2 ^ 31) (2 ^ 31)).map, (filled (2 ^ 31 + 256) 0).map⟩]) := by
  have hsize : (toInt (filled (2 ^ 31) (2 ^ 31)).map.size).toNat = 0 := by decide
  have hwrap : ((filled (2 ^ 31) (2 ^ 31)).map.size + 256) % 2 ^ 32 = 2 ^ 31 + 256 := by decide
  rw [mapRehashInt, hsize, hwrap, filled_zero]
  rfl

/-- After `2 ^ 31` items with the keys from 0 on the table is full.  The item with the key `2 ^ 31`
is then looked for at a negative slot of the next one. -/
theorem not_accounts_many : ∃ s : Store UInt32, Reaches (fun _ => True) s ∧ s.map.size = 2 ^ 31 ∧
    (∀ fuel v, mapReputInt (fuel + 2) 0 s (2 ^ 31) v = .error .undefined) ∧ ¬ Accounts s := by
  have hstuck : ∀ fuel v, mapReputInt (fuel + 2) 0 (filled (2 ^ 31) (2 ^ 31)) (2 ^ 31) v =
      .error .undefined := by
    intro fuel v
    have hhash : mapHashInt (filled (2 ^ 31 + 256) 0).key (filled (2 ^ 31 + 256) 0).map (2 ^ 31) =
        none := by
      rw [mapHashInt, if_neg (by decide)]
      show hashLoop _ _ _ (2 ^ 31 + 255 + 1) _ = none
      rw [hashLoop, if_pos (by decide)]
    rw [mapReputInt_of_full rfl (mapRehashInt_many _), mapReputInt, hhash]
    rfl
  refine ⟨filled (2 ^ 31) (2 ^ 31), reaches_filled (2 ^ 31) le_rfl fun _ _ => trivial, rfl, hstuck,
    fun h => ?_⟩
  obtain ⟨old, t, log, ⟨fuel, hreturns⟩, -⟩ := h.returns (2 ^ 31) 0
  have hcall := hreturns (fuel + 2) (by omega)
  rw [hstuck] at hcall
  cases hcall

end Imola.Qrtr
