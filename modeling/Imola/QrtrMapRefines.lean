import Imola.Runs
import Imola.QrtrMap

/-! # The hash map as a finite map

A run of `map_put`, `map_reput` and `map_remove` is compared with the finite map that the same
operations give (`content`).  `map_hash` takes the first slot without an item, also a marker that
stands in front of the item with the key; then the table has two items for the key.  And an item
that is put under a second key takes its old entry with it, since the key is in the item.  `Meets`
excludes both, and tables of `2 ^ 31` slots, whose slots do not fit in an `int`; under it the table
is the finite map in every state of every run (`refines_of_run`). -/

namespace Imola.Qrtr

open Imola.Runs

/-- A table, and the keys in the items. -/
structure Store (ι : Type) where
  key : ι → UInt32
  map : Map ι

/-- `INT_MAX`. -/
def intMax : ℕ := 2 ^ 31 - 1

/-- The table stays below `2 ^ 31` slots, also when it grows. -/
def Small {ι : Type} (s : Store ι) : Prop := s.map.size + 256 ≤ intMax

instance {ι : Type} (s : Store ι) : Decidable (Small s) := inferInstanceAs (Decidable (_ ≤ _))

/-- The operations on a table. -/
inductive MapOp (ι : Type) where
  | put (k : UInt32) (v : ι)
  | reput (k : UInt32) (v : ι)
  | remove (k : UInt32)
deriving DecidableEq, Repr

/-- What an operation reports: `map_reput` the item it displaced, `map_remove` whether there was
none. -/
inductive Report (ι : Type) where
  | done
  | displaced (old : Option ι)
  | removed (absent : Bool)
deriving DecidableEq, Repr

section Refines

variable {ι : Type} [DecidableEq ι]

/-- `map_reput`, with the key set in the item. -/
def storeReput (s : Store ι) (k : UInt32) (v : ι) : Except Unit (Option ι × Store ι) :=
  match mapReput s.key true s.map k v with
  | none => .error ()
  | some (old, m) => .ok (old, ⟨Function.update s.key v k, m⟩)

/-- An operation, when allocations succeed. -/
def mapStep (s : Store ι) : MapOp ι → Except Unit (Report ι × Store ι)
  | .put k v => (storeReput s k v).map fun r => (.done, r.2)
  | .reput k v => (storeReput s k v).map fun r => (.displaced r.1, r.2)
  | .remove k => .ok (.removed (mapRemove s.key s.map k).1, ⟨s.key, (mapRemove s.key s.map k).2⟩)

/-! ### Finite maps -/

/-- A finite map from keys to items. -/
abbrev Content (ι : Type) := UInt32 → Option ι

def Content.apply (A : Content ι) : MapOp ι → Content ι
  | .put k v => Function.update A k (some v)
  | .reput k v => Function.update A k (some v)
  | .remove k => Function.update A k none

def Content.report (A : Content ι) : MapOp ι → Report ι
  | .put _ _ => .done
  | .reput k _ => .displaced (A k)
  | .remove k => .removed (A k).isNone

/-- The finite map after some operations. -/
def content (h : List (MapOp ι × Report ι)) : Content ι :=
  h.foldl (fun A e => A.apply e.1) fun _ => none

/-- The table is the finite map, and `map_for_each` visits each of its keys once. -/
structure Refines (A : Content ι) (s : Store ι) : Prop where
  get : ∀ k, mapGet s.key s.map k = A k
  length : mapLength s.map = {k | (A k).isSome}.ncard
  visits : ∀ k, k ∈ (mapItems s.map).map s.key ↔ (A k).isSome
  once : ((mapItems s.map).map s.key).Nodup

/-- The condition on an operation: the table is small, no marker stands in front of the item with
the key, and the item is not in the table under another key. -/
def MapOp.Meets (s : Store ι) : MapOp ι → Prop
  | .put k v | .reput k v => Small s ∧ s.map.Clear s.key k ∧ (v ∈ mapItems s.map → s.key v = k)
  | .remove _ => Small s

/-! ### The invariant -/

/-- Well-formed, without two items for a key, and the finite map. -/
structure MapInv (A : Content ι) (s : Store ι) : Prop where
  wf : s.map.Wf s.key
  unique : s.map.Unique s.key
  get : ∀ k, mapGet s.key s.map k = A k

variable {A : Content ι} {s : Store ι}

omit [DecidableEq ι] in
theorem card_live (m : Map ι) : m.live.card = (mapItems m).length := by
  rw [Map.live, ← List.toFinset_range, ← List.toFinset_filter,
    List.toFinset_card_of_nodup (List.nodup_range.filter _),
    mapItems, List.length_filterMap_eq_countP, List.countP_eq_length_filter]

omit [DecidableEq ι] in
theorem MapInv.refines (h : MapInv A s) : Refines A s := by
  have hvisits : ∀ k, k ∈ (mapItems s.map).map s.key ↔ (A k).isSome := by
    intro k
    rw [List.mem_map, ← h.get k, Option.isSome_iff_exists]
    simp only [mapGet_eq_some_iff h.wf h.unique]
  have hset : {k | (A k).isSome} = ↑((mapItems s.map).map s.key).toFinset := by
    ext k
    rw [List.coe_toFinset, Set.mem_ofPred_eq, Set.mem_ofPred_eq, hvisits]
  refine ⟨h.get, ?_, hvisits, nodup_keys h.unique⟩
  rw [hset, Set.ncard_coe_finset, List.toFinset_card_of_nodup (nodup_keys h.unique),
    List.length_map, ← card_live,
    ← h.wf.count_eq]
  rfl

/-- `map_reput` puts an item under a key and reports the item it displaced. -/
theorem MapInv.reput (h : MapInv A s) {k : UInt32} {v : ι} (hclear : s.map.Clear s.key k)
    (hv : v ∈ mapItems s.map → s.key v = k) :
    ∃ s', storeReput s k v = .ok (A k, s') ∧ MapInv (Function.update A k (some v)) s' := by
  have hself : Function.update s.key v k v = k := Function.update_self _ _ _
  have hkey : ∀ w, w ≠ v → Function.update s.key v k w = s.key w :=
    fun w hw => Function.update_of_ne hw _ _
  rcases mapReput_unique h.wf h.unique hclear hv hself hkey true
    with ⟨hfalse, -⟩ | ⟨n, hreput, hwf, hu, -, hitems⟩
  · cases hfalse
  refine ⟨⟨Function.update s.key v k, n⟩, by rw [storeReput, hreput, h.get], hwf, hu, ?_⟩
  intro k'
  apply Option.ext
  intro w
  rw [mapGet_eq_some_iff hwf hu, hitems]
  by_cases hwv : w = v
  · subst hwv
    rw [hself]
    by_cases hk : k = k'
    · simp [hk]
    · simp only [true_or, true_and, hk, false_iff]
      rw [Function.update_of_ne (Ne.symm hk), ← h.get k', mapGet_eq_some_iff h.wf h.unique]
      rintro ⟨hmem, hwk⟩
      exact hk ((hv hmem).symm.trans hwk)
  · rw [hkey w hwv]
    by_cases hk : k' = k
    · subst hk
      simp [hwv, Ne.symm hwv]
    · rw [Function.update_of_ne hk, ← h.get k', mapGet_eq_some_iff h.wf h.unique]
      constructor
      · rintro ⟨hor, hwk⟩
        exact ⟨(hor.resolve_left hwv).1, hwk⟩
      · rintro ⟨hmem, hwk⟩
        exact ⟨Or.inr ⟨hmem, fun hwk' => hk (hwk.symm.trans hwk')⟩, hwk⟩

omit [DecidableEq ι] in
theorem MapInv.remove (h : MapInv A s) (k : UInt32) : (mapRemove s.key s.map k).1 = (A k).isNone ∧
    MapInv (Function.update A k none) ⟨s.key, (mapRemove s.key s.map k).2⟩ := by
  obtain ⟨hreport, hwf, hu, hitems⟩ := mapRemove_unique h.wf h.unique k
  rw [h.get] at hreport
  refine ⟨hreport, hwf, hu, ?_⟩
  intro k'
  apply Option.ext
  intro w
  rw [mapGet_eq_some_iff hwf hu, hitems]
  by_cases hk : k' = k
  · subst hk
    simp
  · rw [Function.update_of_ne hk, ← h.get k', mapGet_eq_some_iff h.wf h.unique]
    constructor
    · rintro ⟨⟨hmem, -⟩, hwk⟩
      exact ⟨hmem, hwk⟩
    · rintro ⟨hmem, hwk⟩
      exact ⟨⟨hmem, fun hwk' => hk (hwk.symm.trans hwk')⟩, hwk⟩

theorem MapInv.step (h : MapInv A s) {op : MapOp ι} (hmeets : op.Meets s) :
    ∃ s', mapStep s op = .ok (A.report op, s') ∧ MapInv (A.apply op) s' := by
  cases op with
  | put k v =>
      obtain ⟨s', hput, hinv⟩ := h.reput hmeets.2.1 hmeets.2.2
      exact ⟨s', by simp [mapStep, hput, Except.map, Content.report], hinv⟩
  | reput k v =>
      obtain ⟨s', hput, hinv⟩ := h.reput hmeets.2.1 hmeets.2.2
      exact ⟨s', by simp [mapStep, hput, Except.map, Content.report], hinv⟩
  | remove k =>
      obtain ⟨hreport, hinv⟩ := h.remove k
      exact ⟨_, by rw [mapStep, hreport, Content.report], hinv⟩

theorem mapInv_of_run {key₀ : ι → UInt32} {h : List (MapOp ι × Report ι)}
    (hrun : Run mapStep (fun s op => op.Meets s) ⟨key₀, mapCreate⟩ h s) : MapInv (content h) s := by
  refine @Run.invariant _ _ _ _ _ _ _ (fun h s => MapInv (content h) s) ?_ ?_ _ _ hrun
  · refine ⟨wf_mapCreate, unique_mapCreate, fun k => ?_⟩
    rfl
  · intro h s op o s' hinv hmeets hstep
    obtain ⟨s'', hstep', hinv'⟩ := hinv.step hmeets
    rw [hstep'] at hstep
    cases hstep
    rw [content, List.foldl_append]
    exact hinv'

/-- **The hash map is a finite map** in every state of a run whose operations meet the condition,
and the next such operation succeeds and reports what the finite map says. -/
theorem refines_of_run {key₀ : ι → UInt32} {h : List (MapOp ι × Report ι)}
    (hrun : Run mapStep (fun s op => op.Meets s) ⟨key₀, mapCreate⟩ h s) :
    Refines (content h) s ∧
      ∀ op : MapOp ι, op.Meets s → ∃ s', mapStep s op = .ok ((content h).report op, s') := by
  have hinv := mapInv_of_run hrun
  refine ⟨hinv.refines, fun op hmeets => ?_⟩
  obtain ⟨s', hstep, -⟩ := hinv.step hmeets
  exact ⟨s', hstep⟩

end Refines

/-- Items 10 and 20 under the keys 0 and 256, in the slots 0 and 1. -/
def colliding : Store ℕ :=
  ⟨Function.update (Function.update (fun _ => 0) 10 0) 20 256, 256, 2,
    Function.update (Function.update (fun _ => .free) 0 (.item 10)) 1 (.item 20)⟩

theorem colliding_run :
    Run mapStep (fun s op => MapOp.Meets s op) (⟨fun _ => 0, mapCreate⟩ : Store ℕ)
    [(.put 0 10, .done), (.put 256 20, .done)] colliding := by
  have hfirst : Run mapStep (fun s op => MapOp.Meets s op) (⟨fun _ => 0, mapCreate⟩ : Store ℕ)
      [(.put 0 10, .done)] ⟨Function.update (fun _ => 0) 10 0, 256, 1,
        Function.update (fun _ => .free) 0 (.item 10)⟩ :=
    Run.nil.snoc ⟨by decide, fun _ hj => absurd hj (Nat.not_lt_zero _),
      fun h => absurd h (by decide)⟩ rfl
  have hmeets : MapOp.Meets (⟨Function.update (fun _ => 0) 10 0, 256, 1,
      Function.update (fun _ => .free) 0 (.item 10)⟩ : Store ℕ) (.put 256 20) :=
    ⟨by decide, Map.Clean.clear (by decide +kernel) _, fun h => absurd h (by decide +kernel)⟩
  exact hfirst.snoc hmeets rfl

theorem refines_colliding : ∃ s : Store ℕ,
    Refines (content [(.put 0 10, .done), (.put 256 20, .done), (.remove 256, .removed false),
      (.reput 0 30, .displaced (some 10))]) s ∧ mapGet s.key s.map 0 = some 30 ∧
      mapGet s.key s.map 256 = none ∧ mapLength s.map = 1 := by
  have hremoved : Run mapStep (fun s op => MapOp.Meets s op) (⟨fun _ => 0, mapCreate⟩ : Store ℕ)
      [(.put 0 10, .done), (.put 256 20, .done), (.remove 256, .removed false)]
      ⟨colliding.key, 256, 1, Function.update colliding.map.data 1 .deleted⟩ :=
    colliding_run.snoc (show Small colliding by decide) rfl
  have hclear : Map.Clear colliding.key
      ⟨256, 1, Function.update colliding.map.data 1 .deleted⟩ 0 := by
    intro j hj v hv _ i _ hi
    have hslot : ∀ j < 256, j ≠ 0 →
        (Function.update colliding.map.data 1 .deleted j).item? = none := by decide +kernel
    obtain rfl : j = 0 := by
      by_contra hne
      have hnone := (congrArg Entry.item? hv).symm.trans (hslot j hj hne)
      cases hnone
    exact absurd hi (Nat.not_lt_zero _)
  have hmeets : MapOp.Meets ⟨colliding.key, 256, 1, Function.update colliding.map.data 1 .deleted⟩
      (.reput 0 30) := ⟨by decide, hclear, fun h => absurd h (by decide +kernel)⟩
  have hrun := hremoved.snoc (o := .displaced (some 10)) hmeets rfl
  exact ⟨_, (refines_of_run hrun).1, by decide +kernel, by decide +kernel, rfl⟩

/-- A key that is put again behind a marker has two items: `map_reput` reports none, and after
`map_remove` the older one is back. -/
theorem not_refines_marker : ∃ s : Store ℕ,
    Run mapStep (fun _ _ => True) ⟨fun _ => 0, mapCreate⟩ [(.put 0 10, .done), (.put 256 20, .done),
      (.remove 0, .removed false), (.reput 256 30, .displaced none),
      (.remove 256, .removed false)] s ∧
    ¬ Refines (content [(.put 0 10, .done), (.put 256 20, .done), (.remove 0, .removed false),
      (.reput 256 30, .displaced none), (.remove 256, .removed false)]) s := by
  have h₁ : Run mapStep (fun _ _ => True) (⟨fun _ => 0, mapCreate⟩ : Store ℕ)
      [(.put 0 10, .done)] _ :=
    Run.nil.snoc trivial rfl
  have h₂ := h₁.snoc (i := .put 256 20) (o := .done) trivial rfl
  have h₃ := h₂.snoc (i := .remove 0) (o := .removed false) trivial rfl
  have h₄ := h₃.snoc (i := .reput 256 30) (o := .displaced none) trivial rfl
  have h₅ := h₄.snoc (i := .remove 256) (o := .removed false) trivial rfl
  refine ⟨_, h₅, fun h => ?_⟩
  have hget := h.get 256
  revert hget
  decide

end Imola.Qrtr
