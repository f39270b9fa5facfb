import Imola.RmtfsStorage

/-! # The slots of the handle table

`storage.c` by itself: any calls of `storage_open`, `storage_close`, `storage_pread` and
`storage_pwrite`, in either mode and with any results of the file operations.  `storage_close` and
the accesses take any slot, also one that is free: a write through a handle that was closed gives
the slot a shadow copy, but no partition.

A slot that has a partition is in use, and no two of them have the same node and partition
(`SlotInv`).  So a node that opens a partition again gets the slot it has (`slots_of_calls`). -/

namespace Imola.Rmtfs

/-! ### Calls of the storage layer -/

/-- A call of a function of `storage.c`, with the results of the calls it makes itself. -/
inductive StorageOp where
  | open (fs : FileSystem) (node : ℕ) (path : String)
  | close (c : Fin maxCallers)
  | pread (c : Fin maxCallers) (io : ℤ × List UInt8) (buf : List UInt8) (nbyte offset : ℕ)
  | pwrite (c : Fin maxCallers) (io : WriteIo) (buf : List UInt8) (offset : ℕ)

/-- The table after a call.  `storage_pread` takes a `const struct rmtfd *`. -/
def storageCallOp (cfg : Config) (t : Table) : StorageOp → Table
  | .open fs node path => (storageOpen cfg fs t node path).2
  | .close c => Function.update t c (storageClose (t c))
  | .pread _ _ _ _ _ => t
  | .pwrite c io buf offset => Function.update t c (storagePwrite cfg io (t c) buf offset).2

/-- The table after `storage_init` and a sequence of calls. -/
def tableAfter (root : Option String) (ro parts : Bool) (ops : List StorageOp) : Table :=
  ops.foldl (storageCallOp (storageInit root ro parts).1) (storageInit root ro parts).2

/-- **Invariants of the table**: what `storage_init` sets up and every one of the calls keeps. -/
theorem tableAfter_invariant {P : Table → Prop} {root : Option String} {ro parts : Bool}
    {ops : List StorageOp}
    (hinit : P (storageInit root ro parts).2)
    (hstep : ∀ t, ∀ op ∈ ops, P t → P (storageCallOp (storageInit root ro parts).1 t op)) :
    P (tableAfter root ro parts ops) :=
  List.foldlRecOn ops _ hinit fun t ht op hop => hstep t op hop ht

/-! ### The properties -/

/-- No two slots that are in use and have a partition share node and partition. -/
def UniqueHandles (t : Table) : Prop :=
  ∀ c c' node part, (t c).HeldFor node part → (t c').HeldFor node part → c = c'

/-- The slot is held by a node for the partition with a path. -/
def HoldsPath (r : RmtFd) (node : ℕ) (path : String) : Prop :=
  ∃ part : Partition, part.path = path ∧ r.HeldFor node part

/-- What `storage_open` should do with a table. -/
structure OpensSlot (cfg : Config) (fs : FileSystem) (t : Table) (node : ℕ) (path : String) :
    Prop where
  failed : ∀ t', storageOpen cfg fs t node path = (none, t') → t' = t
  reused : ∀ c t', storageOpen cfg fs t node path = (some c, t') → ∀ k, HoldsPath (t k) node path →
    c = k ∧ t' = t
  fresh : ∀ c t', storageOpen cfg fs t node path = (some c, t') →
    (∀ k, ¬ HoldsPath (t k) node path) → ¬ (t c).InUse
  held : ∀ c t', storageOpen cfg fs t node path = (some c, t') → HoldsPath (t' c) node path
  others : ∀ c t', storageOpen cfg fs t node path = (some c, t') → ∀ k, k ≠ c → t' k = t k

/-! ### The invariant -/

/-- Uniqueness alone is not kept by a write to a free slot, which makes it one in use: such a slot
has no partition. -/
structure SlotInv (t : Table) : Prop where
  unique : UniqueHandles t
  inUse : ∀ c, (t c).partition ≠ none → (t c).InUse

theorem slotInv_init (root : Option String) (ro parts : Bool) :
    SlotInv (storageInit root ro parts).2 := by
  refine ⟨?_, fun c h => absurd rfl h⟩
  intro c c' node part h
  cases h.2.2

section Calls

variable {t : Table} {cfg : Config}

theorem SlotInv.update (h : SlotInv t) {c : Fin maxCallers} {r : RmtFd}
    (huse : r.partition ≠ none → r.InUse)
    (hnew : ∀ node part, r.HeldFor node part → ∀ k, k ≠ c → ¬ (t k).HeldFor node part) :
    SlotInv (Function.update t c r) := by
  have hself : Function.update t c r c = r := Function.update_self ..
  constructor
  · intro k k' node part hk hk'
    by_cases hkc : k = c
    · by_cases hkc' : k' = c
      · rw [hkc, hkc']
      · rw [Function.update_of_ne hkc'] at hk'
        rw [hkc, hself] at hk
        exact absurd hk' (hnew node part hk k' hkc')
    · rw [Function.update_of_ne hkc] at hk
      by_cases hkc' : k' = c
      · rw [hkc', hself] at hk'
        exact absurd hk (hnew node part hk' k hkc)
      · rw [Function.update_of_ne hkc'] at hk'
        exact h.unique k k' node part hk hk'
  · exact (Function.forall_update_iff t fun _ r => r.partition ≠ none → r.InUse).mpr ⟨huse,
      fun k _ => h.inUse k⟩

theorem SlotInv.open (h : SlotInv t) (fs : FileSystem) (node : ℕ) (path : String) :
    SlotInv (storageOpen cfg fs t node path).2 := by
  rcases storageOpen_spec cfg fs t node path with
    ⟨hopen, -⟩ | ⟨part, -, ⟨c, hopen, -⟩ | ⟨c, r, hopen, hnobody, -, hr⟩⟩
  · rw [hopen]
    exact h
  · rw [hopen]
    exact h
  · rw [hopen]
    have hheld := hr.heldFor
    refine h.update (fun _ => hheld.1) ?_
    intro node' part' hr' k _
    obtain rfl : node = node' := hheld.2.1.symm.trans hr'.2.1
    obtain rfl : part = part' := Option.some.inj (hheld.2.2.symm.trans hr'.2.2)
    exact hnobody k

theorem SlotInv.close (h : SlotInv t) (c : Fin maxCallers) :
    SlotInv (Function.update t c (storageClose (t c))) := by
  refine h.update (fun hpart => absurd rfl hpart) ?_
  intro node part hheld
  cases hheld.2.2

theorem SlotInv.pwrite (h : SlotInv t) (c : Fin maxCallers) (io : WriteIo) (buf : List UInt8)
    (offset : ℕ) :
    SlotInv (Function.update t c (storagePwrite cfg io (t c) buf offset).2) := by
  have hkeep := storagePwrite_keeps cfg io (t c) buf offset
  obtain ⟨hnode, hpart⟩ : (storagePwrite cfg io (t c) buf offset).2.node = (t c).node ∧
      (storagePwrite cfg io (t c) buf offset).2.partition = (t c).partition :=
        ⟨hkeep.node, hkeep.partition⟩
  refine h.update ?_ ?_
  · intro hr
    rw [hpart] at hr
    exact hkeep.inUse (h.inUse c hr)
  · rintro node part ⟨-, hn, hp⟩ k hk hheld
    rw [hnode] at hn
    rw [hpart] at hp
    have hc : (t c).InUse := h.inUse c (by rw [hp]; exact Option.some_ne_none part)
    exact hk (h.unique k c node part hheld ⟨hc, hn, hp⟩)

theorem SlotInv.call (h : SlotInv t) (op : StorageOp) : SlotInv (storageCallOp cfg t op) := by
  cases op with
  | «open» fs node path => exact h.open fs node path
  | close c => exact h.close c
  | pread c io buf nbyte offset => exact h
  | pwrite c io buf offset => exact h.pwrite c io buf offset

/-- What `storage_open` does with a table in which handles are unique. -/
theorem UniqueHandles.opensSlot (h : UniqueHandles t) (cfg : Config) (fs : FileSystem) (node : ℕ)
    (path : String) :
    OpensSlot cfg fs t node path := by
  rcases storageOpen_spec cfg fs t node path with
    ⟨hopen, -⟩ | ⟨part, hpath, ⟨c, hopen, hheld⟩ | ⟨c, r, hopen, hnobody, hfree, hr⟩⟩
  · constructor <;> simp [hopen]
  · have hresult : ∀ {c' t'}, storageOpen cfg fs t node path = (some c', t') → c' = c ∧ t' = t := by
      intro c' t' h'
      rw [hopen] at h'
      cases h'
      exact ⟨rfl, rfl⟩
    refine ⟨?_, ?_, ?_, ?_, ?_⟩
    · simp [hopen]
    · rintro c' t' h' k ⟨part', hpath', hk⟩
      obtain ⟨rfl, rfl⟩ := hresult h'
      obtain rfl : part' = part := Partition.path_injective (hpath'.trans hpath.symm)
      exact ⟨h _ _ node part' hheld hk, rfl⟩
    · intro c' t' h' hnone
      exact absurd ⟨part, hpath, hheld⟩ (hnone c)
    · intro c' t' h'
      obtain ⟨rfl, rfl⟩ := hresult h'
      exact ⟨part, hpath, hheld⟩
    · intro c' t' h' k _
      rw [(hresult h').2]
  · have hresult : ∀ {c' t'}, storageOpen cfg fs t node path = (some c', t') →
        c' = c ∧ t' = Function.update t c r := by
      intro c' t' h'
      rw [hopen] at h'
      cases h'
      exact ⟨rfl, rfl⟩
    refine ⟨?_, ?_, ?_, ?_, ?_⟩
    · simp [hopen]
    · rintro c' t' h' k ⟨part', hpath', hk⟩
      obtain rfl : part' = part := Partition.path_injective (hpath'.trans hpath.symm)
      exact absurd hk (hnobody k)
    · intro c' t' h' _
      rw [(hresult h').1]
      exact hfree
    · intro c' t' h'
      obtain ⟨rfl, rfl⟩ := hresult h'
      rw [Function.update_self]
      exact ⟨part, hpath, hr.heldFor⟩
    · intro c' t' h' k hk
      obtain ⟨rfl, rfl⟩ := hresult h'
      rw [Function.update_of_ne hk]

end Calls

theorem slotInv_tableAfter (root : Option String) (ro parts : Bool) (ops : List StorageOp) :
    SlotInv (tableAfter root ro parts ops) :=
  tableAfter_invariant (slotInv_init root ro parts) fun _ op _ h => h.call op

/-- **Handles are unique**: after any calls no two slots are held for the same node and partition,
and the next `storage_open` returns the slot that is held or fills a free one, alters no other and
fails without a trace. -/
theorem slots_of_calls (root : Option String) (ro parts : Bool) (ops : List StorageOp) :
    UniqueHandles (tableAfter root ro parts ops) ∧ ∀ fs node path,
      OpensSlot (storageInit root ro parts).1 fs (tableAfter root ro parts ops) node path := by
  have hinv := slotInv_tableAfter root ro parts ops
  exact ⟨hinv.unique, hinv.unique.opensSlot _⟩

end Imola.Rmtfs
