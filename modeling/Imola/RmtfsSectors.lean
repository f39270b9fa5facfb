import Imola.RmtfsRequests

/-! # Where `rmtfs_iovec` reads and writes

The loops of `rmtfs_iovec` with the integers of the source: the fields of an entry are `uint32_t`,
the bases and the offset `off_t`, the counter of the inner loop an `int` that is compared with a
`uint32_t`. `entryRounds` are the rounds of an entry; for fields of 32 bits they are the sectors
that `RmtfsRequests.lean` counts with natural numbers (`iovecSectors_eq`).

`rmtfsIovecVisits` is `rmtfs_iovec` with a record of what each round did (`rmtfsIovecVisits_eq`).
Only the product `sector_addr * SECTOR_SIZE` is made with 32 bits, so a sector is found at its place
exactly when its entry starts below sector `2 ^ 23` (`addressed_iff`). -/

namespace Imola.Rmtfs

open Imola.Splice

/-! ### The rounds of the loops -/

/-- `struct rmtfs_iovec_entry` with the types of its fields. -/
structure WireEntry where
  sectorAddr : UInt32
  physOffset : UInt32
  numSector : UInt32
deriving DecidableEq, Repr

/-- `struct rmtfs_iovec_req` with the types of its fields. -/
structure WireReq where
  callerId : UInt32
  direction : UInt8
  iovec : List WireEntry
  isForceSync : UInt8
deriving DecidableEq, Repr

def WireEntry.entry (e : WireEntry) : IovecEntry :=
  ⟨e.sectorAddr.toNat, e.physOffset.toNat, e.numSector.toNat⟩

def WireReq.req (r : WireReq) : IovecReq :=
  ⟨r.callerId.toNat, r.direction.toNat, r.iovec.map WireEntry.entry, r.isForceSync.toNat⟩

/-- The inner loop: in each round the values of `phys_base + offset`, which the memory takes as an
`unsigned long`, and of `sector_base + offset`. -/
def sectorLoop (physBase sectorBase : Int64) (numSector : UInt32) :
    (fuel : ℕ) → (offset : Int64) → (j : Int32) → List (UInt64 × Int64)
  | 0, _, _ => []
  | fuel + 1, offset, j =>
      if j.toUInt32 < numSector then
        ((physBase + offset).toUInt64, sectorBase + offset) ::
          sectorLoop physBase sectorBase numSector fuel (offset + 512) (j + 1)
      else []

/-- A round: the entry, the number of its rounds before this one, the address and the offset. -/
structure Round where
  entry : WireEntry
  index : ℕ
  phys : UInt64
  offset : Int64
deriving DecidableEq, Repr

/-- The sector that the client asked for. -/
def Round.sector (r : Round) : ℕ := r.entry.sectorAddr.toNat + r.index

/-- The address and the offset as `iovecLoop` takes them. -/
def Round.place (r : Round) : ℕ × ℕ := (r.phys.toNat, r.offset.toInt.toNat)

/-- The rounds of an entry.  The product is one of two `uint32_t`. -/
def entryRounds (e : WireEntry) : List Round :=
  (sectorLoop (Int64.ofNat e.physOffset.toNat) (Int64.ofNat (e.sectorAddr * 512).toNat) e.numSector
    e.numSector.toNat 0 0).zipIdx.map fun p => ⟨e, p.2, p.1.1, p.1.2⟩

/-- The loop ends by its own test, with any fuel that is enough for the rounds that are left. -/
theorem sectorLoop_eq (p s : ℕ) (n : UInt32) (fuel : ℕ) : ∀ k, k ≤ n.toNat → n.toNat ≤ k + fuel →
    sectorLoop (Int64.ofNat p) (Int64.ofNat s) n fuel (Int64.ofNat (512 * k)) (Int32.ofNat k) =
      (List.range' k (n.toNat - k)).map fun i =>
      (UInt64.ofNat (p + 512 * i), Int64.ofNat (s + 512 * i)) := by
  have hn := n.toNat_lt
  induction fuel with
  | zero =>
      intro k hk hfuel
      obtain rfl : k = n.toNat := by omega
      simp [sectorLoop]
  | succ fuel ih =>
      intro k hk hfuel
      have htest : (Int32.ofNat k).toUInt32 < n ↔ k < n.toNat := by
        rw [Int32.toUInt32_ofNat', UInt32.lt_iff_toNat_lt, UInt32.toNat_ofNat',
          Nat.mod_eq_of_lt (by omega)]
      rw [sectorLoop]
      by_cases hlt : k < n.toNat
      · obtain ⟨m, hm⟩ : ∃ m, n.toNat - k = m + 1 := ⟨n.toNat - k - 1, by omega⟩
        have hoffset : Int64.ofNat (512 * k) + 512 = Int64.ofNat (512 * (k + 1)) :=
          (Int64.ofNat_add _ _).symm
        have hj : Int32.ofNat k + 1 = Int32.ofNat (k + 1) := (Int32.ofNat_add _ _).symm
        rw [if_pos (htest.mpr hlt), hoffset, hj, ih (k + 1) (by omega) (by omega), hm,
          List.range'_succ,
          List.map_cons, ← Int64.ofNat_add, ← Int64.ofNat_add, Int64.toUInt64_ofNat']
        congr 3
        omega
      · obtain rfl : k = n.toNat := by omega
        rw [if_neg (by rw [htest]; omega)]
        simp

theorem entryRounds_eq (e : WireEntry) : entryRounds e = (List.range e.numSector.toNat).map fun j =>
    ⟨e, j, UInt64.ofNat (e.physOffset.toNat + 512 * j),
      Int64.ofNat ((e.sectorAddr * 512).toNat + 512 * j)⟩ := by
  have hloop := sectorLoop_eq e.physOffset.toNat (e.sectorAddr * 512).toNat e.numSector
    e.numSector.toNat 0
    (Nat.zero_le _) (by omega)
  have hstart : Int64.ofNat (512 * 0) = 0 ∧ Int32.ofNat 0 = 0 := ⟨rfl, rfl⟩
  rw [hstart.1, hstart.2] at hloop
  rw [entryRounds, hloop, Nat.sub_zero, ← List.range_eq_range']
  apply List.ext_getElem?
  intro j
  by_cases hj : j < e.numSector.toNat
  · simp [hj]
  · simp [hj]

/-- A round works at the sums over the integers, but for the product. -/
theorem round_values {e : WireEntry} {r : Round} (h : r ∈ entryRounds e) :
    r.entry = e ∧ r.index < e.numSector.toNat ∧ r.phys.toNat = e.physOffset.toNat + 512 * r.index ∧
      r.offset.toInt = (e.sectorAddr.toNat * 512 % 2 ^ 32 + 512 * r.index : ℕ) := by
  rw [entryRounds_eq] at h
  obtain ⟨j, hj, rfl⟩ := List.mem_map.mp h
  have hj' := List.mem_range.mp hj
  have hnum := e.numSector.toNat_lt
  have hphys := e.physOffset.toNat_lt
  have hmul : (e.sectorAddr * 512).toNat = e.sectorAddr.toNat * 512 % 2 ^ 32 := UInt32.toNat_mul _ _
  refine ⟨rfl, hj', ?_, ?_⟩
  · dsimp only
    rw [UInt64.toNat_ofNat', Nat.mod_eq_of_lt (by omega)]
  · dsimp only
    rw [Int64.toInt_ofNat_of_lt (by omega), hmul]

theorem iovecSectors_eq (es : List WireEntry) :
    iovecSectors (es.map WireEntry.entry) = (es.flatMap entryRounds).map Round.place := by
  rw [iovecSectors, List.flatMap_map, List.map_flatMap]
  apply List.flatMap_congr
  intro e _
  have hrounds := entryRounds_eq e
  have hplace : ∀ j < e.numSector.toNat, Round.place
      ⟨e, j, UInt64.ofNat (e.physOffset.toNat + 512 * j),
        Int64.ofNat ((e.sectorAddr * 512).toNat + 512 * j)⟩ =
        (e.physOffset.toNat + sectorSize * j,
          e.sectorAddr.toNat * sectorSize % 2 ^ 32 + sectorSize * j) := by
    intro j hj
    obtain ⟨-, -, hphys, hoffset⟩ := @round_values e
      ⟨e, j, UInt64.ofNat (e.physOffset.toNat + 512 * j),
        Int64.ofNat ((e.sectorAddr * 512).toNat + 512 * j)⟩
      (by rw [hrounds]; exact List.mem_map.mpr ⟨j, List.mem_range.mpr hj, rfl⟩)
    rw [Round.place, hphys, hoffset, Int.toNat_natCast]
  rw [hrounds, List.map_map]
  apply List.map_congr_left
  intro j hj
  exact (hplace j (List.mem_range.mp hj)).symm

/-! ### What a round does -/

/-- A call of `storage_pread` or `storage_pwrite`. -/
inductive StorageCall where
  | pread (offset : Int64)
  | pwrite (buf : List UInt8) (offset : Int64)
deriving DecidableEq, Repr

def StorageCall.offset : StorageCall → Int64
  | .pread offset => offset
  | .pwrite _ offset => offset

/-- A round that was made: the call of the storage layer, and where in the mapped region the memory
is accessed. -/
structure Visit where
  round : Round
  call : Option StorageCall
  pointer : Option ℕ
deriving DecidableEq, Repr

/-- The call of the storage layer: a write is made only with a sector that was read. -/
def storageCall (io : SectorIo) (isWrite : Bool) (r : Round) (d : Daemon) : Option StorageCall :=
  if isWrite then
    let m := rmtfsMemRead d.rmem io.memRead r.phys.toNat sectorSize
    if m.1 = sectorSize then some (.pwrite m.2 r.offset) else none
  else some (.pread r.offset)

/-- The place of the `memcpy` in the region. -/
def memcpyAt (r : Round) (d : Daemon) : Option ℕ :=
  if d.rmem.mapped then rmtfsMemPtr d.rmem r.phys.toNat sectorSize else none

section Rounds

variable (cfg : Config) (answers : ℕ → Daemon → Round → SectorIo) (isWrite : Bool)
    (c : Fin maxCallers)

/-- `iovecLoop` with a record of its rounds; the results of the calls may depend on the state in
which they are made. -/
def iovecRounds : ℕ → List Round → List UInt8 → Daemon → List Visit × Bool × Daemon
  | _, [], _, d => ([], true, d)
  | k, r :: rest, buf, d =>
      let io := answers k d r
      let s := iovecSector cfg io isWrite c r.phys.toNat r.offset.toInt.toNat buf d
      let v : Visit := ⟨r, storageCall io isWrite r d, memcpyAt r d⟩
      if s.1 ≠ sectorSize then ([v], false, s.2.2)
      else
        let t := iovecRounds (k + 1) rest s.2.1 s.2.2
        (v :: t.1, t.2)

/-- `rmtfs_iovec` with a record of its rounds. -/
def rmtfsIovecVisits (node : ℕ) (stack : List UInt8) (d : Daemon) (r : WireReq) :
    Except Fault (List Visit × Reply × Daemon) :=
  match storageGet d.table node (toInt32 r.callerId.toNat) with
  | .outside => .error .outsideTable
  | .null =>
      if r.direction ≠ 0 ∧ ¬ cfg.readOnly then .error .nullHandle
      else .ok ([], .failure errInternal, d)
  | .slot c =>
      let s := iovecRounds cfg answers (r.direction ≠ 0) c 0 (r.iovec.flatMap entryRounds) stack d
      .ok (s.1, if s.2.1 then .success else .failure errInternal, s.2.2)

end Rounds

theorem iovecRounds_loop (cfg : Config) (io : ℕ → SectorIo) (isWrite : Bool) (c : Fin maxCallers)
    (rounds : List Round) : ∀ (k : ℕ) (buf : List UInt8) (d : Daemon),
      (iovecRounds cfg (fun k _ _ => io k) isWrite c k rounds buf d).2 =
        iovecLoop cfg io isWrite c k (rounds.map Round.place) buf d := by
  induction rounds with
  | nil =>
      intro k buf d
      rfl
  | cons r rounds ih =>
      intro k buf d
      simp only [iovecRounds, List.map_cons, Round.place, iovecLoop]
      split_ifs
      · rfl
      · exact ih _ _ _

/-- The record changes nothing: every run of `rmtfs_iovec` on a request from the wire is one with a
record. -/
theorem rmtfsIovecVisits_eq (cfg : Config) (i : Input) (d : Daemon) (r : WireReq) :
    rmtfsIovec cfg i d r.req =
      (rmtfsIovecVisits cfg (fun k _ _ => i.io k) i.node i.stack d r).map Prod.snd := by
  have hdir : r.req.direction ≠ 0 ↔ r.direction ≠ 0 := not_congr (@UInt8.toNat_inj r.direction 0)
  unfold rmtfsIovec rmtfsIovecVisits
  change (match storageGet d.table i.node (toInt32 r.callerId.toNat) with
    | .outside => _
    | .null => _
    | .slot c => _) = _
  cases storageGet d.table i.node (toInt32 r.callerId.toNat) with
  | outside => rfl
  | null =>
      simp only [hdir]
      split_ifs <;> rfl
  | slot c =>
      have hloop := iovecRounds_loop cfg i.io (r.direction ≠ 0) c
        (r.iovec.flatMap entryRounds) 0 i.stack d
      rw [← iovecSectors_eq] at hloop
      simp only [hdir]
      exact congrArg (fun s : Bool × Daemon =>
        Except.ok (if s.1 then Reply.success else .failure errInternal, s.2))
        hloop.symm

/-! ### Addresses -/

/-- A request and what it meets. -/
structure Handling where
  cfg : Config
  answers : ℕ → Daemon → Round → SectorIo
  node : ℕ
  stack : List UInt8
  daemon : Daemon
  req : WireReq

def Handling.outcome (h : Handling) : Except Fault (List Visit × Reply × Daemon) :=
  rmtfsIovecVisits h.cfg h.answers h.node h.stack h.daemon h.req

/-- The rounds that are made for it. -/
def Handling.visits (h : Handling) : List Visit :=
  match h.outcome with
  | .error _ => []
  | .ok r => r.1

section Outcome

variable {h : Handling}

/-- `storage_get` for the caller of the request. -/
def Handling.lookup (h : Handling) : Lookup :=
  storageGet h.daemon.table h.node (toInt32 h.req.callerId.toNat)

/-- The loops on a slot. -/
def Handling.rounds (h : Handling) (c : Fin maxCallers) : List Visit × Bool × Daemon :=
  iovecRounds h.cfg h.answers (h.req.direction ≠ 0) c 0 (h.req.iovec.flatMap entryRounds)
    h.stack h.daemon

theorem Handling.outcome_outside (hget : h.lookup = .outside) :
    h.outcome = .error .outsideTable := by
  unfold Handling.lookup at hget
  rw [Handling.outcome, rmtfsIovecVisits, hget]

theorem Handling.outcome_null (hget : h.lookup = .null) : h.outcome =
    if h.req.direction ≠ 0 ∧ ¬ h.cfg.readOnly then .error .nullHandle
    else .ok ([], .failure errInternal, h.daemon) := by
  unfold Handling.lookup at hget
  rw [Handling.outcome, rmtfsIovecVisits, hget]

theorem Handling.outcome_slot {c : Fin maxCallers} (hget : h.lookup = .slot c) : h.outcome =
    .ok ((h.rounds c).1, if (h.rounds c).2.1 then .success else .failure errInternal,
      (h.rounds c).2.2) := by
  unfold Handling.lookup at hget
  rw [Handling.outcome, rmtfsIovecVisits, hget]
  rfl

theorem Handling.exists_slot {v : Visit} (hv : v ∈ h.visits) :
    ∃ c, h.lookup = .slot c ∧ v ∈ (h.rounds c).1 := by
  unfold Handling.visits at hv
  cases hget : h.lookup with
  | outside =>
      rw [Handling.outcome_outside hget] at hv
      cases hv
  | null =>
      rw [Handling.outcome_null hget] at hv
      split_ifs at hv <;> cases hv
  | slot c =>
      rw [Handling.outcome_slot hget] at hv
      exact ⟨c, rfl, hv⟩

end Outcome

/-- The rounds access the memory at their sectors and the storage at the sectors asked for, and
different sectors are apart. -/
structure Addressed (visits : List Visit) : Prop where
  memory : ∀ v ∈ visits, v.round.phys.toNat = v.round.entry.physOffset.toNat + 512 * v.round.index
  storage : ∀ v ∈ visits, ∀ call ∈ v.call, call.offset.toInt = 512 * (v.round.sector : ℤ)
  apart : ∀ v ∈ visits, ∀ w ∈ visits, ∀ a ∈ v.call, ∀ b ∈ w.call, v.round.sector ≠ w.round.sector →
    a.offset.toInt + 512 ≤ b.offset.toInt ∨ b.offset.toInt + 512 ≤ a.offset.toInt

theorem iovecRounds_mem {cfg : Config} {answers : ℕ → Daemon → Round → SectorIo} {isWrite : Bool}
    {c : Fin maxCallers} {rounds : List Round} {v : Visit} :
    ∀ {k : ℕ} {buf : List UInt8} {d : Daemon},
      v ∈ (iovecRounds cfg answers isWrite c k rounds buf d).1 →
        v.round ∈ rounds ∧ ∀ call ∈ v.call, call.offset = v.round.offset := by
  have hcall : ∀ {io : SectorIo} {r : Round} {d : Daemon}, ∀ call ∈ storageCall io isWrite r d,
      call.offset = r.offset := by
    intro io r d call h
    unfold storageCall at h
    dsimp only at h
    split_ifs at h
    · cases h
      rfl
    · cases h
    · cases h
      rfl
  induction rounds with
  | nil =>
      intro k buf d h
      cases h
  | cons r rounds ih =>
      intro k buf d h
      rw [iovecRounds] at h
      dsimp only at h
      split_ifs at h
      · obtain rfl := List.mem_singleton.mp h
        exact ⟨List.mem_cons_self, hcall⟩
      · rcases List.mem_cons.mp h with rfl | h
        · exact ⟨List.mem_cons_self, hcall⟩
        · exact (ih h).imp_left (List.mem_cons_of_mem _)

/-- Where a visit is: the sums are those over the integers, but the first offset of an entry is
taken modulo `2 ^ 32`. -/
theorem Handling.visit_values {h : Handling} {v : Visit} (hv : v ∈ h.visits) :
    v.round.phys.toNat = v.round.entry.physOffset.toNat + 512 * v.round.index ∧
      ∀ call ∈ v.call, call.offset.toInt =
        (v.round.entry.sectorAddr.toNat * 512 % 2 ^ 32 + 512 * v.round.index : ℕ) := by
  obtain ⟨c, -, hv⟩ := Handling.exists_slot hv
  obtain ⟨hmem, hcall⟩ := iovecRounds_mem hv
  obtain ⟨e, -, he⟩ := List.mem_flatMap.mp hmem
  obtain ⟨rfl, -, hphys, hoffset⟩ := round_values he
  refine ⟨hphys, ?_⟩
  intro call hc
  rw [hcall call hc, hoffset]

/-- **Sector addressing**: the sectors of any requests are accessed where they are asked for exactly
when each sector that is accessed belongs to an entry that starts below sector `2 ^ 23`. -/
theorem addressed_iff (hs : List Handling) : Addressed (hs.flatMap Handling.visits) ↔
    ∀ v ∈ hs.flatMap Handling.visits, v.call.isSome → v.round.entry.sectorAddr.toNat < 2 ^ 23 := by
  have hwrapped : ∀ v ∈ hs.flatMap Handling.visits, ∀ call ∈ v.call, call.offset.toInt =
      (v.round.entry.sectorAddr.toNat * 512 % 2 ^ 32 + 512 * v.round.index : ℕ) := by
    intro v hv
    obtain ⟨h, -, hv⟩ := List.mem_flatMap.mp hv
    exact (Handling.visit_values hv).2
  constructor
  · intro haddr v hv hcall
    obtain ⟨call, hcall⟩ := Option.isSome_iff_exists.mp hcall
    have hasked := haddr.storage v hv call hcall
    rw [hwrapped v hv call hcall, Round.sector] at hasked
    omega
  · intro hlow
    have hstorage : ∀ v ∈ hs.flatMap Handling.visits, ∀ call ∈ v.call,
        call.offset.toInt = 512 * (v.round.sector : ℤ) := by
      intro v hv call hcall
      have hstart := hlow v hv (Option.isSome_iff_exists.mpr ⟨call, hcall⟩)
      rw [hwrapped v hv call hcall, Round.sector, Nat.mod_eq_of_lt (by omega)]
      omega
    refine ⟨?_, hstorage, ?_⟩
    · intro v hv
      obtain ⟨h, -, hv⟩ := List.mem_flatMap.mp hv
      exact (Handling.visit_values hv).1
    · intro v hv w hw a ha b hb hne
      rw [hstorage v hv a ha, hstorage w hw b hb]
      omega

/-- The table after node 0 has opened a partition in read-write mode. -/
def openedTable : Table :=
  (storageOpen (storageInit none false false).1 ⟨fun _ => 3, fun _ => .openFails⟩
    (storageInit none false false).2 0 "/boot/modem_fs1").2

/-- A write of sector 0 and of sector `2 ^ 23`, both from mapped memory. -/
def aliasedWrite : Handling where
  cfg := (storageInit none false false).1
  answers := fun _ _ _ => ⟨(0, []), 0, (0, []), ⟨512, none⟩⟩
  node := 0
  stack := []
  daemon := ⟨openedTable, ⟨0, 1024, true, List.replicate 1024 7⟩⟩
  req := ⟨0, 1, [⟨0, 0, 1⟩, ⟨8388608, 512, 1⟩], 0⟩

/-- Both are written at offset 0, and the client is told that its sectors were written. -/
theorem not_addressed_aliased : ¬ Addressed ([aliasedWrite].flatMap Handling.visits) ∧
    aliasedWrite.visits.map (fun v => (v.round.sector, v.call.map StorageCall.offset)) =
      [(0, some 0), (8388608, some 0)] ∧
    aliasedWrite.outcome.toOption.map (fun r => r.2.1) = some .success := by
  have hvisits : aliasedWrite.visits.map
      (fun v => (v.round.sector, v.call.map StorageCall.offset)) =
      [(0, some 0), (8388608, some 0)] := by decide +kernel
  refine ⟨?_, hvisits, by decide +kernel⟩
  intro haddr
  obtain ⟨v, hv, heq⟩ : ∃ v ∈ aliasedWrite.visits, (v.round.sector, v.call.map StorageCall.offset) =
      (8388608, some 0) := by
    apply List.mem_map.mp
    rw [hvisits]
    decide
  obtain ⟨hsector, hcall⟩ := Prod.mk.inj heq
  obtain ⟨call, hc, hoffset⟩ := Option.map_eq_some_iff.mp hcall
  have hasked := haddr.storage v (by simpa using hv) call hc
  rw [hsector, hoffset] at hasked
  exact absurd hasked (by decide)

end Imola.Rmtfs
