import Imola.RmtfsSectors
import Imola.RmtfsHandles

/-! # The two ways to the shared memory

`rmtfs_mem_read` and `rmtfs_mem_write` copy from and to a mapping of the region after a range check,
or call `pread` and `pwrite` on its device file.  Here the device file is one that has exactly the
bytes of the region: a call at a negative offset is refused, one at the end is short.

The range check refuses exactly the sectors of which the file does not transfer all bytes
(`deviceOffset_cases`), so a request is answered alike, makes the same calls of the storage layer,
and if it succeeds leaves the same bytes in the region (`backends_agree`). -/

namespace Imola.Rmtfs

open Imola.Splice

/-! ### The device file -/

section Device

variable (m : RmtfsMem) (phys : UInt64)

/-- `phys_address - rmem->address`, a difference of `unsigned long`s taken as an `off_t`. -/
def deviceOffset : ℤ := (phys - UInt64.ofNat m.address).toInt64.toInt

/-- `pread` of a sector. -/
def devicePread : ℤ × List UInt8 :=
  if deviceOffset m phys < 0 then (-1, [])
  else
    let bs := slice m.bytes (deviceOffset m phys).toNat sectorSize
    (bs.length, bs)

/-- The result of `pwrite` of a sector. -/
def devicePwrite : ℤ :=
  if deviceOffset m phys < 0 then -1
  else (min sectorSize (m.bytes.length - (deviceOffset m phys).toNat) : ℕ)

end Device

/-- How the storage answers in a round: a `pread` fails or gives at most a sector. -/
structure StorageIo where
  pread : Option {bs : List UInt8 // bs.length ≤ sectorSize}
  write : WriteIo

/-- The results of the calls in a round, those on the device file from what it holds then. -/
def answersOf (storage : ℕ → StorageIo) (k : ℕ) (d : Daemon) (r : Round) : SectorIo where
  memRead := devicePread d.rmem r.phys
  memWrite := devicePwrite d.rmem r.phys
  pread :=
    match (storage k).pread with
    | none => (-1, [])
    | some bs => (bs.val.length, bs.val)
  write := (storage k).write

/-! ### Sectors inside and outside of the region -/

/-- The region has its bytes and ends below `2 ^ 64`. -/
structure RmtfsMem.Sized (m : RmtfsMem) : Prop where
  length : m.bytes.length = m.size
  end_lt : m.address + m.size < 2 ^ 64

/-- A sector of the region. -/
def RmtfsMem.Inside (m : RmtfsMem) (phys : UInt64) : Prop :=
  m.address ≤ phys.toNat ∧ phys.toNat + 512 ≤ m.address + m.size

instance (m : RmtfsMem) (phys : UInt64) : Decidable (m.Inside phys) :=
  inferInstanceAs (Decidable (_ ∧ _))

section Inside

variable {m : RmtfsMem} {phys : UInt64}

theorem rmtfsMemPtr_eq (hend : m.address + m.size < 2 ^ 64) (hphys : phys.toNat < 2 ^ 63) :
    rmtfsMemPtr m phys.toNat sectorSize = if m.Inside phys then some (phys.toNat - m.address)
      else none := by
  rw [rmtfsMemPtr, Nat.mod_eq_of_lt (by dsimp only [sectorSize]; omega), Nat.mod_eq_of_lt hend]
  by_cases h : m.Inside phys
  · rw [if_pos h, if_neg]
    unfold RmtfsMem.Inside at h
    dsimp only [sectorSize]
    omega
  · rw [if_neg h, if_pos]
    unfold RmtfsMem.Inside at h
    dsimp only [sectorSize]
    omega

/-- An address in front of the region gives a negative offset, or if the region lies in the upper
half of the addresses one behind the end of the file. -/
theorem deviceOffset_cases (hm : m.Sized) (hphys : phys.toNat < 2 ^ 63) :
    (m.address ≤ phys.toNat ∧ deviceOffset m phys = (phys.toNat - m.address : ℕ)) ∨
      (phys.toNat < m.address ∧
        (deviceOffset m phys < 0 ∨ (m.size : ℤ) < deviceOffset m phys)) := by
  have hend := hm.end_lt
  have hsub : (phys - UInt64.ofNat m.address).toNat =
      (2 ^ 64 - m.address + phys.toNat) % 2 ^ 64 := by
    have haddr : (UInt64.ofNat m.address).toNat = m.address := by
      rw [UInt64.toNat_ofNat', Nat.mod_eq_of_lt (by omega)]
    rw [UInt64.toNat_sub, haddr]
  have hint : deviceOffset m phys = if 2 * (phys - UInt64.ofNat m.address).toNat < 2 ^ 64
      then ((phys - UInt64.ofNat m.address).toNat : ℤ)
      else (phys - UInt64.ofNat m.address).toNat - 2 ^ 64 := BitVec.toInt_eq_toNat_cond _
  rw [hint, hsub]
  by_cases hle : m.address ≤ phys.toNat
  · left
    have hmod : (2 ^ 64 - m.address + phys.toNat) % 2 ^ 64 = phys.toNat - m.address := by omega
    rw [hmod, if_pos (by omega)]
    exact ⟨hle, rfl⟩
  · right
    have hmod : (2 ^ 64 - m.address + phys.toNat) % 2 ^ 64 = 2 ^ 64 - m.address + phys.toNat := by
      omega
    rw [hmod]
    split_ifs <;> omega

/-- The file transfers all of a sector of the region. -/
theorem RmtfsMem.Inside.transfers (hm : m.Sized) (h : m.Inside phys) (hphys : phys.toNat < 2 ^ 63) :
    devicePread m phys = (512, slice m.bytes (phys.toNat - m.address) 512) ∧
    devicePwrite m phys = 512 := by
  obtain ⟨hstart, hstop⟩ := h
  have hlen := hm.length
  rcases deviceOffset_cases hm hphys with ⟨-, hoffset⟩ | ⟨hlt, -⟩
  · constructor
    · rw [devicePread, hoffset, if_neg (by omega)]
      dsimp only [sectorSize]
      rw [Int.toNat_natCast, length_slice (by omega)]
      rfl
    · rw [devicePwrite, hoffset, if_neg (by omega), Int.toNat_natCast]
      dsimp only [sectorSize]
      omega
  · omega

theorem RmtfsMem.Sized.short (hm : m.Sized) (h : ¬ m.Inside phys) (hphys : phys.toNat < 2 ^ 63) :
    (devicePread m phys).1 ≠ 512 ∧ devicePwrite m phys ≠ 512 := by
  have hlen := hm.length
  have hcount : deviceOffset m phys < 0 ∨ m.bytes.length - (deviceOffset m phys).toNat < 512 := by
    unfold RmtfsMem.Inside at h
    rcases deviceOffset_cases hm hphys with ⟨hle, hoffset⟩ | ⟨hlt, hneg | hbehind⟩
    · right
      rw [hoffset, Int.toNat_natCast]
      omega
    · exact Or.inl hneg
    · right
      omega
  constructor
  · unfold devicePread
    split_ifs with hneg
    · decide
    · simp only [slice, sectorSize, List.length_take, List.length_drop]
      omega
  · unfold devicePwrite
    split_ifs with hneg
    · decide
    · dsimp only [sectorSize]
      omega

theorem RmtfsMem.Inside.memRead (hm : m.Sized) (h : m.Inside phys) (hphys : phys.toNat < 2 ^ 63) :
    rmtfsMemRead m (devicePread m phys) phys.toNat sectorSize =
      (512, slice m.bytes (phys.toNat - m.address) 512) := by
  unfold rmtfsMemRead
  split_ifs with hmapped
  · rw [rmtfsMemPtr_eq hm.end_lt hphys, if_pos h]
    rfl
  · rw [(h.transfers hm hphys).1]
    exact congrArg (Prod.mk _) (List.take_of_length_le (List.length_take_le _ _))

theorem RmtfsMem.Inside.memWrite {buf : List UInt8} (hm : m.Sized) (h : m.Inside phys)
    (hphys : phys.toNat < 2 ^ 63) (hbuf : buf.length = sectorSize) :
    rmtfsMemWrite m (devicePwrite m phys) phys.toNat buf =
      (512, { m with bytes := splice m.bytes (phys.toNat - m.address) buf }) := by
  unfold rmtfsMemWrite
  split_ifs with hmapped
  · rw [hbuf, rmtfsMemPtr_eq hm.end_lt hphys, if_pos h]
    rfl
  · rw [(h.transfers hm hphys).2, List.take_of_length_le (by rw [hbuf]; decide)]

/-- Both fail at any other sector. -/
theorem RmtfsMem.Sized.memRead_ne (hm : m.Sized) (h : ¬ m.Inside phys)
    (hphys : phys.toNat < 2 ^ 63) :
    (rmtfsMemRead m (devicePread m phys) phys.toNat sectorSize).1 ≠ 512 := by
  unfold rmtfsMemRead
  split_ifs with hmapped
  · rw [rmtfsMemPtr_eq hm.end_lt hphys, if_neg h]
    exact (by decide : (-22 : ℤ) ≠ 512)
  · exact (hm.short h hphys).1

theorem RmtfsMem.Sized.memWrite_ne {buf : List UInt8} (hm : m.Sized) (h : ¬ m.Inside phys)
    (hphys : phys.toNat < 2 ^ 63) (hbuf : buf.length = sectorSize) :
    (rmtfsMemWrite m (devicePwrite m phys) phys.toNat buf).1 ≠ 512 := by
  unfold rmtfsMemWrite
  split_ifs with hmapped
  · rw [hbuf, rmtfsMemPtr_eq hm.end_lt hphys, if_neg h]
    exact (by decide : (-22 : ℤ) ≠ 512)
  · exact (hm.short h hphys).2

end Inside

/-! ### A round with either back end -/

/-- The same daemon with the memory mapped or not. -/
def Daemon.via (d : Daemon) (mapped : Bool) : Daemon :=
  { d with rmem := { d.rmem with mapped := mapped } }

/-- The shadow copy has as many bytes as its length says. -/
def RmtFd.ShadowFits (r : RmtFd) : Prop := r.shadowLen ≤ (r.shadowBuf.getD []).length

theorem storagePread_length (cfg : Config) (storage : ℕ → StorageIo) (k : ℕ)
    (d : Daemon) (r : Round)
    {fd : RmtFd} (hfits : fd.ShadowFits) {buf : List UInt8} (hbuf : buf.length = sectorSize)
    (offset : ℕ) :
    (storagePread cfg (answersOf storage k d r).pread fd buf sectorSize offset).2.length =
      sectorSize := by
  unfold storagePread
  split_ifs with hro hneg
  · unfold RmtFd.ShadowFits at hfits
    simp only [slice, sectorSize, List.length_append, List.length_take, List.length_drop,
      List.length_replicate]
    omega
  · exact hbuf
  · unfold answersOf at hneg ⊢
    dsimp only at hneg ⊢
    cases hp : (storage k).pread with
    | none =>
        rw [hp] at hneg
        exact absurd (by decide) hneg
    | some bs =>
        have := bs.property
        dsimp only
        rw [Int.toNat_natCast, List.take_length, List.length_append, List.length_replicate]
        omega

section Round

variable {cfg : Config} {storage : ℕ → StorageIo} {isWrite : Bool} {c : Fin maxCallers}
    {buf : List UInt8}
  {d : Daemon} {r : Round}

/-- What the comparison of the back ends needs of the state of the loop; a request that writes does
not read from a shadow copy. -/
structure Comparable (isWrite : Bool) (c : Fin maxCallers) (buf : List UInt8) (d : Daemon) :
    Prop where
  sized : d.rmem.Sized
  buffer : buf.length = sectorSize
  fits : isWrite = false → (d.table c).ShadowFits

theorem RmtfsMem.Sized.via (h : d.rmem.Sized) (mapped : Bool) : (d.via mapped).rmem.Sized :=
  ⟨h.length, h.end_lt⟩

theorem iovecSector_write {io : SectorIo} {phys : ℕ} {bytes : List UInt8}
    (h : rmtfsMemRead d.rmem io.memRead phys sectorSize = (512, bytes)) (offset : ℕ) :
    iovecSector cfg io true c phys offset buf d =
      ((storagePwrite cfg io.write (d.table c) bytes offset).1, bytes,
        { d with
          table := Function.update d.table c
            (storagePwrite cfg io.write (d.table c) bytes offset).2 }) := by
  rw [iovecSector, if_pos rfl, h]
  exact if_pos rfl

theorem iovecSector_unread {io : SectorIo} {phys : ℕ}
    (h : (rmtfsMemRead d.rmem io.memRead phys sectorSize).1 ≠ 512) (offset : ℕ) :
    iovecSector cfg io true c phys offset buf d =
      ((rmtfsMemRead d.rmem io.memRead phys sectorSize).1, buf, d) := by
  rw [iovecSector, if_pos rfl]
  exact if_neg h

/-- In a round on a sector of the region the back end makes no difference. -/
theorem iovecSector_inside (cfg : Config) (storage : ℕ → StorageIo)
    (hd : Comparable isWrite c buf d)
    (hphys : r.phys.toNat < 2 ^ 63) (h : d.rmem.Inside r.phys) (k offset : ℕ) :
    ∃ n buf' d', Comparable isWrite c buf' d' ∧ ∀ mapped,
      iovecSector cfg (answersOf storage k (d.via mapped) r) isWrite c
        r.phys.toNat offset buf (d.via mapped) =
        (n, buf', d'.via mapped) := by
  have hlen := hd.sized.length
  have hin := h
  obtain ⟨hstart, hstop⟩ := hin
  cases isWrite with
  | true =>
      set bytes := slice d.rmem.bytes (r.phys.toNat - d.rmem.address) 512 with hbytes
      set w := storagePwrite cfg (storage k).write (d.table c) bytes offset with hw
      have hlength : bytes.length = sectorSize := length_slice (by omega)
      refine ⟨w.1, bytes, { d with table := Function.update d.table c w.2 },
        ⟨hd.sized, hlength, fun hread => absurd hread (by decide)⟩, ?_⟩
      intro mapped
      exact iovecSector_write (RmtfsMem.Inside.memRead (hd.sized.via mapped) h hphys) offset
  | false =>
      set b := (storagePread cfg (answersOf storage k d r).pread (d.table c)
        buf sectorSize offset).2 with hb
      have hblen : b.length = sectorSize :=
        storagePread_length cfg storage k d r (hd.fits rfl) hd.buffer offset
      refine ⟨512, b, { d with rmem := { d.rmem with
        bytes := splice d.rmem.bytes (r.phys.toNat - d.rmem.address) b } },
          ⟨⟨?_, hd.sized.end_lt⟩, hblen, hd.fits⟩, ?_⟩
      · exact (length_splice (by rw [hblen]; dsimp only [sectorSize]; omega)).trans hlen
      · intro mapped
        have hwrite := RmtfsMem.Inside.memWrite (hd.sized.via mapped) h hphys hblen
        rw [iovecSector, if_neg (by decide)]
        exact congrArg (fun m : ℤ × RmtfsMem => (m.1, b, { d.via mapped with rmem := m.2 })) hwrite

/-- In a round on another sector both fail, with the same table. -/
theorem iovecSector_outside (cfg : Config) (storage : ℕ → StorageIo)
    (hd : Comparable isWrite c buf d)
    (hphys : r.phys.toNat < 2 ^ 63) (h : ¬ d.rmem.Inside r.phys) (k offset : ℕ) (mapped : Bool) :
    let s := iovecSector cfg (answersOf storage k (d.via mapped) r) isWrite c r.phys.toNat offset
      buf (d.via mapped)
    s.1 ≠ sectorSize ∧ s.2.2.table = d.table := by
  cases isWrite with
  | true =>
      have hfail := (hd.sized.via mapped).memRead_ne h hphys
      have hround := @iovecSector_unread cfg c buf _ (answersOf storage k (d.via mapped) r)
        _ hfail offset
      dsimp only
      rw [hround]
      exact ⟨hfail, rfl⟩
  | false =>
      have hblen := storagePread_length cfg storage k d r (hd.fits rfl) hd.buffer offset
      exact ⟨(hd.sized.via mapped).memWrite_ne h hphys hblen, rfl⟩

theorem storageCall_via (storage : ℕ → StorageIo) (isWrite : Bool) (hd : d.rmem.Sized)
    (hphys : r.phys.toNat < 2 ^ 63) (k : ℕ) (mapped : Bool) :
    storageCall (answersOf storage k (d.via mapped) r) isWrite r (d.via mapped) =
      if isWrite then
        if d.rmem.Inside r.phys then
          some (.pwrite (slice d.rmem.bytes (r.phys.toNat - d.rmem.address) 512) r.offset)
        else none
      else some (.pread r.offset) := by
  cases isWrite with
  | true =>
      rw [storageCall, if_pos rfl, if_pos rfl]
      by_cases h : d.rmem.Inside r.phys
      · have hread := RmtfsMem.Inside.memRead (hd.via mapped) h hphys
        rw [if_pos h]
        exact (congrArg (fun m : ℤ × List UInt8 =>
          if m.1 = (sectorSize : ℤ) then some (StorageCall.pwrite m.2 r.offset) else none)
            hread).trans (if_pos rfl)
      · rw [if_neg h]
        exact if_neg ((hd.via mapped).memRead_ne h hphys)
  | false => rfl

/-! ### The loops -/

/-- The round and its call of the storage. -/
def Visit.work (v : Visit) : Round × Option StorageCall := (v.round, v.call)

theorem iovecRounds_agree (cfg : Config) (storage : ℕ → StorageIo) {rounds : List Round}
    (hrounds : ∀ r ∈ rounds, r.phys.toNat < 2 ^ 63) : ∀ (k : ℕ) {buf : List UInt8} {d : Daemon},
      Comparable isWrite c buf d →
      let s := iovecRounds cfg (answersOf storage) isWrite c k rounds buf (d.via true)
      let s' := iovecRounds cfg (answersOf storage) isWrite c k rounds buf (d.via false)
      s'.1.map Visit.work = s.1.map Visit.work ∧ s'.2.1 = s.2.1 ∧ s'.2.2.table = s.2.2.table ∧
        (s.2.1 = true → s'.2.2.rmem.bytes = s.2.2.rmem.bytes) := by
  induction rounds with
  | nil =>
      intro k buf d hd
      exact ⟨rfl, rfl, rfl, fun _ => rfl⟩
  | cons r rounds ih =>
      intro k buf d hd
      have hphys := hrounds r List.mem_cons_self
      have hcall := storageCall_via storage isWrite hd.sized hphys k
      dsimp only
      by_cases h : d.rmem.Inside r.phys
      · obtain ⟨n, buf', d', hd', hround⟩ :=
          iovecSector_inside cfg storage hd hphys h k r.offset.toInt.toNat
        simp only [iovecRounds, hround]
        split_ifs with hn
        · exact ⟨by simp [Visit.work, hcall], rfl, rfl, fun h => by cases h⟩
        · obtain ⟨hwork, hrest⟩ :=
            ih (fun r hr => hrounds r (List.mem_cons_of_mem _ hr)) (k + 1) hd'
          refine ⟨?_, hrest⟩
          simp only [List.map_cons, Visit.work, hcall]
          exact congrArg _ hwork
      · have hout := iovecSector_outside cfg storage hd hphys h k r.offset.toInt.toNat
        simp only [iovecRounds, if_pos (hout true).1, if_pos (hout false).1]
        refine ⟨by simp [Visit.work, hcall], trivial, ?_, fun h => by cases h⟩
        rw [(hout true).2, (hout false).2]

end Round

theorem iovecSector_region (cfg : Config) (io : SectorIo) (isWrite : Bool) (c : Fin maxCallers)
    (phys offset : ℕ) (buf : List UInt8) (d : Daemon) :
    (iovecSector cfg io isWrite c phys offset buf d).2.2.rmem.address = d.rmem.address ∧
      (iovecSector cfg io isWrite c phys offset buf d).2.2.rmem.size = d.rmem.size := by
  unfold iovecSector rmtfsMemWrite
  dsimp only
  split_ifs
  · exact ⟨rfl, rfl⟩
  · exact ⟨rfl, rfl⟩
  · split <;> exact ⟨rfl, rfl⟩
  · exact ⟨rfl, rfl⟩

/-- A `memcpy` stays in the region, whatever else happens. -/
theorem iovecRounds_pointer {cfg : Config} {answers : ℕ → Daemon → Round → SectorIo}
    {isWrite : Bool}
    {c : Fin maxCallers} {rounds : List Round} (hrounds : ∀ r ∈ rounds, r.phys.toNat < 2 ^ 63) :
    ∀ {k : ℕ} {buf : List UInt8} {d : Daemon}, d.rmem.address + d.rmem.size < 2 ^ 64 →
      ∀ v ∈ (iovecRounds cfg answers isWrite c k rounds buf d).1, ∀ p ∈ v.pointer,
        d.rmem.address + p = v.round.phys.toNat ∧ p + sectorSize ≤ d.rmem.size := by
  induction rounds with
  | nil =>
      intro k buf d hend v hv
      cases hv
  | cons r rounds ih =>
      intro k buf d hend v hv p hp
      have hhere : ∀ p ∈ memcpyAt r d, d.rmem.address + p = r.phys.toNat ∧
          p + sectorSize ≤ d.rmem.size := by
        intro p hp
        unfold memcpyAt at hp
        rw [rmtfsMemPtr_eq hend (hrounds r List.mem_cons_self)] at hp
        split_ifs at hp with hmapped hin
        · obtain ⟨hstart, hstop⟩ := hin
          obtain rfl : r.phys.toNat - d.rmem.address = p := Option.some.inj hp
          dsimp only [sectorSize]
          omega
        · cases hp
        · cases hp
      obtain ⟨haddr, hsize⟩ := iovecSector_region cfg (answers k d r) isWrite c r.phys.toNat
        r.offset.toInt.toNat buf d
      rw [iovecRounds] at hv
      dsimp only at hv
      split_ifs at hv
      · obtain rfl := List.mem_singleton.mp hv
        exact hhere p hp
      · rcases List.mem_cons.mp hv with rfl | hv
        · exact hhere p hp
        · rw [← haddr, ← hsize]
          exact ih (fun r hr => hrounds r (List.mem_cons_of_mem _ hr))
            (by rw [haddr, hsize]; exact hend) v hv p hp

/-! ### The states and the runs that are compared -/

section Fits

variable {cfg : Config}

theorem storagePwrite_fits {fd : RmtFd} (h : fd.ShadowFits) (io : WriteIo) (buf : List UInt8)
    (offset : ℕ) :
    (storagePwrite cfg io fd buf offset).2.ShadowFits := by
  unfold storagePwrite
  dsimp only
  split_ifs
  · exact h
  · cases io.realloc with
    | none => exact h
    | some fresh =>
        refine le_trans ?_ (length_le_splice _ _ _)
        simp only [realloc, List.length_append, List.length_take, window_length]
        omega
  · unfold RmtFd.ShadowFits at h ⊢
    cases hbuf : fd.shadowBuf with
    | none => simpa [hbuf] using h
    | some block =>
        rw [hbuf] at h
        exact h.trans (length_le_splice _ _ _)
  · exact h

theorem storagePopulateShadowBuf_fits {p : Populate} {fd fd' : RmtFd}
    (h : storagePopulateShadowBuf p fd = some fd') : fd'.ShadowFits := by
  cases p with
  | contents len bs =>
      obtain rfl : _ = fd' := Option.some.inj h
      simp [RmtFd.ShadowFits]
  | _ => cases h

/-- Every slot fits. -/
def Fits (t : Table) : Prop := ∀ c, (t c).ShadowFits

theorem Fits.update {t : Table} (h : Fits t) {fd : RmtFd} (hfd : fd.ShadowFits)
    (slot : Fin maxCallers) :
    Fits (Function.update t slot fd) :=
  (Function.forall_update_iff t fun _ r => r.ShadowFits).mpr ⟨hfd, fun c _ => h c⟩

theorem Fits.open {t : Table} (h : Fits t) (fs : FileSystem) (node : ℕ) (path : String) :
    Fits (storageOpen cfg fs t node path).2 := by
  rcases storageOpen_spec cfg fs t node path with
    ⟨hopen, -⟩ | ⟨part, -, ⟨c, hopen, -⟩ | ⟨c, r, hopen, -, -, hr⟩⟩
  · rw [hopen]
    exact h
  · rw [hopen]
    exact h
  · rw [hopen]
    refine h.update ?_ c
    cases hr with
    | shadow _ hpop =>
        have hfits := storagePopulateShadowBuf_fits hpop
        exact hfits
    | file _ _ => exact Nat.zero_le _

theorem Fits.iovecSector {d : Daemon} (h : Fits d.table) (io : SectorIo) (isWrite : Bool)
    (c : Fin maxCallers)
    (phys offset : ℕ) (buf : List UInt8) :
    Fits (Rmtfs.iovecSector cfg io isWrite c phys offset buf d).2.2.table := by
  unfold Rmtfs.iovecSector
  dsimp only
  split_ifs
  · exact h.update (storagePwrite_fits (h c) _ _ _) c
  · exact h
  · exact h

theorem Fits.iovecLoop {io : ℕ → SectorIo} {isWrite : Bool} {c : Fin maxCallers}
    {ss : List (ℕ × ℕ)} :
    ∀ {d : Daemon}, Fits d.table → ∀ (k : ℕ) (buf : List UInt8),
      Fits (Rmtfs.iovecLoop cfg io isWrite c k ss buf d).2.table := by
  induction ss with
  | nil =>
      intro d h k buf
      exact h
  | cons s ss ih =>
      intro d h k buf
      rw [Rmtfs.iovecLoop]
      split_ifs
      · exact h.iovecSector _ _ _ _ _ _
      · exact ih (h.iovecSector _ _ _ _ _ _) _ _

theorem Fits.step {d d' : Daemon} {i : Input} {reply : Reply} (h : Fits d.table)
    (hstep : Rmtfs.step cfg d i = .ok (reply, d')) : Fits d'.table := by
  unfold Rmtfs.step at hstep
  cases hreq : i.req with
  | «open» path =>
      rw [hreq] at hstep
      have htable : (rmtfsOpen cfg i d path).2.table =
          (storageOpen cfg i.fs d.table i.node path).2 := by
        unfold rmtfsOpen
        split <;> simp_all
      obtain rfl : (rmtfsOpen cfg i d path).2 = d' := congrArg Prod.snd (Except.ok.inj hstep)
      rw [htable]
      exact h.open _ _ _
  | close callerId =>
      rw [hreq] at hstep
      dsimp only [rmtfsClose] at hstep
      split at hstep
      · cases hstep
      · cases hstep
        exact h
      · cases hstep
        exact h.update (Nat.zero_le _) _
  | iovec r =>
      rw [hreq] at hstep
      dsimp only [rmtfsIovec] at hstep
      split at hstep
      · cases hstep
      · split_ifs at hstep
        cases hstep
        exact h
      · cases hstep
        exact h.iovecLoop _ _

/-- So it holds in every state of the daemon. -/
theorem fits_of_run {rmem : RmtfsMem} {root : Option String} {ro parts : Bool} {h : List Entry}
    {d : Daemon}
    (hrun : RunFrom rmem root ro parts (fun _ _ _ => True) h d) : Fits d.table := by
  refine @Runs.Run.invariant _ _ _ _ _ _ _ (fun _ d => Fits d.table) ?_ ?_ _ _ hrun
  · intro c
    exact Nat.zero_le _
  · intro h d i reply d' hfits _ hstep
    exact hfits.step hstep

end Fits

theorem iovecLoop_congr {cfg : Config} {io io' : ℕ → SectorIo} {isWrite : Bool} {c : Fin maxCallers}
    {ss : List (ℕ × ℕ)} : ∀ {k : ℕ} {buf : List UInt8} {d : Daemon}, (∀ j, k ≤ j → io j = io' j) →
      iovecLoop cfg io isWrite c k ss buf d = iovecLoop cfg io' isWrite c k ss buf d := by
  induction ss with
  | nil =>
      intro k buf d h
      rfl
  | cons s ss ih =>
      intro k buf d h
      simp only [iovecLoop, h k le_rfl]
      rw [ih fun j hj => h j (by omega)]

/-- Answers that depend on the state are answers: a run that gets them is a run of the loop. -/
theorem exists_iovecLoop (cfg : Config) (answers : ℕ → Daemon → Round → SectorIo) (isWrite : Bool)
    (c : Fin maxCallers) (rounds : List Round) : ∀ (k : ℕ) (buf : List UInt8) (d : Daemon),
      ∃ io, (iovecRounds cfg answers isWrite c k rounds buf d).2 =
        iovecLoop cfg io isWrite c k (rounds.map Round.place) buf d := by
  induction rounds with
  | nil =>
      intro k buf d
      exact ⟨fun _ => ⟨(0, []), 0, (0, []), ⟨0, none⟩⟩, rfl⟩
  | cons r rounds ih =>
      intro k buf d
      set s := iovecSector cfg (answers k d r) isWrite c r.phys.toNat r.offset.toInt.toNat
        buf d with hs
      obtain ⟨io, hio⟩ := ih (k + 1) s.2.1 s.2.2
      refine ⟨Function.update io k (answers k d r), ?_⟩
      have hlater : ∀ j, k + 1 ≤ j → Function.update io k (answers k d r) j = io j := by
        intro j hj
        exact Function.update_of_ne (by omega) _ _
      simp only [iovecRounds, List.map_cons, Round.place, iovecLoop, Function.update_self]
      rw [iovecLoop_congr hlater, ← hs]
      split_ifs
      · rfl
      · exact hio

/-- The handling with answers that do not depend on the state. -/
def Handling.fixed (h : Handling) (io : ℕ → SectorIo) : Handling :=
  { h with answers := fun k _ _ => io k }

/-- So is the handling of a whole request one of `rmtfs_iovec`. -/
theorem Handling.exists_run (h : Handling) (fs : FileSystem) : ∃ io,
    rmtfsIovec h.cfg ⟨h.node, .iovec h.req.req, fs, io, h.stack⟩ h.daemon h.req.req =
      h.outcome.map Prod.snd := by
  have hfixed : ∀ io, rmtfsIovec h.cfg ⟨h.node, .iovec h.req.req, fs, io, h.stack⟩
      h.daemon h.req.req =
      (h.fixed io).outcome.map Prod.snd := by
    intro io
    exact rmtfsIovecVisits_eq h.cfg ⟨h.node, .iovec h.req.req, fs, io, h.stack⟩ h.daemon h.req
  cases hget : h.lookup with
  | outside =>
      refine ⟨fun _ => ⟨(0, []), 0, (0, []), ⟨0, none⟩⟩, ?_⟩
      rw [hfixed, Handling.outcome_outside hget, Handling.outcome_outside (h := h.fixed _) hget]
  | null =>
      refine ⟨fun _ => ⟨(0, []), 0, (0, []), ⟨0, none⟩⟩, ?_⟩
      rw [hfixed, Handling.outcome_null hget, Handling.outcome_null (h := h.fixed _) hget]
      rfl
  | slot c =>
      obtain ⟨io, hio⟩ := exists_iovecLoop h.cfg h.answers (h.req.direction ≠ 0) c
        (h.req.iovec.flatMap entryRounds) 0 h.stack h.daemon
      have hrounds : ((h.fixed io).rounds c).2 = (h.rounds c).2 :=
        (iovecRounds_loop h.cfg io _ c _ 0 h.stack h.daemon).trans hio.symm
      refine ⟨io, ?_⟩
      rw [hfixed, Handling.outcome_slot hget, Handling.outcome_slot (h := h.fixed io) hget]
      simp only [Except.map, hrounds]

/-! ### Whole requests -/

/-- What a request meets, but for the back end: the table, whose shadow copies have the bytes they
should have, a region that ends below `2 ^ 64`, and a storage that may answer in any way. -/
structure Setting where
  cfg : Config
  table : Table
  table_fits : Fits table
  address : ℕ
  bytes : List UInt8
  end_lt : address + bytes.length < 2 ^ 64
  storage : ℕ → StorageIo
  node : ℕ
  stack : List UInt8
  stack_length : stack.length = sectorSize

/-- A request with either back end. -/
def Setting.handling (s : Setting) (r : WireReq) (mapped : Bool) : Handling where
  cfg := s.cfg
  answers := answersOf s.storage
  node := s.node
  stack := s.stack
  daemon := ⟨s.table, ⟨s.address, s.bytes.length, mapped, s.bytes⟩⟩
  req := r

/-- The same fault; or the same reply, the same rounds and calls of the storage, the same table, and
after a success the same bytes in the region. -/
def Agree : Except Fault (List Visit × Reply × Daemon) → Except Fault
    (List Visit × Reply × Daemon) → Prop
  | .error f, .error f' => f' = f
  | .ok (vs, reply, d), .ok (vs', reply', d') =>
      reply' = reply ∧ vs'.map Visit.work = vs.map Visit.work ∧ d'.table = d.table ∧
        (reply = .success → d'.rmem.bytes = d.rmem.bytes)
  | _, _ => False

theorem entryRounds_phys_lt {es : List WireEntry} :
    ∀ r ∈ es.flatMap entryRounds, r.phys.toNat < 2 ^ 63 := by
  intro r hr
  obtain ⟨e, -, he⟩ := List.mem_flatMap.mp hr
  obtain ⟨-, hindex, hphys, -⟩ := round_values he
  have hnum := e.numSector.toNat_lt
  have hoffset := e.physOffset.toNat_lt
  omega

theorem Setting.rounds_agree (s : Setting) (r : WireReq) (c : Fin maxCallers) :
    ((s.handling r false).rounds c).1.map Visit.work =
      ((s.handling r true).rounds c).1.map Visit.work ∧
      ((s.handling r false).rounds c).2.1 = ((s.handling r true).rounds c).2.1 ∧
      ((s.handling r false).rounds c).2.2.table = ((s.handling r true).rounds c).2.2.table ∧
      (((s.handling r true).rounds c).2.1 = true →
        ((s.handling r false).rounds c).2.2.rmem.bytes =
          ((s.handling r true).rounds c).2.2.rmem.bytes) := by
  have hd : Comparable (decide (r.direction ≠ 0)) c s.stack (s.handling r true).daemon :=
    ⟨⟨rfl, s.end_lt⟩, s.stack_length, fun _ => s.table_fits c⟩
  exact iovecRounds_agree s.cfg s.storage entryRounds_phys_lt 0 hd

/-- **The back ends agree**: a request is handled alike with the memory mapped and through its
device file, and with the memory mapped every access lies in the region. -/
theorem backends_agree (s : Setting) (r : WireReq) :
    Agree (s.handling r true).outcome (s.handling r false).outcome ∧
      ∀ v ∈ (s.handling r true).visits, ∀ p ∈ v.pointer,
        s.address + p = v.round.phys.toNat ∧ p + sectorSize ≤ s.bytes.length := by
  constructor
  · cases hget : (s.handling r true).lookup with
    | outside =>
        rw [Handling.outcome_outside hget, Handling.outcome_outside (h := s.handling r false) hget]
        rfl
    | null =>
        rw [Handling.outcome_null hget, Handling.outcome_null (h := s.handling r false) hget]
        change Agree (if r.direction ≠ 0 ∧ ¬ s.cfg.readOnly then _ else _)
          (if r.direction ≠ 0 ∧ ¬ s.cfg.readOnly then _ else _)
        split_ifs
        · rfl
        · exact ⟨rfl, rfl, rfl, fun _ => rfl⟩
    | slot c =>
        obtain ⟨hwork, hok, htable, hbytes⟩ := s.rounds_agree r c
        rw [Handling.outcome_slot hget, Handling.outcome_slot (h := s.handling r false) hget]
        refine ⟨by rw [hok], hwork, htable, ?_⟩
        intro hreply
        apply hbytes
        by_contra hfail
        rw [if_neg hfail] at hreply
        exact absurd hreply (by decide)
  · intro v hv
    obtain ⟨c, -, hv⟩ := Handling.exists_slot hv
    exact iovecRounds_pointer entryRounds_phys_lt s.end_lt v hv

/-- The table after node 1 has opened a partition in read-only mode. -/
def copiedTable : Table :=
  (storageOpen (storageInit none true false).1 (ask 1 (.open "/boot/modem_fs1")).fs
    (storageInit none true false).2 1 "/boot/modem_fs1").2

theorem copiedTable_fits : Fits copiedTable := by
  have hrun : RunFrom ⟨0, 0, false, []⟩ none true false (fun _ _ _ => True) openedByOne
      ⟨copiedTable, ⟨0, 0, false, []⟩⟩ := .snoc .nil trivial rfl
  exact fits_of_run hrun

theorem zeroSector_length : (List.replicate 512 (0 : UInt8)).length = sectorSize :=
  List.length_replicate

/-- A region of one sector at 4096, and a storage with no memory for a longer copy. -/
def copied : Setting where
  cfg := (storageInit none true false).1
  table := copiedTable
  table_fits := copiedTable_fits
  address := 4096
  bytes := List.replicate 512 0
  end_lt := by rw [zeroSector_length]; decide
  storage := fun _ => ⟨none, 0, none⟩
  node := 1
  stack := List.replicate 512 0
  stack_length := zeroSector_length

/-- Sector 0 of the copy is read into the region, through either back end. -/
theorem backends_agree_copied :
    (∀ mapped, (copied.handling ⟨0, 0, [⟨0, 4096, 1⟩], 0⟩ mapped).outcome.toOption.map
      (fun r => (r.2.1, r.2.2.rmem.bytes.take 2)) = some (.success, [7, 0])) ∧
    Agree (copied.handling ⟨0, 0, [⟨0, 4096, 1⟩], 0⟩ true).outcome
      (copied.handling ⟨0, 0, [⟨0, 4096, 1⟩], 0⟩ false).outcome :=
  ⟨by decide +kernel, (backends_agree copied ⟨0, 0, [⟨0, 4096, 1⟩], 0⟩).1⟩

end Imola.Rmtfs
