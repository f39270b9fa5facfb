import Imola.RmtfsSectors

/-! # What a read of `rmtfs` delivers

In read-write mode a sector goes from the file to the shared memory through `pread`, two `memset`s
that fill up a short read, and `rmtfs_mem_write`.  `storagePreadFile` and `iovecRead` are this path
with the integers of the source; they agree with `iovecSector` of `RmtfsRequests.lean`
(`iovecRead_eq`).

A failed `pread` gives `-1`, which `storage_pread` compares with a `size_t`.  It is then no short
read, the buffer stays as it was, and the result is a full sector.  So a read is truthful exactly
when the shared memory refuses every sector whose `pread` failed (`truthful_reading_iff`). -/

namespace Imola.Rmtfs

open Imola.Splice

/-! ### A sector from the file -/

/-- `char buf[SECTOR_SIZE]`. -/
structure SectorBuf where
  bytes : List UInt8
  length_eq : bytes.length = sectorSize

/-- The bytes that a `pread` of a sector stores: any count up to the sector. -/
structure ShortRead where
  bytes : List UInt8
  length_le : bytes.length ≤ sectorSize

/-- What the client should get. -/
def ShortRead.filled (r : ShortRead) : List UInt8 :=
  r.bytes ++ List.replicate (sectorSize - r.bytes.length) 0

theorem ShortRead.filled_length (r : ShortRead) : r.filled.length = sectorSize := by
  have hle := r.length_le
  rw [ShortRead.filled, List.length_append, List.length_replicate]
  omega

/-- The results of the calls for one sector.  `pread` may fail; `memWrite` is the result of the
`pwrite` to a shared memory that is not mapped. -/
structure ReadIo where
  pread : Option ShortRead
  memWrite : ℤ

/-- The results as `iovecSector` takes them. -/
def ReadIo.sectorIo (io : ReadIo) : SectorIo where
  memRead := (0, [])
  memWrite := io.memWrite
  pread := match io.pread with
    | none => (-1, [])
    | some r => (r.bytes.length, r.bytes)
  write := ⟨0, none⟩

/-- `memset(buf + n, 0, SECTOR_SIZE - n)`. -/
def clearFrom (buf : List UInt8) (n : ℕ) : List UInt8 :=
  splice buf n (List.replicate (sectorSize - n) 0)

/-- The `ssize_t` that `pread` returns, and its buffer. -/
def preadFile (pread : Option ShortRead) (buf : List UInt8) : Int64 × List UInt8 :=
  match pread with
  | none => (-1, buf)
  | some r => (Int64.ofNat r.bytes.length, splice buf 0 r.bytes)

/-- `storage_pread` of a sector in read-write mode; `n < nbyte` is a comparison of `size_t`. -/
def storagePreadFile (pread : Option ShortRead) (buf : List UInt8) : Int64 × List UInt8 :=
  let p := preadFile pread buf
  (512, if p.1.toUInt64 < 512 then clearFrom p.2 p.1.toInt.toNat else p.2)

/-- A round of the sector loop that reads: `n`, the sector buffer and the state after it. -/
def iovecRead (io : ReadIo) (phys : ℕ) (buf : List UInt8) (d : Daemon) : ℤ × List UInt8 × Daemon :=
  let p := storagePreadFile io.pread buf
  if 0 ≤ p.1 then
    let b := if p.1 < 512 then clearFrom p.2 p.1.toInt.toNat else p.2
    let m := rmtfsMemWrite d.rmem io.memWrite phys b
    (m.1, b, { d with rmem := m.2 })
  else (p.1.toInt, p.2, d)

section Sector

variable {buf : List UInt8}

theorem clearFrom_splice (hbuf : buf.length = sectorSize) (r : ShortRead) :
    clearFrom (splice buf 0 r.bytes) r.bytes.length = r.filled := by
  have happend := splice_append (s := r.bytes) (t := List.replicate (sectorSize - r.bytes.length) 0)
    (Nat.zero_le buf.length)
  rw [Nat.zero_add] at happend
  have hlen := r.filled_length
  rw [clearFrom, happend]
  change splice buf 0 r.filled = r.filled
  simp [splice, hlen, hbuf]

/-- **`storage_pread`** returns a full sector: the bytes that were read and zeros, or after a
failure the buffer as it was. -/
theorem storagePreadFile_eq (hbuf : buf.length = sectorSize) (pread : Option ShortRead) :
    storagePreadFile pread buf = (512, (pread.map ShortRead.filled).getD buf) := by
  cases pread with
  | none => rfl
  | some r =>
      have hlt : r.bytes.length < 2 ^ 63 := Nat.lt_of_le_of_lt r.length_le (by norm_num)
      have hcount : (Int64.ofNat r.bytes.length).toUInt64.toNat = r.bytes.length := by
        rw [Int64.toUInt64_ofNat', UInt64.toNat_ofNat', Nat.mod_eq_of_lt (by omega)]
      have hint : (Int64.ofNat r.bytes.length).toInt.toNat = r.bytes.length := by
        rw [Int64.toInt_ofNat_of_lt hlt, Int.toNat_natCast]
      have hfilled := clearFrom_splice hbuf r
      simp only [storagePreadFile, preadFile, Option.map_some, Option.getD_some, hint, hfilled]
      split_ifs with hshort
      · rfl
      · have hfull : sectorSize - r.bytes.length = 0 := by
          rw [UInt64.lt_iff_toNat_lt, hcount] at hshort
          exact Nat.sub_eq_zero_of_le (Nat.le_of_not_lt hshort)
        rw [← hfilled, clearFrom, hfull]
        simp [splice]

/-- A round passes what `storage_pread` left in the buffer to the shared memory. -/
theorem iovecRead_eq (hbuf : buf.length = sectorSize) (io : ReadIo) (phys : ℕ) (d : Daemon) :
    iovecRead io phys buf d =
      let b := (io.pread.map ShortRead.filled).getD buf
      let m := rmtfsMemWrite d.rmem io.memWrite phys b
      (m.1, b, { d with rmem := m.2 }) := by
  have hpos : (0 : Int64) ≤ 512 := by decide
  have hfull : ¬ (512 : Int64) < 512 := by decide
  simp only [iovecRead, storagePreadFile_eq hbuf, if_pos hpos, if_neg hfull]

theorem iovecSector_read {cfg : Config} (hro : cfg.readOnly = false)
    (hbuf : buf.length = sectorSize) (io : ReadIo)
    (c : Fin maxCallers) (phys offset : ℕ) (d : Daemon) :
    iovecSector cfg io.sectorIo false c phys offset buf d = iovecRead io phys buf d := by
  have hread : (storagePread cfg io.sectorIo.pread (d.table c) buf sectorSize offset).2 =
      (io.pread.map ShortRead.filled).getD buf := by
    unfold storagePread ReadIo.sectorIo
    cases io.pread with
    | none => simp [hro]
    | some r =>
        have hcount : ¬ (r.bytes.length : ℤ) < 0 := by omega
        simp only [hro, Bool.false_eq_true, if_false, if_neg hcount, Int.toNat_natCast,
          List.take_length]
        rfl
  rw [iovecRead_eq hbuf]
  simp only [iovecSector, Bool.false_eq_true, if_false, hread]
  rfl

end Sector

/-! ### The shared memory -/

/-- `rmtfs_mem_write` copies nothing of a sector. -/
def memRefuses (m : RmtfsMem) (io : ℤ) (phys : ℕ) : Bool :=
  if m.mapped then (rmtfsMemPtr m phys sectorSize).isNone else decide (io ≤ 0)

/-- The bytes `rmtfs_mem_write` copies. -/
def memStored (m : RmtfsMem) (io : ℤ) (phys : ℕ) (buf : List UInt8) : List UInt8 :=
  if m.mapped then
    match rmtfsMemPtr m phys buf.length with
    | none => []
    | some _ => buf
  else buf.take io.toNat

/-- The region with some bytes copied to an address. -/
def RmtfsMem.copy (m : RmtfsMem) (phys : ℕ) (bs : List UInt8) : RmtfsMem :=
  { m with bytes := splice m.bytes (phys - m.address) bs }

section Memory

variable {m : RmtfsMem} {io : ℤ} {phys : ℕ} {buf : List UInt8}

theorem rmtfsMemWrite_snd (m : RmtfsMem) (io : ℤ) (phys : ℕ) (buf : List UInt8) :
    (rmtfsMemWrite m io phys buf).2 = m.copy phys (memStored m io phys buf) := by
  unfold rmtfsMemWrite memStored RmtfsMem.copy rmtfsMemPtr
  split_ifs
  · simp [splice]
  · rfl
  · rfl

theorem memStored_spec (hbuf : buf.length = sectorSize) :
    memStored m io phys buf <+: buf ∧
    ((rmtfsMemWrite m io phys buf).1 = sectorSize → memStored m io phys buf = buf) ∧
    (memStored m io phys buf = [] ↔ memRefuses m io phys = true) ∧
    (memRefuses m io phys = true → (rmtfsMemWrite m io phys buf).1 ≠ sectorSize) := by
  have hne : buf ≠ [] := by
    rintro rfl
    cases hbuf
  unfold memStored rmtfsMemWrite memRefuses
  rw [hbuf]
  by_cases hmap : m.mapped = true
  · simp only [if_pos hmap]
    cases rmtfsMemPtr m phys sectorSize with
    | none => simp
    | some i => simp [hne]
  · simp only [if_neg hmap]
    refine ⟨List.take_prefix _ _, fun hio => ?_, ?_, fun hio heq => ?_⟩
    · rw [hio, Int.toNat_natCast, ← hbuf, List.take_length]
    · rw [List.take_eq_nil_iff, or_iff_left hne, Int.toNat_eq_zero, decide_eq_true_eq]
    · rw [heq, decide_eq_true_eq] at hio
      exact absurd hio (by decide)

end Memory

/-! ### The rounds of a read -/

/-- A round that was made: what `pread` gave, the buffer passed to `rmtfs_mem_write`, whether that
copies nothing, the bytes it copied, and `n`. -/
structure ReadVisit where
  round : Round
  pread : Option ShortRead
  sector : List UInt8
  refused : Bool
  stored : List UInt8
  n : ℤ

/-- The record of a round. -/
def readVisit (io : ReadIo) (r : Round) (buf : List UInt8) (d : Daemon) : ReadVisit :=
  let s := iovecRead io r.phys.toNat buf d
  ⟨r, io.pread, s.2.1, memRefuses d.rmem io.memWrite r.phys.toNat,
    memStored d.rmem io.memWrite r.phys.toNat s.2.1, s.1⟩

/-- The sector loop of a read, with a record of its rounds. -/
def readRounds (answers : ℕ → Daemon → Round → ReadIo) :
    ℕ → List Round → List UInt8 → Daemon → List ReadVisit × Bool × Daemon
  | _, [], _, d => ([], true, d)
  | k, r :: rest, buf, d =>
      let io := answers k d r
      let s := iovecRead io r.phys.toNat buf d
      let v := readVisit io r buf d
      if s.1 ≠ sectorSize then ([v], false, s.2.2)
      else
        let t := readRounds answers (k + 1) rest s.2.1 s.2.2
        (v :: t.1, t.2)

/-- What holds of every round. -/
structure ReadVisit.Sound (v : ReadVisit) : Prop where
  filled : ∀ r ∈ v.pread, v.sector = r.filled
  stored_prefix : v.stored <+: v.sector
  stored_full : v.n = sectorSize → v.stored = v.sector
  refused_iff : v.stored = [] ↔ v.refused = true
  refused_ne : v.refused = true → v.n ≠ sectorSize

/-- The region after the copies of some rounds. -/
def RmtfsMem.copyAll (m : RmtfsMem) (visits : List ReadVisit) : RmtfsMem :=
  visits.foldl (fun m v => m.copy v.round.phys.toNat v.stored) m

section Rounds

variable {answers : ℕ → Daemon → Round → ReadIo} {buf : List UInt8}

theorem iovecRead_length (hbuf : buf.length = sectorSize) (io : ReadIo) (phys : ℕ) (d : Daemon) :
    (iovecRead io phys buf d).2.1.length = sectorSize := by
  rw [iovecRead_eq hbuf]
  cases io.pread with
  | none => exact hbuf
  | some r => exact r.filled_length

theorem readVisit_sound (hbuf : buf.length = sectorSize) (io : ReadIo) (r : Round) (d : Daemon) :
    (readVisit io r buf d).Sound := by
  have hlen := iovecRead_length hbuf io r.phys.toNat d
  unfold readVisit
  rw [iovecRead_eq hbuf] at hlen ⊢
  obtain ⟨hstart, hfull, hnil, hne⟩ := @memStored_spec d.rmem io.memWrite r.phys.toNat _ hlen
  refine ⟨?_, hstart, hfull, hnil, hne⟩
  intro s hs
  dsimp only at hs ⊢
  rw [hs]
  rfl

/-- A round copies the bytes of its record. -/
theorem iovecRead_rmem (hbuf : buf.length = sectorSize) (io : ReadIo) (r : Round) (d : Daemon) :
    (iovecRead io r.phys.toNat buf d).2.2.rmem = d.rmem.copy r.phys.toNat
      (readVisit io r buf d).stored := by
  unfold readVisit
  rw [iovecRead_eq hbuf]
  exact rmtfsMemWrite_snd ..

theorem readRounds_eq {cfg : Config} (hro : cfg.readOnly = false) (c : Fin maxCallers)
    (rounds : List Round) :
    ∀ {k : ℕ} {buf : List UInt8} {d : Daemon}, buf.length = sectorSize →
      (readRounds answers k rounds buf d).2 =
        (iovecRounds cfg (fun k d r => (answers k d r).sectorIo) false c k rounds buf d).2 := by
  induction rounds with
  | nil =>
      intro k buf d hbuf
      rfl
  | cons r rounds ih =>
      intro k buf d hbuf
      simp only [readRounds, iovecRounds, iovecSector_read hro hbuf]
      split_ifs
      · rfl
      · exact ih (iovecRead_length hbuf _ _ _)

/-- Every round is sound, a round that failed is seen in the result, and the region holds what was
copied. -/
theorem readRounds_spec (rounds : List Round) :
    ∀ {k : ℕ} {buf : List UInt8} {d : Daemon}, buf.length = sectorSize →
    (∀ v ∈ (readRounds answers k rounds buf d).1, v.Sound ∧
      (v.n ≠ sectorSize → (readRounds answers k rounds buf d).2.1 = false)) ∧
    (readRounds answers k rounds buf d).2.2.rmem =
      d.rmem.copyAll (readRounds answers k rounds buf d).1 := by
  induction rounds with
  | nil =>
      intro k buf d hbuf
      refine ⟨fun v hv => ?_, rfl⟩
      cases hv
  | cons r rounds ih =>
      intro k buf d hbuf
      have hsound := readVisit_sound hbuf (answers k d r) r d
      have hlen := iovecRead_length hbuf (answers k d r) r.phys.toNat d
      have hmem := iovecRead_rmem hbuf (answers k d r) r d
      simp only [readRounds]
      split_ifs with hn
      · refine ⟨?_, hmem⟩
        intro v hv
        obtain rfl := List.mem_singleton.mp hv
        exact ⟨hsound, fun _ => rfl⟩
      · obtain ⟨hrest, hafter⟩ :=
          @ih (k + 1) _ (iovecRead (answers k d r) r.phys.toNat buf d).2.2 hlen
        refine ⟨?_, ?_⟩
        · intro v hv
          rcases List.mem_cons.mp hv with rfl | hv
          · exact ⟨hsound, fun hne => absurd hne hn⟩
          · exact hrest v hv
        · rw [hafter, hmem]
          rfl

end Rounds

/-! ### Every read request -/

/-- A read request in read-write mode, and what it meets. -/
structure Reading where
  cfg : Config
  readWrite : cfg.readOnly = false
  answers : ℕ → Daemon → Round → ReadIo
  node : ℕ
  stack : SectorBuf
  daemon : Daemon
  req : WireReq
  isRead : req.direction = 0

namespace Reading

/-- The request as `RmtfsSectors.lean` handles it. -/
def handling (h : Reading) : Handling where
  cfg := h.cfg
  answers := fun k d r => (h.answers k d r).sectorIo
  node := h.node
  stack := h.stack.bytes
  daemon := h.daemon
  req := h.req

/-- The rounds on a slot. -/
def rounds (h : Reading) : List ReadVisit × Bool × Daemon :=
  readRounds h.answers 0 (h.req.iovec.flatMap entryRounds) h.stack.bytes h.daemon

/-- The rounds that are made. -/
def visits (h : Reading) : List ReadVisit :=
  match h.handling.lookup with
  | .slot _ => h.rounds.1
  | _ => []

/-- The reply, if the request gets one. -/
def reply (h : Reading) : Option Reply := h.handling.outcome.toOption.map fun r => r.2.1

/-- The shared memory behind the request. -/
def rmemAfter (h : Reading) : Option RmtfsMem := h.handling.outcome.toOption.map fun r => r.2.2.rmem

theorem outcome_slot (h : Reading) {c : Fin maxCallers} (hget : h.handling.lookup = .slot c) :
    ∃ visits,
    h.handling.outcome =
      .ok (visits, if h.rounds.2.1 then .success else .failure errInternal, h.rounds.2.2) := by
  have hrounds : (h.handling.rounds c).2 = h.rounds.2 := by
    have hdir : decide (h.req.direction ≠ 0) = false := by simp [h.isRead]
    rw [Handling.rounds, handling]
    dsimp only
    rw [hdir, rounds, readRounds_eq h.readWrite c _ h.stack.length_eq]
  rw [Handling.outcome_slot hget, hrounds]
  exact ⟨_, rfl⟩

end Reading

/-- No data is made up: the sectors passed to the shared memory are what `pread` gave, filled up
with zeros, a failed `pread` copies nothing and fails the request, and the region is changed by the
copies only. -/
structure Truthful (h : Reading) : Prop where
  copied : ∀ v ∈ h.visits, ∀ r ∈ v.pread, v.sector = r.filled ∧ v.stored <+: r.filled ∧
    (v.n = sectorSize → v.stored = r.filled)
  failed : ∀ v ∈ h.visits, v.pread = none → v.stored = [] ∧ h.reply = some (.failure errInternal)
  memory : ∀ m ∈ h.rmemAfter, m = h.daemon.rmem.copyAll h.visits

section Truth

variable {h : Reading}

theorem Reading.mem_visits {v : ReadVisit} (hv : v ∈ h.visits) :
    v ∈ h.rounds.1 ∧ ∃ c, h.handling.lookup = .slot c := by
  unfold Reading.visits at hv
  cases hget : h.handling.lookup with
  | slot c =>
      rw [hget] at hv
      exact ⟨hv, c, rfl⟩
  | null =>
      rw [hget] at hv
      cases hv
  | outside =>
      rw [hget] at hv
      cases hv

theorem Reading.visit_sound {v : ReadVisit} (hv : v ∈ h.visits) : v.Sound :=
  ((readRounds_spec _ h.stack.length_eq).1 v (Reading.mem_visits hv).1).1

theorem Reading.reply_of_failed {v : ReadVisit} (hv : v ∈ h.visits) (hn : v.n ≠ sectorSize) :
    h.reply = some (.failure errInternal) := by
  obtain ⟨hmem, c, hget⟩ := Reading.mem_visits hv
  have hfalse : h.rounds.2.1 = false := ((readRounds_spec _ h.stack.length_eq).1 v hmem).2 hn
  obtain ⟨visits, hout⟩ := h.outcome_slot hget
  rw [Reading.reply, hout, hfalse]
  rfl

theorem Reading.memory_eq {m : RmtfsMem} (hm : m ∈ h.rmemAfter) :
    m = h.daemon.rmem.copyAll h.visits := by
  unfold Reading.rmemAfter at hm
  unfold Reading.visits
  cases hget : h.handling.lookup with
  | slot c =>
      obtain ⟨visits, hout⟩ := h.outcome_slot hget
      rw [hout] at hm
      obtain rfl := Option.some.inj hm
      exact (readRounds_spec _ h.stack.length_eq).2
  | null =>
      rw [Handling.outcome_null hget] at hm
      split_ifs at hm
      · cases hm
      · obtain rfl := Option.some.inj hm
        rfl
  | outside =>
      rw [Handling.outcome_outside hget] at hm
      cases hm

end Truth

/-- **Reads**: a read is truthful exactly when every sector whose `pread` failed is refused by the
shared memory. -/
theorem truthful_reading_iff (h : Reading) :
    Truthful h ↔ ∀ v ∈ h.visits, v.pread = none → v.refused = true := by
  constructor
  · intro htrue v hv hfail
    exact (Reading.visit_sound hv).refused_iff.mp (htrue.failed v hv hfail).1
  · intro hrefused
    refine ⟨?_, ?_, fun m hm => Reading.memory_eq hm⟩
    · intro v hv r hr
      have hsound := Reading.visit_sound hv
      have hfilled := hsound.filled r hr
      exact ⟨hfilled, hfilled ▸ hsound.stored_prefix,
        fun hn => (hsound.stored_full hn).trans hfilled⟩
    · intro v hv hfail
      have hsound := Reading.visit_sound hv
      have href := hrefused v hv hfail
      exact ⟨hsound.refused_iff.mpr href, Reading.reply_of_failed hv (hsound.refused_ne href)⟩

theorem staleStack_length : (List.replicate 512 (7 : UInt8)).length = sectorSize :=
  List.length_replicate

/-- A read of sector 0 into mapped memory of zeros, with a `pread` that fails and sevens on the
stack. -/
def staleRead : Reading where
  cfg := (storageInit none false false).1
  readWrite := rfl
  answers := fun _ _ _ => ⟨none, 0⟩
  node := 0
  stack := ⟨List.replicate 512 7, staleStack_length⟩
  daemon := ⟨openedTable, ⟨0, 512, true, List.replicate 512 0⟩⟩
  req := ⟨0, 0, [⟨0, 0, 1⟩], 0⟩
  isRead := rfl

/-- The client is told that its sector was read, and gets the sevens. -/
theorem not_truthful_stale : ¬ Truthful staleRead ∧ staleRead.reply = some .success ∧
    staleRead.rmemAfter.map RmtfsMem.bytes = some (List.replicate 512 7) ∧
    staleRead.visits.map (fun v => (v.pread.isSome, v.stored)) =
      [(false, List.replicate 512 7)] := by
  have hvisits : staleRead.visits.map (fun v => (v.pread.isSome, v.stored)) =
      [(false, List.replicate 512 7)] := by
    decide +kernel
  refine ⟨?_, by decide +kernel, by decide +kernel, hvisits⟩
  intro htrue
  obtain ⟨v, hv, heq⟩ : ∃ v ∈ staleRead.visits, (v.pread.isSome, v.stored) =
      (false, List.replicate 512 7) := by
    apply List.mem_map.mp
    rw [hvisits]
    exact List.mem_singleton.mpr rfl
  obtain ⟨hfail, hstored⟩ := Prod.mk.inj heq
  have hnil := (htrue.failed v hv (Option.isNone_iff_eq_none.mp (by simpa using hfail))).1
  rw [hstored] at hnil
  cases hnil

end Imola.Rmtfs
