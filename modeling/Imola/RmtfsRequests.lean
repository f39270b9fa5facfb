import Imola.RmtfsStorage

/-! # The request handlers of `rmtfs`

`rmtfs.c` answers OPEN, CLOSE and RW_IOVEC requests from the table of `RmtfsStorage.lean` and
the shared memory of `sharedmem.c`.  The requests are those `qmi_decode_message` has accepted.
A handler either gives its reply and the state after it, or a `Fault`: an access outside the
table, or through a NULL handle.

As in the storage layer, the results of the system calls are inputs. -/

namespace Imola.Rmtfs

open Imola.Splice

abbrev sectorSize : ℕ := 512

/-! ### The shared memory -/

/-- `struct rmtfs_mem`: `mapped` when `base` is set, else accessed through its device file;
`bytes` are the contents of the region. -/
structure RmtfsMem where
  address : ℕ
  size : ℕ
  mapped : Bool
  bytes : List UInt8
deriving DecidableEq, Repr

/-- `rmtfs_mem_ptr`, as an index into the region; the sums are 64-bit. -/
def rmtfsMemPtr (m : RmtfsMem) (physAddress len : ℕ) : Option ℕ :=
  if physAddress < m.address ∨ (physAddress + len) % 2 ^ 64 >
    (m.address + m.size) % 2 ^ 64 then none
  else some (physAddress - m.address)

/-- `rmtfs_mem_read`: the result and the bytes stored; `io` is what `pread` gave, if it was
called. -/
def rmtfsMemRead (m : RmtfsMem) (io : ℤ × List UInt8) (physAddress len : ℕ) : ℤ × List UInt8 :=
  if m.mapped then
    match rmtfsMemPtr m physAddress len with
    | none => (-22, [])
    | some i => (len, slice m.bytes i len)
  else (io.1, io.2.take io.1.toNat)

/-- `rmtfs_mem_write`; `io` is the result of `pwrite`, if it was called. -/
def rmtfsMemWrite (m : RmtfsMem) (io : ℤ) (physAddress : ℕ) (buf : List UInt8) : ℤ × RmtfsMem :=
  if m.mapped then
    match rmtfsMemPtr m physAddress buf.length with
    | none => (-22, m)
    | some i => (buf.length, { m with bytes := splice m.bytes i buf })
  else (io, { m with bytes := splice m.bytes (physAddress - m.address) (buf.take io.toNat) })

/-! ### Requests and replies -/

/-- `struct rmtfs_iovec_entry`. -/
structure IovecEntry where
  sectorAddr : ℕ
  physOffset : ℕ
  numSector : ℕ
deriving DecidableEq, Repr

/-- `struct rmtfs_iovec_req`. -/
structure IovecReq where
  callerId : ℕ
  direction : ℕ
  iovec : List IovecEntry
  isForceSync : ℕ
deriving DecidableEq, Repr

/-- The decoded requests. -/
inductive Req where
  | open (path : String)
  | close (callerId : ℕ)
  | iovec (r : IovecReq)
deriving DecidableEq, Repr

/-- `struct rmtfs_qmi_result`, with the caller id of an OPEN response. -/
structure Reply where
  result : ℕ
  error : ℕ
  callerId : Option ℕ
deriving DecidableEq, Repr

/-- `QMI_RMTFS_RESULT_SUCCESS`. -/
def Reply.success : Reply := ⟨0, 0, none⟩

/-- `qmi_result_error` on a fresh result, with `QMI_RMTFS_RESULT_FAILURE`. -/
def Reply.failure (error : ℕ) : Reply := ⟨1, error, none⟩

/-- `QMI_RMTFS_ERR_INTERNAL`. -/
def errInternal : ℕ := 1

/-- Undefined behaviour of a handler. -/
inductive Fault where
  /-- `storage_get` read outside `rmtfds`. -/
  | outsideTable
  /-- `storage_sync` or `storage_get_error` read through NULL. -/
  | nullHandle
deriving DecidableEq, Repr

/-- The results of the calls made for one sector. -/
structure SectorIo where
  memRead : ℤ × List UInt8
  memWrite : ℤ
  pread : ℤ × List UInt8
  write : WriteIo

/-- The table and the shared memory. -/
structure Daemon where
  table : Table
  rmem : RmtfsMem

/-- A request as it arrives: the sender's node, and the environment it meets. -/
structure Input where
  node : ℕ
  req : Req
  fs : FileSystem
  io : ℕ → SectorIo
  /-- The contents of the sector buffer on the stack. -/
  stack : List UInt8

/-! ### The handlers -/

/-- The conversion of `uint32_t` to `int`. -/
def toInt32 (n : ℕ) : ℤ := if n < 2 ^ 31 then n else (n : ℤ) - 2 ^ 32

/-- `rmtfs_open`. -/
def rmtfsOpen (cfg : Config) (i : Input) (d : Daemon) (path : String) : Reply × Daemon :=
  match storageOpen cfg i.fs d.table i.node path with
  | (none, t) => (.failure errInternal, { d with table := t })
  | (some c, t) => ({ Reply.success with callerId := some (t c).id }, { d with table := t })

/-- `rmtfs_close`. -/
def rmtfsClose (i : Input) (d : Daemon) (callerId : ℕ) : Except Fault (Reply × Daemon) :=
  match storageGet d.table i.node (toInt32 callerId) with
  | .outside => .error .outsideTable
  | .null => .ok (.failure errInternal, d)
  | .slot c =>
      .ok (.success, { d with table := Function.update d.table c (storageClose (d.table c)) })

/-- The sectors of a request in the order they are processed: the address in shared memory and
the offset in the file.  `sector_addr * SECTOR_SIZE` is a 32-bit product. -/
def iovecSectors (entries : List IovecEntry) : List (ℕ × ℕ) :=
  entries.flatMap fun e => (List.range e.numSector).map fun j =>
    (e.physOffset + sectorSize * j, e.sectorAddr * sectorSize % 2 ^ 32 + sectorSize * j)

/-- The body of the sector loop: `n`, the sector buffer and the state after it. -/
def iovecSector (cfg : Config) (io : SectorIo) (isWrite : Bool) (c : Fin maxCallers)
    (phys offset : ℕ) (buf : List UInt8) (d : Daemon) : ℤ × List UInt8 × Daemon :=
  if isWrite then
    let m := rmtfsMemRead d.rmem io.memRead phys sectorSize
    if m.1 = sectorSize then
      let w := storagePwrite cfg io.write (d.table c) m.2 offset
      (w.1, m.2, { d with table := Function.update d.table c w.2 })
    else (m.1, buf, d)
  else
    let b := (storagePread cfg io.pread (d.table c) buf sectorSize offset).2
    let m := rmtfsMemWrite d.rmem io.memWrite phys b
    (m.1, b, { d with rmem := m.2 })

/-- The loop over the sectors: whether all of them succeeded, and the state after it. -/
def iovecLoop (cfg : Config) (io : ℕ → SectorIo) (isWrite : Bool) (c : Fin maxCallers) :
    ℕ → List (ℕ × ℕ) → List UInt8 → Daemon → Bool × Daemon
  | _, [], _, d => (true, d)
  | k, (phys, offset) :: rest, buf, d =>
      let s := iovecSector cfg (io k) isWrite c phys offset buf d
      if s.1 ≠ sectorSize then (false, s.2.2)
      else iovecLoop cfg io isWrite c (k + 1) rest s.2.1 s.2.2

/-- `rmtfs_iovec`: a write ends in `storage_sync`, also when there is no handle. -/
def rmtfsIovec (cfg : Config) (i : Input) (d : Daemon) (r : IovecReq) :
    Except Fault (Reply × Daemon) :=
  match storageGet d.table i.node (toInt32 r.callerId) with
  | .outside => .error .outsideTable
  | .null =>
      if r.direction ≠ 0 ∧ ¬ cfg.readOnly then .error .nullHandle
      else .ok (.failure errInternal, d)
  | .slot c =>
      let s := iovecLoop cfg i.io (r.direction ≠ 0) c 0 (iovecSectors r.iovec) i.stack d
      .ok (if s.1 then .success else .failure errInternal, s.2)

/-- A request, its reply and the state after it. -/
def step (cfg : Config) (d : Daemon) (i : Input) : Except Fault (Reply × Daemon) :=
  match i.req with
  | .open path => .ok (rmtfsOpen cfg i d path)
  | .close callerId => rmtfsClose i d callerId
  | .iovec r => rmtfsIovec cfg i d r

end Imola.Rmtfs
