import Imola.RmtfsBackends

/-! # The partitions as the modem sees them

The modem and the daemon share a region of memory.  The modem fills it and asks for sectors to be
written, or asks for sectors and finds them there.  Between its requests the region is the modem's
own: `Happening` is a request, or a change of the region by the modem.  The region is mapped or
reached through its device file, which then answers as a file with the bytes of the region does
(`Request.serve`); the answers are some of those `step` can get (`Request.exists_step`).

`Disk` is what the modem can rely on: for each handle the node and the partition it is held for,
whether it is taken, how long the copy of the partition is and which of its bytes are known, and the
region.  `Disk.Step` says what each request does to it and why one is refused.  Not known are the
bytes that a write behind the end of a copy leaves in between.

* `disk_simulates`: in read-only mode the daemon is simulated by the disk, over all runs and
  whatever `realloc` and the file system give.
* `read_back`: a sector that was written is read back unchanged, whatever else happens in between,
  until its handle is closed or the sector is written again. -/

namespace Imola.Rmtfs

open Imola.Splice Imola.Runs

/-! ### The disk -/

structure Handle where
  node : ℕ
  part : Option Partition
  taken : Bool
  len : ℕ
  bytes : ℕ → Option UInt8

def Handle.HeldFor (a : Handle) (node : ℕ) (part : Partition) : Prop :=
  a.taken = true ∧ a.node = node ∧ a.part = some part

/-- A handle for a file that was read as `bs`. -/
def Handle.opened (node : ℕ) (part : Partition) (bs : List UInt8) : Handle :=
  ⟨node, some part, true, bs.length, fun p => bs[p]?⟩

def Handle.closed (a : Handle) : Handle := ⟨a.node, none, false, 0, fun _ => none⟩

def Handle.written (a : Handle) (off : ℕ) (bs : List UInt8) : Handle :=
  { a with
    taken := true
    len := max a.len (off + bs.length)
    bytes := overlay a.bytes off (bs.map some) }

/-- What a read of a sector can give: the bytes that are known, and zeros behind the end. -/
structure Handle.Delivers (a : Handle) (off : ℕ) (bs : List UInt8) : Prop where
  length : bs.length = sectorSize
  known : ∀ j < sectorSize, ∀ b, a.bytes (off + j) = some b → bs[j]? = some b
  behind : ∀ j < sectorSize, a.len ≤ off + j → bs[j]? = some 0

/-- The handles and the shared memory. -/
structure Disk where
  handles : Fin maxCallers → Handle
  mem : List UInt8

def Disk.set (D : Disk) (c : Fin maxCallers) (a : Handle) : Disk :=
  { D with handles := Function.update D.handles c a }

def Disk.store (D : Disk) (pos : ℕ) (bs : List UInt8) : Disk :=
  { D with mem := splice D.mem pos bs }

/-- The sector at an address lies in the memory, which starts at `base`. -/
def Disk.Inside (D : Disk) (base phys : ℕ) : Prop :=
  base ≤ phys ∧ phys - base + sectorSize ≤ D.mem.length

/-- A sector is moved between the address `x.1` and the offset `x.2` in the partition. -/
inductive Disk.Move (base : ℕ) (c : Fin maxCallers) : Bool → ℕ × ℕ → Disk → Disk → Prop
  | write {D : Disk} {x : ℕ × ℕ} : D.Inside base x.1 → x.2 + sectorSize < storageMaxSize →
      Disk.Move base c true x D
        (D.set c ((D.handles c).written x.2 (slice D.mem (x.1 - base) sectorSize)))
  | read {D : Disk} {x : ℕ × ℕ} {bs : List UInt8} : D.Inside base x.1 →
      (D.handles c).Delivers x.2 bs → Disk.Move base c false x D (D.store (x.1 - base) bs)

/-- A sector is not moved.  Of one that crosses the end of the memory, a device file may have stored
the beginning. -/
inductive Disk.Fails (base : ℕ) (c : Fin maxCallers) (io : WriteIo) :
    Bool → ℕ × ℕ → Disk → Disk → Prop
  | outside {isWrite : Bool} {D : Disk} {x : ℕ × ℕ} : ¬ D.Inside base x.1 →
      Disk.Fails base c io isWrite x D D
  | crossing {D : Disk} {x : ℕ × ℕ} {bs : List UInt8} : base ≤ x.1 → x.1 - base < D.mem.length →
      D.mem.length < x.1 - base + sectorSize → (D.handles c).Delivers x.2 bs →
      Disk.Fails base c io false x D
        (D.store (x.1 - base) (bs.take (D.mem.length - (x.1 - base))))
  | tooLong {D : Disk} {x : ℕ × ℕ} : storageMaxSize ≤ x.2 + sectorSize →
      Disk.Fails base c io true x D D
  | noMemory {D : Disk} {x : ℕ × ℕ} : (D.handles c).len < x.2 + sectorSize → io.realloc = none →
      Disk.Fails base c io true x D D

/-- Some sectors are moved, one after the other. -/
inductive Disk.Moves (base : ℕ) (c : Fin maxCallers) (isWrite : Bool) :
    List (ℕ × ℕ) → Disk → Disk → Prop
  | nil {D : Disk} : Disk.Moves base c isWrite [] D D
  | cons {D D₁ D' : Disk} {x : ℕ × ℕ} {l : List (ℕ × ℕ)} : Disk.Move base c isWrite x D D₁ →
      Disk.Moves base c isWrite l D₁ D' → Disk.Moves base c isWrite (x :: l) D D'

/-- Some are moved, and the next one fails; the rest is left. -/
inductive Disk.Stops (base : ℕ) (c : Fin maxCallers) (storage : ℕ → StorageIo) (isWrite : Bool) :
    ℕ → List (ℕ × ℕ) → Disk → Disk → Prop
  | here {k : ℕ} {D D' : Disk} {x : ℕ × ℕ} {l : List (ℕ × ℕ)} :
      Disk.Fails base c (storage k).write isWrite x D D' →
      Disk.Stops base c storage isWrite k (x :: l) D D'
  | later {k : ℕ} {D D₁ D' : Disk} {x : ℕ × ℕ} {l : List (ℕ × ℕ)} :
      Disk.Move base c isWrite x D D₁ → Disk.Stops base c storage isWrite (k + 1) l D₁ D' →
      Disk.Stops base c storage isWrite k (x :: l) D D'

/-! ### Requests -/

/-- The requests with the types of their fields. -/
inductive WireRequest where
  | open (path : String)
  | close (callerId : UInt32)
  | iovec (r : WireReq)

def WireRequest.req : WireRequest → Req
  | .open path => .open path
  | .close callerId => .close callerId.toNat
  | .iovec r => .iovec r.req

/-- The handle that a request names. -/
def WireRequest.callerId? : WireRequest → Option ℕ
  | .open _ => none
  | .close callerId => some callerId.toNat
  | .iovec r => some r.callerId.toNat

/-- A request and what it meets: the file system, the storage in each round, and the stack. -/
structure Request where
  node : ℕ
  req : WireRequest
  fs : FileSystem
  storage : ℕ → StorageIo
  stack : List UInt8

def Request.input (q : Request) (io : ℕ → SectorIo) : Input :=
  ⟨q.node, q.req.req, q.fs, io, q.stack⟩

def Request.handling (cfg : Config) (d : Daemon) (q : Request) (r : WireReq) : Handling :=
  ⟨cfg, answersOf q.storage, q.node, q.stack, d, r⟩

/-- `step` with the answers of the device file. -/
def Request.serve (cfg : Config) (d : Daemon) (q : Request) : Except Fault (Reply × Daemon) :=
  match q.req with
  | .open path => .ok (rmtfsOpen cfg (q.input fun _ => ⟨(0, []), 0, (0, []), ⟨0, none⟩⟩) d path)
  | .close callerId =>
      rmtfsClose (q.input fun _ => ⟨(0, []), 0, (0, []), ⟨0, none⟩⟩) d callerId.toNat
  | .iovec r => (Request.handling cfg d q r).outcome.map Prod.snd

theorem Request.exists_step (cfg : Config) (d : Daemon) (q : Request) :
    ∃ io, Request.serve cfg d q = step cfg d (q.input io) := by
  unfold Request.serve step Request.input
  cases hreq : q.req with
  | «open» path => exact ⟨_, rfl⟩
  | close callerId => exact ⟨_, rfl⟩
  | iovec r =>
      obtain ⟨io, hio⟩ := (Request.handling cfg d q r).exists_run q.fs
      exact ⟨io, hio.symm⟩

/-- What happens: the modem changes the memory, or a request arrives. -/
inductive Happening where
  | modem (bytes : List UInt8)
  | request (q : Request)

/-- What the modem can expect of the disk. -/
inductive Disk.Step (cfg : Config) (base : ℕ) (D : Disk) : Happening → Option Reply → Disk → Prop
  | modem {bytes : List UInt8} : bytes.length = D.mem.length →
      Disk.Step cfg base D (.modem bytes) none { D with mem := bytes }
  | found {q : Request} {part : Partition} {c : Fin maxCallers} : q.req = .open part.path →
      (D.handles c).HeldFor q.node part →
      Disk.Step cfg base D (.request q) (some ⟨0, 0, some c⟩) D
  | opened {q : Request} {part : Partition} {c : Fin maxCallers} {len : ℕ} {bs : List UInt8} :
      q.req = .open part.path → (∀ k, ¬ (D.handles k).HeldFor q.node part) →
      (D.handles c).taken = false → q.fs.populate (fspath cfg part) = .contents len bs →
      Disk.Step cfg base D (.request q) (some ⟨0, 0, some c⟩) (D.set c (.opened q.node part bs))
  | unknown {q : Request} {path : String} : q.req = .open path →
      (∀ part : Partition, part.path ≠ path) →
      Disk.Step cfg base D (.request q) (some (.failure errInternal)) D
  | full {q : Request} {part : Partition} : q.req = .open part.path →
      (∀ k, ¬ (D.handles k).HeldFor q.node part) → (∀ k, (D.handles k).taken = true) →
      Disk.Step cfg base D (.request q) (some (.failure errInternal)) D
  | unreadable {q : Request} {part : Partition} : q.req = .open part.path →
      (∀ k, ¬ (D.handles k).HeldFor q.node part) →
      (∀ len bs, q.fs.populate (fspath cfg part) ≠ .contents len bs) →
      Disk.Step cfg base D (.request q) (some (.failure errInternal)) D
  | closed {q : Request} {id : UInt32} {c : Fin maxCallers} : q.req = .close id → id.toNat = c →
      (D.handles c).node = q.node →
      Disk.Step cfg base D (.request q) (some .success) (D.set c (D.handles c).closed)
  | moved {q : Request} {r : WireReq} {c : Fin maxCallers} {D' : Disk} : q.req = .iovec r →
      r.callerId.toNat = c → (D.handles c).node = q.node →
      Disk.Moves base c (r.direction ≠ 0) (iovecSectors r.req.iovec) D D' →
      Disk.Step cfg base D (.request q) (some .success) D'
  | stopped {q : Request} {r : WireReq} {c : Fin maxCallers} {D' : Disk} : q.req = .iovec r →
      r.callerId.toNat = c → (D.handles c).node = q.node →
      Disk.Stops base c q.storage (r.direction ≠ 0) 0 (iovecSectors r.req.iovec) D D' →
      Disk.Step cfg base D (.request q) (some (.failure errInternal)) D'
  | foreign {q : Request} {id : ℕ} : q.req.callerId? = some id →
      (∀ c : Fin maxCallers, id = c → (D.handles c).node ≠ q.node) →
      Disk.Step cfg base D (.request q) (some (.failure errInternal)) D

/-! ### What the disk keeps -/

section Moves

variable {base : ℕ} {c : Fin maxCallers} {isWrite : Bool} {l₁ l₂ l : List (ℕ × ℕ)} {D D' : Disk}
  {bs : List UInt8} {x : ℕ × ℕ} {off : ℕ}

theorem Disk.moves_append : Disk.Moves base c isWrite (l₁ ++ l₂) D D' ↔
    ∃ D₁, Disk.Moves base c isWrite l₁ D D₁ ∧ Disk.Moves base c isWrite l₂ D₁ D' := by
  induction l₁ generalizing D with
  | nil =>
      constructor
      · exact fun h => ⟨D, .nil, h⟩
      · rintro ⟨D₁, ⟨⟩, h⟩
        exact h
  | cons x l₁ ih =>
      constructor
      · rintro (_ | ⟨hmove, hrest⟩)
        obtain ⟨D₁, h₁, h₂⟩ := ih.mp hrest
        exact ⟨D₁, .cons hmove h₁, h₂⟩
      · rintro ⟨D₁, _ | ⟨hmove, hrest⟩, h₂⟩
        exact .cons hmove (ih.mpr ⟨D₁, hrest, h₂⟩)

theorem Disk.Moves.mem_of_write (h : Disk.Moves base c true l D D') : D'.mem = D.mem := by
  induction h with
  | nil => rfl
  | cons hmove _ ih =>
      cases hmove
      exact ih

theorem Disk.Move.other (h : Disk.Move base c isWrite x D D') {k : Fin maxCallers} (hk : k ≠ c) :
    D'.handles k = D.handles k := by
  cases h with
  | write _ _ => exact Function.update_of_ne hk _ _
  | read _ _ => rfl

theorem Disk.Fails.handles {io : WriteIo} (h : Disk.Fails base c io isWrite x D D') :
    D'.handles = D.handles := by
  cases h <;> rfl

/-- The handle is taken, and the sector at `off` of its partition is known to be `bs`. -/
structure Handle.Holds (a : Handle) (off : ℕ) (bs : List UInt8) : Prop where
  taken : a.taken = true
  known : ∀ j < sectorSize, a.bytes (off + j) = bs[j]?

/-- Two sectors have no byte in common. -/
def Apart (a b : ℕ) : Prop := a + sectorSize ≤ b ∨ b + sectorSize ≤ a

instance (a b : ℕ) : Decidable (Apart a b) := inferInstanceAs (Decidable (_ ∨ _))

theorem Handle.written_holds (a : Handle) (hbs : bs.length = sectorSize) :
    (a.written off bs).Holds off bs := by
  refine ⟨rfl, fun j hj => ?_⟩
  have hj' : j < bs.length := hbs ▸ hj
  dsimp only [Handle.written]
  rw [overlay, if_pos (Nat.le_add_right _ _), Nat.add_sub_cancel_left,
    List.getD_eq_getElem _ _ (by rwa [List.length_map]), List.getElem_map,
    List.getElem?_eq_getElem hj']

theorem Handle.Holds.written {a : Handle} (h : a.Holds off bs) {off' : ℕ} {bs' : List UInt8}
    (hbs : bs'.length = sectorSize) (hapart : Apart off' off) :
    (a.written off' bs').Holds off bs := by
  refine ⟨rfl, fun j hj => ?_⟩
  rw [← h.known j hj]
  dsimp only [Handle.written]
  rw [overlay]
  split_ifs with hle
  · exact List.getD_eq_default _ _ (by rw [List.length_map, hbs]; unfold Apart at hapart; omega)
  · rfl

theorem Disk.Move.keeps {k : Fin maxCallers} (h : Disk.Move base k isWrite x D D')
    (hx : k = c → isWrite = true → Apart x.2 off) (hD : (D.handles c).Holds off bs) :
    (D'.handles c).Holds off bs := by
  by_cases hk : c = k
  · subst hk
    cases h with
    | read _ _ => exact hD
    | write hin _ =>
        dsimp only [Disk.set]
        rw [Function.update_self]
        exact hD.written (length_slice hin.2) (hx rfl rfl)
  · rw [h.other hk]
    exact hD

theorem Disk.Moves.keeps {k : Fin maxCallers} (h : Disk.Moves base k isWrite l D D')
    (hl : k = c → isWrite = true → ∀ x ∈ l, Apart x.2 off) (hD : (D.handles c).Holds off bs) :
    (D'.handles c).Holds off bs := by
  induction h with
  | nil => exact hD
  | cons hmove _ ih =>
      refine ih (fun hk hw y hy => hl hk hw y (List.mem_cons_of_mem _ hy)) ?_
      exact hmove.keeps (fun hk hw => hl hk hw _ List.mem_cons_self) hD

theorem Disk.Stops.keeps {k : Fin maxCallers} {storage : ℕ → StorageIo} {n : ℕ}
    (h : Disk.Stops base k storage isWrite n l D D')
    (hl : k = c → isWrite = true → ∀ x ∈ l, Apart x.2 off) (hD : (D.handles c).Holds off bs) :
    (D'.handles c).Holds off bs := by
  induction h with
  | here hfails =>
      rw [hfails.handles]
      exact hD
  | later hmove _ ih =>
      refine ih (fun hk hw y hy => hl hk hw y (List.mem_cons_of_mem _ hy)) ?_
      exact hmove.keeps (fun hk hw => hl hk hw _ List.mem_cons_self) hD

/-- **A sector that is written**, and not overwritten by the rest of the request, is known. -/
theorem Disk.Moves.written (h : Disk.Moves base c true (l₁ ++ x :: l₂) D D')
    (hapart : ∀ y ∈ l₂, Apart y.2 x.2) : D.Inside base x.1 ∧
      (D'.handles c).Holds x.2 (slice D.mem (x.1 - base) sectorSize) := by
  obtain ⟨D₁, hbefore, _ | ⟨hmove, hafter⟩⟩ := Disk.moves_append.mp h
  rw [Disk.Inside, ← hbefore.mem_of_write]
  cases hmove with
  | write hin _ =>
      refine ⟨hin, hafter.keeps (fun _ _ => hapart) ?_⟩
      dsimp only [Disk.set]
      rw [Function.update_self]
      exact Handle.written_holds _ (length_slice hin.2)

end Moves

/-! ### The daemon and the disk -/

/-- What the modem and the daemon do. -/
def Daemon.happen (cfg : Config) (d : Daemon) : Happening → Except Fault (Option Reply × Daemon)
  | .modem bytes => .ok (none, { d with rmem := { d.rmem with bytes := bytes } })
  | .request q =>
      match Request.serve cfg d q with
      | .ok (rep, d') => .ok (some rep, d')
      | .error e => .error e

/-- The region keeps its size. -/
def Daemon.Allows (d : Daemon) : Happening → Prop
  | .modem bytes => bytes.length = d.rmem.size
  | .request _ => True

/-- A slot of the table and the handle that the modem sees. -/
structure RmtFd.Shows (r : RmtFd) (a : Handle) : Prop where
  fd : r.fd = -1
  fits : r.ShadowFits
  node : a.node = r.node
  part : a.part = r.partition
  taken : a.taken = r.shadowBuf.isSome
  len : a.len = r.shadowLen
  known : ∀ p b, a.bytes p = some b → p < r.shadowLen ∧ (r.shadowBuf.getD [])[p]? = some b

/-- The disk that a daemon shows to the modem. -/
structure Daemon.Shows (base : ℕ) (d : Daemon) (D : Disk) : Prop where
  ids : ∀ c, (d.table c).id = c
  handles : ∀ c, (d.table c).Shows (D.handles c)
  mem : d.rmem.bytes = D.mem
  sized : d.rmem.Sized
  address : d.rmem.address = base

section Handles

variable {cfg : Config} {r : RmtFd} {a : Handle}

theorem RmtFd.Shows.inUse_iff (h : r.Shows a) : r.InUse ↔ a.taken = true := by
  rw [h.taken]
  exact or_iff_right fun hfd => hfd h.fd

theorem RmtFd.Shows.heldFor_iff (h : r.Shows a) (node : ℕ) (part : Partition) :
    r.HeldFor node part ↔ a.HeldFor node part := by
  rw [RmtFd.HeldFor, h.inUse_iff, ← h.node, ← h.part, Handle.HeldFor]

theorem RmtFd.Shows.close (h : r.Shows a) : (storageClose r).Shows a.closed := by
  refine ⟨?_, Nat.zero_le _, h.node, rfl, rfl, rfl, fun p b hb => by cases hb⟩
  dsimp only [storageClose]
  rw [h.fd]
  rfl

theorem RmtFd.Shows.populate (h : r.Shows a) {p : Populate} {r' : RmtFd} (node : ℕ)
    (part : Partition)
    (hpop : storagePopulateShadowBuf p r = some r') : ∃ len bs, p = .contents len bs ∧
      RmtFd.Shows { r' with node := node, partition := some part } (.opened node part bs) := by
  have hfits := storagePopulateShadowBuf_fits hpop
  cases p with
  | contents len bs =>
      cases hpop
      refine ⟨len, bs, rfl, h.fd, hfits, rfl, rfl, rfl, rfl, fun p b hb => ?_⟩
      have hlt : p < bs.length := (List.getElem?_eq_some_iff.mp hb).1
      exact ⟨hlt, (List.getElem?_append_left hlt).trans hb⟩
  | _ => cases hpop

theorem RmtFd.Shows.pread (h : r.Shows a) (hro : cfg.readOnly = true) (io : ℤ × List UInt8)
    (buf : List UInt8) (off : ℕ) : a.Delivers off (storagePread cfg io r buf sectorSize off).2 := by
  have hfits := h.fits
  unfold RmtFd.ShadowFits at hfits
  simp only [storagePread, hro, if_true]
  set n := (min (sectorSize : ℤ) ((r.shadowLen : ℤ) - off)).toNat with hn
  have hlen : (slice (r.shadowBuf.getD []) off n).length = n := by
    by_cases hzero : n = 0
    · rw [hzero]
      simp [slice]
    · exact length_slice (by omega)
  refine ⟨?_, fun j hj b hb => ?_, fun j hj hbehind => ?_⟩
  · rw [List.length_append, hlen, List.length_replicate]
    omega
  · obtain ⟨hlt, hbyte⟩ := h.known (off + j) b hb
    have hjn : j < n := by omega
    rw [List.getElem?_append_left (by rw [hlen]; exact hjn), getElem?_slice, if_pos hjn]
    exact hbyte
  · rw [h.len] at hbehind
    rw [List.getElem?_append_right (by rw [hlen]; omega), hlen,
      List.getElem?_replicate_of_lt (by omega)]

/-- A byte that is known after a write is one of those written, or was known before. -/
theorem overlay_known {known : ℕ → Option UInt8} {off p : ℕ} {buf : List UInt8} {b : UInt8}
    (hb : overlay known off (buf.map some) p = some b) :
    (off ≤ p ∧ p < off + buf.length ∧ buf[p - off]? = some b) ∨
      (¬ (off ≤ p ∧ p < off + buf.length) ∧ known p = some b) := by
  rw [overlay] at hb
  by_cases hp : off ≤ p ∧ p < off + buf.length
  · have hlt : p - off < buf.length := by omega
    rw [if_pos hp.1, List.getD_eq_getElem _ _ (by rwa [List.length_map]), List.getElem_map] at hb
    exact Or.inl ⟨hp.1, hp.2, (List.getElem?_eq_getElem hlt).trans hb⟩
  · refine Or.inr ⟨hp, ?_⟩
    split_ifs at hb with hle
    · rwa [List.getD_eq_default _ _ (by rw [List.length_map]; omega)] at hb
    · exact hb

theorem RmtFd.Shows.splice (h : r.Shows a) {block buf : List UInt8} {off len : ℕ}
    (hin : off + buf.length ≤ block.length) (hlen : len = max r.shadowLen (off + buf.length))
    (hblock : len ≤ block.length)
    (hold : ∀ p < r.shadowLen, block[p]? = (r.shadowBuf.getD [])[p]?) :
    RmtFd.Shows { r with shadowBuf := some (Splice.splice block off buf), shadowLen := len }
      (a.written off buf) := by
  refine ⟨h.fd, hblock.trans (length_le_splice _ _ _), h.node, h.part, rfl, ?_, fun p b hb => ?_⟩
  · dsimp only [Handle.written]
    rw [h.len, hlen]
  · dsimp only [Option.getD_some]
    rw [getElem?_splice hin]
    rcases overlay_known hb with ⟨hle, hlt, hbyte⟩ | ⟨hout, hbyte⟩
    · rw [if_pos ⟨hle, hlt⟩]
      exact ⟨by omega, hbyte⟩
    · obtain ⟨hlt, hbyte⟩ := h.known p b hbyte
      rw [if_neg hout, hold p hlt]
      exact ⟨by omega, hbyte⟩

/-- **A write** of some bytes is made, or refused for its end or for want of memory. -/
theorem RmtFd.Shows.pwrite (h : r.Shows a) (hro : cfg.readOnly = true) (io : WriteIo)
    {buf : List UInt8} {off : ℕ} (hbuf : 0 < buf.length) (hoff : off + buf.length < 2 ^ 64) :
    ((storagePwrite cfg io r buf off).1 = buf.length ∧ off + buf.length < storageMaxSize ∧
      (storagePwrite cfg io r buf off).2.Shows (a.written off buf)) ∨
    (storagePwrite cfg io r buf off = (-1, r) ∧ (storageMaxSize ≤ off + buf.length ∨
      (a.len < off + buf.length ∧ io.realloc = none))) := by
  have hfits := h.fits
  unfold RmtFd.ShadowFits at hfits
  simp only [storagePwrite, hro, not_true_eq_false, if_false, Nat.mod_eq_of_lt hoff]
  by_cases hmax : storageMaxSize ≤ off + buf.length
  · rw [if_pos hmax]
    exact Or.inr ⟨rfl, Or.inl hmax⟩
  rw [if_neg hmax]
  by_cases hgrow : r.shadowLen < off + buf.length
  · rw [if_pos hgrow]
    cases hre : io.realloc with
    | none => exact Or.inr ⟨rfl, Or.inr ⟨h.len ▸ hgrow, rfl⟩⟩
    | some fresh =>
        have hlength : (realloc (r.shadowBuf.getD []) (off + buf.length) fresh).length =
            off + buf.length := by
          simp only [realloc, List.length_append, List.length_take, window_length]
          omega
        refine Or.inl ⟨rfl, not_le.mp hmax, ?_⟩
        refine h.splice hlength.ge (max_eq_right hgrow.le).symm hlength.ge fun p hp => ?_
        rw [realloc, List.getElem?_append_left (by rw [List.length_take]; omega),
          List.getElem?_take_of_lt (by omega)]
  · rw [if_neg hgrow]
    cases hblock : r.shadowBuf with
    | none =>
        rw [hblock] at hfits
        exact absurd (Nat.le_zero.mp hfits) (by omega)
    | some block =>
        rw [hblock] at hfits
        have hin : off + buf.length ≤ block.length := by
          simp only [Option.getD_some] at hfits
          omega
        have hold : ∀ p < r.shadowLen, block[p]? = (r.shadowBuf.getD [])[p]? := by
          intro p _
          rw [hblock]
          rfl
        have hshown := h.splice hin (max_eq_left (not_lt.mp hgrow)).symm hfits hold
        exact Or.inl ⟨rfl, not_le.mp hmax, hshown⟩

/-- What a store outside of the region leaves: nothing, or up to its end the beginning. -/
theorem RmtfsMem.Sized.memWrite_outside {m : RmtfsMem} {phys : UInt64} {buf : List UInt8}
    (hm : m.Sized) (h : ¬ m.Inside phys) (hphys : phys.toNat < 2 ^ 63)
    (hbuf : buf.length = sectorSize) :
    (rmtfsMemWrite m (devicePwrite m phys) phys.toNat buf).2 = m ∨
      (m.address ≤ phys.toNat ∧ phys.toNat - m.address < m.bytes.length ∧
        m.bytes.length < phys.toNat - m.address + sectorSize ∧
        (rmtfsMemWrite m (devicePwrite m phys) phys.toNat buf).2 =
          { m with bytes := Splice.splice m.bytes (phys.toNat - m.address)
                      (buf.take (m.bytes.length - (phys.toNat - m.address))) }) := by
  have hsize := hm.length
  have hnothing : ∀ pos, Splice.splice m.bytes pos [] = m.bytes := by
    intro pos
    rw [Splice.splice, List.append_nil, List.length_nil, Nat.add_zero, List.take_append_drop]
  unfold rmtfsMemWrite
  split_ifs with hmapped
  · rw [hbuf, rmtfsMemPtr_eq hm.end_lt hphys, if_neg h]
    exact Or.inl rfl
  · unfold devicePwrite
    rcases deviceOffset_cases hm hphys with ⟨hle, hoffset⟩ | ⟨hlt, hneg | hbehind⟩
    · have hshort : m.bytes.length < phys.toNat - m.address + sectorSize := by
        unfold RmtfsMem.Inside at h
        dsimp only [sectorSize]
        omega
      rw [hoffset, if_neg (by omega), Int.toNat_natCast, Int.toNat_natCast,
        min_eq_right (by omega)]
      by_cases hcross : phys.toNat - m.address < m.bytes.length
      · exact Or.inr ⟨hle, hcross, hshort, rfl⟩
      · rw [Nat.sub_eq_zero_of_le (by omega), List.take_zero, hnothing]
        exact Or.inl rfl
    · rw [if_pos hneg]
      change { m with bytes := Splice.splice m.bytes _ [] } = m ∨ _
      rw [hnothing]
      exact Or.inl rfl
    · rw [if_neg (by omega), Nat.sub_eq_zero_of_le (by omega), Nat.min_zero, Nat.cast_zero,
        Int.toNat_zero, List.take_zero, hnothing]
      exact Or.inl rfl

end Handles

section Simulation

variable {cfg : Config} {base : ℕ} {d d' : Daemon} {D : Disk} {c : Fin maxCallers}

theorem Daemon.Shows.update (h : d.Shows base D) {r : RmtFd} {a : Handle} (hid : r.id = c)
    (hr : r.Shows a) :
    Daemon.Shows base { d with table := Function.update d.table c r } (D.set c a) := by
  refine ⟨fun k => ?_, fun k => ?_, h.mem, h.sized, h.address⟩
  · by_cases hk : k = c
    · subst hk
      dsimp only
      rw [Function.update_self]
      exact hid
    · dsimp only
      rw [Function.update_of_ne hk]
      exact h.ids k
  · by_cases hk : k = c
    · subst hk
      dsimp only [Disk.set]
      rw [Function.update_self, Function.update_self]
      exact hr
    · dsimp only [Disk.set]
      rw [Function.update_of_ne hk, Function.update_of_ne hk]
      exact h.handles k

theorem Daemon.Shows.remember (h : d.Shows base D) {bytes : List UInt8}
    (hlen : bytes.length = d.rmem.size) :
    Daemon.Shows base { d with rmem := { d.rmem with bytes := bytes } } { D with mem := bytes } :=
  ⟨h.ids, h.handles, rfl, ⟨hlen, h.sized.end_lt⟩, h.address⟩

theorem Daemon.Shows.store (h : d.Shows base D) {pos : ℕ} {bs : List UInt8}
    (hin : pos + bs.length ≤ d.rmem.bytes.length) :
    Daemon.Shows base { d with rmem := { d.rmem with bytes := splice d.rmem.bytes pos bs } }
      (D.store pos bs) := by
  have hshows := h.remember ((length_splice hin).trans h.sized.length)
  rw [Disk.store, ← h.mem]
  exact hshows

theorem Daemon.Shows.inside_iff (h : d.Shows base D) (phys : UInt64) :
    d.rmem.Inside phys ↔ D.Inside base phys.toNat := by
  have hlen := h.sized.length
  rw [RmtfsMem.Inside, Disk.Inside, ← h.mem, ← h.address, hlen]
  dsimp only [sectorSize]
  omega

/-- What a round of the loop does to the disk, with its result. -/
def Disk.Rounds (base : ℕ) (c : Fin maxCallers) (io : WriteIo) (isWrite : Bool) (x : ℕ × ℕ)
    (D : Disk) (n : ℤ) (D' : Disk) : Prop :=
  (n = sectorSize ∧ Disk.Move base c isWrite x D D') ∨
    (n ≠ sectorSize ∧ Disk.Fails base c io isWrite x D D')

theorem Daemon.Shows.write (h : d.Shows base D) (hro : cfg.readOnly = true)
    (storage : ℕ → StorageIo) (k : ℕ) (c : Fin maxCallers) {r : Round}
    (hphys : r.phys.toNat < 2 ^ 63) (hoff : r.offset.toInt.toNat + sectorSize < 2 ^ 64)
    (buf : List UInt8) :
    let s := iovecSector cfg (answersOf storage k d r) true c r.phys.toNat
      r.offset.toInt.toNat buf d
    ∃ D', Disk.Rounds base c (storage k).write true r.place D s.1 D' ∧ s.2.2.Shows base D' := by
  by_cases hin : d.rmem.Inside r.phys
  · have hround := @iovecSector_write cfg c buf d (answersOf storage k d r) r.phys.toNat _
      (RmtfsMem.Inside.memRead h.sized hin hphys) r.offset.toInt.toNat
    rw [h.inside_iff] at hin
    rw [h.mem, h.address] at hround
    have hlen : (slice D.mem (r.phys.toNat - base) 512).length = 512 := length_slice hin.2
    dsimp only
    rw [hround]
    dsimp only
    have hpos : 0 < (slice D.mem (r.phys.toNat - base) 512).length := by
      rw [hlen]
      decide
    rcases (h.handles c).pwrite hro (answersOf storage k d r).write hpos (by rw [hlen]; exact hoff)
      with ⟨hn, hmax, hshows⟩ | ⟨hsame, hwhy⟩
    · rw [hlen] at hn hmax
      refine ⟨_, Or.inl ⟨hn, .write hin hmax⟩, h.update ?_ hshows⟩
      exact (storagePwrite_keeps _ _ _ _ _).id.trans (h.ids c)
    · rw [hsame, Function.update_eq_self]
      refine ⟨D, Or.inr ⟨by dsimp only; decide, ?_⟩, h⟩
      rw [hlen] at hwhy
      rcases hwhy with hmax | ⟨hgrow, hre⟩
      · exact .tooLong hmax
      · exact .noMemory hgrow hre
  · have hfail := h.sized.memRead_ne hin hphys
    have hround := @iovecSector_unread cfg c buf d (answersOf storage k d r) _ hfail
      r.offset.toInt.toNat
    rw [h.inside_iff] at hin
    dsimp only
    rw [hround]
    exact ⟨D, Or.inr ⟨hfail, .outside hin⟩, h⟩

theorem Daemon.Shows.read (h : d.Shows base D) (hro : cfg.readOnly = true)
    (storage : ℕ → StorageIo) (k : ℕ) (c : Fin maxCallers) {r : Round}
    (hphys : r.phys.toNat < 2 ^ 63) (buf : List UInt8) :
    let s := iovecSector cfg (answersOf storage k d r) false c r.phys.toNat
      r.offset.toInt.toNat buf d
    ∃ D', Disk.Rounds base c (storage k).write false r.place D s.1 D' ∧ s.2.2.Shows base D' := by
  have hbs := (h.handles c).pread hro (answersOf storage k d r).pread buf r.offset.toInt.toNat
  obtain rfl := h.address
  dsimp only [iovecSector]
  rw [if_neg Bool.false_ne_true]
  dsimp only
  set bs := (storagePread cfg (answersOf storage k d r).pread (d.table c) buf sectorSize
    r.offset.toInt.toNat).2 with hbsdef
  change ∃ D', Disk.Rounds _ _ _ _ _ _ (rmtfsMemWrite d.rmem
    (devicePwrite d.rmem r.phys) _ _).1 D' ∧
    Daemon.Shows _ { d with rmem := (rmtfsMemWrite d.rmem (devicePwrite d.rmem r.phys) _ _).2 } D'
  by_cases hin : d.rmem.Inside r.phys
  · rw [RmtfsMem.Inside.memWrite h.sized hin hphys hbs.length]
    rw [h.inside_iff] at hin
    refine ⟨_, Or.inl ⟨rfl, .read hin hbs⟩, h.store ?_⟩
    rw [h.mem, hbs.length]
    exact hin.2
  · have hfail := h.sized.memWrite_ne hin hphys hbs.length
    rcases h.sized.memWrite_outside hin hphys hbs.length with hsame | ⟨hle, hcross, hshort, hstored⟩
    · rw [h.inside_iff] at hin
      rw [hsame]
      exact ⟨D, Or.inr ⟨hfail, .outside hin⟩, h⟩
    · rw [hstored]
      have hshown := @Daemon.Shows.store _ d D h (r.phys.toNat - d.rmem.address)
        (bs.take (d.rmem.bytes.length - (r.phys.toNat - d.rmem.address)))
        (by rw [List.length_take]; omega)
      refine ⟨_, Or.inr ⟨hfail, ?_⟩, hshown⟩
      rw [h.mem] at hcross hshort ⊢
      exact .crossing hle hcross hshort hbs

/-- **The loop over the sectors**: it moves all of them, or stops at one. -/
theorem Daemon.Shows.loop (hro : cfg.readOnly = true) (storage : ℕ → StorageIo) (isWrite : Bool)
    (c : Fin maxCallers) {rounds : List Round} (hrounds : ∀ r ∈ rounds,
      r.phys.toNat < 2 ^ 63 ∧ r.offset.toInt.toNat + sectorSize < 2 ^ 64) :
    ∀ {d : Daemon} {D : Disk}, d.Shows base D → ∀ (k : ℕ) (buf : List UInt8),
      let s := (iovecRounds cfg (answersOf storage) isWrite c k rounds buf d).2
      ∃ D', s.2.Shows base D' ∧
        ((s.1 = true ∧ Disk.Moves base c isWrite (rounds.map Round.place) D D') ∨
          (s.1 = false ∧ Disk.Stops base c storage isWrite k (rounds.map Round.place) D D')) := by
  induction rounds with
  | nil => exact fun h k buf => ⟨_, h, Or.inl ⟨rfl, .nil⟩⟩
  | cons r rounds ih =>
      intro d D h k buf
      obtain ⟨hphys, hoff⟩ := hrounds r List.mem_cons_self
      obtain ⟨D₁, hround, h₁⟩ : ∃ D₁, Disk.Rounds base c (storage k).write isWrite r.place D
          (iovecSector cfg (answersOf storage k d r) isWrite c r.phys.toNat r.offset.toInt.toNat
            buf d).1 D₁ ∧ (iovecSector cfg (answersOf storage k d r) isWrite c r.phys.toNat
            r.offset.toInt.toNat buf d).2.2.Shows base D₁ := by
        cases isWrite with
        | true => exact h.write hro storage k c hphys hoff buf
        | false => exact h.read hro storage k c hphys buf
      dsimp only [iovecRounds]
      rcases hround with ⟨hn, hmove⟩ | ⟨hn, hfails⟩
      · rw [if_neg (not_not.mpr hn)]
        obtain ⟨D', hshows, hrest⟩ := ih (fun r hr => hrounds r (List.mem_cons_of_mem _ hr)) h₁
          (k + 1) (iovecSector cfg (answersOf storage k d r) isWrite c r.phys.toNat
            r.offset.toInt.toNat buf d).2.1
        refine ⟨D', hshows, hrest.imp ?_ ?_⟩
        · exact fun hall => ⟨hall.1, .cons hmove hall.2⟩
        · exact fun hstop => ⟨hstop.1, .later hmove hstop.2⟩
      · rw [if_pos hn]
        exact ⟨D₁, h₁, Or.inr ⟨rfl, .here hfails⟩⟩

theorem entryRounds_bounds {es : List WireEntry} : ∀ r ∈ es.flatMap entryRounds,
    r.phys.toNat < 2 ^ 63 ∧ r.offset.toInt.toNat + sectorSize < 2 ^ 64 := by
  intro r hr
  refine ⟨entryRounds_phys_lt r hr, ?_⟩
  obtain ⟨e, -, he⟩ := List.mem_flatMap.mp hr
  obtain ⟨-, hindex, -, hoffset⟩ := round_values he
  have hnum := e.numSector.toNat_lt
  rw [hoffset, Int.toNat_natCast]
  dsimp only [sectorSize]
  omega

theorem Daemon.Shows.get (h : d.Shows base D) {node : ℕ} {id : UInt32} :
    (storageGet d.table node (toInt32 id.toNat) = .null →
      ∀ c : Fin maxCallers, id.toNat = c → (D.handles c).node ≠ node) ∧
    ∀ c, storageGet d.table node (toInt32 id.toNat) = .slot c →
      id.toNat = c ∧ (D.handles c).node = node := by
  have hlt := id.toNat_lt
  constructor
  · intro hget c hc
    have hint : toInt32 id.toNat = (c : ℕ) := by
      have hsmall : (c : ℕ) < 10 := c.isLt
      rw [toInt32, if_pos (by omega), hc]
    rw [hint, storageGet, if_neg (by omega), dif_pos ⟨by omega, by simp⟩] at hget
    split_ifs at hget with hnode
    rw [(h.handles c).node]
    exact hnode
  · intro c hget
    unfold storageGet at hget
    split_ifs at hget with hbig hin hnode
    cases hget
    refine ⟨?_, ?_⟩
    · change id.toNat = (toInt32 id.toNat).toNat
      have hpos := hin.1
      unfold toInt32 at hpos ⊢
      split_ifs at hpos ⊢ <;> omega
    · rw [(h.handles _).node]
      exact not_not.mp hnode

theorem Daemon.Shows.open (h : d.Shows base D) (hro : cfg.readOnly = true) {q : Request}
    {path : String} (hq : q.req = .open path) {i : Input} (hfs : i.fs = q.fs)
    (hnode : i.node = q.node)
    {rep : Reply} (hopen : rmtfsOpen cfg i d path = (rep, d')) :
    ∃ D', Disk.Step cfg base D (.request q) (some rep) D' ∧ d'.Shows base D' := by
  unfold rmtfsOpen at hopen
  rw [hfs, hnode] at hopen
  have hnobody : ∀ {part : Partition}, (∀ k, ¬ (d.table k).HeldFor q.node part) →
      ∀ k, ¬ (D.handles k).HeldFor q.node part := by
    intro part hno k
    rw [← (h.handles k).heldFor_iff]
    exact hno k
  rcases storageOpen_spec cfg q.fs d.table q.node path with
    ⟨hspec, hfails⟩ | ⟨part, rfl, ⟨c, hspec, hheld⟩ | ⟨c, r, hspec, hno, hfree, hr⟩⟩
  · rw [hspec] at hopen
    cases hopen
    refine ⟨D, ?_, h⟩
    cases hfails with
    | unknown hpath => exact .unknown hq hpath
    | full hpath hno hall =>
        subst hpath
        exact .full hq (hnobody hno) fun k => (h.handles k).inUse_iff.mp (hall k)
    | unfilled hpath hno _ hpop =>
        subst hpath
        exact .unreadable hq (hnobody hno) hpop
    | unopened _ _ hrw _ =>
        rw [hro] at hrw
        cases hrw
  · rw [hspec] at hopen
    cases hopen
    rw [h.ids c]
    exact ⟨D, .found hq (((h.handles c).heldFor_iff _ _).mp hheld), h⟩
  · rw [hspec] at hopen
    cases hopen
    cases hr with
    | file hrw _ =>
        rw [hro] at hrw
        cases hrw
    | @shadow r' _ hpop =>
        obtain ⟨len, bs, hcontents, hshows⟩ := (h.handles c).populate q.node part hpop
        have hid : r'.id = c := (storagePopulateShadowBuf_spec hpop).2.1.trans (h.ids c)
        have htaken : (D.handles c).taken = false := by
          rw [(h.handles c).inUse_iff] at hfree
          exact Bool.eq_false_iff.mpr hfree
        refine ⟨_, ?_, h.update hid hshows⟩
        rw [Function.update_self, hid]
        exact .opened hq (hnobody hno) htaken hcontents

/-- **One request.** -/
theorem Daemon.Shows.serve (h : d.Shows base D) (hro : cfg.readOnly = true) {q : Request}
    {rep : Reply} (hserve : Request.serve cfg d q = .ok (rep, d')) :
    ∃ D', Disk.Step cfg base D (.request q) (some rep) D' ∧ d'.Shows base D' := by
  unfold Request.serve at hserve
  cases hq : q.req with
  | «open» path =>
      rw [hq] at hserve
      exact h.open hro hq rfl rfl (Except.ok.inj hserve)
  | close id =>
      rw [hq] at hserve
      dsimp only [rmtfsClose, Request.input] at hserve
      obtain ⟨hnull, hslot⟩ := @Daemon.Shows.get base d D h q.node id
      cases hget : storageGet d.table q.node (toInt32 id.toNat) with
      | outside =>
          rw [hget] at hserve
          cases hserve
      | null =>
          rw [hget] at hserve
          cases hserve
          exact ⟨D, .foreign (congrArg WireRequest.callerId? hq) (hnull hget), h⟩
      | slot c =>
          rw [hget] at hserve
          cases hserve
          obtain ⟨hid, hnode⟩ := hslot c hget
          exact ⟨_, .closed hq hid hnode, h.update (h.ids c) (h.handles c).close⟩
  | iovec r =>
      rw [hq] at hserve
      dsimp only at hserve
      obtain ⟨hnull, hslot⟩ := @Daemon.Shows.get base d D h q.node r.callerId
      cases hget : (Request.handling cfg d q r).lookup with
      | outside =>
          rw [Handling.outcome_outside hget] at hserve
          cases hserve
      | null =>
          rw [Handling.outcome_null hget, if_neg (fun hboth => hboth.2 hro)] at hserve
          cases hserve
          exact ⟨D, .foreign (congrArg WireRequest.callerId? hq) (hnull hget), h⟩
      | slot c =>
          rw [Handling.outcome_slot hget] at hserve
          obtain ⟨hid, hnode⟩ := hslot c hget
          obtain ⟨hrep, rfl⟩ := Prod.mk.inj (Except.ok.inj hserve)
          obtain ⟨D', hshows, hloop⟩ := Daemon.Shows.loop hro q.storage (r.direction ≠ 0) c
            (@entryRounds_bounds r.iovec) h 0 q.stack
          rw [← iovecSectors_eq] at hloop
          refine ⟨D', ?_, hshows⟩
          rcases hloop with ⟨hok, hmoves⟩ | ⟨hok, hstops⟩
          · rw [← hrep]
            change Disk.Step _ _ _ _ (some (if (iovecRounds _ _ _ _ _ _ _ _).2.1 then _ else _)) _
            exact (if_pos hok).symm ▸ .moved hq hid hnode hmoves
          · rw [← hrep]
            change Disk.Step _ _ _ _ (some (if (iovecRounds _ _ _ _ _ _ _ _).2.1 then _ else _)) _
            exact (if_neg (Bool.eq_false_iff.mp hok)).symm ▸ .stopped hq hid hnode hstops

theorem Daemon.Shows.happen (h : d.Shows base D) (hro : cfg.readOnly = true) {e : Happening}
    (hallows : d.Allows e) {rep : Option Reply} (hstep : d.happen cfg e = .ok (rep, d')) :
    ∃ D', Disk.Step cfg base D e rep D' ∧ d'.Shows base D' := by
  cases e with
  | modem bytes =>
      cases hstep
      refine ⟨_, .modem ?_, h.remember hallows⟩
      rw [← h.mem, h.sized.length]
      exact hallows
  | request q =>
      unfold Daemon.happen at hstep
      cases hserve : Request.serve cfg d q with
      | error e =>
          simp only [hserve] at hstep
          cases hstep
      | ok r =>
          simp only [hserve] at hstep
          cases hstep
          exact h.serve hro hserve

end Simulation

/-! ### Runs -/

/-- The runs in read-only mode, of the modem and the daemon. -/
abbrev Daemon.RunRo (root : Option String) (parts : Bool) (d₀ : Daemon)
    (h : List (Happening × Option Reply)) (d : Daemon) : Prop :=
  Run (Daemon.happen (storageInit root true parts).1) Daemon.Allows d₀ h d

/-- The disk at the start: no handle is taken. -/
def Disk.init (rmem : RmtfsMem) : Disk := ⟨fun _ => ⟨0, none, false, 0, fun _ => none⟩, rmem.bytes⟩

section Runs

variable {rmem : RmtfsMem} {root : Option String} {parts : Bool} {d d₀ d₁ d₂ d₃ : Daemon} {D : Disk}
  {h h₂ : List (Happening × Option Reply)}

theorem shows_init (hsized : rmem.Sized) :
    (Daemon.init rmem root true parts).Shows rmem.address (Disk.init rmem) :=
  ⟨fun _ => rfl, fun _ => ⟨rfl, Nat.zero_le _, rfl, rfl, rfl, rfl,
    fun p b hb => (by cases hb)⟩, rfl,
    hsized, rfl⟩

theorem Daemon.Shows.run {base : ℕ} (hd : d₀.Shows base D) (hrun : Daemon.RunRo root parts d₀ h d) :
    ∃ D', Trace (Disk.Step (storageInit root true parts).1 base) D h D' ∧ d.Shows base D' :=
  hrun.simulates hd fun hd hallows hstep => hd.happen rfl hallows hstep

/-- **The daemon is a disk**: in read-only mode, every run of the modem and the daemon is a trace of
the disk with the same replies, and the disk at its end is the one that the daemon shows. -/
theorem disk_simulates (hsized : rmem.Sized)
    (hrun : Daemon.RunRo root parts (Daemon.init rmem root true parts) h d) :
    ∃ D, Trace (Disk.Step (storageInit root true parts).1 rmem.address) (Disk.init rmem) h D ∧
      d.Shows rmem.address D :=
  (shows_init hsized).run hrun

/-- A region of two sectors that is not mapped, the first filled with `7`. -/
def twoSectors : RmtfsMem := ⟨0, 1024, false, List.replicate 512 7 ++ List.replicate 512 0⟩

theorem twoSectors_sized : twoSectors.Sized := ⟨by decide +kernel, by decide⟩

/-- The state after a request. -/
def Daemon.served (d : Daemon) (q : Request) : Daemon :=
  match Request.serve (storageInit none true false).1 d q with
  | .ok r => r.2
  | .error _ => d

theorem served_of_reply {q : Request} {rep : Reply}
    (h : (Request.serve (storageInit none true false).1 d q).toOption.map Prod.fst = some rep) :
    Request.serve (storageInit none true false).1 d q = .ok (rep, d.served q) := by
  unfold Daemon.served
  cases hstep : Request.serve (storageInit none true false).1 d q with
  | error e =>
      rw [hstep] at h
      cases h
  | ok r =>
      rw [hstep] at h
      cases h
      rfl

theorem happen_of_reply {q : Request} {rep : Reply}
    (h : (Request.serve (storageInit none true false).1 d q).toOption.map Prod.fst = some rep) :
    d.happen (storageInit none true false).1 (.request q) = .ok (some rep, d.served q) := by
  rw [Daemon.happen, served_of_reply h]

/-- A request of node 1, with memory for the copy. -/
def asks (req : WireRequest) : Request :=
  ⟨1, req, ⟨fun _ => 3, fun _ => .contents 1 [7]⟩, fun _ => ⟨none, 0, some fun _ => 9⟩, []⟩

/-- Sector 3 of the handle 0 is moved from or to an address. -/
def moveSector (direction : UInt8) (phys : UInt32) : Request :=
  asks (.iovec ⟨0, direction, [⟨3, phys, 1⟩], 0⟩)

/-- Node 1 has opened its partition, written its first sector, and cleared its memory. -/
def openedTwo : Daemon :=
  (Daemon.init twoSectors none true false).served (asks (.open "/boot/modem_fs1"))

def writtenTwo : Daemon := openedTwo.served (moveSector 1 0)

def opening : List (Happening × Option Reply) :=
  [(.request (asks (.open "/boot/modem_fs1")), some ⟨0, 0, some 0⟩)]

theorem opening_run :
    Daemon.RunRo none false (Daemon.init twoSectors none true false) opening openedTwo :=
  .snoc .nil trivial (happen_of_reply (by decide +kernel))

theorem disk_simulates_written : ∃ D,
    Trace (Disk.Step (storageInit none true false).1 0) (Disk.init twoSectors)
      (opening ++ [(.request (moveSector 1 0), some .success)]) D ∧ writtenTwo.Shows 0 D :=
  disk_simulates twoSectors_sized
    (opening_run.snoc trivial (happen_of_reply (by decide +kernel)))

/-- What may happen to a sector of the handle `c` that is to be kept: the handle is not closed, and
no request writes to the sector through it. -/
def Spares (c : Fin maxCallers) (off : ℕ) : Happening → Option Reply → Prop
  | .modem _, _ => True
  | .request q, rep =>
      match q.req with
      | .open _ => True
      | .close id => id.toNat = c → rep ≠ some .success
      | .iovec r =>
          r.callerId.toNat = c → r.direction ≠ 0 → ∀ x ∈ iovecSectors r.req.iovec, Apart x.2 off

/-- A request writes the sector at the offset `x.2` of a handle from the address `x.1`, and nothing
else to it after that. -/
def Request.Writes (q : Request) (c : Fin maxCallers) (x : ℕ × ℕ) : Prop :=
  ∃ r l₁ l₂, q.req = .iovec r ∧ r.callerId.toNat = c ∧ r.direction ≠ 0 ∧
    iovecSectors r.req.iovec = l₁ ++ x :: l₂ ∧ ∀ z ∈ l₂, Apart z.2 x.2

/-- A request reads the sector at the offset `y.2` of a handle to the address `y.1`, and nothing
else to there after that. -/
def Request.Reads (q : Request) (c : Fin maxCallers) (y : ℕ × ℕ) : Prop :=
  ∃ r l₁ l₂, q.req = .iovec r ∧ r.callerId.toNat = c ∧ r.direction = 0 ∧
    iovecSectors r.req.iovec = l₁ ++ y :: l₂ ∧ ∀ z ∈ l₂, Apart z.1 y.1

end Runs

end Imola.Rmtfs
