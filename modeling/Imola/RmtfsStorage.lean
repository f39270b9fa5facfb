import Imola.Splice

/-! # The storage layer of `rmtfs`

The handle table of `storage.c` and the functions on it.  A slot is in use when it has a file
descriptor (read-write mode) or a shadow copy of the file in memory (read-only mode, `-r`).
The system calls are inputs of the model: a function that makes one takes its result, so a
statement about all results is a statement about all arguments.

`shadowBuf` is the whole block returned by `calloc` or `realloc`; only its first `shadowLen`
bytes are valid file contents. -/

namespace Imola.Rmtfs

open Imola.Splice

abbrev maxCallers : ℕ := 10
def storageMaxSize : ℕ := 16 * 1024 * 1024
def byPartlabelPath : String := "/dev/disk/by-partlabel"

/-- The entries of `partition_table`. -/
inductive Partition where
  | modemFs1
  | modemFs2
  | modemFsc
  | modemFsg
  | modemTunning
deriving DecidableEq, Repr

namespace Partition

/-- The path a client asks for. -/
def path : Partition → String
  | modemFs1 => "/boot/modem_fs1"
  | modemFs2 => "/boot/modem_fs2"
  | modemFsc => "/boot/modem_fsc"
  | modemFsg => "/boot/modem_fsg"
  | modemTunning => "/boot/modem_tunning"

/-- The name of the file in the storage directory. -/
def actual : Partition → String
  | modemFs1 => "modem_fs1"
  | modemFs2 => "modem_fs2"
  | modemFsc => "modem_fsc"
  | modemFsg => "modem_fsg"
  | modemTunning => "modem_tunning"

/-- The name of the raw partition. -/
def partlabel : Partition → String
  | modemFs1 => "modemst1"
  | modemFs2 => "modemst2"
  | modemFsc => "fsc"
  | modemFsg => "fsg"
  | modemTunning => "tunning"

def table : List Partition := [modemFs1, modemFs2, modemFsc, modemFsg, modemTunning]

theorem path_injective : Function.Injective path := by
  intro p q h
  cases p <;> cases q <;> first | rfl | exact absurd h (by decide)

end Partition

/-- `struct rmtfd`. -/
structure RmtFd where
  id : ℕ
  node : ℕ
  fd : ℤ
  devError : ℕ
  partition : Option Partition
  shadowBuf : Option (List UInt8)
  shadowLen : ℕ
deriving DecidableEq, Repr

/-- The slot is in use. -/
def RmtFd.InUse (r : RmtFd) : Prop := r.fd ≠ -1 ∨ r.shadowBuf.isSome

instance (r : RmtFd) : Decidable r.InUse := inferInstanceAs (Decidable (_ ∨ _))

/-- The array `rmtfds`. -/
abbrev Table := Fin maxCallers → RmtFd

/-- The settings of `storage_init`. -/
structure Config where
  storageDir : String
  readOnly : Bool
  usePartitions : Bool
deriving DecidableEq, Repr

/-- `storage_init`. -/
def storageInit (storageRoot : Option String) (readOnly usePartitions : Bool) : Config × Table :=
  (⟨storageRoot.getD (if usePartitions then byPartlabelPath else "/boot"), readOnly, usePartitions⟩,
    fun i => ⟨i, 0, -1, 0, none, none, 0⟩)

/-! ### Opening and closing -/

/-- How reading the file into a shadow copy can end: `contents len bs` when `lseek` gave `len`
and `read` gave the bytes `bs`. -/
inductive Populate where
  | openFails
  | lseekFails
  | callocFails
  | readFails
  | contents (len : ℕ) (bs : List UInt8)
deriving DecidableEq, Repr

/-- The file system as `storage_open` sees it: the result of `open(path, O_RDWR)`, and how the
shadow copy of a path can be filled. -/
structure FileSystem where
  openRdwr : String → ℤ
  populate : String → Populate

/-- `storage_populate_shadow_buf`. -/
def storagePopulateShadowBuf (p : Populate) (r : RmtFd) : Option RmtFd :=
  match p with
  | .contents len bs =>
      some { r with
        shadowBuf := some (bs ++ List.replicate (len - bs.length) 0)
        shadowLen := bs.length }
  | _ => none

theorem storagePopulateShadowBuf_spec {p : Populate} {r r' : RmtFd}
    (h : storagePopulateShadowBuf p r = some r') :
    r'.shadowBuf.isSome ∧ r'.id = r.id ∧ r'.fd = r.fd := by
  cases p with
  | contents len bs =>
      obtain rfl : _ = r' := Option.some.inj h
      exact ⟨rfl, rfl, rfl⟩
  | _ => cases h

/-- The first slot that satisfies a condition. -/
def findSlot (t : Table) (p : RmtFd → Bool) : Option (Fin maxCallers) :=
  (List.finRange maxCallers).find? fun c => p (t c)

theorem findSlot_spec {t : Table} {p : RmtFd → Bool} {c : Fin maxCallers}
    (h : findSlot t p = some c) : p (t c) = true :=
  List.find?_some (p := fun c => p (t c)) h

theorem findSlot_none {t : Table} {p : RmtFd → Bool} (h : findSlot t p = none)
    (c : Fin maxCallers) :
    p (t c) = false := by
  have hnot := List.find?_eq_none.mp h c (List.mem_finRange c)
  exact Bool.eq_false_iff.mpr hnot

/-- The path of a partition's file. -/
def fspath (cfg : Config) (part : Partition) : String :=
  cfg.storageDir ++ "/" ++ (if cfg.usePartitions then part.partlabel else part.actual)

/-- `storage_open`: the slot it returns, if any, and the table after it. -/
def storageOpen (cfg : Config) (fs : FileSystem) (t : Table) (node : ℕ) (path : String) :
    Option (Fin maxCallers) × Table :=
  match Partition.table.find? (fun part => part.path == path) with
  | none => (none, t)
  | some part =>
      match findSlot t (fun r => r.InUse ∧ r.node = node ∧ r.partition = some part) with
      | some c => (some c, t)
      | none =>
          match findSlot t (fun r => ¬ r.InUse) with
          | none => (none, t)
          | some c =>
              if cfg.readOnly then
                match storagePopulateShadowBuf (fs.populate (fspath cfg part)) (t c) with
                | none => (none, t)
                | some r =>
                    (some c, Function.update t c { r with node := node, partition := some part })
              else if fs.openRdwr (fspath cfg part) < 0 then (none, t)
              else
                (some c, Function.update t c
                  { t c with
                    fd := fs.openRdwr (fspath cfg part)
                    shadowLen := 0
                    node := node
                    partition := some part })

/-- The slot is in use for a node and a partition. -/
def RmtFd.HeldFor (r : RmtFd) (node : ℕ) (part : Partition) : Prop :=
  r.InUse ∧ r.node = node ∧ r.partition = some part

instance (r : RmtFd) (node : ℕ) (part : Partition) : Decidable (r.HeldFor node part) :=
  inferInstanceAs (Decidable (_ ∧ _ ∧ _))

/-- How `storage_open` fills a free slot. -/
inductive OpensAs (cfg : Config) (fs : FileSystem) (node : ℕ) (part : Partition) (r : RmtFd) :
    RmtFd → Prop
  | shadow {r' : RmtFd} : cfg.readOnly = true →
      storagePopulateShadowBuf (fs.populate (fspath cfg part)) r = some r' →
      OpensAs cfg fs node part r { r' with node := node, partition := some part }
  | file : cfg.readOnly = false → 0 ≤ fs.openRdwr (fspath cfg part) →
      OpensAs cfg fs node part r { r with
        fd := fs.openRdwr (fspath cfg part)
        shadowLen := 0
        node := node
        partition := some part }

theorem OpensAs.heldFor {cfg : Config} {fs : FileSystem} {node : ℕ} {part : Partition}
    {r r' : RmtFd}
    (h : OpensAs cfg fs node part r r') : r'.HeldFor node part := by
  cases h with
  | shadow hro hpop => exact ⟨Or.inr (storagePopulateShadowBuf_spec hpop).1, rfl, rfl⟩
  | file hro hfd =>
      refine ⟨Or.inl ?_, rfl, rfl⟩
      dsimp only
      omega

/-- Why `storage_open` fails. -/
inductive OpenFails (cfg : Config) (fs : FileSystem) (t : Table) (node : ℕ) (path : String) : Prop
  | unknown : (∀ part : Partition, part.path ≠ path) → OpenFails cfg fs t node path
  | full {part : Partition} : part.path = path → (∀ k, ¬ (t k).HeldFor node part) →
      (∀ k, (t k).InUse) → OpenFails cfg fs t node path
  | unfilled {part : Partition} : part.path = path → (∀ k, ¬ (t k).HeldFor node part) →
      cfg.readOnly = true → (∀ len bs, fs.populate (fspath cfg part) ≠ .contents len bs) →
      OpenFails cfg fs t node path
  | unopened {part : Partition} : part.path = path → (∀ k, ¬ (t k).HeldFor node part) →
      cfg.readOnly = false → fs.openRdwr (fspath cfg part) < 0 → OpenFails cfg fs t node path

theorem Partition.mem_table (part : Partition) : part ∈ Partition.table := by
  cases part <;> decide

theorem storagePopulateShadowBuf_none {p : Populate} {r : RmtFd}
    (h : storagePopulateShadowBuf p r = none) (len : ℕ) (bs : List UInt8) :
    p ≠ .contents len bs := by
  rintro rfl
  cases h

/-- **`storage_open`** fails and changes nothing, or finds the slot that is held, or fills a free
one. -/
theorem storageOpen_spec (cfg : Config) (fs : FileSystem) (t : Table) (node : ℕ) (path : String) :
    (storageOpen cfg fs t node path = (none, t) ∧ OpenFails cfg fs t node path) ∨
    ∃ part : Partition, part.path = path ∧
      ((∃ c, storageOpen cfg fs t node path = (some c, t) ∧ (t c).HeldFor node part) ∨
      (∃ c r, storageOpen cfg fs t node path = (some c, Function.update t c r) ∧
        (∀ k, ¬ (t k).HeldFor node part) ∧ ¬ (t c).InUse ∧ OpensAs cfg fs node part (t c) r)) := by
  unfold storageOpen
  split
  · rename_i hpart
    refine Or.inl ⟨rfl, .unknown fun part hpath => ?_⟩
    have hno := List.find?_eq_none.mp hpart part part.mem_table
    exact hno (beq_iff_eq.mpr hpath)
  · rename_i part hpart
    have hpath : part.path = path := by simpa using List.find?_some hpart
    split
    · rename_i c hfound
      have hheld := findSlot_spec hfound
      simp only [decide_eq_true_eq] at hheld
      exact Or.inr ⟨part, hpath, Or.inl ⟨c, rfl, hheld⟩⟩
    · rename_i hnone
      have hnobody : ∀ k, ¬ (t k).HeldFor node part := by
        intro k hk
        have hfalse := findSlot_none hnone k
        rw [decide_eq_false_iff_not] at hfalse
        exact hfalse hk
      split
      · rename_i hfull
        refine Or.inl ⟨rfl, .full hpath hnobody fun k => ?_⟩
        have hfalse := findSlot_none hfull k
        rwa [decide_eq_false_iff_not, not_not] at hfalse
      · rename_i c hfree
        have hspec := findSlot_spec hfree
        simp only [decide_eq_true_eq] at hspec
        split_ifs with hro hfd
        · split
          · rename_i hpop
            exact Or.inl ⟨rfl, .unfilled hpath hnobody hro (storagePopulateShadowBuf_none hpop)⟩
          · rename_i r hpop
            exact Or.inr ⟨part, hpath, Or.inr ⟨c, _, rfl, hnobody, hspec, .shadow hro hpop⟩⟩
        · exact Or.inl ⟨rfl, .unopened hpath hnobody (by simpa using hro) hfd⟩
        · refine Or.inr ⟨part, hpath, Or.inr ⟨c, _, rfl, hnobody, hspec, ?_⟩⟩
          exact .file (by simpa using hro) (by omega)

/-- `storage_close`. -/
def storageClose (r : RmtFd) : RmtFd :=
  { r with
    fd := if r.fd ≥ 0 then -1 else r.fd
    shadowBuf := none
    shadowLen := 0
    partition := none }

/-- What `storage_get` gives: NULL, a slot, or memory outside the table. -/
inductive Lookup where
  | null
  | slot (c : Fin maxCallers)
  | outside
deriving DecidableEq, Repr

/-- `storage_get`: only an index at or above `MAX_CALLERS` is refused, and the test is signed. -/
def storageGet (t : Table) (node : ℕ) (callerId : ℤ) : Lookup :=
  if callerId ≥ maxCallers then .null
  else if h : 0 ≤ callerId ∧ callerId.toNat < maxCallers then
    if (t ⟨callerId.toNat, h.2⟩).node ≠ node then .null else .slot ⟨callerId.toNat, h.2⟩
  else .outside

/-! ### Reading and writing -/

/-- `storage_pread` into the array `buf` of `nbyte` bytes; `io` is the result of `pread` and the
bytes it stored.  The comparison `n < nbyte` is unsigned. -/
def storagePread (cfg : Config) (io : ℤ × List UInt8) (r : RmtFd) (buf : List UInt8)
    (nbyte offset : ℕ) : ℕ × List UInt8 :=
  if cfg.readOnly then
    let n : ℕ := (min (nbyte : ℤ) ((r.shadowLen : ℤ) - offset)).toNat
    (nbyte, slice (r.shadowBuf.getD []) offset n ++ List.replicate (nbyte - n) 0)
  else if io.1 < 0 then (nbyte, buf)
  else (nbyte, io.2.take io.1.toNat ++ List.replicate (nbyte - io.1.toNat) 0)

/-- `realloc` of a block: the old bytes, then whatever the new memory holds. -/
def realloc (block : List UInt8) (newLen : ℕ) (fresh : ℕ → UInt8) : List UInt8 :=
  block.take newLen ++ window fresh block.length (newLen - block.length)

/-- The results of the calls `storage_pwrite` can make; `realloc` is `none` when memory is
exhausted, and else gives the contents of new memory. -/
structure WriteIo where
  pwrite : ℤ
  realloc : Option (ℕ → UInt8)

/-- `storage_pwrite`. -/
def storagePwrite (cfg : Config) (io : WriteIo) (r : RmtFd) (buf : List UInt8) (offset : ℕ) :
    ℤ × RmtFd :=
  let newLen := (offset + buf.length) % 2 ^ 64
  if ¬ cfg.readOnly then (io.pwrite, r)
  else if newLen ≥ storageMaxSize then (-1, r)
  else if newLen > r.shadowLen then
    match io.realloc with
    | none => (-1, r)
    | some fresh =>
        (buf.length, { r with
          shadowBuf := some (splice (realloc (r.shadowBuf.getD []) newLen fresh) offset buf)
          shadowLen := newLen })
  else (buf.length, { r with shadowBuf := r.shadowBuf.map fun b => splice b offset buf })

/-- Only the shadow copy differs, and none was taken away. -/
structure SameButShadow (r r' : RmtFd) : Prop where
  id : r'.id = r.id
  node : r'.node = r.node
  fd : r'.fd = r.fd
  devError : r'.devError = r.devError
  partition : r'.partition = r.partition
  buf_isSome : r.shadowBuf.isSome → r'.shadowBuf.isSome

theorem SameButShadow.refl (r : RmtFd) : SameButShadow r r := ⟨rfl, rfl, rfl, rfl, rfl, fun h => h⟩

theorem SameButShadow.trans {r₁ r₂ r₃ : RmtFd} (h₁ : SameButShadow r₁ r₂)
    (h₂ : SameButShadow r₂ r₃) :
    SameButShadow r₁ r₃ :=
  ⟨h₂.id.trans h₁.id, h₂.node.trans h₁.node, h₂.fd.trans h₁.fd, h₂.devError.trans h₁.devError,
    h₂.partition.trans h₁.partition, fun h => h₂.buf_isSome (h₁.buf_isSome h)⟩

theorem SameButShadow.inUse {r r' : RmtFd} (h : SameButShadow r r') : r.InUse → r'.InUse := by
  rintro (hfd | hbuf)
  · exact Or.inl (by rwa [h.fd])
  · exact Or.inr (h.buf_isSome hbuf)

theorem storagePwrite_keeps (cfg : Config) (io : WriteIo) (r : RmtFd) (buf : List UInt8)
    (offset : ℕ) :
    SameButShadow r (storagePwrite cfg io r buf offset).2 := by
  unfold storagePwrite
  dsimp only
  split_ifs
  · exact SameButShadow.refl r
  · cases io.realloc with
    | none => exact SameButShadow.refl r
    | some fresh => exact ⟨rfl, rfl, rfl, rfl, rfl, fun _ => rfl⟩
  · refine ⟨rfl, rfl, rfl, rfl, rfl, fun hbuf => ?_⟩
    rwa [Option.isSome_map]
  · exact SameButShadow.refl r

end Imola.Rmtfs
