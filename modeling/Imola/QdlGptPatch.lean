import Imola.QdlGpt

/-! # What the patched partition tables hold

`patchGptTables_ok` states the two images that `patch_gpt_tables` writes from inputs of the
standard shape (`StandardShape`): the three partitions are in place, the backup array repeats
the primary one, both headers describe the disk and are `Sealed` by their checksums, and every
byte outside the blocks `mainWritten` and `backupWritten` is the input's (`Patched`).

The checksums are written last and cover bytes written before, so the argument is one of
frames: each operation of the script changes only its own block (`Frame`), and a field keeps
its value through every later operation whose block it does not meet. -/

namespace Imola.Qdl

open Imola.Bytes Imola.Splice

/-! ### Decoding -/

/-- A partition entry; `name` is given by the UTF-16 code units before the first NUL. -/
structure GptEntry where
  typeGuid : List UInt8
  uniqGuid : List UInt8
  firstLba : ℕ
  lastLba : ℕ
  flags : ℕ
  name : List ℕ
deriving DecidableEq, Repr

/-- The code units of a name field, up to the first NUL. -/
def nameUnits : List UInt8 → List ℕ
  | a :: b :: rest =>
      let u := a.toNat + 256 * b.toNat
      if u = 0 then [] else u :: nameUnits rest
  | _ => []

/-- The entry in a block of 128 bytes. -/
def decodeEntry (bs : List UInt8) : GptEntry :=
  ⟨slice bs 0 16, slice bs 16 16, ofLE (slice bs 32 8), ofLE (slice bs 40 8), ofLE (slice bs 48 8),
    nameUnits (slice bs 56 72)⟩

theorem utf16Units_lt {c : Char} {u : ℕ} (h : u ∈ utf16Units c) : u < 256 ^ 2 := by
  have hc : c.toNat < 0x110000 := by
    rcases c.valid with h | h
    · exact lt_trans h (by decide)
    · exact h.2
  unfold utf16Units at h
  split_ifs at h with hlt
  · simp only [List.mem_singleton] at h
    omega
  · simp only [List.mem_cons, List.not_mem_nil, or_false] at h
    omega

theorem nameUnits_zeros (m : ℕ) : nameUnits (List.replicate m 0) = [] := by
  match m with
  | 0 => rfl
  | 1 => rfl
  | m + 2 => simp [List.replicate_succ, nameUnits]

/-- A padded name is read back. -/
theorem nameUnits_encode {us : List ℕ} (hlt : ∀ u ∈ us, u < 256 ^ 2)
    (hne : ∀ u ∈ us, u ≠ 0) (m : ℕ) :
    nameUnits (us.flatMap (toLE 2) ++ List.replicate m 0) = us := by
  induction us with
  | nil => exact nameUnits_zeros m
  | cons u us ih =>
      have hu : (UInt8.ofNat u).toNat + 256 * (UInt8.ofNat (u / 256)).toNat = u := by
        have := hlt u (by simp)
        simp only [UInt8.toNat_ofNat']
        omega
      have ih := ih (fun v hv => hlt v (by simp [hv])) (fun v hv => hne v (by simp [hv]))
      have htwo : toLE 2 u = [UInt8.ofNat u, UInt8.ofNat (u / 256)] := rfl
      simp only [List.flatMap_cons, htwo, List.cons_append, List.nil_append, nameUnits, hu]
      rw [if_neg (hne u (by simp)), ih]

theorem flatMap_toLE_length (us : List ℕ) : (us.flatMap (toLE 2)).length = 2 * us.length := by
  induction us with
  | nil => rfl
  | cons u us ih =>
      simp only [List.flatMap_cons, List.length_append, toLE_length, ih, List.length_cons]
      omega

theorem createGptEntry_length (uniq : Guid) (name : String) (first last : ℕ) (type : Guid)
    (flags : ℕ) :
    (createGptEntry uniq name first last type flags).length = 128 := by
  have hpad : 72 ≤ ((encodeUtf16le name).rightpad 72 0).length := by
    rw [List.length_rightpad]
    omega
  simp only [createGptEntry, List.length_append, toLE_length, type.length_eq, uniq.length_eq,
    List.length_take]
  omega

/-- **An entry is read back**, for a name that fits its field and has no NUL. -/
theorem decodeEntry_createGptEntry {name : String} {first last flags : ℕ} (uniq type : Guid)
    (hfirst : first < 256 ^ 8) (hlast : last < 256 ^ 8) (hflags : flags < 256 ^ 8)
    (hlen : (name.toList.flatMap utf16Units).length ≤ 36)
    (hne : ∀ u ∈ name.toList.flatMap utf16Units, u ≠ 0) :
    decodeEntry (createGptEntry uniq name first last type flags) =
      ⟨type.bytesLe, uniq.bytesLe, first, last, flags, name.toList.flatMap utf16Units⟩ := by
  have hname : ((encodeUtf16le name).rightpad 72 0).take 72 =
      (name.toList.flatMap utf16Units).flatMap (toLE 2) ++
        List.replicate (72 - (encodeUtf16le name).length) 0 := by
    rw [List.take_of_length_le]
    · rfl
    · rw [List.length_rightpad, encodeUtf16le, flatMap_toLE_length]
      omega
  have hunits := nameUnits_encode (fun u hu => by
    obtain ⟨c, _, hc⟩ := List.mem_flatMap.mp hu
    exact utf16Units_lt hc) hne (72 - (encodeUtf16le name).length)
  have hpad : (((encodeUtf16le name).rightpad 72 0).take 72).length = 72 := by
    rw [List.length_take, List.length_rightpad]
    omega
  have ht := type.length_eq
  have hu := uniq.length_eq
  rw [← hname] at hunits
  simp only [decodeEntry, createGptEntry, List.append_assoc, GptEntry.mk.injEq]
  refine ⟨slice_append_left ht, ?_, ?_, ?_, ?_, ?_⟩
  · rw [slice_append_right (by omega), ht]
    exact slice_append_left hu
  · rw [slice_append_right (by omega), slice_append_right (by omega), ht, hu,
      slice_append_left (toLE_length 8 first), ofLE_toLE hfirst]
  · rw [slice_append_right (by omega), slice_append_right (by omega), ht, hu,
      slice_append_right (by simp), toLE_length, slice_append_left (toLE_length 8 last),
      ofLE_toLE hlast]
  · rw [slice_append_right (by omega), slice_append_right (by omega), ht, hu,
      slice_append_right (by simp), toLE_length, slice_append_right (by simp), toLE_length,
      slice_append_left (toLE_length 8 flags), ofLE_toLE hflags]
  · rw [slice_append_right (by omega), slice_append_right (by omega), ht, hu,
      slice_append_right (by simp), toLE_length, slice_append_right (by simp), toLE_length,
      slice_append_right (by simp), toLE_length, slice, Nat.sub_self, List.drop_zero,
      List.take_of_length_le (by omega), hunits]

/-! ### The operations -/

/-- The 32-bit number at `off`. -/
def u32At (data : List UInt8) (off : ℕ) : ℕ := ofLE (slice data off 4)

/-- The 64-bit number at `off`. -/
def u64At (data : List UInt8) (off : ℕ) : ℕ := ofLE (slice data off 8)

theorem unpackFrom_u32 {data : List UInt8} {off : ℕ} (h : off + 4 ≤ data.length) :
    unpackFrom 4 data off = .ok (u32At data off) := by
  rw [unpackFrom, if_pos h, u32At]

theorem packInto_spec (w : ℕ) (data : List UInt8) (off n : ℕ) (hn : n < 256 ^ w)
    (h : off + w ≤ data.length) : ∃ data', packInto w data off n = .ok data' ∧
      data' = splice data off (toLE w n) ∧ Frame [(off, w)] data data' ∧
      ofLE (slice data' off w) = n := by
  have hlen : off + (toLE w n).length ≤ data.length := by simpa using h
  refine ⟨splice data off (toLE w n), by rw [packInto, if_pos ⟨hn, h⟩], rfl,
    Frame.splice hlen (toLE_length w n), ?_⟩
  rw [slice_splice_self hlen (toLE_length w n), ofLE_toLE hn]

theorem setSlice_eq_splice {data s : List UInt8} {lo hi : ℕ} (h : lo + s.length = hi) :
    setSlice data lo hi s = splice data lo s := by
  have hmax : max lo hi = lo + s.length := by omega
  rw [setSlice, splice, hmax]

/-- The header at `off` carries the checksum of the `len` bytes at `arr` and its own: that of its
bytes with the checksum field zeroed. -/
def Sealed (crc32 : List UInt8 → UInt32) (data : List UInt8) (off arr len : ℕ) : Prop :=
  u32At data (off + 88) = (crc32 (slice data arr len)).toNat ∧
  u32At data (off + 16) =
    (crc32 (splice (slice data off (u32At data (off + 12))) 16 [0, 0, 0, 0])).toNat

/-- **Sealing a header**: the array lies outside it, or at least behind its checksums. -/
theorem updateGptHeaderCrc_spec (crc32 : List UInt8 → UInt32) (data : List UInt8) (off arr len : ℕ)
    (hmin : 92 ≤ u32At data (off + 12)) (hmax : off + u32At data (off + 12) ≤ data.length)
    (harr : arr + len ≤ off ∨ off + 92 ≤ arr) :
    ∃ data', updateGptHeaderCrc crc32 data off (slice data arr len) = .ok data' ∧
      Frame [(off + 88, 4), (off + 16, 4)] data data' ∧ Sealed crc32 data' off arr len := by
  set hs := u32At data (off + 12) with hhs
  have hcrc : ∀ x : UInt32, x.toNat < 256 ^ 4 := fun x => x.toNat_lt
  obtain ⟨d₁, he₁, -, hf₁, hv₁⟩ :=
    packInto_spec 4 data (off + 88) (crc32 (slice data arr len)).toNat
    (hcrc _) (by omega)
  obtain ⟨d₂, he₂, hd₂, hf₂, -⟩ :=
    packInto_spec 4 d₁ (off + 16) 0 (by norm_num) (by rw [hf₁.1]; omega)
  obtain ⟨d₃, he₃, hd₃, hf₃, hv₃⟩ := packInto_spec 4 d₂ (off + 16) (crc32 (slice d₂ off hs)).toNat
    (hcrc _) (by rw [hf₂.1, hf₁.1]; omega)
  have hf : Frame [(off + 88, 4), (off + 16, 4)] data d₃ := by
    refine (hf₁.trans (hf₂.trans hf₃)).mono ?_
    simp
  refine ⟨d₃, ?_, hf, ?_, ?_⟩
  · rw [updateGptHeaderCrc, unpackFrom_u32 (by omega)]
    simp only [bind, Except.bind, ← hhs]
    rw [if_neg (by omega), toNat_and_mask, he₁]
    simp only [he₂]
    rw [getSlice, Nat.add_sub_cancel_left, toNat_and_mask, he₃]
  · rw [u32At, (hf₂.trans hf₃).slice_eq (by simp), hv₁, hf.slice_eq (by simp; omega)]
  · have hlen₂ : d₂.length = data.length := hf₂.1.trans hf₁.1
    have hhs₃ : u32At d₃ (off + 12) = hs := by
      rw [hhs, u32At, u32At, hf.slice_eq (by simp)]
    have hzero : splice (slice d₃ off hs) 16 [0, 0, 0, 0] = slice d₂ off hs := by
      have hz : ([0, 0, 0, 0] : List UInt8) = toLE 4 0 := rfl
      rw [hd₃, slice_splice_inside (by omega) (by simp; omega), hz,
        splice_splice_self (by rw [length_slice (by omega)]; simp; omega) (by simp),
        ← slice_splice_inside (by omega) (by simp; omega), hd₂,
        splice_splice_self (by simp; rw [hf₁.1]; omega) rfl]
    rw [hhs₃, hzero]
    exact hv₃

/-! ### The images -/

/-- The shape of the input images: entries of 128 bytes, `n` of them in both headers, and headers
and arrays that lie inside their image. -/
structure StandardShape (n : ℕ) (main backup : List UInt8) : Prop where
  count_min : 70 ≤ n
  count_max : n ≤ 128
  main_count : u32At main (512 + 80) = n
  main_entry : u32At main (512 + 84) = 128
  backup_count : u32At backup (16384 + 80) = n
  backup_entry : u32At backup (16384 + 84) = 128
  main_header_min : 92 ≤ u32At main (512 + 12)
  main_header_max : 512 + u32At main (512 + 12) ≤ main.length
  backup_header_min : 92 ≤ u32At backup (16384 + 12)
  backup_header_max : 16384 + u32At backup (16384 + 12) ≤ backup.length
  main_array : 1024 + 128 * n ≤ main.length

/-- The blocks written in the primary image: the new entries, both checksums, the alternate LBA
and the last usable LBA. -/
def mainWritten : List (ℕ × ℕ) :=
  [(1024 + 67 * 128, 3 * 128), (512 + 16, 4), (512 + 32, 8), (512 + 48, 8), (512 + 88, 4)]

/-- The blocks written in the backup image: the array, both checksums, the two header LBAs, the
last usable LBA and the LBA of the entries. -/
def backupWritten (n : ℕ) : List (ℕ × ℕ) :=
  [(0, 128 * n), (16384 + 16, 4), (16384 + 24, 8), (16384 + 32, 8), (16384 + 48, 8),
    (16384 + 72, 8),
    (16384 + 88, 4)]

/-- Entry `k` of the primary array. -/
def primaryEntry (main : List UInt8) (k : ℕ) : List UInt8 := slice main (1024 + 128 * k) 128

/-- A partition of this device, with no flags. -/
def devicePartition (uniq : Guid) (name : String) (first last : ℕ) : GptEntry :=
  ⟨linuxFsGuid.bytesLe, uniq.bytesLe, first, last, 0, name.toList.flatMap utf16Units⟩

/-- What the images `main'` and `backup'` hold, written from `main` and `backup`. -/
structure Patched (crc32 : List UInt8 → UInt32) (u₁ u₂ u₃ : Guid) (n : ℕ)
    (main backup main' backup' : List UInt8) : Prop where
  metadata : decodeEntry (primaryEntry main' 67) =
    devicePartition u₁ "metadata" metadataStartSector metadataEndSector
  rootfs : decodeEntry (primaryEntry main' 68) =
    devicePartition u₂ "rootfs" rootfsStartSector rootfsEndSector
  userdata : decodeEntry (primaryEntry main' 69) =
    devicePartition u₃ "userdata" userdataStartSector userdataEndSector
  other_entries : ∀ k < n, k < 67 ∨ 69 < k → primaryEntry main' k = primaryEntry main k
  backup_array : slice backup' 0 (128 * n) = slice main' 1024 (128 * n)
  main_sealed : Sealed crc32 main' 512 1024 (128 * n)
  backup_sealed : Sealed crc32 backup' 16384 0 (128 * n)
  main_my_lba : u64At main' (512 + 24) = u64At main (512 + 24)
  main_alternate_lba : u64At main' (512 + 32) = totalDiskSectors - 1
  main_last_usable : u64At main' (512 + 48) = totalDiskSectors - 34
  backup_my_lba : u64At backup' (16384 + 24) = totalDiskSectors - 1
  backup_alternate_lba : u64At backup' (16384 + 32) = 1
  backup_last_usable : u64At backup' (16384 + 48) = totalDiskSectors - 34
  backup_entries_lba : u64At backup' (16384 + 72) = totalDiskSectors - 33
  main_frame : Frame mainWritten main main'
  backup_frame : Frame (backupWritten n) backup backup'

theorem insertEntries_spec (u₁ u₂ u₃ : Guid) (main : List UInt8)
    (h : 1024 + 70 * 128 ≤ main.length) :
    Frame [(1024 + 67 * 128, 3 * 128)] main (insertEntries u₁ u₂ u₃ main) ∧
    decodeEntry (primaryEntry (insertEntries u₁ u₂ u₃ main) 67) =
      devicePartition u₁ "metadata" metadataStartSector metadataEndSector ∧
    decodeEntry (primaryEntry (insertEntries u₁ u₂ u₃ main) 68) =
      devicePartition u₂ "rootfs" rootfsStartSector rootfsEndSector ∧
    decodeEntry (primaryEntry (insertEntries u₁ u₂ u₃ main) 69) =
      devicePartition u₃ "userdata" userdataStartSector userdataEndSector := by
  simp only [insertEntries]
  set e₁ := createGptEntry u₁ "metadata" metadataStartSector metadataEndSector
    linuxFsGuid 0 with he₁
  set e₂ := createGptEntry u₂ "rootfs" rootfsStartSector rootfsEndSector linuxFsGuid 0 with he₂
  set e₃ := createGptEntry u₃ "userdata" userdataStartSector userdataEndSector
    linuxFsGuid 0 with he₃
  have hl₁ : e₁.length = 128 := createGptEntry_length ..
  have hl₂ : e₂.length = 128 := createGptEntry_length ..
  have hl₃ : e₃.length = 128 := createGptEntry_length ..
  rw [setSlice_eq_splice (by omega), setSlice_eq_splice (by omega), setSlice_eq_splice (by omega)]
  have hf₁ : Frame [(1024 + 67 * 128, 128)] main (splice main (1024 + 67 * 128) e₁) :=
    Frame.splice (by omega) hl₁
  set d₁ := splice main (1024 + 67 * 128) e₁ with hd₁
  have hf₂ : Frame [(1024 + 68 * 128, 128)] d₁ (splice d₁ (1024 + 68 * 128) e₂) :=
    Frame.splice (by have := hf₁.1; omega) hl₂
  set d₂ := splice d₁ (1024 + 68 * 128) e₂ with hd₂
  have hf₃ : Frame [(1024 + 69 * 128, 128)] d₂ (splice d₂ (1024 + 69 * 128) e₃) :=
    Frame.splice (by have := hf₁.1; have := hf₂.1; omega) hl₃
  have hlen₁ := hf₁.1
  have hlen₂ := hf₂.1
  refine ⟨(hf₁.trans (hf₂.trans hf₃)).mono (by simp), ?_, ?_, ?_⟩
  · rw [primaryEntry, (hf₂.trans hf₃).slice_eq (by simp), hd₁,
      slice_splice_self (by omega) hl₁, he₁]
    exact decodeEntry_createGptEntry _ _ (by norm_num) (by norm_num) (by norm_num)
      (by decide) (by decide)
  · rw [primaryEntry, hf₃.slice_eq (by simp), hd₂, slice_splice_self (by omega) hl₂, he₂]
    exact decodeEntry_createGptEntry _ _ (by norm_num) (by norm_num) (by norm_num)
      (by decide) (by decide)
  · rw [primaryEntry, slice_splice_self (by omega) hl₃, he₃]
    exact decodeEntry_createGptEntry _ _ (by norm_num) (by norm_num) (by norm_num)
      (by decide) (by decide)

section Geometry

variable (crc32 : List UInt8 → UInt32)

theorem sealMain (data : List UInt8) (len : ℕ) (hmin : 92 ≤ u32At data (512 + 12))
    (hmax : 512 + u32At data (512 + 12) ≤ data.length) :
    ∃ d₁ d₂ d₃, packInto 8 data (512 + 32) (totalDiskSectors - 1) = .ok d₁ ∧
      packInto 8 d₁ (512 + 48) lastUsableLba = .ok d₂ ∧
      updateGptHeaderCrc crc32 d₂ 512 (slice data 1024 len) = .ok d₃ ∧
      Frame [(512 + 32, 8), (512 + 48, 8), (512 + 88, 4), (512 + 16, 4)] data d₃ ∧
      Sealed crc32 d₃ 512 1024 len ∧
      u64At d₃ (512 + 32) = totalDiskSectors - 1 ∧ u64At d₃ (512 + 48) = totalDiskSectors - 34 := by
  obtain ⟨d₁, he₁, -, hf₁, hv₁⟩ :=
    packInto_spec 8 data (512 + 32) (totalDiskSectors - 1) (by norm_num)
    (by omega)
  obtain ⟨d₂, he₂, -, hf₂, hv₂⟩ := packInto_spec 8 d₁ (512 + 48) lastUsableLba (by norm_num)
    (by rw [hf₁.1]; omega)
  have hf := hf₁.trans hf₂
  have hsize : u32At d₂ (512 + 12) = u32At data (512 + 12) := by
    rw [u32At, u32At, hf.slice_eq (by simp)]
  obtain ⟨d₃, he₃, hf₃, hsealed⟩ := updateGptHeaderCrc_spec crc32 d₂ 512 1024 len (by omega)
    (by rw [hsize, hf.1]; exact hmax) (by omega)
  rw [hf.slice_eq (by simp)] at he₃
  refine ⟨d₁, d₂, d₃, he₁, he₂, he₃, hf.trans hf₃, hsealed, ?_, ?_⟩
  · rw [u64At, (hf₂.trans hf₃).slice_eq (by simp), hv₁]
  · rw [u64At, hf₃.slice_eq (by simp), hv₂]

theorem sealBackup (data : List UInt8) (len : ℕ) (hmin : 92 ≤ u32At data (16384 + 12))
    (hmax : 16384 + u32At data (16384 + 12) ≤ data.length) (hlen : len ≤ 16384) :
    ∃ d₁ d₂ d₃ d₄ d₅, packInto 8 data (16384 + 24) (totalDiskSectors - 1) = .ok d₁ ∧
      packInto 8 d₁ (16384 + 32) 1 = .ok d₂ ∧ packInto 8 d₂ (16384 + 48) lastUsableLba = .ok d₃ ∧
      packInto 8 d₃ (16384 + 72) (totalDiskSectors - 33) = .ok d₄ ∧
      updateGptHeaderCrc crc32 d₄ 16384 (slice d₄ 0 len) = .ok d₅ ∧
      Frame [(16384 + 24, 8), (16384 + 32, 8), (16384 + 48, 8), (16384 + 72, 8), (16384 + 88, 4),
        (16384 + 16, 4)] data d₅ ∧
      Sealed crc32 d₅ 16384 0 len ∧
      u64At d₅ (16384 + 24) = totalDiskSectors - 1 ∧ u64At d₅ (16384 + 32) = 1 ∧
      u64At d₅ (16384 + 48) = totalDiskSectors - 34 ∧
      u64At d₅ (16384 + 72) = totalDiskSectors - 33 := by
  obtain ⟨d₁, he₁, -, hf₁, hv₁⟩ := packInto_spec 8 data (16384 + 24) (totalDiskSectors - 1)
    (by norm_num) (by omega)
  obtain ⟨d₂, he₂, -, hf₂, hv₂⟩ := packInto_spec 8 d₁ (16384 + 32) 1 (by norm_num)
    (by rw [hf₁.1]; omega)
  have hf₁₂ := hf₁.trans hf₂
  obtain ⟨d₃, he₃, -, hf₃, hv₃⟩ := packInto_spec 8 d₂ (16384 + 48) lastUsableLba (by norm_num)
    (by rw [hf₁₂.1]; omega)
  have hf₁₃ := hf₁₂.trans hf₃
  obtain ⟨d₄, he₄, -, hf₄, hv₄⟩ :=
    packInto_spec 8 d₃ (16384 + 72) (totalDiskSectors - 33) (by norm_num)
    (by rw [hf₁₃.1]; omega)
  have hf := hf₁₃.trans hf₄
  have hsize : u32At d₄ (16384 + 12) = u32At data (16384 + 12) := by
    rw [u32At, u32At, hf.slice_eq (by simp)]
  obtain ⟨d₅, he₅, hf₅, hsealed⟩ := updateGptHeaderCrc_spec crc32 d₄ 16384 0 len (by omega)
    (by rw [hsize, hf.1]; exact hmax) (by omega)
  refine ⟨d₁, d₂, d₃, d₄, d₅, he₁, he₂, he₃, he₄, he₅, hf.trans hf₅, hsealed, ?_, ?_, ?_, ?_⟩
  · rw [u64At, (hf₂.trans (hf₃.trans (hf₄.trans hf₅))).slice_eq (by simp), hv₁]
  · rw [u64At, (hf₃.trans (hf₄.trans hf₅)).slice_eq (by simp), hv₂]
  · rw [u64At, (hf₄.trans hf₅).slice_eq (by simp), hv₃]
  · rw [u64At, hf₅.slice_eq (by simp), hv₄]

theorem patchGptTables_spec (u₁ u₂ u₃ : Guid) {n : ℕ} {main backup : List UInt8}
    (h : StandardShape n main backup) : ∃ main' backup',
      patchGptTables crc32 u₁ u₂ u₃ main backup = .ok (main', backup') ∧
      Patched crc32 u₁ u₂ u₃ n main backup main' backup' := by
  have hmin := h.count_min
  have hmax := h.count_max
  have harr := h.main_array
  have hbhmin := h.backup_header_min
  have hbhmax := h.backup_header_max
  obtain ⟨hf₀, he67, he68, he69⟩ := insertEntries_spec u₁ u₂ u₃ main (by omega)
  set d := insertEntries u₁ u₂ u₃ main with hd
  have hlen : d.length = main.length := hf₀.1
  have hfield : ∀ k, k + 4 ≤ 512 → u32At d (512 + k) = u32At main (512 + k) := by
    intro k hk
    rw [u32At, u32At, hf₀.slice_eq (by simp; omega)]
  obtain ⟨d₁, d₂, d₃, hp₁, hp₂, hp₃, hfm, hsm, halt, hlast⟩ := sealMain crc32 d (128 * n)
    (by rw [hfield 12 (by norm_num)]; exact h.main_header_min)
    (by rw [hfield 12 (by norm_num), hlen]; exact h.main_header_max)
  have hentries : (slice d 1024 (128 * n)).length = 128 * n := length_slice (by omega)
  have hfb₀ : Frame [(0, 128 * n)] backup (splice backup 0 (slice d 1024 (128 * n))) :=
    Frame.splice (by rw [hentries]; omega) hentries
  have hself : slice (splice backup 0 (slice d 1024 (128 * n))) 0 (128 * n) =
      slice d 1024 (128 * n) :=
    slice_splice_self (by rw [hentries]; omega) hentries
  set b := splice backup 0 (slice d 1024 (128 * n)) with hb
  have hblen : b.length = backup.length := hfb₀.1
  have hbfield : ∀ k, u32At b (16384 + k) = u32At backup (16384 + k) := by
    intro k
    rw [u32At, u32At, hfb₀.slice_eq (by simp; omega)]
  obtain ⟨b₁, b₂, b₃, b₄, b₅, hq₁, hq₂, hq₃, hq₄, hq₅, hfb, hsb, hmy, halt', hlast', hlba⟩ :=
    sealBackup crc32 b (128 * n) (by rw [hbfield]; exact h.backup_header_min)
      (by rw [hbfield, hblen]; exact h.backup_header_max) (by omega)
  refine ⟨d₃, b₅, ?_, ?_⟩
  · have hset : setSlice backup 0 (n * 128) (slice d 1024 (128 * n)) = b :=
      setSlice_eq_splice (by rw [hentries]; omega)
    have hslice : getSlice d 1024 (1024 + n * 128) = slice d 1024 (128 * n) := by
      rw [getSlice, Nat.add_sub_cancel_left, Nat.mul_comm]
    have hslice' : getSlice b₄ 0 (n * 128) = slice b₄ 0 (128 * n) := by
      rw [getSlice, Nat.sub_zero, Nat.mul_comm]
    simp only [patchGptTables, ← hd, bind, Except.bind]
    rw [unpackFrom_u32 (by omega), unpackFrom_u32 (by omega), hfield 80 (by norm_num), h.main_count,
      hfield 84 (by norm_num), h.main_entry]
    simp only [hslice, hp₁, hp₂, hp₃, hset]
    rw [unpackFrom_u32 (by omega), unpackFrom_u32 (by omega), hbfield 80,
      h.backup_count, hbfield 84,
      h.backup_entry]
    simp only [ne_eq, not_true_eq_false, if_false, hq₁, hq₂, hq₃, hq₄, hslice', hq₅]
  · have hfm' := hf₀.trans hfm
    have hkeep : ∀ k, primaryEntry d₃ k = primaryEntry d k := by
      intro k
      rw [primaryEntry, primaryEntry, hfm.slice_eq (by simp; omega)]
    refine ⟨by rw [hkeep, he67], by rw [hkeep, he68], by rw [hkeep, he69], ?_, ?_, hsm, hsb, ?_, halt,
      hlast, hmy, halt', hlast', hlba, hfm'.subset (by decide),
      (hfb₀.trans hfb).subset (List.cons_subset_cons _ (by decide))⟩
    · intro k hk hne
      rw [hkeep, primaryEntry, primaryEntry, hf₀.slice_eq (by simp; omega)]
    · rw [hfb.slice_eq (by simp; omega), hself, hfm.slice_eq (by simp)]
    · rw [u64At, u64At, hfm'.slice_eq (by simp)]

/-- **The patched tables**, for every checksum function, all unique GUIDs and all images of the
standard shape: the script succeeds, and the images it writes are `Patched`. -/
theorem patchGptTables_ok (u₁ u₂ u₃ : Guid) (n : ℕ) (main backup : List UInt8)
    (h : StandardShape n main backup) : ∃ main' backup',
      patchGptTables crc32 u₁ u₂ u₃ main backup = .ok (main', backup') ∧
      main'.length = main.length ∧ backup'.length = backup.length ∧
      Patched crc32 u₁ u₂ u₃ n main backup main' backup' := by
  obtain ⟨main', backup', heq, hp⟩ := patchGptTables_spec crc32 u₁ u₂ u₃ h
  exact ⟨main', backup', heq, hp.main_frame.1, hp.backup_frame.1, hp⟩

end Geometry

/-! ### Blank images -/

/-- `pre` zero bytes, a header of 92 bytes that gives 70 entries of 128 bytes and is zero
otherwise, and `post` more zero bytes. -/
def blankImage (pre post : ℕ) : List UInt8 :=
  List.replicate (pre + 12) 0 ++ (toLE 4 92 ++ (List.replicate 64 0 ++ (toLE 4 70 ++ (toLE 4 128 ++
    List.replicate (post + 4) 0))))

theorem blankImage_length (pre post : ℕ) : (blankImage pre post).length = pre + 92 + post := by
  simp only [blankImage, List.length_append, List.length_replicate, toLE_length]
  omega

theorem blankImage_size (pre post : ℕ) : u32At (blankImage pre post) (pre + 12) = 92 := by
  rw [u32At, blankImage, slice_append_right (by simp)]
  simp only [List.length_replicate, Nat.sub_self]
  rw [slice_append_left (toLE_length 4 92)]
  rfl

theorem blankImage_count (pre post : ℕ) : u32At (blankImage pre post) (pre + 80) = 70 := by
  rw [u32At, blankImage, slice_append_right (by simp), slice_append_right (by simp),
    slice_append_right (by simp)]
  simp only [List.length_replicate, toLE_length]
  have hoff : pre + 80 - (pre + 12) - 4 - 64 = 0 := by omega
  rw [hoff, slice_append_left (toLE_length 4 70)]
  rfl

theorem blankImage_entry (pre post : ℕ) : u32At (blankImage pre post) (pre + 84) = 128 := by
  rw [u32At, blankImage, slice_append_right (by simp), slice_append_right (by simp),
    slice_append_right (by simp), slice_append_right (by simp)]
  simp only [List.length_replicate, toLE_length]
  have hoff : pre + 84 - (pre + 12) - 4 - 64 - 4 = 0 := by omega
  rw [hoff, slice_append_left (toLE_length 4 128)]
  rfl

theorem blankImage_my_lba (pre post : ℕ) : u64At (blankImage pre post) (pre + 24) = 0 := by
  rw [u64At, blankImage, slice_append_right (by simp), slice_append_right (by simp)]
  simp only [List.length_replicate, toLE_length]
  have hoff : pre + 24 - (pre + 12) - 4 = 8 := by omega
  have hzeros : slice (List.replicate 64 0 ++ (toLE 4 70 ++ (toLE 4 128 ++
      List.replicate (post + 4) 0))) 8 8 = List.replicate 8 0 := by
    rw [slice, List.drop_append_of_le_length (by simp), List.take_append_of_le_length (by simp),
      List.drop_replicate, List.take_replicate, Nat.min_eq_left (by norm_num)]
  rw [hoff, hzeros]
  rfl

theorem blankImage_standardShape : StandardShape 70 (blankImage 512 9380) (blankImage 16384 0) := by
  refine ⟨le_rfl, by norm_num, blankImage_count _ _, blankImage_entry _ _, blankImage_count _ _,
    blankImage_entry _ _, ?_, ?_, ?_, ?_, ?_⟩
  · rw [blankImage_size]
  · rw [blankImage_size, blankImage_length]
    norm_num
  · rw [blankImage_size]
  · rw [blankImage_size, blankImage_length]
  · rw [blankImage_length]

theorem patchGptTables_blank_ok : ∃ main' backup',
    patchGptTables (fun _ => 0) linuxFsGuid linuxFsGuid linuxFsGuid (blankImage 512 9380)
      (blankImage 16384 0) = .ok (main', backup') ∧
    Patched (fun _ => 0) linuxFsGuid linuxFsGuid linuxFsGuid 70 (blankImage 512 9380)
      (blankImage 16384 0) main' backup' := by
  obtain ⟨main', backup', heq, -, -, hp⟩ := patchGptTables_ok (fun _ => 0) linuxFsGuid linuxFsGuid
    linuxFsGuid 70 _ _ blankImage_standardShape
  exact ⟨main', backup', heq, hp⟩

/-- The script leaves the primary header's own LBA as it finds it: here 0 and not 1. -/
theorem patchGptTables_blank_my_lba :
    StandardShape 70 (blankImage 512 9380) (blankImage 16384 0) ∧ ∃ main' backup',
      patchGptTables (fun _ => 0) linuxFsGuid linuxFsGuid linuxFsGuid (blankImage 512 9380)
        (blankImage 16384 0) = .ok (main', backup') ∧ u64At main' (512 + 24) ≠ 1 := by
  refine ⟨blankImage_standardShape, ?_⟩
  obtain ⟨main', backup', heq, hp⟩ := patchGptTables_spec (fun _ => 0) linuxFsGuid linuxFsGuid
    linuxFsGuid blankImage_standardShape
  refine ⟨main', backup', heq, ?_⟩
  rw [hp.main_my_lba, blankImage_my_lba]
  norm_num


end Imola.Qdl
