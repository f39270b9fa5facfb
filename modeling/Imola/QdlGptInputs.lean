import Imola.QdlGptPatch

/-! # The images the GPT script takes

`patch_gpt_tables` checks the size of either header, and that both headers give the same number and
size of entries.  Everything else it takes from the images as it is: slices of Python never fail,
they shift or shorten the data.

`patchGptTables_inv` says what a run that writes the images has checked and changed.  The images
written are usable exactly when those read have the standard shape (`usable_iff`). -/

namespace Imola.Qdl

open Imola.Bytes Imola.Splice

/-! ### What a run has checked -/

theorem bind_ok {α β : Type} {x : Except PyError α} {f : α → Except PyError β} {b : β} :
    (x >>= f) = .ok b ↔ ∃ a, x = .ok a ∧ f a = .ok b := by
  cases x with
  | error e => simp [bind, Except.bind]
  | ok a => simp [bind, Except.bind]

theorem unpackFrom_ok {data : List UInt8} {off v : ℕ} (h : unpackFrom 4 data off = .ok v) :
    v = u32At data off := by
  unfold unpackFrom at h
  split_ifs at h
  cases h
  rfl

theorem packInto_ok {w off n : ℕ} {data data' : List UInt8}
    (h : packInto w data off n = .ok data') :
    Frame [(off, w)] data data' := by
  unfold packInto at h
  split_ifs at h with hfits
  cases h
  apply Frame.splice
  · rw [toLE_length]
    exact hfits.2
  · exact toLE_length w n

/-- The header at `off` has its size, and lies in the image. -/
structure HeaderFits (data : List UInt8) (off : ℕ) : Prop where
  min : 92 ≤ u32At data (off + 12)
  max : off + u32At data (off + 12) ≤ data.length

theorem updateGptHeaderCrc_ok {crc32 : List UInt8 → UInt32}
    {data data' entries : List UInt8} {off : ℕ}
    (h : updateGptHeaderCrc crc32 data off entries = .ok data') :
    HeaderFits data off ∧ Frame [(off + 88, 4), (off + 16, 4)] data data' := by
  obtain ⟨size, hsize, h⟩ := bind_ok.mp h
  rw [unpackFrom_ok hsize] at h
  split_ifs at h with hbad
  obtain ⟨d₁, h₁, h⟩ := bind_ok.mp h
  obtain ⟨d₂, h₂, h₃⟩ := bind_ok.mp h
  refine ⟨⟨by omega, by omega⟩, ?_⟩
  have hframe := (packInto_ok h₁).trans ((packInto_ok h₂).trans (packInto_ok h₃))
  exact hframe.subset (by simp)

/-- The blocks the script writes in the primary header. -/
def mainHeaderWritten : List (ℕ × ℕ) := [(512 + 32, 8), (512 + 48, 8), (512 + 88, 4), (512 + 16, 4)]

/-- The blocks the script writes in the backup header. -/
def backupHeaderWritten : List (ℕ × ℕ) :=
  [(16384 + 24, 8), (16384 + 32, 8), (16384 + 48, 8), (16384 + 72, 8), (16384 + 88, 4),
    (16384 + 16, 4)]

/-- What was checked and changed when the images `main'` and `backup'` are written: `d` is the
primary image with the new entries, and `b` the backup image with the array copied. -/
structure Passed (d b main' backup' : List UInt8) : Prop where
  main_header : HeaderFits d 512
  backup_header : HeaderFits b 16384
  count : u32At b (16384 + 80) = u32At d (512 + 80)
  entry : u32At b (16384 + 84) = u32At d (512 + 84)
  main_frame : Frame mainHeaderWritten d main'
  backup_frame : Frame backupHeaderWritten b backup'

/-- The backup image with the array of the primary image `d` copied to its start. -/
def copyArray (d backup : List UInt8) : List UInt8 :=
  setSlice backup 0 (u32At d (512 + 80) * u32At d (512 + 84))
    (getSlice d 1024 (1024 + u32At d (512 + 80) * u32At d (512 + 84)))

theorem u32At_frame {W : List (ℕ × ℕ)} {data data' : List UInt8} {off : ℕ} (h : Frame W data data')
    (hW : ∀ r ∈ W, off + 4 ≤ r.1 ∨ r.1 + r.2 ≤ off) : u32At data' off = u32At data off := by
  rw [u32At, u32At, h.slice_eq hW]

theorem headerFits_frame {W : List (ℕ × ℕ)} {data data' : List UInt8} {off : ℕ}
    (hf : Frame W data data')
    (hW : ∀ r ∈ W, off + 12 + 4 ≤ r.1 ∨ r.1 + r.2 ≤ off + 12) :
    HeaderFits data' off ↔ HeaderFits data off := by
  have hsize := u32At_frame hf hW
  have hlen := hf.1
  constructor
  · intro h
    exact ⟨hsize ▸ h.min, by rw [← hsize, ← hlen]; exact h.max⟩
  · intro h
    exact ⟨hsize ▸ h.min, by rw [hsize, hlen]; exact h.max⟩

section Inputs

variable {crc32 : List UInt8 → UInt32} {u₁ u₂ u₃ : Guid} {main backup main' backup' : List UInt8}

/-- What a run that writes the images has checked and changed. -/
theorem patchGptTables_inv (h : patchGptTables crc32 u₁ u₂ u₃ main backup = .ok (main', backup')) :
    Passed (insertEntries u₁ u₂ u₃ main) (copyArray (insertEntries u₁ u₂ u₃ main) backup) main'
      backup' := by
  set d := insertEntries u₁ u₂ u₃ main with hd
  obtain ⟨n, hn, h⟩ := bind_ok.mp h
  obtain ⟨e, he, h⟩ := bind_ok.mp h
  rw [unpackFrom_ok hn, unpackFrom_ok he] at h
  obtain ⟨m₁, hm₁, h⟩ := bind_ok.mp h
  obtain ⟨m₂, hm₂, h⟩ := bind_ok.mp h
  obtain ⟨m₃, hm₃, h⟩ := bind_ok.mp h
  obtain ⟨n', hn', h⟩ := bind_ok.mp h
  obtain ⟨e', he', h⟩ := bind_ok.mp h
  rw [unpackFrom_ok hn', unpackFrom_ok he'] at h
  split_ifs at h with heq
  obtain ⟨b₁, hb₁, h⟩ := bind_ok.mp h
  obtain ⟨b₂, hb₂, h⟩ := bind_ok.mp h
  obtain ⟨b₃, hb₃, h⟩ := bind_ok.mp h
  obtain ⟨b₄, hb₄, h⟩ := bind_ok.mp h
  obtain ⟨b₅, hb₅, h⟩ := bind_ok.mp h
  cases h
  obtain ⟨hmfits, hmseal⟩ := updateGptHeaderCrc_ok hm₃
  obtain ⟨hbfits, hbseal⟩ := updateGptHeaderCrc_ok hb₅
  have hm := (packInto_ok hm₁).trans (packInto_ok hm₂)
  have hb :=
    (packInto_ok hb₁).trans ((packInto_ok hb₂).trans ((packInto_ok hb₃).trans (packInto_ok hb₄)))
  rw [not_not, Prod.mk.injEq] at heq
  exact ⟨(headerFits_frame hm (by decide)).mp hmfits, (headerFits_frame hb (by decide)).mp hbfits,
    heq.1, heq.2,
    hm.trans hmseal, hb.trans hbseal⟩

theorem HeaderFits.le_length {data : List UInt8} {off : ℕ} (h : HeaderFits data off) :
    off + 92 ≤ data.length := by
  have hmin := h.min
  have hmax := h.max
  omega

theorem updateGptHeaderCrc_runs (crc32 : List UInt8 → UInt32) {data : List UInt8} {off : ℕ}
    (entries : List UInt8) (h : HeaderFits data off) :
    ∃ data', updateGptHeaderCrc crc32 data off entries = .ok data' := by
  have hmin := h.min
  have hmax := h.max
  have hcrc : ∀ x : UInt32, x.toNat &&& 0xffffffff < 256 ^ 4 := by
    intro x
    rw [toNat_and_mask]
    exact x.toNat_lt
  obtain ⟨d₁, he₁, -, hf₁, -⟩ := packInto_spec 4 data (off + 88) _ (hcrc (crc32 entries)) (by omega)
  have hlen₁ := hf₁.1
  obtain ⟨d₂, he₂, -, hf₂, -⟩ := packInto_spec 4 d₁ (off + 16) 0 (by norm_num) (by omega)
  have hlen₂ := hf₂.1
  obtain ⟨d₃, he₃, -⟩ := packInto_spec 4 d₂ (off + 16) _
    (hcrc (crc32 (getSlice d₂ off (off + u32At data (off + 12))))) (by omega)
  refine ⟨d₃, bind_ok.mpr ⟨_, unpackFrom_u32 (by omega), ?_⟩⟩
  rw [if_neg (by omega)]
  exact bind_ok.mpr ⟨d₁, he₁, bind_ok.mpr ⟨d₂, he₂, he₃⟩⟩

/-- **What the script accepts**: nothing but the two headers is checked. -/
theorem patchGptTables_runs {d : List UInt8} (hd : insertEntries u₁ u₂ u₃ main = d)
    (hm : HeaderFits d 512)
    (hb : HeaderFits (copyArray d backup) 16384)
    (hcount : u32At (copyArray d backup) (16384 + 80) = u32At d (512 + 80))
    (hentry : u32At (copyArray d backup) (16384 + 84) = u32At d (512 + 84)) :
    ∃ main' backup', patchGptTables crc32 u₁ u₂ u₃ main backup = .ok (main', backup') := by
  have hmlen := hm.le_length
  have hblen := hb.le_length
  set b := copyArray d backup with hcopy
  obtain ⟨m₁, hm₁, -, hfm₁, -⟩ :=
    packInto_spec 8 d (512 + 32) (totalDiskSectors - 1) (by norm_num) (by omega)
  have hm₁len := hfm₁.1
  obtain ⟨m₂, hm₂, -, hfm₂, -⟩ :=
    packInto_spec 8 m₁ (512 + 48) lastUsableLba (by norm_num) (by omega)
  obtain ⟨m₃, hm₃⟩ := updateGptHeaderCrc_runs crc32
    (getSlice d 1024 (1024 + u32At d (512 + 80) * u32At d (512 + 84)))
    ((headerFits_frame (hfm₁.trans hfm₂) (by decide)).mpr hm)
  obtain ⟨b₁, hb₁, -, hfb₁, -⟩ :=
    packInto_spec 8 b (16384 + 24) (totalDiskSectors - 1) (by norm_num)
    (by omega)
  have hb₁len := hfb₁.1
  obtain ⟨b₂, hb₂, -, hfb₂, -⟩ := packInto_spec 8 b₁ (16384 + 32) 1 (by norm_num) (by omega)
  have hb₂len := hfb₂.1
  obtain ⟨b₃, hb₃, -, hfb₃, -⟩ :=
    packInto_spec 8 b₂ (16384 + 48) lastUsableLba (by norm_num) (by omega)
  have hb₃len := hfb₃.1
  obtain ⟨b₄, hb₄, -, hfb₄, -⟩ :=
    packInto_spec 8 b₃ (16384 + 72) (totalDiskSectors - 33) (by norm_num)
    (by omega)
  obtain ⟨b₅, hb₅⟩ := updateGptHeaderCrc_runs crc32
    (getSlice b₄ 0 (u32At d (512 + 80) * u32At d (512 + 84)))
    ((headerFits_frame (hfb₁.trans (hfb₂.trans (hfb₃.trans hfb₄))) (by decide)).mpr hb)
  have hbn : unpackFrom 4 b (16384 + 80) = .ok (u32At b (16384 + 80)) := unpackFrom_u32 (by omega)
  have hbe : unpackFrom 4 b (16384 + 84) = .ok (u32At b (16384 + 84)) := unpackFrom_u32 (by omega)
  have hsame : (u32At b (16384 + 80), u32At b (16384 + 84)) =
      (u32At d (512 + 80), u32At d (512 + 84)) := by
    rw [hcount, hentry]
  refine ⟨m₃, b₅, ?_⟩
  unfold patchGptTables
  rw [hd]
  refine bind_ok.mpr ⟨_, unpackFrom_u32 (by omega), bind_ok.mpr ⟨_, unpackFrom_u32 (by omega), ?_⟩⟩
  refine bind_ok.mpr ⟨m₁, hm₁, bind_ok.mpr ⟨m₂, hm₂, bind_ok.mpr ⟨m₃, hm₃, ?_⟩⟩⟩
  refine bind_ok.mpr ⟨_, hbn, bind_ok.mpr ⟨_, hbe, ?_⟩⟩
  rw [if_neg (not_not.mpr hsame)]
  exact bind_ok.mpr ⟨b₁, hb₁, bind_ok.mpr ⟨b₂, hb₂, bind_ok.mpr ⟨b₃, hb₃, bind_ok.mpr ⟨b₄, hb₄,
    bind_ok.mpr ⟨b₅, hb₅, rfl⟩⟩⟩⟩⟩

/-! ### Lengths -/

theorem setSlice_length (data s : List UInt8) (lo hi : ℕ) :
    (setSlice data lo hi s).length = min lo data.length + s.length + (data.length - max lo hi) := by
  simp only [setSlice, List.length_append, List.length_take, List.length_drop]

theorem insertEntries_length_eq_iff :
    (insertEntries u₁ u₂ u₃ main).length = main.length ↔ 1024 + 70 * 128 ≤ main.length := by
  simp only [insertEntries, setSlice_length, createGptEntry_length]
  omega

/-! ### Usable tables -/

/-- The images written have the lengths of those read, and their tables can be used: entries of 128
bytes, enough of them for the new ones, the arrays inside the images, and that of the backup image
in front of its header. -/
structure Usable (main backup main' backup' : List UInt8) : Prop where
  main_length : main'.length = main.length
  backup_length : backup'.length = backup.length
  main_entry : u32At main' (512 + 84) = 128
  main_count : 70 ≤ u32At main' (512 + 80)
  main_array : 1024 + u32At main' (512 + 80) * u32At main' (512 + 84) ≤ main'.length
  backup_entry : u32At backup' (16384 + 84) = 128
  backup_count : 70 ≤ u32At backup' (16384 + 80)
  backup_array : u32At backup' (16384 + 80) * u32At backup' (16384 + 84) ≤ backup'.length
  backup_apart : u32At backup' (16384 + 80) * u32At backup' (16384 + 84) ≤ 16384

/-- From images of the standard shape, usable tables are written. -/
theorem StandardShape.usable {n : ℕ} (hshape : StandardShape n main backup)
    (h : patchGptTables crc32 u₁ u₂ u₃ main backup = .ok (main', backup')) :
    Usable main backup main' backup' := by
  obtain ⟨m, b, heq, hp⟩ := patchGptTables_spec crc32 u₁ u₂ u₃ hshape
  obtain ⟨rfl, rfl⟩ : m = main' ∧ b = backup' := by simpa [h] using heq.symm
  have hmin := hshape.count_min
  have hmax := hshape.count_max
  have hbhmin := hshape.backup_header_min
  have hbhmax := hshape.backup_header_max
  have hmlen := hp.main_frame.1
  have hblen := hp.backup_frame.1
  have hmcount : u32At m (512 + 80) = n := by
    rw [u32At_frame hp.main_frame (by decide), hshape.main_count]
  have hmentry : u32At m (512 + 84) = 128 := by
    rw [u32At_frame hp.main_frame (by decide), hshape.main_entry]
  have hbcount : u32At b (16384 + 80) = n := by
    rw [u32At_frame hp.backup_frame (by simp [backupWritten]; omega), hshape.backup_count]
  have hbentry : u32At b (16384 + 84) = 128 := by
    rw [u32At_frame hp.backup_frame (by simp [backupWritten]; omega), hshape.backup_entry]
  have harr := hshape.main_array
  exact ⟨hmlen, hblen, hmentry, by omega, by rw [hmcount, hmentry]; omega, hbentry, by omega,
    by rw [hbcount, hbentry]; omega, by rw [hbcount, hbentry]; omega⟩

/-- An array that fits the primary image and the space in front of the backup header is copied over
the start of the backup image. -/
theorem copyArray_frame {d : List UInt8}
    (hmain : 1024 + u32At d (512 + 80) * u32At d (512 + 84) ≤ d.length)
    (hapart : u32At d (512 + 80) * u32At d (512 + 84) ≤ 16384)
    (hfits : HeaderFits (copyArray d backup) 16384) :
    Frame [(0, u32At d (512 + 80) * u32At d (512 + 84))] backup (copyArray d backup) := by
  have hmin := hfits.min
  have hmax := hfits.max
  set len := u32At d (512 + 80) * u32At d (512 + 84) with hlen
  have hentries : (getSlice d 1024 (1024 + len)).length = len := by
    rw [getSlice, Nat.add_sub_cancel_left]
    exact length_slice hmain
  have hcopy : copyArray d backup = splice backup 0 (getSlice d 1024 (1024 + len)) := by
    apply setSlice_eq_splice
    rw [hentries, Nat.zero_add]
  have hlength : (copyArray d backup).length = len + (backup.length - len) := by
    rw [copyArray, ← hlen, setSlice_length, hentries]
    omega
  rw [hcopy]
  apply Frame.splice
  · rw [hentries]
    omega
  · exact hentries

/-- Usable tables are only written from images of the standard shape. -/
theorem Usable.standardShape (husable : Usable main backup main' backup')
    (h : patchGptTables crc32 u₁ u₂ u₃ main backup = .ok (main', backup')) :
    StandardShape (u32At main (512 + 80)) main backup := by
  have hp := patchGptTables_inv h
  set d := insertEntries u₁ u₂ u₃ main with hd
  set b := copyArray d backup with hb
  have hmlen : d.length = main.length := hp.main_frame.1.symm.trans husable.main_length
  have hroom : 1024 + 70 * 128 ≤ main.length := insertEntries_length_eq_iff.mp hmlen
  have hinsert : Frame [(1024 + 67 * 128, 3 * 128)] main d :=
    (insertEntries_spec u₁ u₂ u₃ main hroom).1
  have hdcount : u32At d (512 + 80) = u32At main (512 + 80) := u32At_frame hinsert (by decide)
  have hdentry : u32At d (512 + 84) = u32At main (512 + 84) := u32At_frame hinsert (by decide)
  have hmcount : u32At main' (512 + 80) = u32At d (512 + 80) :=
    u32At_frame hp.main_frame (by decide)
  have hmentry : u32At main' (512 + 84) = u32At d (512 + 84) :=
    u32At_frame hp.main_frame (by decide)
  have hbcount : u32At backup' (16384 + 80) = u32At b (16384 + 80) :=
    u32At_frame hp.backup_frame (by decide)
  have hbentry : u32At backup' (16384 + 84) = u32At b (16384 + 84) :=
    u32At_frame hp.backup_frame (by decide)
  have hentry : u32At d (512 + 84) = 128 := hmentry.symm.trans husable.main_entry
  have hmarray := husable.main_array
  have hapart := husable.backup_apart
  rw [hmcount, hmentry, hp.main_frame.1] at hmarray
  rw [hbcount, hbentry, hp.count, hp.entry] at hapart
  have hcopy := copyArray_frame hmarray hapart hp.backup_header
  have hbackup : ∀ k, u32At b (16384 + k) = u32At backup (16384 + k) := by
    intro k
    apply u32At_frame hcopy
    simp only [List.mem_singleton, forall_eq]
    omega
  have hmfits := (headerFits_frame hinsert (by decide)).mp hp.main_header
  have hbmin := hp.backup_header.min
  have hbmax := hp.backup_header.max
  rw [hbackup] at hbmin hbmax
  rw [hcopy.1] at hbmax
  rw [hentry] at hmarray hapart
  have hcount := husable.main_count
  refine ⟨by omega, by omega, rfl, by omega, ?_, ?_, hmfits.min, hmfits.max, hbmin, hbmax, by omega⟩
  · rw [← hbackup, hp.count, hdcount]
  · rw [← hbackup, hp.entry, hentry]

/-- **Unusable inputs**: a run that writes the images writes usable tables exactly when the images
it read have the standard shape. -/
theorem usable_iff (h : patchGptTables crc32 u₁ u₂ u₃ main backup = .ok (main', backup')) :
    Usable main backup main' backup' ↔ ∃ n, StandardShape n main backup := by
  constructor
  · intro husable
    exact ⟨_, husable.standardShape h⟩
  · rintro ⟨n, hshape⟩
    exact hshape.usable h

end Inputs

/-! ### Images that are too short -/

theorem patchGptTables_blank_usable : ∃ main' backup',
    patchGptTables (fun _ => 0) linuxFsGuid linuxFsGuid linuxFsGuid (blankImage 512 9380)
      (blankImage 16384 0) = .ok (main', backup') ∧
    Usable (blankImage 512 9380) (blankImage 16384 0) main' backup' := by
  obtain ⟨main', backup', heq, -⟩ := patchGptTables_spec (fun _ => 0) linuxFsGuid linuxFsGuid
    linuxFsGuid blankImage_standardShape
  exact ⟨main', backup', heq, (usable_iff heq).mpr ⟨70, blankImage_standardShape⟩⟩

theorem setSlice_of_length_le {data s : List UInt8} {lo hi : ℕ} (h : data.length ≤ lo) :
    setSlice data lo hi s = data ++ s := by
  rw [setSlice, List.take_of_length_le h, List.drop_of_length_le (by omega), List.append_nil]

/-- In an image that ends in front of their places, the new entries are put at the end. -/
theorem insertEntries_short (u₁ u₂ u₃ : Guid) {main : List UInt8}
    (h : main.length + 384 ≤ 1024 + 67 * 128) :
    ∃ t, t.length = 384 ∧ insertEntries u₁ u₂ u₃ main = main ++ t := by
  simp only [insertEntries]
  set e₁ := createGptEntry u₁ "metadata" metadataStartSector metadataEndSector linuxFsGuid 0
  set e₂ := createGptEntry u₂ "rootfs" rootfsStartSector rootfsEndSector linuxFsGuid 0
  set e₃ := createGptEntry u₃ "userdata" userdataStartSector userdataEndSector linuxFsGuid 0
  have hl₁ : e₁.length = 128 := createGptEntry_length ..
  have hl₂ : e₂.length = 128 := createGptEntry_length ..
  have hl₃ : e₃.length = 128 := createGptEntry_length ..
  have h₁ : setSlice main (1024 + 67 * 128) (1024 + 68 * 128) e₁ = main ++ e₁ :=
    setSlice_of_length_le (by omega)
  have h₂ : setSlice (main ++ e₁) (1024 + 68 * 128) (1024 + 69 * 128) e₂ = main ++ e₁ ++ e₂ :=
    setSlice_of_length_le (by rw [List.length_append]; omega)
  have h₃ : setSlice (main ++ e₁ ++ e₂) (1024 + 69 * 128) (1024 + 70 * 128) e₃ =
      main ++ e₁ ++ e₂ ++ e₃ :=
    setSlice_of_length_le (by rw [List.length_append, List.length_append]; omega)
  refine ⟨e₁ ++ (e₂ ++ e₃), ?_, ?_⟩
  · simp only [List.length_append, hl₁, hl₂, hl₃]
  · rw [h₁, h₂, h₃, List.append_assoc, List.append_assoc]

theorem blankImage_drop (k pre post : ℕ) :
    (blankImage (k + pre) post).drop k = blankImage pre post := by
  rw [blankImage, List.drop_append_of_le_length (by simp; omega), List.drop_replicate, blankImage]
  congr 2
  omega

/-- A primary image that ends behind its header, and a backup image with 70 more entries in front of
its header: the new entries are put behind the primary header, the array copied is empty, and the
backup image loses the bytes it was to replace. -/
theorem not_usable_short : ∃ main' backup',
    patchGptTables (fun _ => 0) linuxFsGuid linuxFsGuid linuxFsGuid (blankImage 512 0)
      (blankImage (8960 + 16384) 0) = .ok (main', backup') ∧
    ¬ Usable (blankImage 512 0) (blankImage (8960 + 16384) 0) main' backup' ∧
    main'.length = (blankImage 512 0).length + 384 ∧
    backup'.length + 8960 = (blankImage (8960 + 16384) 0).length := by
  have hlen := blankImage_length 512 0
  obtain ⟨t, ht, hd⟩ := insertEntries_short linuxFsGuid linuxFsGuid linuxFsGuid
    (by omega : (blankImage 512 0).length + 384 ≤ 1024 + 67 * 128)
  have hfield : ∀ k, k + 4 ≤ 92 → u32At (blankImage 512 0 ++ t) (512 + k) = u32At (blankImage 512 0)
      (512 + k) := by
    intro k hk
    rw [u32At, u32At, slice_append_of_le (by omega)]
  have hcount : u32At (blankImage 512 0 ++ t) (512 + 80) = 70 :=
    (hfield 80 (by norm_num)).trans (blankImage_count 512 0)
  have hentry : u32At (blankImage 512 0 ++ t) (512 + 84) = 128 :=
    (hfield 84 (by norm_num)).trans (blankImage_entry 512 0)
  have hcopy : copyArray (blankImage 512 0 ++ t) (blankImage (8960 + 16384) 0) =
      blankImage 16384 0 := by
    have hempty : getSlice (blankImage 512 0 ++ t) 1024 (1024 + 70 * 128) = [] := by
      rw [getSlice, slice, List.drop_of_length_le (by simp; omega), List.take_nil]
    have hmax : max 0 (70 * 128) = 8960 := by norm_num
    rw [copyArray, hcount, hentry, hempty, setSlice, hmax, blankImage_drop, List.take_zero,
      List.nil_append,
      List.nil_append]
  have hmfits : HeaderFits (blankImage 512 0 ++ t) 512 := by
    have hsize := (hfield 12 (by norm_num)).trans (blankImage_size 512 0)
    exact ⟨by omega, by simp only [hsize, List.length_append]; omega⟩
  have hbfits : HeaderFits (blankImage 16384 0) 16384 := by
    have hsize := blankImage_size 16384 0
    have hblen := blankImage_length 16384 0
    exact ⟨by omega, by omega⟩
  obtain ⟨main', backup', heq⟩ := @patchGptTables_runs (fun _ => 0) _ _ _ _
    (blankImage (8960 + 16384) 0) _ hd hmfits (by rw [hcopy]; exact hbfits)
    (by rw [hcopy, hcount]; exact blankImage_count 16384 0)
    (by rw [hcopy, hentry]; exact blankImage_entry 16384 0)
  have hp := patchGptTables_inv heq
  rw [hd, hcopy] at hp
  have hmlen : main'.length = (blankImage 512 0).length + 384 := by
    rw [hp.main_frame.1, List.length_append, ht]
  refine ⟨main', backup', heq, ?_, hmlen, ?_⟩
  · intro husable
    have := husable.main_length
    omega
  · rw [hp.backup_frame.1, blankImage_length, blankImage_length]

end Imola.Qdl
