import Imola.Bytes
import Imola.Splice

/-! # The partition tables of the flashing package

`package_qdl.py` takes the two GPT images of the board support package, the primary table
`gpt_main0.bin` and the backup table `gpt_backup0.bin`, and plants the partitions of this
device in them.  An image is a `bytearray`; `setSlice`, `unpackFrom` and `packInto` are the
three operations the script uses on it, with the exceptions `struct` raises.

`zlib.crc32` and the values of `uuid.uuid4` are parameters. -/

namespace Imola.Qdl

open Imola.Bytes Imola.Splice

/-! ### Byte arrays -/

/-- The exceptions that can end the script. -/
inductive PyError where
  /-- `struct.error`. -/
  | struct
  | valueError (message : String)
deriving DecidableEq, Repr

/-- `data[lo:hi] = s`, for `lo` and `hi` that are not negative. -/
def setSlice (data : List UInt8) (lo hi : ℕ) (s : List UInt8) : List UInt8 :=
  data.take lo ++ s ++ data.drop (max lo hi)

/-- `data[lo:hi]`. -/
def getSlice (data : List UInt8) (lo hi : ℕ) : List UInt8 := slice data lo (hi - lo)

/-- `struct.unpack_from` of one little-endian number of `w` bytes. -/
def unpackFrom (w : ℕ) (data : List UInt8) (off : ℕ) : Except PyError ℕ :=
  if off + w ≤ data.length then .ok (ofLE (slice data off w)) else .error .struct

/-- `struct.pack_into` of one little-endian number of `w` bytes. -/
def packInto (w : ℕ) (data : List UInt8) (off n : ℕ) : Except PyError (List UInt8) :=
  if n < 256 ^ w ∧ off + w ≤ data.length then .ok (splice data off (toLE w n)) else .error .struct

theorem toNat_and_mask (x : UInt32) : x.toNat &&& 0xffffffff = x.toNat := by
  have hmask : (0xffffffff : ℕ) = 2 ^ 32 - 1 := by norm_num
  rw [hmask, Nat.and_two_pow_sub_one_eq_mod, Nat.mod_eq_of_lt x.toNat_lt]

/-! ### The layout of the disk -/

abbrev totalDiskSectors : ℕ := 61071360
abbrev lastUsableLba : ℕ := totalDiskSectors - 34

abbrev metadataStartSector : ℕ := 2033984
abbrev metadataSectors : ℕ := 131072
abbrev metadataEndSector : ℕ := metadataStartSector + metadataSectors - 1

abbrev rootfsStartSector : ℕ := metadataEndSector + 1
abbrev rootfsSectors : ℕ := 8388608
abbrev rootfsEndSector : ℕ := rootfsStartSector + rootfsSectors - 1

abbrev userdataStartSector : ℕ := 10553664
abbrev userdataEndSector : ℕ := lastUsableLba

/-- A GUID as 16 bytes, in the mixed order of `bytes_le`. -/
structure Guid where
  bytesLe : List UInt8
  length_eq : bytesLe.length = 16
deriving DecidableEq

/-- `0fc63daf-8483-4772-8e79-3d69d8477de4`. -/
def linuxFsGuid : Guid :=
  ⟨[0xaf, 0x3d, 0xc6, 0x0f, 0x83, 0x84, 0x72, 0x47, 0x8e, 0x79, 0x3d, 0x69, 0xd8, 0x47, 0x7d, 0xe4],
    rfl⟩

/-! ### Partition entries -/

/-- The UTF-16 code units of a character. -/
def utf16Units (c : Char) : List ℕ :=
  if c.toNat < 0x10000 then [c.toNat]
  else [0xd800 + (c.toNat - 0x10000) / 0x400, 0xdc00 + (c.toNat - 0x10000) % 0x400]

/-- `name.encode("utf-16le")`. -/
def encodeUtf16le (name : String) : List UInt8 :=
  (name.toList.flatMap utf16Units).flatMap (toLE 2)

/-- `create_gpt_entry`; `uniqGuid` is the value of `uuid.uuid4()`. -/
def createGptEntry (uniqGuid : Guid) (name : String) (firstLba lastLba : ℕ) (typeGuid : Guid)
    (flags : ℕ) : List UInt8 :=
  typeGuid.bytesLe ++ uniqGuid.bytesLe ++ toLE 8 firstLba ++ toLE 8 lastLba ++ toLE 8 flags ++
    ((encodeUtf16le name).rightpad 72 0).take 72

/-! ### The script -/

section Script

variable (crc32 : List UInt8 → UInt32)

/-- `update_gpt_header_crc`. -/
def updateGptHeaderCrc (data : List UInt8) (headerOffset : ℕ) (entryArray : List UInt8) :
    Except PyError (List UInt8) := do
  let headerSize ← unpackFrom 4 data (headerOffset + 12)
  if headerSize < 92 ∨ headerOffset + headerSize > data.length then
    .error (.valueError "invalid GPT header size")
  else
    let data ← packInto 4 data (headerOffset + 88) ((crc32 entryArray).toNat &&& 0xffffffff)
    let data ← packInto 4 data (headerOffset + 16) 0
    let headerCrc :=
      (crc32 (getSlice data headerOffset (headerOffset + headerSize))).toNat &&& 0xffffffff
    packInto 4 data (headerOffset + 16) headerCrc

/-- The entries of the device planted in the primary array. -/
def insertEntries (u₁ u₂ u₃ : Guid) (mainData : List UInt8) : List UInt8 :=
  let entryMetadata := createGptEntry u₁ "metadata" metadataStartSector metadataEndSector
    linuxFsGuid 0
  let entryRootfs := createGptEntry u₂ "rootfs" rootfsStartSector rootfsEndSector linuxFsGuid 0
  let entryUserdata := createGptEntry u₃ "userdata" userdataStartSector userdataEndSector
    linuxFsGuid 0
  let mainData := setSlice mainData (1024 + 67 * 128) (1024 + 68 * 128) entryMetadata
  let mainData := setSlice mainData (1024 + 68 * 128) (1024 + 69 * 128) entryRootfs
  setSlice mainData (1024 + 69 * 128) (1024 + 70 * 128) entryUserdata

/-- `patch_gpt_tables`, from the bytes of the two images read to the bytes of the two written;
`u₁`, `u₂` and `u₃` are the unique GUIDs of the new partitions. -/
def patchGptTables (u₁ u₂ u₃ : Guid) (mainData backupData : List UInt8) :
    Except PyError (List UInt8 × List UInt8) := do
  let mainData := insertEntries u₁ u₂ u₃ mainData
  let primaryHeaderOffset := 512
  let primaryNumEntries ← unpackFrom 4 mainData (primaryHeaderOffset + 80)
  let primaryEntrySize ← unpackFrom 4 mainData (primaryHeaderOffset + 84)
  let primaryEntriesSize := primaryNumEntries * primaryEntrySize
  let primaryEntries := getSlice mainData 1024 (1024 + primaryEntriesSize)
  let mainData ← packInto 8 mainData (primaryHeaderOffset + 32) (totalDiskSectors - 1)
  let mainData ← packInto 8 mainData (primaryHeaderOffset + 48) lastUsableLba
  let mainData ← updateGptHeaderCrc crc32 mainData primaryHeaderOffset primaryEntries
  let backupData := setSlice backupData 0 primaryEntriesSize primaryEntries
  let backupHeaderOffset := 32 * 512
  let backupNumEntries ← unpackFrom 4 backupData (backupHeaderOffset + 80)
  let backupEntrySize ← unpackFrom 4 backupData (backupHeaderOffset + 84)
  if (backupNumEntries, backupEntrySize) ≠ (primaryNumEntries, primaryEntrySize) then
    .error (.valueError "primary and backup GPT entry formats differ")
  else
    let backupData ← packInto 8 backupData (backupHeaderOffset + 24) (totalDiskSectors - 1)
    let backupData ← packInto 8 backupData (backupHeaderOffset + 32) 1
    let backupData ← packInto 8 backupData (backupHeaderOffset + 48) lastUsableLba
    let backupData ← packInto 8 backupData (backupHeaderOffset + 72) (totalDiskSectors - 33)
    let backupData ← updateGptHeaderCrc crc32 backupData backupHeaderOffset
      (getSlice backupData 0 primaryEntriesSize)
    .ok (mainData, backupData)

end Script

end Imola.Qdl
