import Imola.QdlGpt

/-! # The U-Boot images of the flashing package

`make_uimage_ramdisk` and `make_uimage_script` of `package_qdl.py` put a header of 64 bytes in front
of their payload.  The header carries a checksum of the payload, and one of itself that is taken
while its own field is zero.  `decodeUimage` reads such an image the way the boot loader does, and
gives back the payload (`decodeUimage_wrapUimage`); for a script, `decodeScript` then skips the
table of lengths in front of the text.  `zlib.crc32` and the time are parameters. -/

namespace Imola.Qdl

open Imola.Bytes Imola.Splice

/-! ### The script -/

/-- `struct.pack` of big-endian numbers, given with their widths. -/
def structPack (fields : List (ℕ × ℕ)) : Except PyError (List UInt8) :=
  if ∀ f ∈ fields, f.2 < 256 ^ f.1 then .ok (fields.flatMap fun f => toBE f.1 f.2)
    else .error .struct

/-- `struct.pack(">IIIIIIIBBBB32s", ...)` with the constants all images have: the magic number, load
address and entry point 0, the system (Linux), the architecture (ARM), no compression and no
name. -/
def packHeader (hcrc t size dcrc type : ℕ) : Except PyError (List UInt8) := do
  let fields ← structPack [(4, 0x27051956), (4, hcrc), (4, t), (4, size), (4, 0), (4, 0),
    (4, dcrc), (1, 5),
    (1, 2), (1, type), (1, 0)]
  return fields ++ List.replicate 32 0

section Script

variable (crc32 : List UInt8 → UInt32) (t : ℕ)

/-- The payload behind its header: `hdr_no_crc`, its checksum, and the header with the checksum. -/
def wrapUimage (type : ℕ) (payload : List UInt8) : Except PyError (List UInt8) := do
  let size := payload.length
  let dcrc := (crc32 payload).toNat &&& 0xffffffff
  let hdrNoCrc ← packHeader 0 t size dcrc type
  let hcrc := (crc32 hdrNoCrc).toNat &&& 0xffffffff
  let hdr ← packHeader hcrc t size dcrc type
  return hdr ++ payload

/-- `make_uimage_ramdisk`; `t` is `int(time.time())`. -/
def makeUimageRamdisk (ramdiskBytes : List UInt8) : Except PyError (List UInt8) :=
  wrapUimage crc32 t 3 ramdiskBytes

/-- `script_text.encode("utf-8")`. -/
def encodeUtf8 (text : String) : List UInt8 := text.toList.flatMap String.utf8EncodeChar

/-- `make_uimage_script`. -/
def makeUimageScript (scriptText : String) : Except PyError (List UInt8) := do
  let scriptBytes := encodeUtf8 scriptText
  let subheader ← structPack [(4, scriptBytes.length), (4, 0)]
  wrapUimage crc32 t 6 (subheader ++ scriptBytes)

end Script

/-! ### The boot loader -/

/-- The big-endian word at `off`. -/
def wordAt (data : List UInt8) (off : ℕ) : ℕ := ofBE (slice data off 4)

/-- The data of an image: the magic number, the checksum of the header with its field zeroed, the
size and the checksum of the data have to be right. -/
def decodeUimage (crc32 : List UInt8 → UInt32) (img : List UInt8) : Option (List UInt8) :=
  if img.length < 64 then none
  else if wordAt img 0 ≠ 0x27051956 then none
  else if wordAt img 4 ≠ (crc32 (splice (img.take 64) 4 [0, 0, 0, 0])).toNat then none
  else if img.length < 64 + wordAt img 12 then none
  else if wordAt img 24 ≠ (crc32 (slice img 64 (wordAt img 12))).toNat then none
  else some (slice img 64 (wordAt img 12))

/-- What is behind the words up to the first that is zero. -/
def skipTable : (fuel : ℕ) → List UInt8 → Option (List UInt8)
  | 0, _ => none
  | fuel + 1, data =>
      if data.length < 4 then none
      else if wordAt data 0 = 0 then some (data.drop 4)
      else skipTable fuel (data.drop 4)

/-- The script in the data of an image: as many bytes as the first word says, behind the table. -/
def decodeScript (data : List UInt8) : Option (List UInt8) := do
  let text ← skipTable data.length data
  if text.length < wordAt data 0 then none else return text.take (wordAt data 0)

/-! ### Reading a header -/

/-- The header that `packHeader` gives for numbers that fit. -/
def header (hcrc t size dcrc type : ℕ) : List UInt8 :=
  toBE 4 0x27051956 ++ (toBE 4
    hcrc ++ (toBE 4 t ++ (toBE 4 size ++ (toBE 4 0 ++ (toBE 4 0 ++ (toBE 4 dcrc ++
    (toBE 1 5 ++ (toBE 1 2 ++ (toBE 1 type ++ (toBE 1 0 ++ List.replicate 32 0))))))))))

section Header

variable {hcrc t size dcrc type : ℕ}

theorem header_length : (header hcrc t size dcrc type).length = 64 := by
  simp [header]

theorem packHeader_eq (hhcrc : hcrc < 256 ^ 4) (ht : t < 256 ^ 4) (hsize : size < 256 ^ 4)
    (hdcrc : dcrc < 256 ^ 4) (htype : type < 256 ^ 1) :
    packHeader hcrc t size dcrc type = .ok (header hcrc t size dcrc type) := by
  have hfits :
    ∀ f ∈ [(4, 0x27051956), (4, hcrc), (4, t), (4, size), (4, 0), (4, 0), (4, dcrc), (1, 5), (1, 2),
      (1, type), (1, 0)], f.2 < 256 ^ f.1 := by
    simp only [List.mem_cons, List.not_mem_nil, or_false, forall_eq_or_imp, forall_eq]
    omega
  rw [packHeader, structPack, if_pos hfits]
  simp [header, bind, Except.bind, pure, Except.pure]

theorem wordAt_toBE {n : ℕ} (h : n < 256 ^ 4) (rest : List UInt8) :
    wordAt (toBE 4 n ++ rest) 0 = n := by
  rw [wordAt, slice_append_left (toBE_length 4 n), ofBE_toBE h]

theorem wordAt_append {k : ℕ} {a : List UInt8} (h : a.length = k) (rest : List UInt8) (off : ℕ) :
    wordAt (a ++ rest) (k + off) = wordAt rest off := by
  rw [wordAt, wordAt, slice_append_right (by omega), h, Nat.add_sub_cancel_left]

theorem header_words (hhcrc : hcrc < 256 ^ 4) (hsize : size < 256 ^ 4) (hdcrc : dcrc < 256 ^ 4)
    (rest : List UInt8) :
    wordAt (header hcrc t size dcrc type ++ rest) 0 = 0x27051956 ∧
      wordAt (header hcrc t size dcrc type ++ rest) 4 = hcrc ∧
      wordAt (header hcrc t size dcrc type ++ rest) 12 = size ∧
      wordAt (header hcrc t size dcrc type ++ rest) 24 = dcrc := by
  have hskip : ∀ (n : ℕ) (x : List UInt8) (off : ℕ), wordAt (toBE 4 n ++ x) (4 + off) =
      wordAt x off :=
    fun n x off => wordAt_append (toBE_length 4 n) x off
  simp only [header, List.append_assoc]
  refine ⟨wordAt_toBE (by norm_num) _, ?_, ?_, ?_⟩
  · rw [hskip _ _ 0, wordAt_toBE hhcrc]
  · rw [hskip _ _ 8, hskip _ _ 4, hskip _ _ 0, wordAt_toBE hsize]
  · rw [hskip _ _ 20, hskip _ _ 16, hskip _ _ 12, hskip _ _ 8, hskip _ _ 4, hskip _ _ 0,
      wordAt_toBE hdcrc]

/-- Zeroing the checksum of a header gives the header the checksum was taken of. -/
theorem splice_header :
    splice (header hcrc t size dcrc type) 4 [0, 0, 0, 0] = header 0 t size dcrc type := by
  have hzero : toBE 4 0 = [0, 0, 0, 0] := rfl
  rw [header, splice_middle (toBE_length 4 _) (by rw [toBE_length]; rfl), ← hzero, header]

end Header

/-! ### Images are read back -/

section Decode

variable {crc32 : List UInt8 → UInt32} {t type : ℕ} {payload : List UInt8}

theorem wrapUimage_eq (ht : t < 256 ^ 4) (htype : type < 256 ^ 1)
    (hsize : payload.length < 256 ^ 4) :
    wrapUimage crc32 t type payload = .ok (header
      (crc32 (header 0 t payload.length (crc32 payload).toNat type)).toNat t payload.length
        (crc32 payload).toNat type ++ payload) := by
  have hcrc : ∀ x, (crc32 x).toNat < 256 ^ 4 := fun x => (crc32 x).toNat_lt
  have hfirst := packHeader_eq (by norm_num : 0 < 256 ^ 4) ht hsize (hcrc payload) htype
  have hsecond :=
    packHeader_eq (hcrc (header 0 t payload.length (crc32 payload).toNat type)) ht hsize
    (hcrc payload) htype
  simp only [wrapUimage, toNat_and_mask, hfirst, hsecond, bind, Except.bind, pure, Except.pure]

/-- **An image is read back.** -/
theorem decodeUimage_wrapUimage (ht : t < 256 ^ 4) (htype : type < 256 ^ 1)
    (hsize : payload.length < 256 ^ 4) :
    ∃ img, wrapUimage crc32 t type payload = .ok img ∧ decodeUimage crc32 img = some payload := by
  refine ⟨_, wrapUimage_eq ht htype hsize, ?_⟩
  set dcrc := (crc32 payload).toNat with hdcrc
  set hcrc := (crc32 (header 0 t payload.length dcrc type)).toNat with hhcrc
  obtain ⟨h₀, h₄, h₁₂, h₂₄⟩ :=
    @header_words hcrc t payload.length dcrc type (UInt32.toNat_lt _) hsize
    (UInt32.toNat_lt _) payload
  have hlen : (header hcrc t payload.length dcrc type ++ payload).length = 64 + payload.length := by
    rw [List.length_append, header_length]
  have htake : (header hcrc t payload.length dcrc type ++ payload).take 64 =
      header hcrc t payload.length dcrc type := List.take_left' header_length
  have hdata : slice (header hcrc t payload.length dcrc type ++ payload) 64 payload.length =
      payload := by
    rw [slice, List.drop_left' header_length, List.take_length]
  rw [decodeUimage, if_neg (by omega), if_neg (not_not.mpr h₀), h₄, htake, splice_header,
    if_neg (not_not.mpr hhcrc), h₁₂, if_neg (by omega), h₂₄, hdata, if_neg (not_not.mpr hdcrc)]

end Decode

theorem skipTable_zero {fuel : ℕ} (rest : List UInt8) :
    skipTable (fuel + 1) (toBE 4 0 ++ rest) = some rest := by
  have hlen : ¬ (toBE 4 0 ++ rest).length < 4 := by
    rw [List.length_append, toBE_length]
    omega
  rw [skipTable, if_neg hlen, if_pos (wordAt_toBE (by norm_num) rest),
    List.drop_left' (toBE_length 4 0)]

/-- The script is behind its length and the zero that ends the table. -/
theorem decodeScript_subheader {text : List UInt8} (h : text.length < 256 ^ 4) :
    decodeScript (toBE 4 text.length ++ (toBE 4 0 ++ text)) = some text := by
  have hlen : (toBE 4 text.length ++ (toBE 4 0 ++ text)).length = text.length + 6 + 2 := by
    simp only [List.length_append, toBE_length]
    omega
  rw [decodeScript, wordAt_toBE h, hlen]
  by_cases hempty : text = []
  · subst hempty
    rfl
  · have hpos : text.length ≠ 0 := fun h0 => hempty (List.length_eq_zero_iff.mp h0)
    have htable : skipTable (text.length + 6 + 2) (toBE 4 text.length ++ (toBE 4 0 ++ text)) =
        some text := by
      rw [skipTable, if_neg (by omega), wordAt_toBE h, if_neg hpos,
        List.drop_left' (toBE_length 4 _),
        skipTable_zero]
    rw [htable]
    simp

/-- **Images are read back**, for every checksum function: the boot loader accepts what
`make_uimage_ramdisk` and `make_uimage_script` give, and finds in it the ramdisk, or behind the
table of lengths the script. -/
theorem uimages_decode (crc32 : List UInt8 → UInt32) {t : ℕ} (ht : t < 2 ^ 32) :
    (∀ ramdisk : List UInt8, ramdisk.length < 2 ^ 32 →
      ∃ img, makeUimageRamdisk crc32 t ramdisk = .ok img ∧ decodeUimage crc32 img = some ramdisk) ∧
    ∀ text : String, (encodeUtf8 text).length + 8 < 2 ^ 32 →
      ∃ img data, makeUimageScript crc32 t text = .ok img ∧ decodeUimage crc32 img = some data ∧
        decodeScript data = some (encodeUtf8 text) ∧ data.drop 8 = encodeUtf8 text := by
  refine ⟨fun ramdisk hsize => decodeUimage_wrapUimage ht (by norm_num) hsize, fun text hsize => ?_⟩
  have htext : (encodeUtf8 text).length < 256 ^ 4 := by omega
  set data := toBE 4 (encodeUtf8 text).length ++ (toBE 4 0 ++ encodeUtf8 text) with hdata
  have hlen : data.length < 256 ^ 4 := by
    simp only [hdata, List.length_append, toBE_length]
    omega
  obtain ⟨img, himg, hdecode⟩ := @decodeUimage_wrapUimage crc32 t 6 data ht (by norm_num) hlen
  refine ⟨img, data, ?_, hdecode, decodeScript_subheader htext, ?_⟩
  · have hfits : ∀ f ∈ [(4, (encodeUtf8 text).length), (4, 0)], f.2 < 256 ^ f.1 := by
      simp only [List.mem_cons, List.not_mem_nil, or_false, forall_eq_or_imp, forall_eq]
      omega
    have hpack : structPack [(4, (encodeUtf8 text).length), (4, 0)] =
        .ok (toBE 4 (encodeUtf8 text).length ++ toBE 4 0) := by
      rw [structPack, if_pos hfits]
      simp
    rw [makeUimageScript, hpack, ← himg, hdata, ← List.append_assoc]
    rfl
  · rw [hdata, ← List.append_assoc, List.drop_left' (by simp)]

/-- A ramdisk of three bytes and a script of a word. -/
theorem uimages_decode_small :
    (∃ img, makeUimageRamdisk (fun _ => 7) 5 [1, 2, 3] = .ok img ∧
      decodeUimage (fun _ => 7) img = some [1, 2, 3]) ∧
    ∃ img data, makeUimageScript (fun _ => 7) 5 "bootm" = .ok img ∧
      decodeUimage (fun _ => 7) img = some data ∧ decodeScript data = some (encodeUtf8 "bootm") ∧
        data.drop 8 = encodeUtf8 "bootm" :=
  ⟨(uimages_decode (fun _ => 7) (by norm_num)).1 [1, 2, 3] (by decide),
    (uimages_decode (fun _ => 7) (by norm_num)).2 "bootm" (by decide)⟩

end Imola.Qdl
