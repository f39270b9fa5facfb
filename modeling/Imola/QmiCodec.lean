import Imola.Bytes
import Imola.Progs
import Imola.QmiTables

/-! # The QMI encoder and decoder

`qmi.c` encodes a C structure as a message and decodes it again, both driven by a descriptor
table.  The C structure is a memory `ℕ → UInt8` in which the structure starts at `base`.

A message is a sequence of TLVs (type, length, value), one for each element of the structure.
The elements of a nested structure have no header of their own: they follow each other, and a
nested string has its length in front.  `level` is 1 for the message and greater inside a nested
structure.  In the encoder, `encoded` does not count the header of the TLV in progress, so at
level 1 the next byte goes to `encoded + 3`.

Byte counts that cannot reach `2 ^ 32` with these tables are natural numbers; the sums and
differences that are compared with a buffer length are taken as the code takes them. -/

namespace Imola.Qmi

open Imola.Bytes Imola.Splice Imola.Progs

/-- The `errno` values returned. -/
inductive Errno where
  | einval
  | efault
  | emsgsize
deriving DecidableEq, Repr

/-- The bytes `bs` copied over the low bytes of a `uint32_t`. -/
def setLow (x : ℕ) (bs : List UInt8) : ℕ := ofLE ((bs ++ (toLE 4 x).drop bs.length).take 4)

/-- `data_len_sz`. -/
def ElemInfo.dataLenSz (e : ElemInfo) : ℕ := if e.elemSize = 1 then 1 else 2

/-- `string_len_sz`. -/
def ElemInfo.stringLenSz (e : ElemInfo) : ℕ := if e.elemLen ≤ 256 then 1 else 2

/-! ### Encoding -/

/-- The number of bytes before the first NUL at `a`, counted up to `bound`. -/
def strlen (m : ℕ → UInt8) (a : ℕ) : ℕ → ℕ
  | 0 => 0
  | bound + 1 => if m a = 0 then 0 else strlen m (a + 1) bound + 1

/-- `qmi_encode_string_elem`.  A string longer than `elem_len` is refused, so `strlen` need not
look further. -/
def qmiEncodeStringElem (m : ℕ → UInt8) (level : ℕ) (e : ElemInfo) (dst src outLen : ℕ) :
    Prog Errno ℕ :=
  let stringLen := strlen m src (e.elemLen + 1)
  let bytes := window m src (stringLen * e.elemSize)
  if stringLen > e.elemLen then .fail .einval
  else if level = 1 then
    if stringLen + 3 > outLen then .fail .einval
    else do
      .storeAll dst bytes
      pure bytes.length
  else if stringLen + e.stringLenSz > outLen then .fail .einval
  else do
    .storeAll dst (toLE e.stringLenSz stringLen ++ bytes)
    pure (e.stringLenSz + bytes.length)

/-- `qmi_encode_struct_elem`: `n` structures are left; `enc src dst outLen` encodes one. -/
def qmiEncodeStructElem (enc : ℕ → ℕ → ℕ → Prog Errno ℕ) (elemSize outLen : ℕ) :
    ℕ → (dst src encoded : ℕ) → Prog Errno ℕ
  | 0, _, _, encoded => pure encoded
  | n + 1, dst, src, encoded => .sub outLen encoded fun avail => do
      let rc ← enc src dst avail
      qmiEncodeStructElem enc elemSize outLen n (dst + rc) (src + elemSize) (encoded + rc)

/-- The number of values of an element, from the length read last. -/
def encodeCount (e : ElemInfo) (dataLen : ℕ) : Prog Errno ℕ :=
  match e.arrayType with
  | .noArray => pure 1
  | .staticArray => pure e.elemLen
  | .varLenArray => if dataLen = 0 ∨ e.elemLen < dataLen then .fail .einval else pure dataLen

/-- At level 1, write the header in front of the `tlvLen` bytes encoded last.  Gives the number of
bytes encoded. -/
def encodeTlv (level : ℕ) (tlvType : UInt8) (start encoded tlvLen : ℕ) : Prog Errno ℕ :=
  if level = 1 then do
    .storeAll (start + encoded - tlvLen) (tlvType :: toLE 2 tlvLen)
    pure (encoded + 3)
  else pure encoded

/-- The data of an element, in the `switch` of `qmi_encode`; `enc` encodes a structure of the
entry. -/
def encodeValue (m : ℕ → UInt8) (enc : ℕ → ℕ → ℕ → Prog Errno ℕ) (level : ℕ) (e : ElemInfo)
    (outLen encoded count dst src : ℕ) : Prog Errno ℕ :=
  match e.dataType with
  | .struct =>
      .sub outLen encoded fun avail => qmiEncodeStructElem enc e.elemSize avail count dst src 0
  | .string => .sub outLen encoded fun avail => qmiEncodeStringElem m level e dst src avail
  | _ =>
      if (count * e.elemSize + encoded) % 2 ^ 32 + 3 > outLen then .fail .einval
      else do
        .storeAll dst (window m src (count * e.elemSize))
        pure (count * e.elemSize)

/-- `qmi_encode` from an entry on: `encoded` bytes are encoded, `tlvLen` of them in the TLV in
progress, and `dataLen` is `data_len_value`. -/
def qmiEncode (m : ℕ → UInt8) (level : ℕ) (t : Table)
    (base start outLen encoded dataLen tlvLen : ℕ) :
    Prog Errno ℕ :=
  match t with
  | .nil => pure encoded
  | .cons e eiArray rest => do
      let count ← encodeCount e dataLen
      let src := base + e.offset
      let dst := start + encoded + (if level = 1 then 3 else 0)
      match e.dataType with
      | .optFlag =>
          if m src ≠ 0 then
            qmiEncode m level rest base start outLen encoded count tlvLen
          else
            qmiEncode m level (skipToNextElem level (.cons e eiArray rest)) base start
              outLen encoded
              count tlvLen
      | .dataLen =>
          let dataLen := setLow count (window m src e.elemSize)
          if (e.dataLenSz + encoded) % 2 ^ 32 + 3 > outLen then .fail .einval
          else do
            .storeAll dst (toLE e.dataLenSz dataLen)
            if dataLen = 0 then do
              let encoded ← encodeTlv level e.tlvType start (encoded + e.dataLenSz)
                (tlvLen + e.dataLenSz)
              qmiEncode m level (skipToNextElem level rest) base start outLen encoded dataLen 0
            else
              qmiEncode m level rest base start outLen (encoded + e.dataLenSz) dataLen
                (tlvLen + e.dataLenSz)
      | _ => do
          let rc ← encodeValue m (fun src dst avail =>
            qmiEncode m (level + 1) eiArray src dst avail 0 0 0)
            level e outLen encoded count dst src
          let encoded ← encodeTlv level e.tlvType start (encoded + rc) (tlvLen + rc)
          qmiEncode m level rest base start outLen encoded count 0
termination_by sizeOf t
decreasing_by
  all_goals
    have hnext := sizeOf_skipToNextElem_cons level e eiArray rest
    have hrest := sizeOf_skipToNextElem level rest
    simp only [Table.cons.sizeOf_spec] at hnext ⊢
    omega

/-- The header of a message. -/
def qmiHeader (type : UInt8) (txnId msgId msgLen : ℕ) : List UInt8 :=
  type :: (toLE 2 txnId ++ toLE 2 msgId ++ toLE 2 msgLen)

/-- `qmi_encode_message` of a structure into a packet of `dataLen` bytes. -/
def qmiEncodeMessage (m : ℕ → UInt8) (dataLen : ℕ) (type : UInt8) (msgId txnId : ℕ) (t : Table) :
    Prog Errno ℕ :=
  if dataLen < 7 then .fail .emsgsize
  else do
    let msgLen ← qmiEncode m 1 t 0 7 (dataLen - 7) 0 0 0
    .storeAll 0 (qmiHeader type txnId msgId msgLen)
    pure (7 + msgLen)

/-! ### Decoding -/

/-- `qmi_decode_string_elem`: a terminating NUL is stored behind the string. -/
def qmiDecodeStringElem (level : ℕ) (e : ElemInfo) (dst src tlvLen : ℕ) : Prog Errno ℕ := do
  let lenSz := if level = 1 then 0 else e.stringLenSz
  let prefixBytes ← .readN src lenSz
  let stringLen := if level = 1 then tlvLen else ofLE prefixBytes
  if stringLen > e.elemLen then .fail .einval
  else if stringLen > tlvLen then .fail .efault
  else do
    let bytes ← .readN (src + lenSz) (stringLen * e.elemSize)
    .storeAll dst bytes
    .storeAll (dst + stringLen) [0]
    pure (lenSz + stringLen * e.elemSize)

/-- `qmi_decode_struct_elem`: `n` of the structures are left; `dec dst src len` decodes one.  A
message's structure must fill its TLV, a nested one must be complete. -/
def qmiDecodeStructElem (dec : ℕ → ℕ → ℕ → Prog Errno ℕ) (level elemSize tlvLen : ℕ) :
    ℕ → (dst src decoded : ℕ) → Prog Errno ℕ
  | 0, _, _, decoded =>
      if (level ≤ 2 ∧ decoded ≠ tlvLen) ∨ (level > 2 ∧ decoded > tlvLen) then .fail .efault
      else pure decoded
  | n + 1, dst, src, decoded =>
      if decoded < tlvLen then do
        let rc ← dec dst src (tlvLen - decoded)
        qmiDecodeStructElem dec level elemSize tlvLen n (dst + elemSize) (src + rc) (decoded + rc)
      else if (level ≤ 2 ∧ decoded ≠ tlvLen) ∨ level > 2 then .fail .efault
      else pure decoded

/-- Where the decoder is inside an element: at its first entry, behind the flag or behind the
length. -/
inductive Stage where
  | first
  | flagged
  | counted
deriving DecidableEq, Repr

/-- The number of values of an element. -/
def decodeCount (e : ElemInfo) (dataLen : ℕ) : Prog Errno ℕ :=
  match e.arrayType with
  | .noArray => pure 1
  | .staticArray => pure e.elemLen
  | .varLenArray => if dataLen > e.elemLen then .fail .einval else pure dataLen

/-- The `switch` of `qmi_decode`; `dec` decodes a structure of the entry. -/
def decodeValue (dec : ℕ → ℕ → ℕ → Prog Errno ℕ) (level : ℕ) (e : ElemInfo)
    (count tlvLen dst src : ℕ) : Prog Errno ℕ :=
  match e.dataType with
  | .optFlag | .dataLen => .fail .einval
  | .struct => qmiDecodeStructElem dec (level + 1) e.elemSize tlvLen count dst src 0
  | .string => qmiDecodeStringElem level e dst src tlvLen
  | _ => do
      let bytes ← .readN src (count * e.elemSize)
      .storeAll dst bytes
      pure (count * e.elemSize)

/-- The body of the loop of `qmi_decode`, from an entry on; above level 1 the loop itself.  The
message is at `start`, the next byte at `start + decoded`.  Gives `decoded_bytes` and
`data_len_value`. -/
def qmiDecodeElems : Table → (level base start inLen : ℕ) → Stage → (tlvLen decoded dataLen : ℕ) →
    Prog Errno (ℕ × ℕ)
  | .nil, _, _, _, _, stage, _, decoded, dataLen =>
      if stage = .first then pure (decoded, dataLen) else .fail .einval
  | .cons e eiArray rest, level, base, start, inLen, stage, tlvLen, decoded, dataLen =>
      if stage = .first ∧ level ≥ 2 ∧ inLen ≤ decoded then pure (decoded, dataLen)
      else
        let tlvLen := if stage = .first ∧ level ≥ 2 then inLen - decoded else tlvLen
        let dst := base + e.offset
        let src := start + decoded
        if e.dataType = .optFlag ∧ stage = .first then do
          .storeAll dst [1]
          qmiDecodeElems rest level base start inLen .flagged tlvLen decoded dataLen
        else if e.dataType = .dataLen ∧ stage ≠ .counted then do
          let bytes ← .readN src e.dataLenSz
          .storeAll dst (toLE 4 (setLow dataLen bytes))
          qmiDecodeElems rest level base start inLen .counted (sub32 tlvLen e.dataLenSz)
            (decoded + e.dataLenSz) (setLow dataLen bytes)
        else do
          let count ← decodeCount e dataLen
          let rc ← decodeValue
            (fun dst src len => do
              let r ← qmiDecodeElems eiArray (level + 1) dst src len .first 0 0 0
              pure r.1)
            level e count tlvLen dst src
          if level ≥ 2 then qmiDecodeElems rest level base start inLen .first 0 (decoded + rc) count
          else pure (decoded + rc, count)

/-- The loop of `qmi_decode` at level 1.  Every round decodes a header, so `inLen` rounds are
enough (`qmiDecodeTlvs_rounds`). -/
def qmiDecodeTlvs (t : Table) (base start inLen : ℕ) : ℕ → (decoded dataLen : ℕ) → Prog Errno ℕ
  | 0, decoded, _ => pure decoded
  | rounds + 1, decoded, dataLen =>
      if decoded < inLen then do
        let header ← .readN (start + decoded) 3
        let tlvType := header.headD 0
        let tlvLen := ofLE (header.drop 1)
        match findEi t tlvType with
        | .nil =>
            if tlvType < 0x10 then .fail .einval
            else qmiDecodeTlvs t base start inLen rounds (decoded + 3 + tlvLen) dataLen
        | .cons e eiArray rest => do
            let r ← qmiDecodeElems (.cons e eiArray rest) 1 base start inLen .first tlvLen
              (decoded + 3) dataLen
            qmiDecodeTlvs t base start inLen rounds r.1 r.2
      else pure decoded

/-- `qmi_decode_header`: the message id of a packet whose length is that in its header.  The length
of a packet is a `size_t`. -/
def qmiDecodeHeader (dataLen : ℕ) : Prog Errno ℕ := do
  let lenBytes ← .readN 5 2
  if ofLE lenBytes ≠ (dataLen + (2 ^ 64 - 7)) % 2 ^ 64 then .fail .einval
  else do
    let idBytes ← .readN 3 2
    pure (ofLE idBytes)

/-- `qmi_decode_message` of a packet of `dataLen` bytes: the number of bytes decoded, and the
transaction id. -/
def qmiDecodeMessage (dataLen type msgId : ℕ) (t : Table) : Prog Errno (ℕ × ℕ) :=
  if dataLen = 0 then .fail .einval
  else do
    let typeBytes ← .readN 0 1
    if ofLE typeBytes ≠ type then .fail .einval
    else do
      let idBytes ← .readN 3 2
      if ofLE idBytes ≠ msgId then .fail .einval
      else do
        let txnBytes ← .readN 1 2
        let decoded ← qmiDecodeTlvs t 0 7 (sub32 dataLen 7) (sub32 dataLen 7) 0 0
        pure (decoded, ofLE txnBytes)

end Imola.Qmi
