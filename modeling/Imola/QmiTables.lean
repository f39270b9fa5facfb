import Mathlib

/-! # The descriptor tables of QMI messages

A message is described by an array of `struct qmi_elem_info`, one entry for each element of
the C structure, ended by an entry of type `QMI_EOTI`.  Here an array is a `Table`; its end is
`nil`, and a nested array hangs below the entry that refers to it, so that a position in an
array is the `Table` from there on.

The tables are those of `qmi_rmtfs.c`, `servreg_loc.c` and `qmi.c`, with the offsets of the
structures on the 64-bit target. -/

namespace Imola.Qmi

/-- `enum qmi_elem_type`, without `QMI_EOTI`. -/
inductive ElemType where
  | optFlag
  | dataLen
  | unsigned1Byte
  | unsigned2Byte
  | unsigned4Byte
  | unsigned8Byte
  | signed1ByteEnum
  | signed2ByteEnum
  | signed4ByteEnum
  | struct
  | string
deriving DecidableEq, Repr

/-- The elements that are copied as they are. -/
def ElemType.isBasic : ElemType → Bool
  | .optFlag | .dataLen | .struct | .string => false
  | _ => true

theorem ElemType.ne_of_isBasic {t : ElemType} (h : t.isBasic = true) :
    t ≠ .optFlag ∧ t ≠ .dataLen ∧ t ≠ .struct ∧ t ≠ .string := by
  cases t with
  | optFlag => cases h
  | dataLen => cases h
  | struct => cases h
  | string => cases h
  | _ => simp

/-- `enum qmi_array_type`. -/
inductive ArrayType where
  | noArray
  | staticArray
  | varLenArray
deriving DecidableEq, Repr

/-- `struct qmi_elem_info` without `ei_array`. -/
structure ElemInfo where
  dataType : ElemType
  elemLen : ℕ
  elemSize : ℕ
  arrayType : ArrayType
  tlvType : UInt8
  offset : ℕ
deriving DecidableEq, Repr

/-- An array of entries; `eiArray` is the nested array of the first one. -/
inductive Table where
  | nil
  | cons (e : ElemInfo) (eiArray : Table) (rest : Table)
deriving DecidableEq, Repr

namespace Table

/-- The entries after those of type `tlvType`. -/
def skipType (tlvType : UInt8) : Table → Table
  | nil => nil
  | cons e sub rest => if e.tlvType = tlvType then skipType tlvType rest else cons e sub rest

theorem sizeOf_skipType (tlvType : UInt8) (t : Table) : sizeOf (skipType tlvType t) ≤ sizeOf t := by
  induction t with
  | nil => exact le_rfl
  | cons e sub rest _ ih =>
      simp only [skipType]
      split_ifs
      · simp only [cons.sizeOf_spec]
        omega
      · exact le_rfl

end Table

/-- `skip_to_next_elem`.  The end has the type 0, so among the non-zero types of a message the
walk stops there at the latest. -/
def skipToNextElem (level : ℕ) : Table → Table
  | .nil => .nil
  | .cons e _ rest => if level > 1 then rest else rest.skipType e.tlvType

theorem sizeOf_skipToNextElem (level : ℕ) (t : Table) :
    sizeOf (skipToNextElem level t) ≤ sizeOf t := by
  cases t with
  | nil => exact le_rfl
  | cons e sub rest =>
      simp only [skipToNextElem]
      have hskip := rest.sizeOf_skipType e.tlvType
      split_ifs
      · simp only [Table.cons.sizeOf_spec]
        omega
      · simp only [Table.cons.sizeOf_spec]
        omega

theorem sizeOf_skipToNextElem_cons (level : ℕ) (e : ElemInfo) (sub rest : Table) :
    sizeOf (skipToNextElem level (.cons e sub rest)) < sizeOf (Table.cons e sub rest) := by
  simp only [skipToNextElem]
  have hskip := rest.sizeOf_skipType e.tlvType
  split_ifs
  · simp only [Table.cons.sizeOf_spec]
    omega
  · simp only [Table.cons.sizeOf_spec]
    omega

/-- `find_ei`; `nil` stands for NULL. -/
def findEi (t : Table) (tlvType : UInt8) : Table :=
  match t with
  | .nil => .nil
  | .cons e sub rest => if e.tlvType = tlvType then .cons e sub rest else findEi rest tlvType

/-! ### The tables -/

/-- A single element that is no structure. -/
def scalar (dataType : ElemType) (elemSize : ℕ) (tlvType : UInt8) (offset : ℕ) (rest : Table) :
    Table :=
  .cons ⟨dataType, 1, elemSize, .noArray, tlvType, offset⟩ .nil rest

/-- A single structure. -/
def structure1 (elemSize : ℕ) (tlvType : UInt8) (offset : ℕ) (eiArray rest : Table) : Table :=
  .cons ⟨.struct, 1, elemSize, .noArray, tlvType, offset⟩ eiArray rest

/-- A string of at most 256 bytes. -/
def string256 (arrayType : ArrayType) (tlvType : UInt8) (offset : ℕ) (rest : Table) : Table :=
  .cons ⟨.string, 256, 1, arrayType, tlvType, offset⟩ .nil rest

/-- `rmtfs_qmi_result_ei` and `servreg_loc_qmi_result_ei`. -/
def qmiResultEi : Table := scalar .unsigned2Byte 2 0 0 (scalar .unsigned2Byte 2 0 2 .nil)

/-- `qmi_response_type_v01_ei`. -/
def qmiResponseTypeV01Ei : Table :=
  scalar .signed2ByteEnum 2 0 0 (scalar .signed2ByteEnum 2 0 2 .nil)

def rmtfsIovecEntryEi : Table :=
  scalar .unsigned4Byte 4 0 0 (scalar .unsigned4Byte 4 0 4 (scalar .unsigned4Byte 4 0 8 .nil))

def rmtfsOpenReqEi : Table := string256 .varLenArray 1 4 .nil

def rmtfsOpenRespEi : Table :=
  structure1 4 2 0 qmiResultEi (scalar .optFlag 1 16 4 (scalar .unsigned4Byte 4 16 8 .nil))

def rmtfsCloseReqEi : Table := scalar .unsigned4Byte 4 1 0 .nil

def rmtfsCloseRespEi : Table := structure1 4 2 0 qmiResultEi .nil

def rmtfsIovecReqEi : Table :=
  scalar .unsigned4Byte 4 1 0 (scalar .unsigned1Byte 1 2 4 (scalar .dataLen 1 3 8
    (.cons ⟨.struct, 255, 12, .varLenArray, 3, 16⟩ rmtfsIovecEntryEi
      (scalar .unsigned1Byte 1 4 3076 .nil))))

def rmtfsIovecRespEi : Table := structure1 4 2 0 qmiResultEi .nil

def rmtfsAllocBufReqEi : Table := scalar .unsigned4Byte 4 1 0 (scalar .unsigned4Byte 4 2 4 .nil)

def rmtfsAllocBufRespEi : Table :=
  structure1 4 2 0 qmiResultEi (scalar .optFlag 1 16 4 (scalar .unsigned8Byte 8 16 8 .nil))

def rmtfsDevErrorReqEi : Table := scalar .unsigned4Byte 4 1 0 .nil

def rmtfsDevErrorRespEi : Table :=
  structure1 4 2 0 qmiResultEi (scalar .optFlag 1 16 4 (scalar .unsigned1Byte 1 16 5 .nil))

def rmtfsForceSyncEi : Table :=
  scalar .dataLen 1 1 0 (.cons ⟨.unsigned1Byte, 10, 4, .varLenArray, 1, 8⟩ .nil .nil)

def servregLocDomainListEntryEi : Table :=
  string256 .noArray 0 4 (scalar .unsigned4Byte 4 0 260 (scalar .unsigned1Byte 1 0 264
    (scalar .unsigned4Byte 4 0 268 .nil)))

def servregLocGetDomainListReqEi : Table :=
  string256 .varLenArray 1 4 (scalar .optFlag 1 16 260 (scalar .unsigned4Byte 4 16 264 .nil))

def servregLocGetDomainListRespEi : Table :=
  structure1 4 2 0 qmiResultEi
    (scalar .optFlag 1 16 4 (scalar .unsigned2Byte 2 16 6
    (scalar .optFlag 1 17 8 (scalar .unsigned2Byte 2 17 10
    (scalar .optFlag 1 18 12 (scalar .dataLen 1 18 16
    (.cons ⟨.struct, 255, 272, .varLenArray, 18, 20⟩ servregLocDomainListEntryEi .nil)))))))

def servregLocPfrReqEi : Table := string256 .varLenArray 1 4 (string256 .varLenArray 2 264 .nil)

def servregLocPfrRespEi : Table := structure1 4 2 0 qmiResultEi .nil

/-- All tables, the nested ones included. -/
def tables : List Table :=
  [qmiResultEi, qmiResponseTypeV01Ei, rmtfsIovecEntryEi, rmtfsOpenReqEi, rmtfsOpenRespEi,
    rmtfsCloseReqEi, rmtfsCloseRespEi, rmtfsIovecReqEi, rmtfsIovecRespEi, rmtfsAllocBufReqEi,
    rmtfsAllocBufRespEi, rmtfsDevErrorReqEi, rmtfsDevErrorRespEi, rmtfsForceSyncEi,
    servregLocDomainListEntryEi, servregLocGetDomainListReqEi, servregLocGetDomainListRespEi,
    servregLocPfrReqEi, servregLocPfrRespEi]

end Imola.Qmi
