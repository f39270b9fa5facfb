import Imola.QmiCodec

/-! # The wire form of a structure

The tables that describe messages have more structure than an array of entries: an element is a
data entry, with the entry of its length in front if it is an array of variable length, and at
the top with an optional flag before both.  `Descr` is a nested table in this form, a list of
`Field` a message, and `toTable` is the array the code works on.  The responses of the tree and the
RW_IOVEC request are such messages (`exists_messageWf`).

For a structure in memory, `wire` is the byte string that stands for it in a message, `blocks`
are the parts of the structure that `wire` determines, and `Fits` says that its values are within
the bounds of the table. -/

namespace Imola.Qmi

open Imola.Bytes Imola.Splice

/-! ### Descriptions -/

/-- A nested table, element by element: the entry of the length, if there is one, the entry of
the data and its nested table. -/
inductive Descr where
  | nil
  | elem (len : Option ElemInfo) (data : ElemInfo) (sub : Descr) (rest : Descr)
deriving DecidableEq

/-- The array with the entry of the length in front. -/
def consLen (len : Option ElemInfo) (t : Table) : Table :=
  match len with
  | none => t
  | some l => .cons l .nil t

def Descr.toTable : Descr → Table
  | .nil => .nil
  | .elem len data sub rest => consLen len (.cons data sub.toTable rest.toTable)

/-- An array of variable length follows its one-byte length; only such an array has one. -/
def LenWf (len : Option ElemInfo) (data : ElemInfo) : Prop :=
  match len with
  | none => data.arrayType = .noArray ∨
      (data.arrayType = .staticArray ∧ 1 ≤ data.elemLen ∧ data.elemLen ≤ 255)
  | some l => l.dataType = .dataLen ∧ l.arrayType = .noArray ∧ l.elemSize = 1 ∧
      data.arrayType = .varLenArray ∧ 1 ≤ data.elemLen ∧ data.elemLen ≤ 255

/-- A string is single and consists of `char`s; `sub` is what is asked of a nested table. -/
def DataWf (data : ElemInfo) (sub : Prop) : Prop :=
  match data.dataType with
  | .optFlag | .dataLen => False
  | .struct => sub
  | .string => data.arrayType = .noArray ∧ data.elemSize = 1
  | _ => 1 ≤ data.elemSize

/-- The nested tables of the supported form. -/
def Descr.Wf : Descr → Prop
  | .nil => True
  | .elem len data sub rest => LenWf len data ∧ DataWf data (sub ≠ .nil ∧ sub.Wf) ∧ rest.Wf

instance (len : Option ElemInfo) (data : ElemInfo) : Decidable (LenWf len data) :=
  match len with
  | none => inferInstanceAs (Decidable (_ ∨ _))
  | some _ => inferInstanceAs (Decidable (_ ∧ _))

instance (data : ElemInfo) (sub : Prop) [hsub : Decidable sub] : Decidable (DataWf data sub) :=
  match data with
  | ⟨.optFlag, _, _, _, _, _⟩ | ⟨.dataLen, _, _, _, _, _⟩ => isFalse id
  | ⟨.struct, _, _, _, _, _⟩ => hsub
  | ⟨.string, _, _, _, _, _⟩ => inferInstanceAs (Decidable (_ ∧ _))
  | ⟨.unsigned1Byte, _, _, _, _, _⟩ | ⟨.unsigned2Byte, _, _, _, _, _⟩ | ⟨.unsigned4Byte,
      _, _, _, _, _⟩
  | ⟨.unsigned8Byte, _, _, _, _, _⟩ | ⟨.signed1ByteEnum, _, _, _, _, _⟩ | ⟨.signed2ByteEnum,
      _, _, _, _, _⟩
  | ⟨.signed4ByteEnum, _, _, _, _, _⟩ => inferInstanceAs (Decidable (_ ≤ _))

instance Descr.decidableWf : (d : Descr) → Decidable d.Wf
  | .nil => isTrue trivial
  | .elem len data sub rest =>
      have : Decidable sub.Wf := decidableWf sub
      have : Decidable rest.Wf := decidableWf rest
      inferInstanceAs (Decidable (LenWf len data ∧ DataWf data (sub ≠ .nil ∧ sub.Wf) ∧ rest.Wf))

/-- An element of a message. -/
structure Field where
  flag : Option ElemInfo
  len : Option ElemInfo
  data : ElemInfo
  sub : Descr

def Field.consTable (f : Field) (rest : Table) : Table :=
  match f.flag with
  | none => consLen f.len (.cons f.data f.sub.toTable rest)
  | some g => .cons g .nil (consLen f.len (.cons f.data f.sub.toTable rest))

/-- The array of a message. -/
def toTable (fs : List Field) : Table := fs.foldr Field.consTable .nil

/-- All entries of an element have its type, which is not 0. -/
@[mk_iff] structure Field.Wf (f : Field) : Prop where
  flag_type : ∀ g ∈ f.flag, g.dataType = .optFlag ∧ g.arrayType = .noArray
  len_wf : LenWf f.len f.data
  data_wf : DataWf f.data (f.sub ≠ .nil ∧ f.sub.Wf)
  flag_tlv : ∀ g ∈ f.flag, g.tlvType = f.data.tlvType
  len_tlv : ∀ l ∈ f.len, l.tlvType = f.data.tlvType
  tlv_ne_zero : f.data.tlvType ≠ 0

instance (f : Field) : Decidable f.Wf := decidable_of_iff _ f.wf_iff.symm

/-- The messages of the supported form: the types of the elements are pairwise distinct. -/
@[mk_iff] structure MessageWf (fs : List Field) : Prop where
  fields : ∀ f ∈ fs, f.Wf
  distinct : fs.Pairwise fun f g => f.data.tlvType ≠ g.data.tlvType

instance (fs : List Field) : Decidable (MessageWf fs) := decidable_of_iff _ (messageWf_iff fs).symm

/-! ### The messages of this tree -/

/-- A single element that is no structure. -/
def single (dataType : ElemType) (elemSize : ℕ) (tlvType : UInt8) (offset : ℕ) : ElemInfo :=
  ⟨dataType, 1, elemSize, .noArray, tlvType, offset⟩

/-- A nested table of single elements. -/
def descrOf (es : List ElemInfo) : Descr := es.foldr (fun e d => .elem none e .nil d) .nil

/-- The result in front of a response. -/
def resultField : Field :=
  ⟨none, none, single .struct 4 2 0,
    descrOf [single .unsigned2Byte 2 0 0, single .unsigned2Byte 2 0 2]⟩

/-- An optional element of a response. -/
def optional (dataType : ElemType) (elemSize : ℕ) (tlvType : UInt8) (flagOffset offset : ℕ) :
    Field :=
  ⟨some (single .optFlag 1 tlvType flagOffset), none, single dataType elemSize tlvType offset, .nil⟩

def iovecReqFields : List Field :=
  [⟨none, none, single .unsigned4Byte 4 1 0, .nil⟩, ⟨none, none, single .unsigned1Byte 1 2 4, .nil⟩,
    ⟨none, some (single .dataLen 1 3 8), ⟨.struct, 255, 12, .varLenArray, 3, 16⟩,
      descrOf [single .unsigned4Byte 4 0 0, single .unsigned4Byte 4 0 4,
        single .unsigned4Byte 4 0 8]⟩,
    ⟨none, none, single .unsigned1Byte 1 4 3076, .nil⟩]

def openRespFields : List Field := [resultField, optional .unsigned4Byte 4 16 4 8]

def domainListRespFields : List Field :=
  [resultField, optional .unsigned2Byte 2 16 4 6, optional .unsigned2Byte 2 17 8 10,
    ⟨some (single .optFlag 1 18 12), some (single .dataLen 1 18 16),
      ⟨.struct, 255, 272, .varLenArray, 18, 20⟩,
      descrOf [⟨.string, 256, 1, .noArray, 0, 4⟩, single .unsigned4Byte 4 0 260,
        single .unsigned1Byte 1 0 264,
        single .unsigned4Byte 4 0 268]⟩]

/-- A domain list with one entry, whose name is `"a"`. -/
def sampleDomainList (p : ℕ) : UInt8 := if p = 12 ∨ p = 16 then 1 else if p = 24 then 97 else 0

/-- The responses and the RW_IOVEC request are of the supported form. -/
theorem exists_messageWf {t : Table} (ht : t ∈ [rmtfsOpenRespEi, rmtfsCloseRespEi, rmtfsIovecRespEi,
    rmtfsAllocBufRespEi, rmtfsDevErrorRespEi, servregLocGetDomainListRespEi, servregLocPfrRespEi,
    rmtfsIovecReqEi]) : ∃ fs, MessageWf fs ∧ toTable fs = t := by
  have hresult : MessageWf [resultField] := by decide
  simp only [List.mem_cons, List.not_mem_nil, or_false] at ht
  rcases ht with rfl | rfl | rfl | rfl | rfl | rfl | rfl | rfl
  · exact ⟨openRespFields, by decide, rfl⟩
  · exact ⟨_, hresult, rfl⟩
  · exact ⟨_, hresult, rfl⟩
  · exact ⟨[resultField, optional .unsigned8Byte 8 16 4 8], by decide, rfl⟩
  · exact ⟨[resultField, optional .unsigned1Byte 1 16 4 5], by decide, rfl⟩
  · exact ⟨domainListRespFields, by decide, rfl⟩
  · exact ⟨_, hresult, rfl⟩
  · exact ⟨iovecReqFields, by decide, rfl⟩

/-! ### Structures -/

variable (m : ℕ → UInt8)

/-- The number of values of an element; a length is a `uint32_t`. -/
def valueCount (base : ℕ) (len : Option ElemInfo) (data : ElemInfo) : ℕ :=
  match len with
  | some l => ofLE (window m (base + l.offset) 4)
  | none => if data.arrayType = .noArray then 1 else data.elemLen

/-- The wire form of the length. -/
def lenBytes (base : ℕ) (len : Option ElemInfo) : List UInt8 :=
  match len with
  | some l => [m (base + l.offset)]
  | none => []

/-- The wire form of the data: `n` values from `src` on; `wireSub` is that of a nested structure.
Below the top, a string has its length in front. -/
def dataBytes (nested : Bool) (wireSub : ℕ → List UInt8) (data : ElemInfo) (n src : ℕ) :
    List UInt8 :=
  match data.dataType with
  | .struct => (List.range n).flatMap fun i => wireSub (src + i * data.elemSize)
  | .string =>
      let len := strlen m src (data.elemLen + 1)
      (if nested then toLE data.stringLenSz len else []) ++ window m src len
  | _ => window m src (n * data.elemSize)

/-- The wire form of a nested structure at `base`. -/
def Descr.wire : Descr → (base : ℕ) → List UInt8
  | .nil, _ => []
  | .elem len data sub rest, base =>
      lenBytes m base len ++ dataBytes m true sub.wire data (valueCount m base len data)
        (base + data.offset) ++
        rest.wire base

/-- An element without a flag, or with its flag set. -/
def Field.Present (f : Field) : Prop := ∀ g ∈ f.flag, m g.offset ≠ 0

instance (f : Field) : Decidable (f.Present m) :=
  match h : f.flag with
  | none => isTrue fun g hg => by simp [h] at hg
  | some g => decidable_of_iff (m g.offset ≠ 0) (by simp [Field.Present, h])

/-- The value of an element's TLV. -/
def Field.payload (f : Field) : List UInt8 :=
  lenBytes m 0 f.len ++ dataBytes m false (f.sub.wire m) f.data (valueCount m 0 f.len f.data)
    f.data.offset

/-- The TLV of an element, if it is present. -/
def Field.wire (f : Field) : List UInt8 :=
  if f.Present m then f.data.tlvType :: toLE 2 (f.payload m).length ++ f.payload m else []

/-- The wire form of the structure of a message, which starts at 0. -/
def wire (fs : List Field) : List UInt8 := fs.flatMap fun f => f.wire m

/-! ### The values within bounds -/

/-- The length of an array is at most `elem_len`. -/
def lenFits (base : ℕ) (len : Option ElemInfo) (data : ElemInfo) : Prop :=
  ∀ l ∈ len, ofLE (window m (base + l.offset) 4) ≤ data.elemLen

/-- A string is NUL-terminated and shorter than its field. -/
def dataFits (fitsSub : ℕ → Prop) (data : ElemInfo) (n src : ℕ) : Prop :=
  match data.dataType with
  | .struct => ∀ i < n, fitsSub (src + i * data.elemSize)
  | .string => strlen m src (data.elemLen + 1) < data.elemLen
  | _ => True

def Descr.Fits : Descr → (base : ℕ) → Prop
  | .nil, _ => True
  | .elem len data sub rest, base => lenFits m base len data ∧
      dataFits m sub.Fits data (valueCount m base len data) (base + data.offset) ∧ rest.Fits base

/-- A flag is a `bool`; an element that is absent is not looked at. -/
@[mk_iff] structure Field.Fits (f : Field) : Prop where
  flag : ∀ g ∈ f.flag, m g.offset = 0 ∨ m g.offset = 1
  len : f.Present m → lenFits m 0 f.len f.data
  data : f.Present m → dataFits m (f.sub.Fits m) f.data (valueCount m 0 f.len f.data) f.data.offset

instance (base : ℕ) (len : Option ElemInfo) (data : ElemInfo) :
    Decidable (lenFits m base len data) :=
  inferInstanceAs (Decidable (∀ l ∈ len, _ ≤ _))

instance (fitsSub : ℕ → Prop) [hsub : DecidablePred fitsSub] (data : ElemInfo) (n src : ℕ) :
    Decidable (dataFits m fitsSub data n src) :=
  match data with
  | ⟨.struct, _, elemSize, _, _, _⟩ =>
      inferInstanceAs (Decidable (∀ i < n, fitsSub (src + i * elemSize)))
  | ⟨.string, _, _, _, _, _⟩ => inferInstanceAs (Decidable (_ < _))
  | ⟨.optFlag, _, _, _, _, _⟩ | ⟨.dataLen, _, _, _, _, _⟩ | ⟨.unsigned1Byte, _, _, _, _, _⟩
  | ⟨.unsigned2Byte, _, _, _, _, _⟩ | ⟨.unsigned4Byte, _, _, _, _, _⟩ | ⟨.unsigned8Byte,
      _, _, _, _, _⟩
  | ⟨.signed1ByteEnum, _, _, _, _, _⟩ | ⟨.signed2ByteEnum, _, _, _, _, _⟩
  | ⟨.signed4ByteEnum, _, _, _, _, _⟩ => isTrue trivial

instance Descr.decidableFits : (d : Descr) → (base : ℕ) → Decidable (d.Fits m base)
  | .nil, _ => isTrue trivial
  | .elem len data sub rest, base =>
      have : DecidablePred (sub.Fits m) := decidableFits sub
      have : Decidable (rest.Fits m base) := decidableFits rest base
      inferInstanceAs (Decidable (lenFits m base len data ∧
        dataFits m (sub.Fits m) data (valueCount m base len data) (base + data.offset) ∧
        rest.Fits m base))

instance (f : Field) : Decidable (f.Fits m) :=
  have : DecidablePred (f.sub.Fits m) := f.sub.decidableFits m
  decidable_of_iff _ (f.fits_iff m).symm

/-! ### The described part of the structure -/

/-- A string is described up to its NUL. -/
def dataBlocks (blocksSub : ℕ → List (ℕ × ℕ)) (data : ElemInfo) (n src : ℕ) : List (ℕ × ℕ) :=
  match data.dataType with
  | .struct => (List.range n).flatMap fun i => blocksSub (src + i * data.elemSize)
  | .string => [(src, strlen m src (data.elemLen + 1) + 1)]
  | _ => [(src, n * data.elemSize)]

/-- The block of the length. -/
def lenBlock (base : ℕ) (len : Option ElemInfo) : List (ℕ × ℕ) :=
  match len with
  | some l => [(base + l.offset, 4)]
  | none => []

def Descr.blocks : Descr → (base : ℕ) → List (ℕ × ℕ)
  | .nil, _ => []
  | .elem len data sub rest, base =>
      lenBlock base len ++ dataBlocks m sub.blocks data (valueCount m base len data)
        (base + data.offset) ++
        rest.blocks base

/-- An absent element has no block. -/
def Field.blocks (f : Field) : List (ℕ × ℕ) :=
  if f.Present m then
    (match f.flag with | some g => [(g.offset, 1)] | none => []) ++
      lenBlock 0 f.len ++ dataBlocks m (f.sub.blocks m) f.data (valueCount m 0 f.len f.data)
        f.data.offset
  else []

/-- The described blocks of a message. -/
def blocks (fs : List Field) : List (ℕ × ℕ) := fs.flatMap fun f => f.blocks m

variable {m}

/-! ### Basic elements -/

theorem dataBytes_basic {data : ElemInfo} (h : data.dataType.isBasic = true) (nested : Bool)
    (w : ℕ → List UInt8)
    (n src : ℕ) : dataBytes m nested w data n src = window m src (n * data.elemSize) := by
  obtain ⟨-, -, hstruct, hstring⟩ := ElemType.ne_of_isBasic h
  unfold dataBytes
  split
  · rename_i htype
    exact absurd htype hstruct
  · rename_i htype
    exact absurd htype hstring
  · rfl

theorem dataFits_basic {data : ElemInfo} (h : data.dataType.isBasic = true) (fits : ℕ → Prop)
    (n src : ℕ) :
    dataFits m fits data n src := by
  obtain ⟨-, -, hstruct, hstring⟩ := ElemType.ne_of_isBasic h
  unfold dataFits
  split
  · rename_i htype
    exact absurd htype hstruct
  · rename_i htype
    exact absurd htype hstring
  · trivial

/-! ### Responses -/

theorem resultField_fits (m : ℕ → UInt8) : resultField.Fits m := by
  refine ⟨fun g hg => (by cases hg), fun _ l hl => (by cases hl), fun _ i _ => ?_⟩
  exact ⟨fun l hl => (by cases hl), trivial, fun l hl => (by cases hl), trivial, trivial⟩

theorem optional_fits {dataType : ElemType} (h : dataType.isBasic = true)
    {elemSize flagOffset offset : ℕ}
    {tlvType : UInt8} (hflag : m flagOffset = 0 ∨ m flagOffset = 1) :
    (optional dataType elemSize tlvType flagOffset offset).Fits m := by
  refine ⟨?_, fun _ l hl => (by cases hl), fun _ => dataFits_basic h _ _ _⟩
  rintro g ⟨⟩
  exact hflag

theorem resultField_blocks (m : ℕ → UInt8) : resultField.blocks m = [(0, 2), (2, 2)] := by
  have hpresent : resultField.Present m := fun g hg => by cases hg
  rw [Field.blocks, if_pos hpresent]
  rfl

theorem window_result {fs : List Field} (h : resultField ∈ fs) (a : ℕ → UInt8) :
    window (copied (blocks m fs) m a) 0 4 = window m 0 4 := by
  have hblock : ∀ r ∈ [(0, 2), (2, 2)], r ∈ blocks m fs := by
    intro r hr
    exact List.mem_flatMap.mpr ⟨resultField, h, by rwa [resultField_blocks]⟩
  rw [window_add _ 0 2 2, window_add _ 0 2 2, window_copied (hblock _ (by simp)),
    window_copied (hblock _ (by simp))]

/-! ### Lengths -/

theorem stringLenSz_pos (e : ElemInfo) : 1 ≤ e.stringLenSz := by
  unfold ElemInfo.stringLenSz
  split_ifs
  · exact le_rfl
  · norm_num

theorem lenField_eq {a b : ℕ} (h : ofLE (window m a 4) ≤ b) (hb : b ≤ 255) :
    ofLE (window m a 4) = (m a).toNat ∧ window m a 4 = toLE 4 (ofLE (window m a 4)) := by
  have hw : window m a 4 = [m a, m (a + 1), m (a + 2), m (a + 3)] := rfl
  have h₁ := (m (a + 1)).toNat_lt
  have h₂ := (m (a + 2)).toNat_lt
  have h₃ := (m (a + 3)).toNat_lt
  rw [hw] at h ⊢
  simp only [ofLE] at h ⊢
  refine ⟨by omega, ?_⟩
  simp only [toLE, List.cons.injEq, and_true]
  refine ⟨?_, ?_, ?_, ?_⟩
  all_goals
    apply UInt8.toNat_inj.mp
    rw [UInt8.toNat_ofNat']
    omega

theorem valueCount_pos {data : ElemInfo} (h : LenWf none data) (base : ℕ) :
    1 ≤ valueCount m base none data := by
  unfold valueCount
  rcases h with h | ⟨h, hmin, -⟩
  · simp [h]
  · simpa [h] using hmin

theorem Descr.wire_pos {d : Descr} (hd : d.Wf) (hne : d ≠ .nil) (base : ℕ) :
    1 ≤ (d.wire m base).length := by
  induction d generalizing base with
  | nil => exact absurd rfl hne
  | elem len data sub rest ihsub ihrest =>
      obtain ⟨hlen, hdata, -⟩ := hd
      cases len with
      | some l =>
          simp only [Descr.wire, lenBytes, List.length_append, List.length_cons]
          omega
      | none =>
          obtain ⟨n, hn⟩ := Nat.exists_eq_add_of_le (@valueCount_pos m data hlen base)
          have hpos : 1 ≤ (dataBytes m true (sub.wire m) data (valueCount m base none data)
              (base + data.offset)).length := by
            rw [hn]
            unfold dataBytes
            unfold DataWf at hdata
            cases htype : data.dataType with
            | optFlag => simp [htype] at hdata
            | dataLen => simp [htype] at hdata
            | struct =>
                rw [htype] at hdata
                have hone := ihsub hdata.2 hdata.1 (base + data.offset)
                rw [Nat.add_comm 1 n]
                simp only [List.range_succ_eq_map, List.flatMap_cons, List.length_append,
                  Nat.zero_mul,
                  Nat.add_zero]
                omega
            | string =>
                have := stringLenSz_pos data
                simp only [if_true, List.length_append, toLE_length]
                omega
            | _ =>
                rw [htype] at hdata
                simp only [window_length]
                nlinarith
          simp only [Descr.wire, lenBytes, List.length_append, List.nil_append]
          omega

end Imola.Qmi
