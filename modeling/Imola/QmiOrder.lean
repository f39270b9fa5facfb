import Imola.QmiRoundTrip

/-! # The order of the TLVs of a request

The decoder takes the TLVs of a message as they come.  Between two of them it keeps
`data_len_value`, of which a length on the wire overwrites only the low byte, and which is compared
with `elem_len` also for strings, which have no length of their own in these tables.

It does no harm: the number that is kept is always below 256 (`decode_tlvs`), every TLV stores the
same bytes wherever it stands, and the elements of a structure do not overlap.  So the order of the
TLVs does not matter, and neither do TLVs of an optional type that is not in the table
(`decode_order`). -/

namespace Imola.Qmi

open Imola.Bytes Imola.Splice Imola.Progs

/-! ### Values of the right length -/

/-- The bytes of a nested structure on the wire. -/
def Table.wireSize : Table → ℕ
  | .nil => 0
  | .cons e _ rest => e.elemSize + rest.wireSize

/-- A value has exactly the length that its descriptor implies, for `n` values; a string is shorter
than its field. -/
def Exact : Table → (n : ℕ) → List UInt8 → Prop
  | .nil, _, _ => False
  | .cons e sub rest, n, v =>
      match e.dataType with
      | .optFlag => Exact rest n v
      | .dataLen =>
          match v with
          | [] => False
          | k :: v => Exact rest k.toNat v
      | .string => v.length < e.elemLen
      | .struct => v.length = n * sub.wireSize
      | _ => v.length = n * e.elemSize

/-- The type of a TLV is in the table. -/
def Tlv.known (t : Table) (x : Tlv) : Bool := findEi t x.type ≠ .nil

/-- A TLV that is in the table has the length of its descriptor, any other one has an optional
type.  The length on the wire has 16 bits. -/
structure Tlv.Wf (t : Table) (x : Tlv) : Prop where
  size : x.value.length < 65536
  exact : x.known t = true → Exact (findEi t x.type) 1 x.value
  optional : x.known t = false → 0x10 ≤ x.type

/-! ### Requests -/

/-- The elements of a nested structure follow each other without a gap, from `off` to `size`. -/
def Descr.Packed : Descr → (off size : ℕ) → Prop
  | .nil, off, size => off = size
  | .elem len data _ rest, off, size =>
      len = none ∧ data.dataType.isBasic = true ∧ data.arrayType = .noArray ∧
      data.offset = off ∧ rest.Packed (off + data.elemSize) size

instance Descr.decidablePacked : (d : Descr) → (off size : ℕ) → Decidable (d.Packed off size)
  | .nil, _, _ => inferInstanceAs (Decidable (_ = _))
  | .elem len data _ rest, off, size =>
      have : Decidable (rest.Packed (off + data.elemSize) size) := decidablePacked rest _ _
      inferInstanceAs
        (Decidable (len = none ∧ data.dataType.isBasic = true ∧ data.arrayType = .noArray ∧
        data.offset = off ∧ rest.Packed (off + data.elemSize) size))

/-- A string at the top, which has no length of its own though it is an array of variable length. -/
@[mk_iff] structure Field.IsText (f : Field) : Prop where
  flag : f.flag = none
  len : f.len = none
  string : f.data.dataType = .string
  array : f.data.arrayType = .varLenArray
  char : f.data.elemSize = 1
  room : f.data.elemLen = 256

/-- A single value, or an array behind its length, whose bytes follow each other in the
structure. -/
@[mk_iff] structure Field.IsPacked (f : Field) : Prop where
  wf : f.Wf
  single : f.len = none → f.data.arrayType = .noArray ∧ f.data.elemLen = 1
  room : ∀ l ∈ f.len, f.data.elemLen = 255
  data : f.data.dataType.isBasic = true ∨
    (f.data.dataType = .struct ∧ f.sub.Packed 0 f.data.elemSize)

instance (f : Field) : Decidable f.IsText := decidable_of_iff _ f.isText_iff.symm

instance (f : Field) : Decidable f.IsPacked := decidable_of_iff _ f.isPacked_iff.symm

/-- The parts of the structure that belong to an element. -/
def Field.extents (f : Field) : List (ℕ × ℕ) :=
  (f.flag.toList.map fun g => (g.offset, 1)) ++ (f.len.toList.map fun l => (l.offset, 4)) ++
    [(f.data.offset, f.data.elemLen * f.data.elemSize)]

/-- The requests of the supported form: the elements of the structure do not overlap. -/
@[mk_iff] structure RequestWf (fs : List Field) : Prop where
  fields : ∀ f ∈ fs, f.IsText ∨ f.IsPacked
  distinct : fs.Pairwise fun f g => f.data.tlvType ≠ g.data.tlvType
  apart : (fs.flatMap Field.extents).Pairwise fun r s => r.1 + r.2 ≤ s.1 ∨ s.1 + s.2 ≤ r.1

instance (fs : List Field) : Decidable (RequestWf fs) := decidable_of_iff _ (requestWf_iff fs).symm

/-- The tables of the requests. -/
def requestTables : List Table :=
  [rmtfsOpenReqEi, rmtfsCloseReqEi, rmtfsIovecReqEi, rmtfsAllocBufReqEi, rmtfsDevErrorReqEi,
    servregLocGetDomainListReqEi, servregLocPfrReqEi]

/-- A single value. -/
def valueField (dataType : ElemType) (elemSize : ℕ) (tlvType : UInt8) (offset : ℕ) : Field :=
  ⟨none, none, single dataType elemSize tlvType offset, .nil⟩

/-- A string. -/
def textField (tlvType : UInt8) (offset : ℕ) : Field :=
  ⟨none, none, ⟨.string, 256, 1, .varLenArray, tlvType, offset⟩, .nil⟩

theorem exists_requestWf {t : Table} (ht : t ∈ requestTables) :
    ∃ fs, RequestWf fs ∧ toTable fs = t := by
  simp only [requestTables, List.mem_cons, List.not_mem_nil, or_false] at ht
  rcases ht with rfl | rfl | rfl | rfl | rfl | rfl | rfl
  · exact ⟨[textField 1 4], by decide, rfl⟩
  · exact ⟨[valueField .unsigned4Byte 4 1 0], by decide, rfl⟩
  · exact ⟨iovecReqFields, by decide, rfl⟩
  · exact ⟨[valueField .unsigned4Byte 4 1 0, valueField .unsigned4Byte 4 2 4], by decide, rfl⟩
  · exact ⟨[valueField .unsigned4Byte 4 1 0], by decide, rfl⟩
  · exact ⟨[textField 1 4, optional .unsigned4Byte 4 16 260 264], by decide, rfl⟩
  · exact ⟨[textField 1 4, textField 2 264], by decide, rfl⟩

/-! ### What a TLV stores -/

/-- The length in front of a value, if the element has one, and the rest. -/
def Field.splitValue (f : Field) (v : List UInt8) : ℕ × List UInt8 :=
  match f.len with
  | some _ => ((v.headD 0).toNat, v.tail)
  | none => (1, v)

theorem Field.splitValue_none {f : Field} (h : f.len = none) (v : List UInt8) :
    f.splitValue v = (1, v) := by
  rw [Field.splitValue, h]

theorem Field.splitValue_some {f : Field} {l : ElemInfo} (h : f.len = some l) (v : List UInt8) :
    f.splitValue v = ((v.headD 0).toNat, v.tail) := by
  rw [Field.splitValue, h]

/-- The bytes that are stored for the value of an element, and where. -/
def Field.stores (f : Field) (v : List UInt8) : List (ℕ × List UInt8) :=
  (f.flag.toList.map fun g => (g.offset, [1])) ++
    (f.len.toList.map fun l => (l.offset, toLE 4 (f.splitValue v).1)) ++
    [(f.data.offset, (f.splitValue v).2 ++ if f.data.dataType = .string then [0] else [])]

/-- The structure `m` holds what is stored for `v`. -/
def Field.Holds (f : Field) (m : ℕ → UInt8) (v : List UInt8) : Prop :=
  ∀ s ∈ f.stores v, window m s.1 s.2.length = s.2

section Packed

variable {m : ℕ → UInt8} {d : Descr} {off size : ℕ}

theorem Descr.Packed.le (h : d.Packed off size) : off ≤ size := by
  induction d generalizing off with
  | nil => exact le_of_eq h
  | elem len data sub rest _ ih =>
      obtain ⟨-, -, -, -, hrest⟩ := h
      have hle := ih hrest
      omega

theorem Descr.Packed.wire (h : d.Packed off size) (base : ℕ) :
    d.wire m base = window m (base + off) (size - off) := by
  induction d generalizing off with
  | nil =>
      cases h
      rw [Nat.sub_self]
      rfl
  | elem len data sub rest _ ih =>
      obtain ⟨rfl, hbasic, harray, rfl, hrest⟩ := h
      have hle := hrest.le
      have hsplit : size - data.offset =
          data.elemSize + (size - (data.offset + data.elemSize)) := by omega
      rw [Descr.wire, lenBytes, List.nil_append, dataBytes_basic hbasic, valueCount, if_pos harray,
        Nat.one_mul, ih hrest,
        hsplit, window_add, Nat.add_assoc]

theorem Descr.Packed.fits (h : d.Packed off size) (base : ℕ) : d.Fits m base := by
  induction d generalizing off with
  | nil => trivial
  | elem len data sub rest _ ih =>
      obtain ⟨rfl, hbasic, -, -, hrest⟩ := h
      exact ⟨fun l hl => (by cases hl), dataFits_basic hbasic _ _ _, ih hrest⟩

theorem Descr.Packed.wireSize (h : d.Packed off size) : d.toTable.wireSize = size - off := by
  induction d generalizing off with
  | nil =>
      cases h
      rw [Nat.sub_self]
      rfl
  | elem len data sub rest _ ih =>
      obtain ⟨rfl, -, -, -, hrest⟩ := h
      have hle := hrest.le
      rw [Descr.toTable, consLen, Table.wireSize, ih hrest]
      omega

theorem flatMap_window (n size src : ℕ) :
    ((List.range n).flatMap fun i => window m (src + i * size) size) = window m src (n * size) := by
  induction n with
  | zero => simp [window]
  | succ n ih =>
      rw [List.range_succ, List.flatMap_append, ih, List.flatMap_singleton,
        Nat.succ_mul, window_add]

end Packed

section Values

variable {f : Field} {v : List UInt8} {m inp : ℕ → UInt8}

theorem Field.IsPacked.dataBytes (hf : f.IsPacked) (n : ℕ) :
    dataBytes m false (f.sub.wire m) f.data n f.data.offset = window m f.data.offset
      (n * f.data.elemSize) := by
  rcases hf.data with hbasic | ⟨hstruct, hpacked⟩
  · exact dataBytes_basic hbasic _ _ _ _
  · simp only [Qmi.dataBytes, hstruct, hpacked.wire, Nat.add_zero, Nat.sub_zero]
    exact flatMap_window n _ _

theorem Field.IsPacked.dataFits (hf : f.IsPacked) (n src : ℕ) :
    dataFits m (f.sub.Fits m) f.data n src := by
  rcases hf.data with hbasic | ⟨hstruct, hpacked⟩
  · exact dataFits_basic hbasic _ _ _
  · simp only [Qmi.dataFits, hstruct]
    exact fun i _ => hpacked.fits _

/-- A value of the length of the element. -/
def Field.Takes (f : Field) (v : List UInt8) : Prop :=
  if f.data.dataType = .string then v.length < f.data.elemLen
  else (f.len.isSome → v ≠ []) ∧ (f.splitValue v).2.length = (f.splitValue v).1 * f.data.elemSize

theorem Field.IsPacked.not_string (hf : f.IsPacked) : f.data.dataType ≠ .string := by
  rcases hf.data with hbasic | ⟨hstruct, -⟩
  · exact (ElemType.ne_of_isBasic hbasic).2.2.2
  · rw [hstruct]
    decide

theorem Field.IsPacked.exact_data (hf : f.IsPacked) {rest : Table} {n : ℕ}
    (h : Exact (.cons f.data f.sub.toTable rest) n v) : v.length = n * f.data.elemSize := by
  unfold Exact at h
  rcases hf.data with hbasic | ⟨hstruct, hpacked⟩
  · cases htype : f.data.dataType with
    | optFlag => simp [htype, ElemType.isBasic] at hbasic
    | dataLen => simp [htype, ElemType.isBasic] at hbasic
    | struct => simp [htype, ElemType.isBasic] at hbasic
    | string => simp [htype, ElemType.isBasic] at hbasic
    | _ =>
        rw [htype] at h
        exact h
  · rw [hstruct] at h
    rw [hpacked.wireSize, Nat.sub_zero] at h
    exact h

theorem exact_flag {g : ElemInfo} (hg : g.dataType = .optFlag) {sub rest : Table} {n : ℕ}
    (h : Exact (.cons g sub rest) n v) : Exact rest n v := by
  unfold Exact at h
  rw [hg] at h
  exact h

theorem exact_len {l : ElemInfo} (hl : l.dataType = .dataLen) {sub rest : Table} {n : ℕ}
    (h : Exact (.cons l sub rest) n v) : v ≠ [] ∧ Exact rest (v.headD 0).toNat v.tail := by
  unfold Exact at h
  rw [hl] at h
  cases v with
  | nil => exact h.elim
  | cons k v => exact ⟨by simp, h⟩

theorem takes_of_exact (hf : f.IsText ∨ f.IsPacked) {rest : Table}
    (h : Exact (f.consTable rest) 1 v) : f.Takes v := by
  rcases hf with hf | hf
  · rw [Field.consTable, hf.flag, hf.len] at h
    simp only [consLen, Exact, hf.string] at h
    rw [Field.Takes, if_pos hf.string]
    exact h
  · rw [Field.Takes, if_neg hf.not_string]
    have hdata : Exact (consLen f.len (.cons f.data f.sub.toTable rest)) 1 v := by
      rw [Field.consTable] at h
      cases hflag : f.flag with
      | none =>
          rw [hflag] at h
          exact h
      | some g =>
          rw [hflag] at h
          exact exact_flag (hf.wf.flag_type g hflag).1 h
    cases hlen : f.len with
    | none =>
        rw [hlen] at hdata
        rw [f.splitValue_none hlen]
        exact ⟨fun hsome => (by cases hsome), hf.exact_data hdata⟩
    | some l =>
        have hl := hf.wf.len_wf
        rw [hlen] at hdata hl
        obtain ⟨hne, hdata⟩ := exact_len hl.1 hdata
        rw [f.splitValue_some hlen]
        exact ⟨fun _ => hne, hf.exact_data hdata⟩

theorem stores_within (hf : f.IsText ∨ f.IsPacked) (hv : f.Takes v) :
    List.Forall₂ (fun s r => s.1 = r.1 ∧ s.2.length ≤ r.2) (f.stores v) f.extents := by
  have hdata : ((f.splitValue v).2 ++ if f.data.dataType = ElemType.string then [0]
    else []).length ≤
      f.data.elemLen * f.data.elemSize := by
    rcases hf with hf | hf
    · rw [Field.Takes, if_pos hf.string] at hv
      rw [if_pos hf.string, f.splitValue_none hf.len, hf.char, List.length_append,
        List.length_singleton]
      dsimp only
      omega
    · rw [Field.Takes, if_neg hf.not_string] at hv
      rw [if_neg hf.not_string, List.append_nil, hv.2]
      refine Nat.mul_le_mul_right _ ?_
      cases hlen : f.len with
      | none =>
          rw [f.splitValue_none hlen]
          exact (hf.single hlen).2.ge
      | some l =>
          have hlt := (v.headD 0).toNat_lt
          rw [f.splitValue_some hlen, hf.room l hlen]
          exact Nat.le_of_lt_succ hlt
  refine List.rel_append (List.rel_append ?_ ?_) ?_
  · cases f.flag with
    | none => exact .nil
    | some g => exact .cons ⟨rfl, le_rfl⟩ .nil
  · cases f.len with
    | none => exact .nil
    | some l => exact .cons ⟨rfl, (toLE_length _ _).le⟩ .nil
  · exact .cons ⟨rfl, hdata⟩ .nil

/-- A structure that holds the value of an element has it on the wire. -/
theorem Field.IsPacked.payload (hf : f.IsPacked) (hv : f.Takes v) (hm : f.Holds m v) :
    f.payload m = v ∧ f.Fits m ∧ f.Present m := by
  rw [Field.Takes, if_neg hf.not_string] at hv
  have hflag : ∀ g ∈ f.flag, m g.offset = 1 := by
    intro g hg
    have hone := hm (g.offset, [1]) (by simp [Field.stores, Option.mem_def.mp hg])
    exact (List.cons.inj hone).1
  have hdata : window m f.data.offset (f.splitValue v).2.length = (f.splitValue v).2 := by
    have hstored := hm (f.data.offset, (f.splitValue v).2 ++ [])
      (by simp [Field.stores, hf.not_string])
    rwa [List.append_nil] at hstored
  have hlenField : ∀ l ∈ f.len, window m l.offset 4 = toLE 4 (f.splitValue v).1 := by
    intro l hl
    have hstored := hm (l.offset, toLE 4 (f.splitValue v).1)
      (by simp [Field.stores, Option.mem_def.mp hl])
    rwa [toLE_length] at hstored
  have hpresent : f.Present m := by
    intro g hg
    rw [hflag g hg]
    decide
  have hcount : valueCount m 0 f.len f.data = (f.splitValue v).1 ∧
      lenFits m 0 f.len f.data ∧ lenBytes m 0 f.len ++ (f.splitValue v).2 = v := by
    cases hlen : f.len with
    | none =>
        rw [f.splitValue_none hlen]
        exact ⟨if_pos (hf.single hlen).1, fun l hl => (by cases hl), rfl⟩
    | some l =>
        have hwindow := hlenField l hlen
        rw [f.splitValue_some hlen] at hwindow ⊢
        have hlt := (v.headD 0).toNat_lt
        have hofLE : ofLE (window m (0 + l.offset) 4) = (v.headD 0).toNat := by
          rw [Nat.zero_add, hwindow, ofLE_toLE (by omega)]
        refine ⟨hofLE, ?_, ?_⟩
        · intro l' hl'
          cases hl'
          rw [hofLE, hf.room l hlen]
          omega
        · cases v with
          | nil => exact absurd rfl (hv.1 (by simp [hlen]))
          | cons k v =>
              have hhead : m l.offset = k := (List.cons.inj hwindow).1.trans UInt8.ofNat_toNat
              rw [lenBytes, Nat.zero_add, hhead]
              rfl
  obtain ⟨hn, hlenFits, hsplit⟩ := hcount
  refine ⟨?_, ⟨fun g hg => Or.inr (hflag g hg), fun _ => hlenFits, fun _ => hf.dataFits _ _⟩,
    hpresent⟩
  rw [Field.payload, hn, hf.dataBytes, ← hv.2, hdata, hsplit]

theorem Field.IsText.decode (hf : f.IsText) (hv : f.Takes v) (hm : f.Holds m v) (rest : Table)
    {start inLen decoded dataLen : ℕ}
    (hdl : dataLen < 256) (hread : window inp (start + decoded) v.length = v) :
    Copies (qmiDecodeElems (f.consTable rest) 1 0 start inLen .first v.length decoded dataLen) inp m
      (decoded + v.length, dataLen) [(f.data.offset, v.length + 1)] := by
  rw [Field.Takes, if_pos hf.string] at hv
  have hroom := hf.room
  have hstored : window m f.data.offset (v ++ [0]).length = v ++ [0] :=
    hm (f.data.offset, v ++ [0])
      (by simp [Field.stores, hf.string, hf.flag, hf.len, f.splitValue_none hf.len])
  obtain ⟨hchars, hnul⟩ := window_eq_append hstored
  have hcount : decodeCount f.data dataLen = pure dataLen := by
    rw [decodeCount, hf.array]
    exact if_neg (by omega)
  have hstring : Copies (qmiDecodeStringElem 1 f.data f.data.offset (start + decoded) v.length)
    inp m v.length
      [(f.data.offset, v.length + 1)] := by
    refine Copies.congr ?_ fun out => copied_adjacent m out f.data.offset v.length 1
    unfold qmiDecodeStringElem
    refine Copies.readN_bind (rfl : window inp (start + decoded) 0 = []) ?_
    simp only [if_true, hf.char, Nat.mul_one, Nat.add_zero, Nat.zero_add]
    rw [if_neg (by omega), if_neg (by omega)]
    refine Copies.readN_bind hread ?_
    exact Copies.storeAll_bind hchars.symm (Copies.storeAll_bind hnul.symm (Copies.pure _ _ _))
  rw [Field.consTable, hf.flag, hf.len, consLen,
    decodeElems_data (by simp [hf.string]) (by simp [hf.string]) (by omega),
    hcount, Prog.pure_bind, decodeValue, hf.string, Nat.zero_add]
  exact hstring.map fun rc => (decoded + rc, dataLen)

/-- The blocks of the structure that the value of an element is stored to. -/
def Field.stored (f : Field) (m : ℕ → UInt8) (v : List UInt8) : List (ℕ × ℕ) :=
  if f.data.dataType = .string then [(f.data.offset, v.length + 1)] else f.blocks m

/-- **A value is decoded** to what it stores, wherever it stands and whatever was decoded before. -/
theorem decode_value (hf : f.IsText ∨ f.IsPacked) (hv : f.Takes v) (hm : f.Holds m v)
    (hsize : v.length < 65536)
    (rest : Table) (start inLen decoded : ℕ) {dataLen : ℕ} (hdl : dataLen < 256)
    (hread : window inp (start + decoded) v.length = v) :
    ∃ dataLen' < 256, Copies (qmiDecodeElems (f.consTable rest) 1 0 start inLen .first v.length
      decoded dataLen) inp m
      (decoded + v.length, dataLen') (f.stored m v) := by
  rw [Field.stored]
  rcases hf with hf | hf
  · rw [if_pos hf.string]
    exact ⟨dataLen, hdl, hf.decode hv hm rest hdl hread⟩
  · rw [if_neg hf.not_string]
    obtain ⟨hpayload, hfits, hpresent⟩ := hf.payload hv hm
    have hdecode := @decode_field m inp f rest hf.wf hfits hpresent start inLen decoded dataLen hdl
    rw [hpayload] at hdecode
    exact hdecode (Nat.le_of_lt_succ hsize) hread

end Values

/-! ### Messages -/

section Messages

variable {fs : List Field} {f : Field} {x : Tlv} {xs ys : List Tlv}

/-- The element of a TLV. -/
def elementOf (fs : List Field) (x : Tlv) : Option Field :=
  fs.find? fun f => f.data.tlvType = x.type

theorem RequestWf.tagged (hfs : RequestWf fs) : ∀ f ∈ fs, f.Tagged := by
  intro f hf
  rcases hfs.fields f hf with htext | hpacked
  · exact ⟨fun g hg => (by rw [htext.flag] at hg; cases hg),
      fun l hl => (by rw [htext.len] at hl; cases hl)⟩
  · exact hpacked.wf.tagged

theorem findEi_of_some (hfs : RequestWf fs) (h : elementOf fs x = some f) :
    f ∈ fs ∧ ∃ rest, findEi (toTable fs) x.type = f.consTable rest := by
  have hmem : f ∈ fs := List.mem_of_find?_eq_some h
  have htype : f.data.tlvType = x.type := by simpa using List.find?_some h
  rw [← htype]
  exact ⟨hmem, findEi_toTable hfs.tagged hfs.distinct hmem⟩

theorem findEi_of_none (hfs : RequestWf fs) (h : elementOf fs x = none) :
    findEi (toTable fs) x.type = .nil := by
  have htag := hfs.tagged
  have hne : ∀ f ∈ fs, f.data.tlvType ≠ x.type := by
    intro f hf
    simpa using List.find?_eq_none.mp h f hf
  clear h hfs
  induction fs with
  | nil => rfl
  | cons f fs ih =>
      have htable : toTable (f :: fs) = f.consTable (toTable fs) := rfl
      rw [htable, findEi_consTable_ne (htag f (by simp)) (hne f (by simp))]
      exact ih (fun g hg => htag g (by simp [hg])) fun g hg => hne g (by simp [hg])

theorem known_iff (hfs : RequestWf fs) :
    x.known (toTable fs) = true ↔ ∃ f, elementOf fs x = some f := by
  rw [Tlv.known, decide_eq_true_iff]
  cases h : elementOf fs x with
  | none => simp [findEi_of_none hfs h]
  | some f =>
      obtain ⟨-, rest, hfind⟩ := findEi_of_some hfs h
      obtain ⟨e, sub, rest', hcons⟩ := consTable_eq_cons f rest
      simp [hfind, hcons]

/-- A TLV of the table has a value of the length of its element. -/
theorem Tlv.Wf.takes (hx : x.Wf (toTable fs)) (hfs : RequestWf fs) (h : elementOf fs x = some f) :
    (f.IsText ∨ f.IsPacked) ∧ f.Takes x.value := by
  obtain ⟨hmem, rest, hfind⟩ := findEi_of_some hfs h
  have hexact := hx.exact ((known_iff hfs).mpr ⟨f, h⟩)
  rw [hfind] at hexact
  exact ⟨hfs.fields f hmem, takes_of_exact (hfs.fields f hmem) hexact⟩

/-- What the TLVs store. -/
def tlvStores (fs : List Field) (x : Tlv) : List (ℕ × List UInt8) :=
  (elementOf fs x).elim [] fun f => f.stores x.value

/-- The blocks that a TLV is stored to. -/
def tlvBlocks (fs : List Field) (m : ℕ → UInt8) (x : Tlv) : List (ℕ × ℕ) :=
  (elementOf fs x).elim [] fun f => f.stored m x.value

theorem apart_of_within {ss : List (ℕ × List UInt8)} {rs : List (ℕ × ℕ)}
    (h : List.Forall₂ (fun s r => s.1 = r.1 ∧ s.2.length ≤ r.2) ss rs) :
    (∀ s ∈ ss, ∃ r ∈ rs, s.1 = r.1 ∧ s.2.length ≤ r.2) ∧
      (rs.Pairwise (fun r r' => r.1 + r.2 ≤ r'.1 ∨ r'.1 + r'.2 ≤ r.1) →
        ss.Pairwise fun s t => s.1 + s.2.length ≤ t.1 ∨ t.1 + t.2.length ≤ s.1) := by
  induction h with
  | nil => exact ⟨fun s hs => (by cases hs), fun _ => List.Pairwise.nil⟩
  | @cons s r ss rs hsr _ ih =>
      obtain ⟨hmem, hpair⟩ := ih
      constructor
      · intro s' hs'
        rcases List.mem_cons.mp hs' with rfl | hs'
        · exact ⟨r, List.mem_cons_self, hsr⟩
        · obtain ⟨r', hr', hs'⟩ := hmem s' hs'
          exact ⟨r', List.mem_cons_of_mem _ hr', hs'⟩
      · intro hrs
        obtain ⟨hhead, htail⟩ := List.pairwise_cons.mp hrs
        refine List.pairwise_cons.mpr ⟨fun t ht => ?_, hpair htail⟩
        obtain ⟨r', hr', htr'⟩ := hmem t ht
        have hapart := hhead r' hr'
        omega

/-- Different elements store to blocks that are apart. -/
theorem stores_apart (hfs : RequestWf fs) (hxs : ∀ x ∈ xs, x.Wf (toTable fs))
    (hdist : ((xs.filter fun x => x.known (toTable fs)).map Tlv.type).Nodup) :
    (xs.flatMap (tlvStores fs)).Pairwise fun s t => s.1 + s.2.length ≤ t.1 ∨
    t.1 + t.2.length ≤ s.1 := by
  obtain ⟨hwithin, hacross⟩ := List.pairwise_flatMap.mp hfs.apart
  rw [List.Nodup, List.pairwise_map, List.pairwise_filter] at hdist
  have hstores : ∀ x ∈ xs, ∀ f, elementOf fs x = some f →
      List.Forall₂ (fun s r => s.1 = r.1 ∧ s.2.length ≤ r.2) (f.stores x.value) f.extents := by
    intro x hx f hf
    obtain ⟨hkind, hv⟩ := (hxs x hx).takes hfs hf
    exact stores_within hkind hv
  refine List.pairwise_flatMap.mpr ⟨fun x hx => ?_, ?_⟩
  · rw [tlvStores]
    cases hf : elementOf fs x with
    | none => exact List.Pairwise.nil
    | some f => exact (apart_of_within (hstores x hx f hf)).2 (hwithin f (findEi_of_some hfs hf).1)
  · refine List.Pairwise.imp_of_mem ?_ hdist
    intro x y hx hy hne s hs t ht
    rw [tlvStores] at hs ht
    cases hf : elementOf fs x with
    | none =>
        rw [hf] at hs
        cases hs
    | some f =>
        cases hg : elementOf fs y with
        | none =>
            rw [hg] at ht
            cases ht
        | some g =>
            rw [hf] at hs
            rw [hg] at ht
            have htypes : f ≠ g := by
              rintro rfl
              have hx' : f.data.tlvType = x.type := by simpa using List.find?_some hf
              have hy' : f.data.tlvType = y.type := by simpa using List.find?_some hg
              exact hne ((known_iff hfs).mpr ⟨f, hf⟩) ((known_iff hfs).mpr ⟨f, hg⟩)
                (hx'.symm.trans hy')
            have hsymm : Std.Symm fun f g : Field => ∀ r ∈ f.extents, ∀ r' ∈ g.extents,
                r.1 + r.2 ≤ r'.1 ∨ r'.1 + r'.2 ≤ r.1 :=
              ⟨fun f g h r hr r' hr' => (h r' hr' r hr).symm⟩
            obtain ⟨r, hr, hsr⟩ := (apart_of_within (hstores x hx f hf)).1 s hs
            obtain ⟨r', hr', htr'⟩ := (apart_of_within (hstores y hy g hg)).1 t ht
            have hapart :=
              hacross.forall (findEi_of_some hfs hf).1 (findEi_of_some hfs hg).1 htypes r hr r' hr'
            omega

theorem exists_holds (hfs : RequestWf fs) (hxs : ∀ x ∈ xs, x.Wf (toTable fs))
    (hdist : ((xs.filter fun x => x.known (toTable fs)).map Tlv.type).Nodup) :
    ∃ m : ℕ → UInt8, ∀ x ∈ xs, ∀ f, elementOf fs x = some f → f.Holds m x.value := by
  refine ⟨_, fun x hx f hf s hs =>
    window_foldr_overlay (fun _ => 0) (stores_apart hfs hxs hdist) s ?_⟩
  refine List.mem_flatMap.mpr ⟨x, hx, ?_⟩
  rw [tlvStores, hf]
  exact hs

theorem Tlv.Wf.decodes {m inp : ℕ → UInt8} (hx : x.Wf (toTable fs)) (hfs : RequestWf fs)
    (hm : ∀ f, elementOf fs x = some f → f.Holds m x.value) :
    x.Decodes (toTable fs) m inp (tlvBlocks fs m x) := by
  rw [tlvBlocks]
  cases h : elementOf fs x with
  | none =>
      refine Or.inl ⟨findEi_of_none hfs h, hx.optional ?_, rfl⟩
      rw [Bool.eq_false_iff, ne_eq, known_iff hfs, h]
      simp
  | some f =>
      obtain ⟨hf, hv⟩ := hx.takes hfs h
      obtain ⟨-, rest, hfind⟩ := findEi_of_some hfs h
      obtain ⟨e, sub, rest', hcons⟩ := consTable_eq_cons f rest
      refine Or.inr ⟨e, sub, rest', hfind.trans hcons,
        fun start inLen decoded dataLen hdl hread => ?_⟩
      rw [← hcons]
      exact decode_value hf hv (hm f h) hx.size rest start inLen decoded hdl hread

/-- The packet with the TLVs of a message. -/
def tlvPacket (type : UInt8) (txnId msgId : ℕ) (xs : List Tlv) : List UInt8 :=
  qmiHeader type txnId msgId (tlvBytes xs).length ++ tlvBytes xs

/-- A packet is decoded to the blocks of its TLVs. -/
theorem decode_packet {m inp : ℕ → UInt8} (hfs : RequestWf fs) (hxs : ∀ x ∈ xs, x.Wf (toTable fs))
    (hm : ∀ x ∈ xs, ∀ f, elementOf fs x = some f → f.Holds m x.value) {type : UInt8}
    {txnId msgId : ℕ}
    (hsize : (tlvPacket type txnId msgId xs).length < 2 ^ 32)
    (hinp : window inp 0 (tlvPacket type txnId msgId xs).length = tlvPacket type txnId msgId xs) :
    Copies (qmiDecodeMessage (tlvPacket type txnId msgId xs).length type.toNat (msgId % 65536)
      (toTable fs)) inp m
      ((tlvBytes xs).length, txnId % 65536) (xs.flatMap (tlvBlocks fs m)) := by
  obtain ⟨htype, htxn, hid, -, hbody⟩ := window_packet hinp
  have hlen : (tlvPacket type txnId msgId xs).length = 7 + (tlvBytes xs).length := by
    simp only [tlvPacket, qmiHeader, List.length_append, List.length_cons, toLE_length]
  rw [hlen] at hsize ⊢
  have hinLen : sub32 (7 + (tlvBytes xs).length) 7 = (tlvBytes xs).length := by
    rw [sub32_of_le hsize (by omega), Nat.add_sub_cancel_left]
  have htlvs : Copies (qmiDecodeTlvs (toTable fs) 0 7 (tlvBytes xs).length (tlvBytes xs).length 0 0)
    inp m
      (tlvBytes xs).length (xs.flatMap (tlvBlocks fs m)) := by
    have hdecode := @decode_tlvs m inp Tlv (toTable fs) 7 (tlvBytes xs).length id
      (tlvBlocks fs m) xs
      (fun x hx => ⟨(hxs x hx).size, (hxs x hx).decodes hfs (hm x hx)⟩)
    rw [List.map_id] at hdecode
    exact hdecode _ 0 0 (by norm_num) le_rfl (Nat.zero_add _) hbody
  have htxnId : ofLE (window inp 1 2) = txnId % 65536 := htxn ▸ ofLE_toLE_mod 2 txnId
  rw [← htxnId]
  apply decodeMessage_copies
  · omega
  · rw [htype]
    simp [ofLE]
  · exact hid ▸ ofLE_toLE_mod 2 msgId
  · rw [hinLen]
    exact htlvs

/-- A packet with another type or id is refused before its TLVs. -/
theorem decode_packet_refused {inp : ℕ → UInt8} (t : Table) {type : UInt8}
    {txnId msgId wantType wantId : ℕ}
    (hinp : window inp 0 (tlvPacket type txnId msgId xs).length = tlvPacket type txnId msgId xs)
    (h : ¬ (wantType = type.toNat ∧ wantId = msgId % 65536)) :
    (qmiDecodeMessage (tlvPacket type txnId msgId xs).length wantType wantId t).result inp =
      .error .einval ∧
      ∀ out, (qmiDecodeMessage (tlvPacket type txnId msgId xs).length wantType wantId t).memory inp
        out = out := by
  obtain ⟨htype, -, hid, -, -⟩ := window_packet hinp
  have htypeNat : ofLE (window inp 0 1) = type.toNat := by
    rw [htype]
    simp [ofLE]
  have hidNat : ofLE (window inp 3 2) = msgId % 65536 := hid ▸ ofLE_toLE_mod 2 msgId
  apply decodeMessage_refused
  by_cases htypes : type.toNat = wantType
  · exact Or.inr (Or.inr fun hids => h ⟨htypes.symm, hids.symm.trans hidNat⟩)
  · exact Or.inr (Or.inl fun htypes' => htypes (htypeNat.symm.trans htypes'))

theorem mem_flatMap_tlvBlocks (hfs : RequestWf fs) (m : ℕ → UInt8) (r : ℕ × ℕ) :
    r ∈ xs.flatMap (tlvBlocks fs m) ↔
    r ∈ (xs.filter fun x => x.known (toTable fs)).flatMap (tlvBlocks fs m) := by
  have hknown : ∀ x, r ∈ tlvBlocks fs m x → x.known (toTable fs) = true := by
    intro x hr
    rw [tlvBlocks] at hr
    cases h : elementOf fs x with
    | none =>
        rw [h] at hr
        cases hr
    | some f => exact (known_iff hfs).mpr ⟨f, h⟩
  simp only [List.mem_flatMap, List.mem_filter]
  constructor
  · rintro ⟨x, hx, hr⟩
    exact ⟨x, ⟨hx, hknown x hr⟩, hr⟩
  · rintro ⟨x, ⟨hx, -⟩, hr⟩
    exact ⟨x, hx, hr⟩

end Messages

/-- **The order of the TLVs of a request does not matter, and neither do unknown optional ones**: if
the TLVs that are in the table are the same up to their order, and no two of them have the same
type, then two messages are decoded with the same success to the same structure. -/
theorem decode_order (t : Table) (ht : t ∈ requestTables) (xs ys : List Tlv)
    (hxs : ∀ x ∈ xs, x.Wf t)
    (hys : ∀ y ∈ ys, y.Wf t) (hdist : ((xs.filter fun x => x.known t).map Tlv.type).Nodup)
    (hperm : (xs.filter fun x => x.known t).Perm (ys.filter fun y => y.known t)) (type : UInt8)
    (txnId msgId wantType wantId : ℕ) (hx : (tlvPacket type txnId msgId xs).length < 2 ^ 32)
    (hy : (tlvPacket type txnId msgId ys).length < 2 ^ 32) (buf buf' out : ℕ → UInt8) :
    ((qmiDecodeMessage (tlvPacket type txnId msgId xs).length wantType wantId t).result
        (overlay buf 0 (tlvPacket type txnId msgId xs))).map Prod.snd =
      ((qmiDecodeMessage (tlvPacket type txnId msgId ys).length wantType wantId t).result
        (overlay buf' 0 (tlvPacket type txnId msgId ys))).map Prod.snd ∧
    (qmiDecodeMessage (tlvPacket type txnId msgId xs).length wantType wantId t).memory
        (overlay buf 0 (tlvPacket type txnId msgId xs)) out =
      (qmiDecodeMessage (tlvPacket type txnId msgId ys).length wantType wantId t).memory
        (overlay buf' 0 (tlvPacket type txnId msgId ys)) out := by
  obtain ⟨fs, hfs, rfl⟩ := exists_requestWf ht
  have hinp := window_overlay buf 0 (tlvPacket type txnId msgId xs)
  have hinp' := window_overlay buf' 0 (tlvPacket type txnId msgId ys)
  by_cases hwant : wantType = type.toNat ∧ wantId = msgId % 65536
  · obtain ⟨rfl, rfl⟩ := hwant
    obtain ⟨m, hm⟩ := exists_holds hfs hxs hdist
    have hm' : ∀ y ∈ ys, ∀ f, elementOf fs y = some f → f.Holds m y.value := by
      intro y hy' f hf
      have hmem := hperm.mem_iff.mpr (List.mem_filter.mpr ⟨hy', (known_iff hfs).mpr ⟨f, hf⟩⟩)
      exact hm y (List.mem_of_mem_filter hmem) f hf
    have hcopies := decode_packet hfs hxs hm hx hinp
    have hcopies' := decode_packet hfs hys hm' hy hinp'
    rw [hcopies.1, hcopies'.1, hcopies.2, hcopies'.2]
    refine ⟨rfl, copied_congr (fun r => ?_) m out⟩
    calc r ∈ xs.flatMap (tlvBlocks fs m)
        ↔ r ∈ (xs.filter fun x => x.known (toTable fs)).flatMap (tlvBlocks fs m) :=
          mem_flatMap_tlvBlocks hfs m r
      _ ↔ r ∈ (ys.filter fun y => y.known (toTable fs)).flatMap (tlvBlocks fs m) :=
          (hperm.flatMap_right _).mem_iff
      _ ↔ r ∈ ys.flatMap (tlvBlocks fs m) := (mem_flatMap_tlvBlocks hfs m r).symm
  · obtain ⟨hres, hmem⟩ := decode_packet_refused (toTable fs) hinp hwant
    obtain ⟨hres', hmem'⟩ := decode_packet_refused (toTable fs) hinp' hwant
    rw [hres, hres', hmem, hmem']
    exact ⟨rfl, rfl⟩

/-- The name and the offset of a GET_DOMAIN_LIST request. -/
def sampleRequest : List Tlv := [⟨1, [97]⟩, ⟨16, [5, 0, 0, 0]⟩]

/-- The other way round, behind an unknown TLV. -/
def sampleReordered : List Tlv := [⟨32, [9]⟩, ⟨16, [5, 0, 0, 0]⟩, ⟨1, [97]⟩]

theorem decode_order_sample :
    (qmiDecodeMessage (tlvPacket 0 7 33 sampleRequest).length 0 33
      servregLocGetDomainListReqEi).memory
        (overlay (fun _ => 0) 0 (tlvPacket 0 7 33 sampleRequest)) (fun _ => 0) =
      (qmiDecodeMessage (tlvPacket 0 7 33 sampleReordered).length 0 33
        servregLocGetDomainListReqEi).memory
        (overlay (fun _ => 0) 0 (tlvPacket 0 7 33 sampleReordered)) (fun _ => 0) := by
  have hname : (⟨1, [97]⟩ : Tlv).Wf servregLocGetDomainListReqEi :=
    ⟨by decide, fun _ => (by decide : 1 < 256), fun h => absurd h (by decide)⟩
  have hoffset : (⟨16, [5, 0, 0, 0]⟩ : Tlv).Wf servregLocGetDomainListReqEi :=
    ⟨by decide, fun _ => (rfl : 4 = 1 * 4), fun h => absurd h (by decide)⟩
  have hunknown : (⟨32, [9]⟩ : Tlv).Wf servregLocGetDomainListReqEi :=
    ⟨by decide, fun h => absurd h (by decide), fun _ => by decide⟩
  refine (decode_order servregLocGetDomainListReqEi (by simp [requestTables]) sampleRequest
    sampleReordered ?_ ?_
    (by decide) (by decide) 0 7 33 0 33 (by decide) (by decide) _ _ _).2
  · intro x hx
    simp only [sampleRequest, List.mem_cons, List.not_mem_nil, or_false] at hx
    rcases hx with rfl | rfl
    · exact hname
    · exact hoffset
  · intro y hy
    simp only [sampleReordered, List.mem_cons, List.not_mem_nil, or_false] at hy
    rcases hy with rfl | rfl | rfl
    · exact hunknown
    · exact hoffset
    · exact hname

end Imola.Qmi
