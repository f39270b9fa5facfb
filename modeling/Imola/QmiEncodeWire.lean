import Imola.QmiWire

/-! # What the encoder writes

An encoder that succeeds has written the wire form of its structure, whatever the space checks
on the way (`encode_message_writes`).  The proof is an induction over the descriptions of
`QmiWire.lean`, from the nested tables up to the message; only the message has headers, each
written behind the bytes it counts and in front of them. -/

namespace Imola.Qmi

open Imola.Bytes Imola.Splice Imola.Progs

/-! ### The encoder, entry by entry -/

section Equations

variable {m : ℕ → UInt8} {level : ℕ} {e : ElemInfo} {eiArray rest : Table}
  {base start outLen encoded dataLen tlvLen : ℕ}

theorem qmiEncode_nil :
    qmiEncode m level .nil base start outLen encoded dataLen tlvLen = pure encoded := by
  rw [qmiEncode]

theorem qmiEncode_flag (h : e.dataType = .optFlag) (ha : e.arrayType = .noArray) :
    qmiEncode m level (.cons e eiArray rest) base start outLen encoded dataLen tlvLen =
      if m (base + e.offset) ≠ 0 then qmiEncode m level rest base start outLen encoded 1 tlvLen
      else qmiEncode m level (skipToNextElem level (.cons e eiArray rest)) base start
        outLen encoded 1
        tlvLen := by
  rw [qmiEncode]
  simp only [encodeCount, ha, h, Prog.pure_bind]

theorem qmiEncode_len (h : e.dataType = .dataLen) (ha : e.arrayType = .noArray)
    (hs : e.elemSize = 1) :
    qmiEncode m level (.cons e eiArray rest) base start outLen encoded dataLen tlvLen =
      if (1 + encoded) % 2 ^ 32 + 3 > outLen then .fail .einval
      else (do
        Prog.storeAll (start + encoded + (if level = 1 then 3 else 0)) [m (base + e.offset)]
        if (m (base + e.offset)).toNat = 0 then do
          let encoded ← encodeTlv level e.tlvType start (encoded + 1) (tlvLen + 1)
          qmiEncode m level (skipToNextElem level rest) base start outLen encoded 0 0
        else
          qmiEncode m level rest base start outLen (encoded + 1) (m (base + e.offset)).toNat
            (tlvLen + 1)) := by
  have hlow : setLow 1 (window m (base + e.offset) 1) = (m (base + e.offset)).toNat := by
    have hw : window m (base + e.offset) 1 = [m (base + e.offset)] := rfl
    rw [hw]
    simp [setLow, toLE, ofLE]
  have hbyte : toLE 1 (m (base + e.offset)).toNat = [m (base + e.offset)] := by simp [toLE]
  rw [qmiEncode]
  simp only [encodeCount, ha, h, Prog.pure_bind, ElemInfo.dataLenSz, hs, if_true, hlow, hbyte]
  by_cases hz : (m (base + e.offset)).toNat = 0
  · simp only [hz, if_true]
  · simp only [if_neg hz]

theorem qmiEncode_data (h : e.dataType ≠ .optFlag) (h' : e.dataType ≠ .dataLen) :
    qmiEncode m level (.cons e eiArray rest) base start outLen encoded dataLen tlvLen = (do
      let count ← encodeCount e dataLen
      let rc ← encodeValue m (fun src dst avail =>
        qmiEncode m (level + 1) eiArray src dst avail 0 0 0)
        level e outLen encoded count (start + encoded + (if level = 1 then 3 else 0))
          (base + e.offset)
      let encoded ← encodeTlv level e.tlvType start (encoded + rc) (tlvLen + rc)
      qmiEncode m level rest base start outLen encoded count 0) := by
  rw [qmiEncode]
  cases htype : e.dataType with
  | optFlag => exact absurd htype h
  | dataLen => exact absurd htype h'
  | _ => rfl

end Equations

/-! ### The encoder, element by element -/

theorem DataWf.ne_flag {e : ElemInfo} {sub : Prop} (h : DataWf e sub) : e.dataType ≠ .optFlag := by
  intro htype
  simp [DataWf, htype] at h

theorem DataWf.ne_len {e : ElemInfo} {sub : Prop} (h : DataWf e sub) : e.dataType ≠ .dataLen := by
  intro htype
  simp [DataWf, htype] at h

theorem DataWf.struct {e : ElemInfo} {sub : Prop} (h : DataWf e sub)
    (htype : e.dataType = .struct) :
    sub := by
  simpa [DataWf, htype] using h

theorem DataWf.of_var {e : ElemInfo} {sub : Prop} (h : DataWf e sub)
    (ha : e.arrayType = .varLenArray) :
    e.dataType ≠ .string := by
  intro htype
  simp [DataWf, htype, ha] at h

theorem LenWf.of_some {l data : ElemInfo} (h : LenWf (some l) data) :
    data.arrayType = .varLenArray := h.2.2.2.1

theorem dataFits_struct {m : ℕ → UInt8} {e : ElemInfo} {fitsSub : ℕ → Prop} {n src : ℕ}
    (h : dataFits m fitsSub e n src) (htype : e.dataType = .struct) :
    ∀ i < n, fitsSub (src + i * e.elemSize) := by
  simpa [dataFits, htype] using h

section Elements

variable {m : ℕ → UInt8} {level : ℕ} {data : ElemInfo} {sub : Prop} {t rest : Table}
  {base start outLen : ℕ}

/-- `n` values of an element, its header at level 1, and the entries behind it. -/
def encodeData (m : ℕ → UInt8) (level : ℕ) (data : ElemInfo) (t rest : Table)
    (base start outLen n encoded tlvLen : ℕ) :
    Prog Errno ℕ := do
  let rc ← encodeValue m (fun src dst avail => qmiEncode m (level + 1) t src dst avail 0 0 0)
    level data outLen encoded n (start + encoded + (if level = 1 then 3 else 0))
      (base + data.offset)
  let encoded ← encodeTlv level data.tlvType start (encoded + rc) (tlvLen + rc)
  qmiEncode m level rest base start outLen encoded n 0

theorem qmiEncode_fixed (hlen : LenWf none data) (hdata : DataWf data sub)
    (encoded dataLen tlvLen : ℕ) :
    qmiEncode m level (consLen none (.cons data t rest)) base start outLen encoded dataLen tlvLen =
      encodeData m level data t rest base start outLen (valueCount m base none data) encoded
        tlvLen := by
  have hcount : encodeCount data dataLen = pure (valueCount m base none data) := by
    unfold encodeCount valueCount
    rcases hlen with h | ⟨h, -⟩
    · simp [h]
    · simp [h]
  rw [consLen, qmiEncode_data hdata.ne_flag hdata.ne_len, hcount, Prog.pure_bind, encodeData]

theorem qmiEncode_counted {l : ElemInfo} (hlen : LenWf (some l) data) (hdata : DataWf data sub)
    (hfit : lenFits m base (some l) data) (hskip : skipToNextElem level (.cons data t rest) = rest)
    (encoded dataLen tlvLen : ℕ) :
    qmiEncode m level (consLen (some l) (.cons data t rest)) base start outLen encoded
      dataLen tlvLen =
      if (1 + encoded) % 2 ^ 32 + 3 > outLen then .fail .einval
      else Prog.storeAll (start + encoded + (if level = 1 then 3 else 0))
        [m (base + l.offset)] >>= fun _ =>
        if valueCount m base (some l) data = 0 then
          encodeTlv level l.tlvType start (encoded + 1) (tlvLen + 1) >>= fun encoded =>
            qmiEncode m level rest base start outLen encoded 0 0
        else encodeData m level data t rest base start outLen (valueCount m base (some l) data)
          (encoded + 1)
          (tlvLen + 1) := by
  obtain ⟨hltype, hlarr, hlsize, harr, -, hmax⟩ := hlen
  have hcount : valueCount m base (some l) data = (m (base + l.offset)).toNat :=
    (lenField_eq (hfit l rfl) hmax).1
  have hle : valueCount m base (some l) data ≤ data.elemLen := hfit l rfl
  rw [consLen, qmiEncode_len hltype hlarr hlsize, hskip, ← hcount]
  by_cases hz : valueCount m base (some l) data = 0
  · simp only [if_pos hz]
  · have hvar : encodeCount data (valueCount m base (some l) data) =
        pure (valueCount m base (some l) data) := by
      unfold encodeCount
      rw [harr]
      exact if_neg (by omega)
    simp only [if_neg hz]
    rw [qmiEncode_data hdata.ne_flag hdata.ne_len, hvar, Prog.pure_bind, encodeData]

theorem skipToNextElem_nested (hlevel : 2 ≤ level) (e : ElemInfo) (t rest : Table) :
    skipToNextElem level (.cons e t rest) = rest := by
  rw [skipToNextElem, if_pos (by omega)]

end Elements

section Fields

variable {m : ℕ → UInt8} {f : Field} {start outLen : ℕ}

theorem skipType_consTable (hf : f.Wf) {tlvType : UInt8} (hne : f.data.tlvType ≠ tlvType)
    (rest : Table) :
    (f.consTable rest).skipType tlvType = f.consTable rest := by
  have hflag := hf.flag_tlv
  have hlen := hf.len_tlv
  obtain ⟨flag, len, data, sub⟩ := f
  cases flag with
  | some g => rw [Field.consTable, Table.skipType, if_neg (by rw [hflag g rfl]; exact hne)]
  | none =>
      cases len with
      | some l =>
          rw [Field.consTable, consLen, Table.skipType, if_neg (by rw [hlen l rfl]; exact hne)]
      | none => rw [Field.consTable, consLen, Table.skipType, if_neg hne]

theorem skipType_toTable {fs : List Field} (hfs : ∀ f ∈ fs, f.Wf) {tlvType : UInt8}
    (hne : ∀ f ∈ fs, f.data.tlvType ≠ tlvType) : (toTable fs).skipType tlvType = toTable fs := by
  cases fs with
  | nil => rfl
  | cons f fs => exact skipType_consTable (hfs f (by simp)) (hne f (by simp)) _

theorem skipType_consLen (hf : f.Wf) (sub rest : Table) :
    (consLen f.len (.cons f.data sub rest)).skipType f.data.tlvType =
      rest.skipType f.data.tlvType := by
  cases hflen : f.len with
  | none => simp [consLen, Table.skipType]
  | some l => simp [consLen, Table.skipType, hf.len_tlv l hflen]

theorem MessageWf.tail {fs : List Field} (hfs : MessageWf (f :: fs)) : MessageWf fs :=
  ⟨fun g hg => hfs.fields g (by simp [hg]), (List.pairwise_cons.mp hfs.distinct).2⟩

/-- Behind the data entry of a message's first element come the others. -/
theorem skipToNextElem_data {fs : List Field} (hfs : MessageWf (f :: fs)) :
    skipToNextElem 1 (.cons f.data f.sub.toTable (toTable fs)) = toTable fs := by
  obtain ⟨hdist, -⟩ := List.pairwise_cons.mp hfs.distinct
  rw [skipToNextElem, if_neg (by norm_num)]
  exact skipType_toTable (fun g hg => hfs.fields g (by simp [hg])) fun g hg => (hdist g hg).symm

/-- The first element of a message: it is looked at behind its flag, or skipped. -/
theorem qmiEncode_field {fs : List Field} (hfs : MessageWf (f :: fs)) (encoded dataLen : ℕ) :
    ∃ dataLen', qmiEncode m 1 (toTable (f :: fs)) 0 start outLen encoded dataLen 0 =
      if f.Present m then
        qmiEncode m 1 (consLen f.len (.cons f.data f.sub.toTable (toTable fs))) 0 start outLen
          encoded dataLen' 0
      else qmiEncode m 1 (toTable fs) 0 start outLen encoded dataLen' 0 := by
  have hf := hfs.fields f (by simp)
  have htable : toTable (f :: fs) = f.consTable (toTable fs) := rfl
  rw [htable, Field.consTable]
  cases hflag : f.flag with
  | none =>
      have hpresent : f.Present m := fun g hg => by simp [hflag] at hg
      exact ⟨dataLen, (if_pos hpresent).symm⟩
  | some g =>
      obtain ⟨hgtype, hgarr⟩ := hf.flag_type g hflag
      have hpresent : f.Present m ↔ m g.offset ≠ 0 := by simp [Field.Present, hflag]
      have hnext : skipToNextElem 1
          (.cons g .nil (consLen f.len (.cons f.data f.sub.toTable (toTable fs)))) =
          toTable fs := by
        have hdata := skipToNextElem_data hfs
        rw [skipToNextElem, if_neg (by norm_num)] at hdata ⊢
        rw [hf.flag_tlv g hflag, skipType_consLen hf, hdata]
      refine ⟨1, ?_⟩
      rw [qmiEncode_flag hgtype hgarr, Nat.zero_add, hnext]
      simp only [hpresent]

end Fields

/-! ### What the encoder writes -/

section Encode

variable {m : ℕ → UInt8}

theorem encodeString_writes {e : ElemInfo} (hs : e.elemSize = 1) (level dst src avail : ℕ) :
    Writes (qmiEncodeStringElem m level e dst src avail) dst
      ((if level = 1 then [] else toLE e.stringLenSz (strlen m src (e.elemLen + 1))) ++
        window m src (strlen m src (e.elemLen + 1)))
      ((if level = 1 then 0 else e.stringLenSz) + strlen m src (e.elemLen + 1)) := by
  unfold qmiEncodeStringElem
  simp only [hs, Nat.mul_one, window_length]
  split_ifs with hlong hlevel hsmall hsmall
  · exact Writes.fail _ _ _ _
  · exact Writes.fail _ _ _ _
  · exact Writes.fail _ _ _ _
  · rw [List.nil_append, Nat.zero_add]
    exact Writes.storeAll_pure _ _ _
  · exact Writes.fail _ _ _ _
  · exact Writes.storeAll_pure _ _ _

theorem encodeStruct_writes {enc : ℕ → ℕ → ℕ → Prog Errno ℕ} {wireSub : ℕ → List UInt8}
    {elemSize : ℕ} (avail n : ℕ) : ∀ (dst src encoded : ℕ),
      (∀ i < n, ∀ dst avail, Writes (enc (src + i * elemSize) dst avail) dst
        (wireSub (src + i * elemSize))
        (wireSub (src + i * elemSize)).length) →
      Writes (qmiEncodeStructElem enc elemSize avail n dst src encoded) dst
        ((List.range n).flatMap fun i => wireSub (src + i * elemSize))
        (encoded + ((List.range n).flatMap fun i => wireSub (src + i * elemSize)).length) := by
  induction n with
  | zero =>
      intro dst src encoded _
      exact Writes.pure _ _
  | succ n ih =>
      intro dst src encoded henc
      have hfirst : ∀ avail, Writes (enc src dst avail) dst (wireSub src) (wireSub src).length := by
        intro avail
        simpa using henc 0 (by omega) dst avail
      have hshift : ∀ i, src + elemSize + i * elemSize = src + (i + 1) * elemSize := by
        intro i
        rw [Nat.succ_mul]
        omega
      have hrest := ih (dst + (wireSub src).length) (src + elemSize)
        (encoded + (wireSub src).length)
        (fun i hi dst avail => by
          rw [hshift]
          exact henc (i + 1) (by omega) dst avail)
      simp only [hshift] at hrest
      rw [List.range_succ_eq_map, List.flatMap_cons, List.flatMap_map, List.length_append,
        Nat.zero_mul,
        Nat.add_zero, ← Nat.add_assoc]
      unfold qmiEncodeStructElem
      exact Writes.sub fun d => (hfirst d).bind hrest

theorem encodeValue_writes {e : ElemInfo} {sub : Prop} (hd : DataWf e sub)
    {enc : ℕ → ℕ → ℕ → Prog Errno ℕ} {wireSub : ℕ → List UInt8} {level count src : ℕ}
    (henc : e.dataType = .struct → ∀ i < count, ∀ dst avail,
      Writes (enc (src + i * e.elemSize) dst avail) dst (wireSub (src + i * e.elemSize))
        (wireSub (src + i * e.elemSize)).length) (outLen encoded dst : ℕ) :
    Writes (encodeValue m enc level e outLen encoded count dst src) dst
      (dataBytes m (level ≠ 1) wireSub e count src)
      (dataBytes m (level ≠ 1) wireSub e count src).length := by
  unfold DataWf at hd
  unfold encodeValue dataBytes
  cases htype : e.dataType with
  | optFlag => simp [htype] at hd
  | dataLen => simp [htype] at hd
  | struct =>
      have hw := fun avail => encodeStruct_writes avail count dst src 0 (henc htype)
      simp only [Nat.zero_add] at hw
      exact Writes.sub hw
  | string =>
      simp only [htype] at hd
      refine Writes.sub fun avail => ?_
      have hw := @encodeString_writes m e hd.2 level dst src avail
      by_cases hlevel : level = 1
      · simpa [hlevel] using hw
      · simpa [hlevel] using hw
  | _ =>
      simp only [window_length]
      split_ifs
      · exact Writes.fail _ _ _ _
      · exact Writes.storeAll_pure _ _ _

theorem dataBytes_zero {e : ElemInfo} {sub : Prop} (h : DataWf e sub)
    (ha : e.arrayType = .varLenArray)
    (nested : Bool) (wireSub : ℕ → List UInt8) (src : ℕ) :
    dataBytes m nested wireSub e 0 src = [] := by
  have hs := h.of_var ha
  unfold dataBytes
  cases htype : e.dataType with
  | string => exact absurd htype hs
  | struct => rfl
  | _ =>
      simp only [Nat.zero_mul]
      rfl

theorem encode_descr {d : Descr} : d.Wf → ∀ {level : ℕ}, 2 ≤ level → ∀ base, d.Fits m base →
    ∀ start outLen encoded dataLen tlvLen,
      Writes (qmiEncode m level d.toTable base start outLen encoded dataLen tlvLen)
        (start + encoded)
        (d.wire m base) (encoded + (d.wire m base).length) := by
  induction d with
  | nil =>
      intro _ level _ base _ start outLen encoded dataLen tlvLen
      rw [Descr.toTable, qmiEncode_nil]
      exact Writes.pure _ _
  | elem len data sub rest ihsub ihrest =>
      intro hwf level hlevel base hfit start outLen encoded dataLen tlvLen
      obtain ⟨hlen, hdata, hrest⟩ := hwf
      obtain ⟨hlenfit, hdatafit, hrestfit⟩ := hfit
      have hl : level ≠ 1 := by omega
      set n := valueCount m base len data with hn
      have hvalue : ∀ encoded tlvLen,
          Writes (encodeData m level data sub.toTable rest.toTable base start outLen n
            encoded tlvLen)
            (start + encoded) (dataBytes m true (sub.wire m) data n (base + data.offset) ++
              rest.wire m base)
            (encoded + (dataBytes m true (sub.wire m) data n (base + data.offset) ++
              rest.wire m base).length) := by
        intro encoded tlvLen
        rw [encodeData, if_neg hl, Nat.add_zero, List.length_append, ← Nat.add_assoc]
        have hw := @encodeValue_writes m data _ hdata
          (fun src dst avail => qmiEncode m (level + 1) sub.toTable src dst avail 0 0 0)
          (sub.wire m) level n
          (base + data.offset) (fun htype i hi dst avail => by
            have hsub := ihsub (hdata.struct htype).2 (by omega : 2 ≤ level + 1) _
              (dataFits_struct hdatafit htype i hi) dst avail 0 0 0
            simpa using hsub) outLen encoded (start + encoded)
        have hdec : decide (level ≠ 1) = true := decide_eq_true hl
        rw [hdec] at hw
        refine hw.bind ?_
        simp only [encodeTlv, if_neg hl, Prog.pure_bind]
        rw [Nat.add_assoc start]
        exact ihrest hrest hlevel base hrestfit start outLen _ n 0
      cases len with
      | none =>
          simp only [Descr.toTable, Descr.wire, lenBytes, List.nil_append, ← hn]
          rw [qmiEncode_fixed hlen hdata]
          exact hvalue encoded tlvLen
      | some l =>
          simp only [Descr.toTable, Descr.wire, lenBytes, ← hn]
          rw [qmiEncode_counted hlen hdata hlenfit (skipToNextElem_nested hlevel _ _ _), if_neg hl,
            Nat.add_zero,
            List.append_assoc, List.length_append, ← Nat.add_assoc, ← hn]
          by_cases hspace : (1 + encoded) % 2 ^ 32 + 3 > outLen
          · rw [if_pos hspace]
            exact Writes.fail _ _ _ _
          · rw [if_neg hspace]
            refine (Writes.storeAll _ _).bind ?_
            by_cases hz : n = 0
            · simp only [if_pos hz, encodeTlv, if_neg hl, Prog.pure_bind]
              rw [hz, dataBytes_zero hdata hlen.of_some, List.nil_append]
              exact ihrest hrest hlevel base hrestfit start outLen (encoded + 1) 0 0
            · rw [if_neg hz]
              exact hvalue (encoded + 1) _

/-- The header of a TLV goes in front of its value, the rest of the message behind it. -/
theorem encodeTlv_writes {α : Type} {p : Prog Errno α} {k : α → Prog Errno ℕ} {g : ℕ → Prog Errno ℕ}
    {a : α} {tlvType : UInt8} {start encoded n : ℕ} {payload w : List UInt8}
    (hp : Writes p (start + encoded + 3) payload a)
    (hk : k a = encodeTlv 1 tlvType start (encoded + payload.length) payload.length >>= g)
    (hnext : Writes (g (encoded + payload.length + 3)) (start + encoded + 3 + payload.length) w n) :
    Writes (p >>= k) (start + encoded) ((tlvType :: toLE 2 payload.length ++ payload) ++ w) n := by
  have hpos : start + (encoded + payload.length) - payload.length = start + encoded := by omega
  have htlv : Writes (encodeTlv 1 tlvType start (encoded + payload.length) payload.length)
    (start + encoded)
      (tlvType :: toLE 2 payload.length) (encoded + payload.length + 3) := by
    rw [encodeTlv, if_pos rfl, hpos]
    exact Writes.storeAll_pure _ _ _
  intro inp n' h
  obtain ⟨a', hpok, hkok⟩ := Prog.ok_of_bind h
  obtain ⟨rfl, hmem⟩ := hp inp a' hpok
  rw [hk] at hkok
  obtain ⟨e, htlvok, hnextok⟩ := Prog.ok_of_bind hkok
  obtain ⟨rfl, hmemtlv⟩ := htlv inp e htlvok
  obtain ⟨rfl, hmemnext⟩ := hnext inp n' hnextok
  refine ⟨rfl, fun out => ?_⟩
  have hthree : start + encoded + 3 =
      start + encoded + (tlvType :: toLE 2 payload.length).length := by simp
  have hend : start + encoded + 3 + payload.length =
      start + encoded + (tlvType :: toLE 2 payload.length ++ payload).length := by
    simp only [List.length_append, List.length_cons, toLE_length]
    omega
  rw [Prog.memory_bind_ok hpok, hk, Prog.memory_bind_ok htlvok, hmem, hmemtlv, hmemnext, hthree,
    overlay_prepend, ← hthree, hend, overlay_append]

variable {f : Field} {rest : Table} {start outLen : ℕ} {w : List UInt8}

theorem encode_present (hf : f.Wf) (hlenfit : lenFits m 0 f.len f.data)
    (hdatafit : dataFits m (f.sub.Fits m) f.data (valueCount m 0 f.len f.data) f.data.offset)
    (hskip : skipToNextElem 1 (.cons f.data f.sub.toTable rest) = rest)
    (hrest : ∀ encoded dataLen, Writes (qmiEncode m 1 rest 0 start outLen encoded dataLen 0)
      (start + encoded)
      w (encoded + w.length)) (encoded dataLen : ℕ) :
    Writes (qmiEncode m 1 (consLen f.len (.cons f.data f.sub.toTable rest)) 0 start outLen
      encoded dataLen 0)
      (start + encoded) ((f.data.tlvType :: toLE 2 (f.payload m).length ++ f.payload m) ++ w)
      (encoded + (f.payload m).length + 3 + w.length) := by
  have hdata := hf.data_wf
  have hlen := hf.len_wf
  set n := valueCount m 0 f.len f.data with hn
  set value := dataBytes m false (f.sub.wire m) f.data n f.data.offset with hvalue
  have hnext : ∀ dataLen, Writes
      (qmiEncode m 1 rest 0 start outLen (encoded + (f.payload m).length + 3) dataLen 0)
      (start + encoded + 3 + (f.payload m).length) w
      (encoded + (f.payload m).length + 3 + w.length) := by
    intro dataLen
    have hpos : start + encoded + 3 + (f.payload m).length =
        start + (encoded + (f.payload m).length + 3) := by
      omega
    rw [hpos]
    exact hrest _ dataLen
  have hwrites : ∀ encoded dst, Writes (encodeValue m
      (fun src dst avail => qmiEncode m (1 + 1) f.sub.toTable src dst avail 0 0 0) 1 f.data outLen
        encoded n dst
      f.data.offset) dst value value.length := by
    intro encoded dst
    exact @encodeValue_writes m f.data _ hdata _ (f.sub.wire m) 1 n f.data.offset
      (fun htype i hi dst avail => by
        have hsub := encode_descr (hdata.struct htype).2 (by norm_num : 2 ≤ 1 + 1) _
          (dataFits_struct hdatafit htype i hi) dst avail 0 0 0
        simpa using hsub) outLen encoded dst
  cases hflen : f.len with
  | none =>
      rw [hflen] at hlen hn
      have hpayload : f.payload m = value := by
        simp only [Field.payload, hflen, lenBytes, List.nil_append, hvalue, hn]
      rw [hpayload] at hnext ⊢
      rw [qmiEncode_fixed hlen hdata, encodeData, if_pos rfl, Nat.zero_add, ← hn]
      exact encodeTlv_writes (hwrites encoded _) (by rw [Nat.zero_add]) (hnext n)
  | some l =>
      rw [hflen] at hlen hn hlenfit
      have hpayload : f.payload m = [m (0 + l.offset)] ++ value := by
        simp only [Field.payload, hflen, lenBytes, hvalue, hn]
      rw [qmiEncode_counted hlen hdata hlenfit hskip, if_pos rfl, ← hn]
      by_cases hspace : (1 + encoded) % 2 ^ 32 + 3 > outLen
      · rw [if_pos hspace]
        exact Writes.fail _ _ _ _
      · rw [if_neg hspace]
        by_cases hz : n = 0
        · have hone : f.payload m = [m (0 + l.offset)] := by
            rw [hpayload, hvalue, hz, dataBytes_zero hdata hlen.of_some, List.append_nil]
          rw [hone] at hnext ⊢
          simp only [if_pos hz]
          rw [hf.len_tlv l hflen]
          exact encodeTlv_writes (Writes.storeAll _ _) rfl (hnext 0)
        · simp only [if_neg hz, encodeData, if_true]
          rw [Nat.zero_add l.offset, Nat.zero_add f.data.offset]
          have hpos : start + (encoded + 1) + 3 = start + encoded + 3 + [m l.offset].length := by
            simp only [List.length_cons, List.length_nil]
            omega
          have hboth := (Writes.storeAll (start + encoded + 3) [m l.offset]).seq
            (hwrites (encoded + 1) (start + encoded + 3 + [m l.offset].length))
          rw [Nat.zero_add] at hpayload
          rw [← hpayload] at hboth
          rw [hpos, ← Prog.bind_assoc]
          refine encodeTlv_writes
            (g := fun encoded => qmiEncode m 1 rest 0 start outLen encoded n 0) hboth ?_ (hnext n)
          have h₁ : encoded + 1 + value.length = encoded + (f.payload m).length := by
            rw [hpayload, List.length_append, List.length_singleton]
            omega
          have h₂ : 0 + 1 + value.length = (f.payload m).length := by
            rw [hpayload, List.length_append, List.length_singleton]
          rw [h₁, h₂]

theorem encode_fields {fs : List Field} (hfs : MessageWf fs) (hfit : ∀ f ∈ fs, f.Fits m)
    (start outLen : ℕ) : ∀ encoded dataLen,
      Writes (qmiEncode m 1 (toTable fs) 0 start outLen encoded dataLen 0)
        (start + encoded) (wire m fs)
        (encoded + (wire m fs).length) := by
  induction fs with
  | nil =>
      intro encoded dataLen
      rw [toTable, List.foldr_nil, qmiEncode_nil]
      exact Writes.pure _ _
  | cons f fs ih =>
      intro encoded dataLen
      have hf := hfs.fields f (by simp)
      obtain ⟨-, hlenfit, hdatafit⟩ := hfit f (by simp)
      have hrest := ih hfs.tail (fun g hg => hfit g (by simp [hg]))
      obtain ⟨dataLen', hfield⟩ := @qmiEncode_field m f start outLen fs hfs encoded dataLen
      rw [hfield]
      by_cases hp : f.Present m
      · have hw := encode_present hf (hlenfit hp) (hdatafit hp) (skipToNextElem_data hfs) hrest
          encoded dataLen'
        have hwire : wire m (f :: fs) =
            (f.data.tlvType :: toLE 2 (f.payload m).length ++ f.payload m) ++ wire m fs := by
          rw [wire, List.flatMap_cons, Field.wire, if_pos hp, wire]
        have hlen : encoded + (wire m (f :: fs)).length =
            encoded + (f.payload m).length + 3 + (wire m fs).length := by
          rw [hwire]
          simp only [List.length_append, List.length_cons, toLE_length]
          omega
        rw [if_pos hp, hlen, hwire]
        exact hw
      · have hwire : wire m (f :: fs) = wire m fs := by
          rw [wire, List.flatMap_cons, Field.wire, if_neg hp, List.nil_append, wire]
        rw [if_neg hp, hwire]
        exact hrest encoded dataLen'

/-- **An encoded packet**: the header and the wire form. -/
theorem encode_message_writes {fs : List Field} (hfs : MessageWf fs) (hfit : ∀ f ∈ fs, f.Fits m)
    (dataLen : ℕ) (type : UInt8) (msgId txnId : ℕ) :
    Writes (qmiEncodeMessage m dataLen type msgId txnId (toTable fs)) 0
      (qmiHeader type txnId msgId (wire m fs).length ++ wire m fs) (7 + (wire m fs).length) := by
  unfold qmiEncodeMessage
  split_ifs
  · exact Writes.fail _ _ _ _
  · have hbody := encode_fields hfs hfit 7 (dataLen - 7) 0 0
    rw [Nat.zero_add] at hbody
    have hhead : (qmiHeader type txnId msgId (wire m fs).length).length = 7 := by simp [qmiHeader]
    have hpos : 7 + 0 = 0 + (qmiHeader type txnId msgId (wire m fs).length).length := by rw [hhead]
    rw [hpos] at hbody
    exact hbody.bind_front (Writes.storeAll_pure _ _ _)

end Encode

end Imola.Qmi
