import Imola.Layout
import Imola.QmiEncodeWire

/-! # The space checks of the encoder

`qmi_encode` checks the space for each piece of a message before it writes it: a length, the bytes
of a basic element, a string.  At level 1 the write position is three bytes ahead of `encoded`,
for the header that is written last, and the space handed to a nested structure does not count
these bytes either.  All checks add them, except that of a nested string: it accepts a string that
ends up to three bytes behind the buffer.

`pieces` is the layout of a message with the slack of each check, and the encoder stays inside its
buffer exactly when no piece spills (`encode_inside_iff`).  Every message of the tree has a layout
(`exists_message`).  The invariant is that the write position
and the space left add up to the end of the buffer and three (`start + outLen` above level 1). -/

namespace Imola.Qmi

open Imola.Bytes Imola.Splice Imola.Progs

/-! ### The layout of a message -/

section Layout

variable (m : ℕ → UInt8)

def lenPieces (len : Option ElemInfo) : List Piece :=
  match len with
  | some _ => [⟨0, 1, 0⟩]
  | none => []

/-- The check of a nested string is short of the header. -/
def dataPieces (nested : Bool) (piecesSub : ℕ → List Piece) (data : ElemInfo) (n src : ℕ) :
    List Piece :=
  match data.dataType with
  | .struct => (List.range n).flatMap fun i => piecesSub (src + i * data.elemSize)
  | .string =>
      let len := strlen m src (data.elemLen + 1)
      [if nested then ⟨0, data.stringLenSz + len, 3⟩ else ⟨0, len, 0⟩]
  | _ => [⟨0, n * data.elemSize, 0⟩]

def Descr.pieces : Descr → (base : ℕ) → List Piece
  | .nil, _ => []
  | .elem len data sub rest, base =>
      lenPieces len ++ dataPieces m true sub.pieces data (valueCount m base len data)
        (base + data.offset) ++
        rest.pieces base

/-- The pieces of an element's TLV without the header. -/
def Field.payloadPieces (f : Field) : List Piece :=
  lenPieces f.len ++ dataPieces m false (f.sub.pieces m) f.data (valueCount m 0 f.len f.data)
    f.data.offset

def Field.pieces (f : Field) : List Piece :=
  if f.Present m then headed 3 (f.payloadPieces m) else []

end Layout

/-- The messages of this tree: those of the form of `MessageWf`, and the requests that start with an
array of variable length without a length in front, which the encoder refuses. -/
inductive Message where
  | fields (fs : List Field)
  | unsized (e : ElemInfo) (eiArray rest : Table)

namespace Message

def toTable : Message → Table
  | fields fs => Qmi.toTable fs
  | unsized e eiArray rest => .cons e eiArray rest

def Wf : Message → Prop
  | fields fs => MessageWf fs
  | unsized e _ _ => e.arrayType = .varLenArray

variable (m : ℕ → UInt8)

/-- The values are within the bounds of the table. -/
def Fits : Message → Prop
  | fields fs => ∀ f ∈ fs, f.Fits m
  | unsized _ _ _ => True

def pieces : Message → List Piece
  | fields fs => fs.flatMap fun f => f.pieces m
  | unsized _ _ _ => []

end Message

/-! ### Bounds from the table -/

/-- The largest number of values. -/
def ElemInfo.maxCount (e : ElemInfo) : ℕ := if e.arrayType = .noArray then 1 else e.elemLen

/-- The largest number of bytes of the data. -/
def dataMax (subMax : ℕ) (data : ElemInfo) : ℕ :=
  match data.dataType with
  | .struct => data.maxCount * subMax
  | .string => data.stringLenSz + data.elemLen
  | _ => data.maxCount * data.elemSize

def Descr.maxLen : Descr → ℕ
  | .nil => 0
  | .elem _ data sub rest => 1 + dataMax sub.maxLen data + rest.maxLen

def Field.maxLen (f : Field) : ℕ := 4 + dataMax f.sub.maxLen f.data

/-- No structure of a message takes more bytes. -/
def Message.maxLen : Message → ℕ
  | fields fs => (fs.map Field.maxLen).sum
  | unsized _ _ _ => 0

/-- All messages of the tree are of this form, and small. -/
theorem exists_message {t : Table} (ht : t ∈ [rmtfsOpenReqEi, rmtfsOpenRespEi, rmtfsCloseReqEi,
    rmtfsCloseRespEi, rmtfsIovecReqEi, rmtfsIovecRespEi, rmtfsAllocBufReqEi, rmtfsAllocBufRespEi,
    rmtfsDevErrorReqEi, rmtfsDevErrorRespEi, rmtfsForceSyncEi, servregLocGetDomainListReqEi,
    servregLocGetDomainListRespEi, servregLocPfrReqEi, servregLocPfrRespEi]) :
    ∃ msg : Message, msg.Wf ∧ msg.maxLen < 2 ^ 17 ∧ msg.toTable = t := by
  have hof : ∀ {fs : List Field} {t : Table}, MessageWf fs → (fs.map Field.maxLen).sum < 2 ^ 17 →
      toTable fs = t → ∃ msg : Message, msg.Wf ∧ msg.maxLen < 2 ^ 17 ∧ msg.toTable = t :=
    fun {fs} {t} hwf hmax ht => ⟨.fields fs, hwf, hmax, ht⟩
  have hunsized : ∀ {e : ElemInfo} {eiArray rest : Table}, e.arrayType = .varLenArray →
      ∃ msg : Message, msg.Wf ∧ msg.maxLen < 2 ^ 17 ∧ msg.toTable = .cons e eiArray rest :=
    fun {e} {eiArray} {rest} harr => ⟨.unsized e eiArray rest,
      harr, by norm_num [Message.maxLen], rfl⟩
  have hresult : ∃ msg : Message, msg.Wf ∧ msg.maxLen < 2 ^ 17 ∧ msg.toTable = rmtfsCloseRespEi :=
    hof (by decide : MessageWf [resultField]) (by decide) rfl
  have hcaller : ∃ msg : Message, msg.Wf ∧ msg.maxLen < 2 ^ 17 ∧ msg.toTable = rmtfsCloseReqEi :=
    hof (by decide : MessageWf [⟨none, none, single .unsigned4Byte 4 1 0, .nil⟩]) (by decide) rfl
  simp only [List.mem_cons, List.not_mem_nil, or_false] at ht
  rcases ht
    with rfl | rfl | rfl | rfl | rfl | rfl | rfl | rfl | rfl | rfl | rfl | rfl | rfl | rfl | rfl
  · exact hunsized rfl
  · exact hof (by decide : MessageWf openRespFields) (by decide) rfl
  · exact hcaller
  · exact hresult
  · exact hof (by decide : MessageWf iovecReqFields) (by decide) rfl
  · exact hresult
  · exact hof (by decide : MessageWf [⟨none, none, single .unsigned4Byte 4 1 0, .nil⟩,
      ⟨none, none, single .unsigned4Byte 4 2 4, .nil⟩]) (by decide) rfl
  · exact hof (by decide : MessageWf [resultField, optional .unsigned8Byte 8 16 4 8])
      (by decide) rfl
  · exact hcaller
  · exact hof (by decide : MessageWf [resultField, optional .unsigned1Byte 1 16 4 5])
      (by decide) rfl
  · exact hof (by decide : MessageWf [⟨none, some (single .dataLen 1 1 0),
      ⟨.unsigned1Byte, 10, 4, .varLenArray, 1, 8⟩, .nil⟩]) (by decide) rfl
  · exact hunsized rfl
  · exact hof (by decide : MessageWf domainListRespFields) (by decide) rfl
  · exact hunsized rfl
  · exact hresult

section Bounds

variable {m : ℕ → UInt8}

theorem valueCount_le_maxCount {len : Option ElemInfo} {data : ElemInfo}
    (hlen : LenWf len data) {base : ℕ}
    (hfit : lenFits m base len data) : valueCount m base len data ≤ data.maxCount := by
  cases len with
  | none => exact le_rfl
  | some l =>
      obtain ⟨-, -, -, harr, -, -⟩ := hlen
      rw [ElemInfo.maxCount, if_neg (by rw [harr]; simp)]
      exact hfit l rfl

theorem span_flatMap_le {piecesSub : ℕ → List Piece} {elemSize src c : ℕ} (n : ℕ)
    (h : ∀ i < n, span (piecesSub (src + i * elemSize)) ≤ c) :
    span ((List.range n).flatMap fun i => piecesSub (src + i * elemSize)) ≤ n * c := by
  induction n with
  | zero => simp
  | succ n ih =>
      have hlast := h n (by omega)
      have hinit := ih fun i hi => h i (by omega)
      rw [List.range_succ, List.flatMap_append, span_append, List.flatMap_singleton, Nat.succ_mul]
      omega

theorem span_dataPieces_le {data : ElemInfo} {nested : Bool} {piecesSub : ℕ → List Piece}
    {n src subMax : ℕ}
    {fitsSub : ℕ → Prop} (hn : n ≤ data.maxCount) (hfit : dataFits m fitsSub data n src)
    (hsub : data.dataType = .struct →
      ∀ i < n, span (piecesSub (src + i * data.elemSize)) ≤ subMax) :
    span (dataPieces m nested piecesSub data n src) ≤ dataMax subMax data := by
  unfold dataPieces dataMax
  unfold dataFits at hfit
  cases htype : data.dataType with
  | struct => exact (span_flatMap_le n (hsub htype)).trans (Nat.mul_le_mul_right _ hn)
  | string =>
      rw [htype] at hfit
      cases nested
      · simp only [span_cons, span_nil]
        simp
        omega
      · simp only [span_cons, span_nil]
        simp
        omega
  | _ =>
      simp only [span_cons, span_nil, Nat.zero_add, Nat.add_zero]
      exact Nat.mul_le_mul_right _ hn

theorem span_lenPieces_le (len : Option ElemInfo) : span (lenPieces len) ≤ 1 := by
  cases len with
  | none => simp [lenPieces]
  | some l => simp [lenPieces]

theorem Descr.span_pieces_le {d : Descr} (hd : d.Wf) {base : ℕ} (hfit : d.Fits m base) :
    span (d.pieces m base) ≤ d.maxLen := by
  induction d generalizing base with
  | nil => exact le_rfl
  | elem len data sub rest ihsub ihrest =>
      obtain ⟨hlen, hdata, hrest⟩ := hd
      obtain ⟨hlenfit, hdatafit, hrestfit⟩ := hfit
      have h₁ := span_lenPieces_le len
      have h₂ := @span_dataPieces_le m data true (sub.pieces m) _ _ sub.maxLen _
        (valueCount_le_maxCount hlen hlenfit) hdatafit
        (fun htype i hi => ihsub (hdata.struct htype).2 (dataFits_struct hdatafit htype i hi))
      have h₃ := ihrest hrest hrestfit
      simp only [Descr.pieces, Descr.maxLen, span_append]
      omega

end Bounds

/-! ### The pieces of a message -/

section Pieces

variable {m : ℕ → UInt8}

theorem range_flatMap_ne_nil {α : Type} {f : ℕ → List α} {n : ℕ} (hn : 1 ≤ n) (h : f 0 ≠ []) :
    (List.range n).flatMap f ≠ [] := by
  intro hnil
  exact h (List.flatMap_eq_nil_iff.mp hnil 0 (List.mem_range.mpr hn))

theorem dataPieces_ne_nil {data : ElemInfo} {sub : Prop} (hd : DataWf data sub) {nested : Bool}
    {piecesSub : ℕ → List Piece} {n src : ℕ} (hn : 1 ≤ n) (hsub : sub → piecesSub src ≠ []) :
    dataPieces m nested piecesSub data n src ≠ [] := by
  unfold dataPieces
  unfold DataWf at hd
  cases htype : data.dataType with
  | struct =>
      rw [htype] at hd
      apply range_flatMap_ne_nil hn
      simpa using hsub hd
  | _ => simp

theorem Descr.pieces_ne_nil {d : Descr} (hd : d.Wf) (hne : d ≠ .nil) (base : ℕ) :
    d.pieces m base ≠ [] := by
  induction d generalizing base with
  | nil => exact absurd rfl hne
  | elem len data sub rest ihsub ihrest =>
      obtain ⟨hlen, hdata, -⟩ := hd
      cases len with
      | some l => simp [Descr.pieces, lenPieces]
      | none =>
          have hpos := @valueCount_pos m data hlen base
          have hne := @dataPieces_ne_nil m data _ hdata true (sub.pieces m)
            _ (base + data.offset) hpos
            (fun hsub => ihsub hsub.2 hsub.1 (base + data.offset))
          simp only [Descr.pieces, lenPieces, List.nil_append]
          exact List.append_ne_nil_of_left_ne_nil hne _

theorem span_dataPieces {data : ElemInfo} {sub : Prop} (hd : DataWf data sub) {nested : Bool}
    {piecesSub : ℕ → List Piece} {wireSub : ℕ → List UInt8} {n src : ℕ}
    (hsub : sub → ∀ base, span (piecesSub base) = (wireSub base).length) :
    span (dataPieces m nested piecesSub data n src) =
      (dataBytes m nested wireSub data n src).length := by
  unfold dataPieces dataBytes
  unfold DataWf at hd
  cases htype : data.dataType with
  | struct =>
      rw [htype] at hd
      have hmap : ∀ is : List ℕ, span (is.flatMap fun i => piecesSub (src + i * data.elemSize)) =
          (is.flatMap fun i => wireSub (src + i * data.elemSize)).length := by
        intro is
        induction is with
        | nil => rfl
        | cons i is ih =>
            rw [List.flatMap_cons, List.flatMap_cons, span_append, List.length_append, hsub hd, ih]
      exact hmap _
  | string =>
      cases nested
      · simp
      · simp
  | _ => simp

theorem span_lenPieces (base : ℕ) (len : Option ElemInfo) :
    span (lenPieces len) = (lenBytes m base len).length := by
  cases len with
  | none => rfl
  | some l => rfl

theorem Descr.span_pieces {d : Descr} (hd : d.Wf) (base : ℕ) :
    span (d.pieces m base) = (d.wire m base).length := by
  induction d generalizing base with
  | nil => rfl
  | elem len data sub rest ihsub ihrest =>
      obtain ⟨-, hdata, hrest⟩ := hd
      rw [Descr.pieces, Descr.wire, span_append, span_append, List.length_append,
        List.length_append,
        span_lenPieces base, span_dataPieces hdata fun h => ihsub h.2, ihrest hrest]

theorem Field.payloadPieces_ne_nil {f : Field} (hf : f.Wf) : f.payloadPieces m ≠ [] := by
  have hlen := hf.len_wf
  unfold Field.payloadPieces
  cases hflen : f.len with
  | some l => simp [lenPieces]
  | none =>
      rw [hflen] at hlen
      rw [lenPieces, List.nil_append]
      exact dataPieces_ne_nil hf.data_wf (valueCount_pos hlen 0)
        fun hsub => Descr.pieces_ne_nil hsub.2 hsub.1 f.data.offset

/-- **The pieces of a message make up its wire form.** -/
theorem span_pieces {fs : List Field} (hfs : ∀ f ∈ fs, f.Wf) :
    span (fs.flatMap fun f => f.pieces m) = (wire m fs).length := by
  induction fs with
  | nil => rfl
  | cons f fs ih =>
      have hf := hfs f (by simp)
      have hfirst : span (f.pieces m) = (f.wire m).length := by
        unfold Field.pieces Field.wire
        split_ifs
        · rw [span_headed 3 (Field.payloadPieces_ne_nil hf), Field.payloadPieces, span_append,
            @span_lenPieces m 0, span_dataPieces hf.data_wf fun h => Descr.span_pieces h.2]
          simp only [Field.payload, List.length_append, List.length_cons, toLE_length]
        · rfl
      rw [List.flatMap_cons, span_append, hfirst, ih fun g hg => hfs g (by simp [hg]), wire, wire,
        List.flatMap_cons,
        List.length_append]

end Pieces

/-! ### The encoder follows the layout -/

section Encode

variable {m inp : ℕ → UInt8} {bound : ℕ}

theorem checked_ends {dst size n : ℕ} {bs : List UInt8} {c : Prop} [Decidable c] {slack : ℕ}
    (hbs : bs.length = size) (hc : c ↔ bound + slack < dst + size) (hne : slack ≠ 0 → 1 ≤ size) :
    Ends (if c then Prog.fail Errno.einval else Prog.storeAll dst bs >>= fun _ =>
      pure n) inp bound n
      (fate bound dst [⟨0, size, slack⟩]) := by
  simp only [fate, Nat.zero_add]
  split_ifs with hfail hin hslack hin hslack
  · have := hc.mp hfail
    omega
  · have := hc.mp hfail
    omega
  · exact Ends.fail _ _
  · exact (Ends.storeAll (by rw [hbs]; exact hin)).bind_done fun _ => Ends.pure n
  · have hpos : 1 ≤ size := hne (by omega)
    exact (Ends.storeAll_outside (by omega) (by omega)).bind_done fun h => by cases h
  · have := mt hc.mpr hfail
    omega

theorem encodeString_ends {e : ElemInfo} (hs : e.elemSize = 1) {level dst src avail : ℕ}
    (hfit : strlen m src (e.elemLen + 1) < e.elemLen) (hspace : dst + avail = bound + 3)
    (sub : ℕ → List Piece) (n : ℕ) (htype : e.dataType = .string) :
    Ends (qmiEncodeStringElem m level e dst src avail) inp bound
      (span (dataPieces m (level ≠ 1) sub e n src))
      (fate bound dst (dataPieces m (level ≠ 1) sub e n src)) := by
  unfold qmiEncodeStringElem dataPieces
  simp only [htype, hs, Nat.mul_one, window_length]
  rw [if_neg (by omega)]
  by_cases hlevel : level = 1
  · simp only [hlevel, if_true, ne_eq, not_true, decide_false, Bool.false_eq_true, if_false,
      span_cons, span_nil,
      Nat.zero_add, Nat.add_zero]
    exact checked_ends (window_length _ _ _) (by omega) (by omega)
  · have hpos := stringLenSz_pos e
    simp only [hlevel, if_false, ne_eq, not_false_eq_true, decide_true, if_true, span_cons,
      span_nil, Nat.zero_add,
      Nat.add_zero]
    refine checked_ends ?_ ?_ ?_
    · rw [List.length_append, toLE_length, window_length]
    · omega
    · omega

theorem encodeStruct_ends {enc : ℕ → ℕ → ℕ → Prog Errno ℕ} {piecesSub : ℕ → List Piece}
    {elemSize avail : ℕ}
    (havail : avail < 2 ^ 32) (n : ℕ) : ∀ (dst src encoded : ℕ), encoded ≤ avail →
      dst + avail = bound + 3 + encoded →
      (∀ i < n, ∀ dst avail, dst + avail = bound + 3 → avail < 2 ^ 32 →
        Ends (enc (src + i * elemSize) dst avail) inp bound (span (piecesSub (src + i * elemSize)))
          (fate bound dst (piecesSub (src + i * elemSize)))) →
      Ends (qmiEncodeStructElem enc elemSize avail n dst src encoded) inp bound
        (encoded + span ((List.range n).flatMap fun i => piecesSub (src + i * elemSize)))
        (fate bound dst ((List.range n).flatMap fun i => piecesSub (src + i * elemSize))) := by
  induction n with
  | zero =>
      intro dst src encoded _ _ _
      exact Ends.pure _
  | succ n ih =>
      intro dst src encoded hle hspace henc
      have hfirst : Ends (enc src dst (avail - encoded)) inp bound (span (piecesSub src))
          (fate bound dst (piecesSub src)) := by
        simpa using henc 0 (by omega) dst (avail - encoded) (by omega) (by omega)
      have hshift : ∀ i, src + elemSize + i * elemSize = src + (i + 1) * elemSize := by
        intro i
        rw [Nat.succ_mul]
        omega
      rw [List.range_succ_eq_map, List.flatMap_cons, List.flatMap_map, fate_append, span_append,
        Nat.zero_mul,
        Nat.add_zero, ← Nat.add_assoc]
      unfold qmiEncodeStructElem
      apply Ends.sub havail hle
      apply hfirst.bind
      intro hdone
      have hroom := span_le_of_done hdone (by omega : dst ≤ bound + 3) (by omega)
      have hrest := ih (dst + span (piecesSub src)) (src + elemSize)
        (encoded + span (piecesSub src)) (by omega)
        (by omega) (fun i hi dst avail => by
          rw [hshift]
          exact henc (i + 1) (by omega) dst avail)
      simpa only [hshift, Nat.add_zero, Nat.succ_eq_add_one] using hrest

theorem encodeValue_ends {e : ElemInfo} {sub : Prop} (hd : DataWf e sub) {fitsSub : ℕ → Prop}
    {enc : ℕ → ℕ → ℕ → Prog Errno ℕ} {piecesSub : ℕ → List Piece}
    {level count src outLen encoded dst : ℕ}
    (hfit : dataFits m fitsSub e count src) (hout : outLen < 2 ^ 32) (hle : encoded ≤ outLen)
    (hspace : dst + outLen = bound + 3 + encoded)
    (hsize : encoded + span (dataPieces m (level ≠ 1) piecesSub e count src) < 2 ^ 32)
    (henc : e.dataType = .struct → ∀ i < count, ∀ dst avail, dst + avail = bound + 3 →
      avail < 2 ^ 32 →
      Ends (enc (src + i * e.elemSize) dst avail) inp bound
        (span (piecesSub (src + i * e.elemSize)))
        (fate bound dst (piecesSub (src + i * e.elemSize)))) :
    Ends (encodeValue m enc level e outLen encoded count dst src) inp bound
      (span (dataPieces m (level ≠ 1) piecesSub e count src))
      (fate bound dst (dataPieces m (level ≠ 1) piecesSub e count src)) := by
  unfold DataWf at hd
  unfold dataFits at hfit
  unfold encodeValue
  cases htype : e.dataType with
  | optFlag => simp [htype] at hd
  | dataLen => simp [htype] at hd
  | struct =>
      have hs := @encodeStruct_ends inp bound enc piecesSub e.elemSize (outLen - encoded) (by omega)
        count dst src
        0 (by omega) (by omega) (henc htype)
      rw [Nat.zero_add] at hs
      simp only [dataPieces, htype]
      exact Ends.sub hout hle hs
  | string =>
      simp only [htype] at hd hfit
      exact Ends.sub hout hle (encodeString_ends hd.2 hfit (by omega) piecesSub count htype)
  | _ =>
      simp only [dataPieces, htype, span_cons, span_nil, Nat.zero_add, Nat.add_zero] at hsize ⊢
      refine checked_ends (window_length _ _ _) ?_ (by omega)
      rw [Nat.mod_eq_of_lt (by omega)]
      omega

theorem encodeLen_ends {dst encoded outLen n : ℕ} {b : UInt8} {l : ElemInfo} {ps : List Piece}
    {q : Prog Errno ℕ}
    (hencoded : encoded + 1 < 2 ^ 32) (hspace : dst + outLen = bound + 3 + encoded)
    (hq : dst + 1 ≤ bound → Ends q inp bound n (fate bound (dst + 1) ps)) :
    Ends (if (1 + encoded) % 2 ^ 32 + 3 > outLen then Prog.fail Errno.einval
      else Prog.storeAll dst [b] >>= fun _ => q) inp bound n
      (fate bound dst (lenPieces (some l) ++ ps)) := by
  rw [lenPieces, List.singleton_append, Nat.mod_eq_of_lt (by omega), fate]
  simp only [Nat.zero_add, Nat.add_zero]
  by_cases hfail : 1 + encoded + 3 > outLen
  · rw [if_pos hfail, if_neg (by omega), if_neg (by omega)]
    exact Ends.fail _ _
  · have hin : dst + 1 ≤ bound := by omega
    rw [if_neg hfail, if_pos hin]
    exact (Ends.storeAll (by simpa using hin)).bind fun _ => hq hin

theorem span_sub_le {nested : Bool} {piecesSub : ℕ → List Piece} {e : ElemInfo} {n src : ℕ}
    (htype : e.dataType = .struct) (i : ℕ) (hi : i < n) :
    span (piecesSub (src + i * e.elemSize)) ≤ span (dataPieces m nested piecesSub e n src) := by
  obtain ⟨xs, ys, hsplit⟩ := List.append_of_mem (List.mem_range.mpr hi)
  simp only [dataPieces, htype, hsplit, List.flatMap_append, List.flatMap_cons, span_append]
  omega

theorem fate_dataPieces_zero {e : ElemInfo} {sub : Prop} (hd : DataWf e sub)
    (ha : e.arrayType = .varLenArray)
    {nested : Bool} {piecesSub : ℕ → List Piece} {a src : ℕ} (hle : a ≤ bound) (ps : List Piece) :
    fate bound a (dataPieces m nested piecesSub e 0 src ++ ps) = fate bound a ps ∧
      span (dataPieces m nested piecesSub e 0 src) = 0 := by
  have hs := hd.of_var ha
  unfold dataPieces
  cases htype : e.dataType with
  | string => exact absurd htype hs
  | struct => exact ⟨rfl, rfl⟩
  | _ =>
      simp only [Nat.zero_mul, List.singleton_append, span_cons, span_nil]
      exact ⟨fate_empty hle 0 ps, trivial⟩

/-- The encoder follows the layout of a nested structure. -/
def Descr.FollowsLayout (m inp : ℕ → UInt8) (bound : ℕ) (d : Descr) : Prop :=
  ∀ {level : ℕ}, 2 ≤ level → ∀ {base : ℕ}, d.Fits m base →
    ∀ {start outLen : ℕ}, start + outLen = bound + 3 → outLen < 2 ^ 32 →
    ∀ {encoded : ℕ}, encoded ≤ outLen →
      encoded + span (d.pieces m base) < 2 ^ 32 → ∀ dataLen tlvLen,
      Ends (qmiEncode m level d.toTable base start outLen encoded dataLen tlvLen) inp bound
        (encoded + span (d.pieces m base)) (fate bound (start + encoded) (d.pieces m base))

theorem encodeValue_descr_ends {data : ElemInfo} {sub : Descr}
    (hdata : DataWf data (sub ≠ .nil ∧ sub.Wf))
    (hsub : sub.Wf → sub.FollowsLayout m inp bound) {level n src outLen encoded dst : ℕ}
    (hlevel : 1 ≤ level)
    (hfit : dataFits m (sub.Fits m) data n src) (hout : outLen < 2 ^ 32) (hle : encoded ≤ outLen)
    (hspace : dst + outLen = bound + 3 + encoded)
    (hsize : encoded + span (dataPieces m (level ≠ 1) (sub.pieces m) data n src) < 2 ^ 32) :
    Ends
      (encodeValue m (fun src dst avail => qmiEncode m (level + 1) sub.toTable src dst avail 0 0 0)
        level data
        outLen encoded n dst src) inp bound
        (span (dataPieces m (level ≠ 1) (sub.pieces m) data n src))
      (fate bound dst (dataPieces m (level ≠ 1) (sub.pieces m) data n src)) := by
  refine encodeValue_ends hdata hfit hout hle hspace hsize ?_
  intro htype i hi dst avail hdst havail
  have hlt := @span_sub_le m (level ≠ 1) (sub.pieces m) data n src htype i hi
  have hs := hsub (hdata.struct htype).2 (by omega : 2 ≤ level + 1)
    (dataFits_struct hfit htype i hi)
    hdst havail (Nat.zero_le _) (by omega) 0 0
  simpa only [Nat.zero_add, Nat.add_zero] using hs

theorem encode_descr_ends {d : Descr} : d.Wf → d.FollowsLayout m inp bound := by
  induction d with
  | nil =>
      intro _ level _ base _ start outLen _ _ encoded _ _ dataLen tlvLen
      rw [Descr.toTable, qmiEncode_nil]
      exact Ends.pure _
  | elem len data sub rest ihsub ihrest =>
      intro hwf level hlevel base hfit start outLen hspace hout encoded hle hsize dataLen tlvLen
      obtain ⟨hlen, hdata, hrest⟩ := hwf
      obtain ⟨hlenfit, hdatafit, hrestfit⟩ := hfit
      have hl : level ≠ 1 := by omega
      have hnested : decide (level ≠ 1) = true := decide_eq_true hl
      set n := valueCount m base len data with hn
      set ds := dataPieces m true (sub.pieces m) data n (base + data.offset) with hds
      set rs := rest.pieces m base with hrs
      have hspan : span (lenPieces len) + span ds + span rs =
          span ((Descr.elem len data sub rest).pieces m base) := by
        rw [Descr.pieces, span_append, span_append]
      have hvalue : ∀ encoded tlvLen, encoded ≤ outLen → encoded + span ds + span rs < 2 ^ 32 →
          Ends (encodeData m level data sub.toTable rest.toTable base start outLen n encoded tlvLen)
            inp
            bound (encoded + span ds + span rs) (fate bound (start + encoded) (ds ++ rs)) := by
        intro encoded tlvLen hle hsize
        have hv := @encodeValue_descr_ends m inp bound data sub hdata ihsub level n
          (base + data.offset) outLen encoded
          (start + encoded) (by omega) hdatafit hout hle (by omega) (by rw [hnested, ← hds]; omega)
        rw [hnested] at hv
        rw [encodeData, if_neg hl, Nat.add_zero, fate_append]
        apply hv.bind
        intro hdone
        have hroom := span_le_of_done hdone (by omega : start + encoded ≤ bound + 3) (by omega)
        simp only [encodeTlv, if_neg hl, Prog.pure_bind]
        rw [Nat.add_assoc start]
        exact ihrest hrest hlevel hrestfit hspace hout (by omega) (by omega) n 0
      cases len with
      | none =>
          simp only [lenPieces, span_nil, Nat.zero_add] at hspan
          simp only [Descr.toTable, Descr.pieces, lenPieces, List.nil_append, span_append, ← hn,
            ← hds, ← hrs,
            ← Nat.add_assoc]
          rw [qmiEncode_fixed hlen hdata]
          exact hvalue encoded tlvLen hle (by omega)
      | some l =>
          simp only [lenPieces, span_cons, span_nil, Nat.zero_add, Nat.add_zero] at hspan
          rw [← hspan, Descr.pieces, List.append_assoc, ← hn, ← hds, ← hrs]
          rw [Descr.toTable, qmiEncode_counted hlen hdata hlenfit
            (skipToNextElem_nested hlevel _ _ _), if_neg hl,
            Nat.add_zero, ← hn]
          apply encodeLen_ends (by omega) (by omega)
          intro hin
          by_cases hz : n = 0
          · simp only [if_pos hz, encodeTlv, if_neg hl, Prog.pure_bind]
            obtain ⟨hfate, hzero⟩ := @fate_dataPieces_zero m bound data _ hdata hlen.of_some true
              (sub.pieces m)
              (start + encoded + 1) (base + data.offset) hin rs
            rw [hds, hz, hfate, hzero, ← Nat.add_assoc, Nat.add_zero, Nat.add_assoc start]
            exact ihrest hrest hlevel hrestfit hspace hout (by omega) (by rw [← hrs]; omega) 0 0
          · rw [if_neg hz, ← Nat.add_assoc, ← Nat.add_assoc, Nat.add_assoc start]
            exact hvalue (encoded + 1) _ (by omega) (by omega)

/-- The header is written behind its TLV, into the bytes left free for it. -/
theorem encodeTlv_ends {tlvType : UInt8} {start encoded tlvLen : ℕ}
    (h : start + encoded + 3 + tlvLen ≤ bound) :
    Ends (encodeTlv 1 tlvType start (encoded + tlvLen) tlvLen) inp bound
      (encoded + tlvLen + 3) .done := by
  have hpos : start + (encoded + tlvLen) - tlvLen = start + encoded := by omega
  rw [encodeTlv, if_pos rfl, hpos]
  refine (Ends.storeAll ?_).bind_done fun _ => Ends.pure _
  rw [List.length_cons, toLE_length]
  omega

variable {f : Field} {rest : Table} {start outLen : ℕ} {rs : List Piece}

theorem encode_present_ends (hf : f.Wf) (hlenfit : lenFits m 0 f.len f.data)
    (hdatafit : dataFits m (f.sub.Fits m) f.data (valueCount m 0 f.len f.data) f.data.offset)
    (hskip : skipToNextElem 1 (.cons f.data f.sub.toTable rest) = rest)
    (hspace : start + outLen = bound) (hout : outLen < 2 ^ 32)
    (hrest : ∀ encoded dataLen, encoded ≤ outLen → encoded + span rs < 2 ^ 32 →
      Ends (qmiEncode m 1 rest 0 start outLen encoded dataLen 0) inp bound (encoded + span rs)
        (fate bound (start + encoded) rs))
    {encoded : ℕ} (hle : encoded ≤ outLen)
    (hsize : encoded + 3 + span (f.payloadPieces m) + span rs < 2 ^ 32)
    (dataLen : ℕ) :
    Ends (qmiEncode m 1 (consLen f.len (.cons f.data f.sub.toTable rest)) 0 start outLen encoded
      dataLen 0) inp
      bound (encoded + 3 + span (f.payloadPieces m) + span rs)
      (fate bound (start + encoded + 3) (f.payloadPieces m ++ rs)) := by
  have hdata := hf.data_wf
  have hlen := hf.len_wf
  have hne := @Field.payloadPieces_ne_nil m f hf
  set n := valueCount m 0 f.len f.data with hn
  set ds := dataPieces m false (f.sub.pieces m) f.data n f.data.offset with hds
  have hpayload : f.payloadPieces m = lenPieces f.len ++ ds := rfl
  have hnext : start + encoded + 3 + span (f.payloadPieces m) ≤ bound → ∀ tlvType dataLen,
      Ends (encodeTlv 1 tlvType start (encoded + span (f.payloadPieces m))
        (span (f.payloadPieces m)) >>=
          fun encoded => qmiEncode m 1 rest 0 start outLen encoded dataLen 0) inp bound
        (encoded + 3 + span (f.payloadPieces m) + span rs)
        (fate bound (start + encoded + 3 + span (f.payloadPieces m)) rs) := by
    intro hin tlvType dataLen
    have hr := hrest (encoded + span (f.payloadPieces m) + 3) dataLen (by omega) (by omega)
    have hpos : start + (encoded + span (f.payloadPieces m) + 3) =
        start + encoded + 3 + span (f.payloadPieces m) := by omega
    have hval : encoded + span (f.payloadPieces m) + 3 + span rs =
        encoded + 3 + span (f.payloadPieces m) + span rs := by omega
    rw [hpos, hval] at hr
    exact (encodeTlv_ends hin).bind fun _ => hr
  have hvalue : ∀ encoded', encoded' ≤ outLen → encoded' + span ds < 2 ^ 32 →
      Ends
        (encodeValue m (fun src dst avail => qmiEncode m (1 + 1) f.sub.toTable src dst avail 0 0 0)
          1 f.data
          outLen encoded' n (start + encoded' + 3) f.data.offset) inp bound (span ds)
        (fate bound (start + encoded' + 3) ds) := by
    intro encoded' hle' hlt
    exact @encodeValue_descr_ends m inp bound f.data f.sub hdata encode_descr_ends 1 n f.data.offset
      outLen encoded'
      (start + encoded' + 3) le_rfl hdatafit hout hle' (by omega) hlt
  cases hflen : f.len with
  | none =>
      rw [hflen] at hlen hn hpayload
      rw [lenPieces, List.nil_append] at hpayload
      rw [hpayload] at hnext hsize hne ⊢
      rw [qmiEncode_fixed hlen hdata, encodeData, if_pos rfl, Nat.zero_add, ← hn, fate_append]
      apply (hvalue encoded hle (by omega)).bind
      intro hdone
      rw [Nat.zero_add]
      exact hnext (span_le_of_done_of_ne_nil hdone hne) _ _
  | some l =>
      rw [hflen] at hlen hn hlenfit hpayload
      have hspan : span (f.payloadPieces m) = 1 + span ds := by
        rw [hpayload, lenPieces, span_append, span_cons, span_nil, Nat.add_zero, Nat.zero_add]
      rw [hspan] at hnext hsize ⊢
      rw [hpayload, List.append_assoc]
      rw [qmiEncode_counted hlen hdata hlenfit hskip, if_pos rfl, ← hn]
      apply encodeLen_ends (by omega) (by omega)
      intro hin
      by_cases hz : n = 0
      · obtain ⟨hfate, hzero⟩ := @fate_dataPieces_zero m bound f.data _ hdata hlen.of_some false
          (f.sub.pieces m)
          (start + encoded + 3 + 1) f.data.offset hin rs
        have hempty : ds = dataPieces m false (f.sub.pieces m) f.data 0 f.data.offset := by
          rw [hds, hz]
        rw [← hempty] at hfate hzero
        rw [hzero] at hnext ⊢
        rw [if_pos hz, hfate]
        exact hnext hin l.tlvType 0
      · have hv := hvalue (encoded + 1) (by omega) (by omega)
        have hpos : start + (encoded + 1) + 3 = start + encoded + 3 + 1 := by omega
        rw [hpos] at hv
        rw [if_neg hz, encodeData, if_pos rfl, hpos, Nat.zero_add, fate_append]
        apply hv.bind
        intro hdone
        have hroom := span_le_of_done hdone hin le_rfl
        have hnow := hnext (by omega) f.data.tlvType n
        have h₁ : encoded + (1 + span ds) = encoded + 1 + span ds := by omega
        have h₂ : start + encoded + 3 + (1 + span ds) = start + encoded + 3 + 1 + span ds := by
          omega
        have h₃ : 0 + 1 + span ds = 1 + span ds := by omega
        rw [h₁, h₂] at hnow
        rw [h₃]
        exact hnow

theorem encode_fields_ends {fs : List Field} (hfs : MessageWf fs) (hfit : ∀ f ∈ fs, f.Fits m)
    (hspace : start + outLen = bound) (hout : outLen < 2 ^ 32) :
    ∀ encoded dataLen, encoded ≤ outLen →
      encoded + span (fs.flatMap fun f => f.pieces m) < 2 ^ 32 →
      Ends (qmiEncode m 1 (toTable fs) 0 start outLen encoded dataLen 0) inp bound
        (encoded + span (fs.flatMap fun f => f.pieces m))
        (fate bound (start + encoded) (fs.flatMap fun f => f.pieces m)) := by
  induction fs with
  | nil =>
      intro encoded dataLen _ _
      rw [toTable, List.foldr_nil, qmiEncode_nil]
      exact Ends.pure _
  | cons f fs ih =>
      intro encoded dataLen hle hsize
      have hf := hfs.fields f (by simp)
      obtain ⟨-, hlenfit, hdatafit⟩ := hfit f (by simp)
      have hrest := ih hfs.tail (fun g hg => hfit g (by simp [hg]))
      have hne := @Field.payloadPieces_ne_nil m f hf
      obtain ⟨dataLen', hfield⟩ := @qmiEncode_field m f start outLen fs hfs encoded dataLen
      rw [List.flatMap_cons] at hsize ⊢
      rw [hfield]
      by_cases hp : f.Present m
      · have hpieces : f.pieces m = headed 3 (f.payloadPieces m) := by rw [Field.pieces, if_pos hp]
        rw [if_pos hp, hpieces, span_append, span_headed 3 hne, fate_append, fate_headed _ _ _ hne,
          span_headed 3 hne,
          ← Nat.add_assoc, ← Nat.add_assoc, ← Nat.add_assoc, ← fate_append]
        rw [hpieces, span_append, span_headed 3 hne] at hsize
        exact encode_present_ends hf (hlenfit hp) (hdatafit hp) (skipToNextElem_data hfs) hspace
          hout hrest hle
          (by omega) dataLen'
      · have hpieces : f.pieces m = [] := by rw [Field.pieces, if_neg hp]
        rw [hpieces, List.nil_append] at hsize ⊢
        rw [if_neg hp]
        exact hrest encoded dataLen' hle hsize

end Encode

/-! ### The messages -/

section Messages

variable {m : ℕ → UInt8}

theorem Field.span_pieces_le {f : Field} (hf : f.Wf) (hfit : f.Fits m) :
    span (f.pieces m) ≤ f.maxLen := by
  unfold Field.pieces
  by_cases hp : f.Present m
  · rw [if_pos hp, span_headed 3 (Field.payloadPieces_ne_nil hf), Field.payloadPieces, span_append]
    have h₁ := span_lenPieces_le f.len
    have h₂ := @span_dataPieces_le m f.data false (f.sub.pieces m) _ _ f.sub.maxLen _
      (valueCount_le_maxCount hf.len_wf (hfit.len hp)) (hfit.data hp)
      (fun htype i hi => Descr.span_pieces_le
        (hf.data_wf.struct htype).2 (dataFits_struct (hfit.data hp) htype i hi))
    unfold Field.maxLen
    omega
  · rw [if_neg hp]
    exact Nat.zero_le _

theorem span_pieces_le {fs : List Field} (hfs : ∀ f ∈ fs, f.Wf) (hfit : ∀ f ∈ fs, f.Fits m) :
    span (fs.flatMap fun f => f.pieces m) ≤ (fs.map Field.maxLen).sum := by
  induction fs with
  | nil => exact le_rfl
  | cons f fs ih =>
      have hfirst := Field.span_pieces_le (hfs f (by simp)) (hfit f (by simp))
      have hrest := ih (fun g hg => hfs g (by simp [hg])) (fun g hg => hfit g (by simp [hg]))
      rw [List.flatMap_cons, span_append, List.map_cons, List.sum_cons]
      omega

/-- A message in a packet: the header is written last, in front of the elements. -/
theorem encode_message_ends {fs : List Field} (hfs : MessageWf fs) (hfit : ∀ f ∈ fs, f.Fits m)
    (hmax : (fs.map Field.maxLen).sum < 2 ^ 32) {dataLen : ℕ} (hmin : 7 ≤ dataLen)
    (hlen : dataLen < 2 ^ 32)
    (type : UInt8) (msgId txnId : ℕ) :
    Ends (qmiEncodeMessage m dataLen type msgId txnId (toTable fs)) m dataLen
      (7 + (wire m fs).length)
      (fate dataLen 7 (fs.flatMap fun f => f.pieces m)) := by
  have hspan := span_pieces_le hfs.fields hfit
  have hbody := @encode_fields_ends m m dataLen 7 (dataLen - 7) fs hfs hfit (by omega)
    (by omega) 0 0
    (Nat.zero_le _) (by omega)
  rw [Nat.zero_add, Nat.add_zero, span_pieces hfs.fields] at hbody
  rw [qmiEncodeMessage, if_neg (by omega)]
  refine hbody.bind_done fun _ => ?_
  refine (Ends.storeAll ?_).bind_done fun _ => Ends.pure _
  simp only [qmiHeader, List.length_cons, List.length_append, toLE_length]
  omega

theorem encode_message_ok {fs : List Field} (hfs : MessageWf fs) (hfit : ∀ f ∈ fs, f.Fits m)
    {dataLen : ℕ}
    (hroom : 7 + (fs.map Field.maxLen).sum ≤ dataLen) (hlen : dataLen < 2 ^ 32) (type : UInt8)
    (msgId txnId : ℕ) :
    ∃ n ≤ dataLen, (qmiEncodeMessage m dataLen type msgId txnId (toTable fs)).result m = .ok n := by
  have hspan := span_pieces_le hfs.fields hfit
  have hends := encode_message_ends hfs hfit (by omega) (by omega : 7 ≤ dataLen) hlen
    type msgId txnId
  rw [fate_eq_done (by omega)] at hends
  rw [span_pieces hfs.fields] at hspan
  exact ⟨7 + (wire m fs).length, by omega, hends.1⟩

/-- **The encoder stays inside its buffer**, and no difference wraps, exactly when no piece of the
message spills; only a nested string can. -/
theorem encode_inside_iff {msg : Message} (hwf : msg.Wf) (hmax : msg.maxLen < 2 ^ 32)
    (hfit : msg.Fits m)
    {outLen : ℕ} (hout : outLen < 2 ^ 32) :
    (qmiEncode m 1 msg.toTable 0 0 outLen 0 0 0).Inside m outLen ↔
    ¬ Spills outLen (msg.pieces m) := by
  rw [spills_iff]
  cases msg with
  | fields fs =>
      have hspan := span_pieces_le hwf.fields hfit
      have hends := @encode_fields_ends m m outLen 0 outLen fs hwf hfit (Nat.zero_add _) hout 0 0
        (Nat.zero_le _)
        (by rw [Nat.zero_add]; exact hspan.trans_lt hmax)
      exact hends.inside_iff
  | unsized e eiArray rest =>
      have hfail : qmiEncode m 1 (.cons e eiArray rest) 0 0 outLen 0 0 0 = .fail .einval := by
        have hcount : encodeCount e 0 = .fail .einval := by
          have harr : e.arrayType = .varLenArray := hwf
          rw [encodeCount, harr]
          rfl
        rw [qmiEncode, hcount, Prog.fail_bind]
      rw [Message.toTable, hfail, (Ends.fail Errno.einval (0 : ℕ)).inside_iff]
      exact ⟨fun _ => by simp [Message.pieces, fate], fun _ => by simp⟩

/-- A buffer of the size of the message. -/
theorem encode_inside_sampleDomainList :
    (qmiEncode sampleDomainList 1 servregLocGetDomainListRespEi 0 0 22 0 0
      0).Inside sampleDomainList 22 :=
  (@encode_inside_iff sampleDomainList (.fields domainListRespFields)
    (by decide : MessageWf domainListRespFields) (by decide)
    (by decide : ∀ f ∈ domainListRespFields, f.Fits sampleDomainList) 22
    (by norm_num)).mpr (by decide)

/-- A buffer that ends where the name of the domain starts: the length of the name is stored at 11
and the name at 12. -/
theorem encode_outside_sampleDomainList :
    ¬ (qmiEncode sampleDomainList 1 servregLocGetDomainListRespEi 0 0 11 0 0
      0).Inside sampleDomainList 11 := by
  decide +kernel

end Messages

end Imola.Qmi
