import Imola.QmiEncodeWire

/-! # Decoding what was encoded

The decoder, run on the wire form of a structure, reproduces the described blocks of the
structure and nothing else: every byte it stores is the byte of the structure at that place, so
the blocks may even overlap.  With the encoder's side (`encode_message_writes`) this is the round
trip `decode_encode`. -/

namespace Imola.Qmi

open Imola.Bytes Imola.Splice Imola.Progs

/-! ### Strings and counts -/

section Values

variable {m inp : ℕ → UInt8}

theorem strlen_nul {a bound : ℕ} (h : strlen m a bound < bound) : m (a + strlen m a bound) = 0 := by
  induction bound generalizing a with
  | zero => omega
  | succ bound ih =>
      simp only [strlen] at h ⊢
      by_cases hz : m a = 0
      · rw [if_pos hz]
        exact hz
      · rw [if_neg hz] at h ⊢
        have hrec := @ih (a + 1) (by omega)
        rw [Nat.add_assoc, Nat.add_comm 1] at hrec
        exact hrec

theorem strlen_of_window {s : List UInt8} (hs : ∀ b ∈ s, b ≠ 0) :
    ∀ {a bound : ℕ}, s.length < bound →
    window m a (s ++ [0]).length = s ++ [0] → strlen m a bound = s.length := by
  induction s with
  | nil =>
      intro a bound hbound hw
      obtain ⟨bound, rfl⟩ : ∃ n, bound = n + 1 :=
        ⟨bound - 1, by rw [List.length_nil] at hbound; omega⟩
      have hzero : m a = 0 := (List.cons.inj hw).1
      rw [strlen, if_pos hzero, List.length_nil]
  | cons b s ih =>
      intro a bound hbound hw
      rw [List.length_cons] at hbound
      obtain ⟨bound, rfl⟩ : ∃ n, bound = n + 1 := ⟨bound - 1, by omega⟩
      rw [List.cons_append, List.length_cons, window_succ, List.cons.injEq] at hw
      have hrest := ih (fun c hc => hs c (List.mem_cons_of_mem _ hc))
        (by omega : s.length < bound) hw.2
      rw [strlen, hw.1, if_neg (hs b List.mem_cons_self), hrest, List.length_cons]

theorem setLow_byte {x : ℕ} (hx : x < 256) (b : UInt8) : setLow x [b] = b.toNat := by
  have h₁ : x / 256 = 0 := by omega
  simp [setLow, toLE, ofLE, h₁]

theorem decodeString_copies {e : ElemInfo} (hs : e.elemSize = 1) {level dst src tlvLen : ℕ}
    (hshort : strlen m dst (e.elemLen + 1) < e.elemLen)
    (hread : window inp src
      ((if level = 1 then [] else toLE e.stringLenSz (strlen m dst (e.elemLen + 1))) ++
        window m dst (strlen m dst (e.elemLen + 1))).length =
      (if level = 1 then [] else toLE e.stringLenSz (strlen m dst (e.elemLen + 1))) ++
        window m dst (strlen m dst (e.elemLen + 1)))
    (htop : level = 1 → strlen m dst (e.elemLen + 1) = tlvLen)
    (hlen : strlen m dst (e.elemLen + 1) ≤ tlvLen) (hmax : tlvLen ≤ 65535) :
    Copies (qmiDecodeStringElem level e dst src tlvLen) inp m
      ((if level = 1 then 0 else e.stringLenSz) + strlen m dst (e.elemLen + 1))
      [(dst, strlen m dst (e.elemLen + 1) + 1)] := by
  have hnul : m (dst + strlen m dst (e.elemLen + 1)) = 0 := strlen_nul (by omega)
  set len := strlen m dst (e.elemLen + 1) with hlendef
  obtain ⟨hpre, hbytes⟩ := window_eq_append hread
  have hprelen : (if level = 1 then [] else toLE e.stringLenSz len).length =
      if level = 1 then 0 else e.stringLenSz := by
    split_ifs
    · rfl
    · rw [toLE_length]
  have hfits : len < 256 ^ e.stringLenSz := by
    unfold ElemInfo.stringLenSz
    split_ifs
    · omega
    · omega
  rw [hprelen] at hpre hbytes
  rw [window_length] at hbytes
  unfold qmiDecodeStringElem
  refine Copies.readN_bind hpre ?_
  have hstr : (if level = 1 then tlvLen else
      ofLE (if level = 1 then [] else toLE e.stringLenSz len)) = len := by
    by_cases hl : level = 1
    · rw [if_pos hl, htop hl]
    · rw [if_neg hl, if_neg hl, ofLE_toLE hfits]
  simp only [hstr, hs, Nat.mul_one]
  rw [if_neg (by omega), if_neg (by omega)]
  refine Copies.readN_bind hbytes ?_
  have hzero : [0] = window m (dst + len) 1 := by
    rw [← hnul]
    rfl
  refine Copies.congr ?_ fun out => copied_adjacent m out dst len 1
  exact Copies.storeAll_bind rfl (Copies.storeAll_bind hzero (Copies.pure _ _ _))

theorem decodeStruct_copies {dec : ℕ → ℕ → ℕ → Prog Errno ℕ} {wireSub : ℕ → List UInt8}
    {blocksSub : ℕ → List (ℕ × ℕ)} {level elemSize tlvLen : ℕ} (n : ℕ) : ∀ (dst src decoded : ℕ),
      (∀ i < n, 1 ≤ (wireSub (dst + i * elemSize)).length) →
      (∀ i < n, ∀ src len, window inp src (wireSub (dst + i * elemSize)).length =
        wireSub (dst + i * elemSize) →
        (wireSub (dst + i * elemSize)).length ≤ len → len ≤ tlvLen →
        Copies (dec (dst + i * elemSize) src len) inp m (wireSub (dst + i * elemSize)).length
          (blocksSub (dst + i * elemSize))) →
      window inp src ((List.range n).flatMap fun i => wireSub (dst + i * elemSize)).length =
        ((List.range n).flatMap fun i => wireSub (dst + i * elemSize)) →
      decoded + ((List.range n).flatMap fun i => wireSub (dst + i * elemSize)).length ≤ tlvLen →
      (level ≤ 2 →
        decoded + ((List.range n).flatMap fun i => wireSub (dst + i * elemSize)).length = tlvLen) →
      Copies (qmiDecodeStructElem dec level elemSize tlvLen n dst src decoded) inp m
        (decoded + ((List.range n).flatMap fun i => wireSub (dst + i * elemSize)).length)
        ((List.range n).flatMap fun i => blocksSub (dst + i * elemSize)) := by
  induction n with
  | zero =>
      intro dst src decoded _ _ _ hle htop
      simp only [List.range_zero, List.flatMap_nil, List.length_nil, Nat.add_zero] at hle htop ⊢
      unfold qmiDecodeStructElem
      rw [if_neg (by omega)]
      exact Copies.pure _ _ _
  | succ n ih =>
      intro dst src decoded hpos hdec hread hle htop
      have hshift : ∀ i, dst + elemSize + i * elemSize = dst + (i + 1) * elemSize := by
        intro i
        rw [Nat.succ_mul]
        omega
      have hpos₀ := hpos 0 (by omega)
      have hdec₀ := hdec 0 (by omega) src (tlvLen - decoded)
      simp only [List.range_succ_eq_map, List.flatMap_cons, List.flatMap_map, List.length_append,
        Nat.zero_mul, Nat.add_zero] at hpos₀ hdec₀ hread hle htop ⊢
      rw [← List.length_append] at hread
      obtain ⟨hread₀, hread'⟩ := window_eq_append hread
      unfold qmiDecodeStructElem
      rw [if_pos (by omega)]
      refine (hdec₀ hread₀ (by omega) (by omega)).bind ?_
      have hrest := ih (dst + elemSize) (src + (wireSub dst).length)
        (decoded + (wireSub dst).length)
      simp only [hshift] at hrest
      rw [← Nat.add_assoc]
      refine hrest (fun i hi => hpos (i + 1) (by omega)) (fun i hi => hdec (i + 1) (by omega))
        hread' ?_ ?_
      · rw [Nat.add_assoc]
        exact hle
      · intro hl
        rw [Nat.add_assoc]
        exact htop hl

/-- The data of an element, decoded at its own place.  At the top it fills its TLV. -/
theorem decodeValue_copies {e : ElemInfo} {sub : Prop} (hd : DataWf e sub)
    {dec : ℕ → ℕ → ℕ → Prog Errno ℕ} {wireSub : ℕ → List UInt8} {blocksSub : ℕ → List (ℕ × ℕ)}
    {fitsSub : ℕ → Prop} {level count tlvLen dst src : ℕ} (hfit : dataFits m fitsSub e count dst)
    (hpos : e.dataType = .struct → ∀ i < count, 1 ≤ (wireSub (dst + i * e.elemSize)).length)
    (hdec : e.dataType = .struct → ∀ i < count, ∀ src len,
      window inp src (wireSub (dst + i * e.elemSize)).length = wireSub (dst + i * e.elemSize) →
      (wireSub (dst + i * e.elemSize)).length ≤ len → len ≤ tlvLen →
      Copies (dec (dst + i * e.elemSize) src len) inp m (wireSub (dst + i * e.elemSize)).length
        (blocksSub (dst + i * e.elemSize)))
    (hread : window inp src (dataBytes m (level ≠ 1) wireSub e count dst).length =
      dataBytes m (level ≠ 1) wireSub e count dst)
    (hlen : (dataBytes m (level ≠ 1) wireSub e count dst).length ≤ tlvLen)
    (htop : level ≤ 1 → (dataBytes m (level ≠ 1) wireSub e count dst).length = tlvLen)
    (hmax : tlvLen ≤ 65535) :
    Copies (decodeValue dec level e count tlvLen dst src) inp m
      (dataBytes m (level ≠ 1) wireSub e count dst).length (dataBlocks m blocksSub e
        count dst) := by
  unfold DataWf at hd
  unfold dataFits at hfit
  unfold dataBytes at hread hlen htop ⊢
  unfold decodeValue dataBlocks
  cases htype : e.dataType with
  | optFlag => simp [htype] at hd
  | dataLen => simp [htype] at hd
  | struct =>
      simp only [htype] at hread hlen htop ⊢
      have hcopies : Copies (qmiDecodeStructElem dec (level + 1) e.elemSize tlvLen count dst src 0)
          inp m _ _ :=
        decodeStruct_copies count dst src 0 (hpos htype) (hdec htype) hread
          (by rw [Nat.zero_add]; exact hlen) (fun hl => by rw [Nat.zero_add]; exact htop (by omega))
      rwa [Nat.zero_add] at hcopies
  | string =>
      simp only [htype] at hd hfit hread hlen htop ⊢
      have hif : (if decide (level ≠ 1) = true then toLE e.stringLenSz
          (strlen m dst (e.elemLen + 1)) else []) =
          if level = 1 then [] else toLE e.stringLenSz (strlen m dst (e.elemLen + 1)) := by
        by_cases hl : level = 1
        · simp [hl]
        · simp [hl]
      rw [hif] at hread hlen htop ⊢
      have htotal :
        ((if level = 1 then [] else toLE e.stringLenSz (strlen m dst (e.elemLen + 1))) ++
          window m dst (strlen m dst (e.elemLen + 1))).length =
          (if level = 1 then 0 else e.stringLenSz) + strlen m dst (e.elemLen + 1) := by
        split_ifs
        · simp
        · simp
      rw [htotal] at hlen htop ⊢
      refine decodeString_copies hd.2 hfit hread (fun hl => ?_) (by omega) hmax
      have hfill := htop (by omega)
      rw [if_pos hl, Nat.zero_add] at hfill
      exact hfill
  | _ =>
      simp only [htype, window_length] at hread hlen htop ⊢
      exact Copies.readN_bind hread (Copies.storeAll_bind rfl (Copies.pure _ _ _))

theorem valueCount_lt {len : Option ElemInfo} {data : ElemInfo} (hlen : LenWf len data) {base : ℕ}
    (hfit : lenFits m base len data) : valueCount m base len data < 256 := by
  cases len with
  | none =>
      unfold valueCount
      rcases hlen with h | ⟨h, -, hmax⟩
      · simp [h]
      · simp only [h]
        rw [if_neg (by decide)]
        omega
  | some l =>
      have hle := hfit l rfl
      have hmax := hlen.2.2.2.2.2
      exact lt_of_le_of_lt (hle.trans hmax) (by norm_num)

end Values

/-! ### The decoder, entry by entry -/

section Equations

variable {e : ElemInfo} {eiArray rest : Table} {level base start inLen tlvLen decoded dataLen : ℕ}
  {stage : Stage}

theorem decodeElems_data (h : e.dataType ≠ .optFlag) (h' : e.dataType ≠ .dataLen)
    (hin : ¬ (stage = .first ∧ level ≥ 2 ∧ inLen ≤ decoded)) :
    qmiDecodeElems (.cons e eiArray rest) level base start inLen stage tlvLen decoded dataLen = (do
      let count ← decodeCount e dataLen
      let rc ← decodeValue
        (fun dst src len => do
          let r ← qmiDecodeElems eiArray (level + 1) dst src len .first 0 0 0
          pure r.1)
        level e count (if stage = .first ∧ level ≥ 2 then inLen - decoded else tlvLen)
          (base + e.offset)
        (start + decoded)
      if level ≥ 2 then qmiDecodeElems rest level base start inLen .first 0 (decoded + rc) count
      else pure (decoded + rc, count)) := by
  rw [qmiDecodeElems, if_neg hin]
  simp only [h, h', false_and, if_false]

theorem decodeElems_len (h : e.dataType = .dataLen) (hs : e.elemSize = 1)
    (hstage : stage ≠ .counted)
    (hin : ¬ (stage = .first ∧ level ≥ 2 ∧ inLen ≤ decoded)) :
    qmiDecodeElems (.cons e eiArray rest) level base start inLen stage tlvLen decoded dataLen = (do
      let bytes ← Prog.readN (start + decoded) 1
      Prog.storeAll (base + e.offset) (toLE 4 (setLow dataLen bytes))
      qmiDecodeElems rest level base start inLen .counted
        (sub32 (if stage = .first ∧ level ≥ 2 then inLen - decoded else tlvLen) 1) (decoded + 1)
        (setLow dataLen bytes)) := by
  rw [qmiDecodeElems, if_neg hin]
  simp only [h, hstage, ElemInfo.dataLenSz, hs, if_true, ne_eq, not_false_eq_true, and_self]
  rfl

theorem decodeElems_flag (h : e.dataType = .optFlag) :
    qmiDecodeElems (.cons e eiArray rest) 1 base start inLen .first tlvLen decoded dataLen = (do
      Prog.storeAll (base + e.offset) [1]
      qmiDecodeElems rest 1 base start inLen .flagged tlvLen decoded dataLen) := by
  rw [qmiDecodeElems, if_neg (by omega)]
  simp only [h, and_self, if_true]
  rfl

end Equations

/-! ### The decoder, element by element -/

section Elements

variable {m inp : ℕ → UInt8} {data : ElemInfo} {sub : Prop} {t rest : Table}
  {level base start inLen tlvLen decoded dataLen space : ℕ} {stage : Stage}

/-- `n` values of an element in the next `space` bytes, and above level 1 the entries behind it. -/
def decodeData (data : ElemInfo) (t rest : Table) (level base start inLen n space decoded : ℕ) :
    Prog Errno (ℕ × ℕ) := do
  let rc ← decodeValue
    (fun dst src len => do
      let r ← qmiDecodeElems t (level + 1) dst src len .first 0 0 0
      pure r.1)
    level data n space (base + data.offset) (start + decoded)
  if level ≥ 2 then qmiDecodeElems rest level base start inLen .first 0 (decoded + rc) n
  else pure (decoded + rc, n)

theorem decodeElems_fixed (hlen : LenWf none data) (hdata : DataWf data sub)
    (hin : ¬ (stage = .first ∧ level ≥ 2 ∧ inLen ≤ decoded))
    (hspace : (if stage = .first ∧ level ≥ 2 then inLen - decoded else tlvLen) = space) :
    qmiDecodeElems (consLen none (.cons data t rest)) level base start inLen stage tlvLen
      decoded dataLen =
      decodeData data t rest level base start inLen (valueCount m base none data) space
        decoded := by
  have hcount : decodeCount data dataLen = pure (valueCount m base none data) := by
    unfold decodeCount valueCount
    rcases hlen with h | ⟨h, -⟩
    · simp [h]
    · simp [h]
  rw [consLen, decodeElems_data hdata.ne_flag hdata.ne_len hin, hcount, Prog.pure_bind,
    hspace, decodeData]

theorem decodeElems_counted {l : ElemInfo} {v : ℕ × ℕ} {B : List (ℕ × ℕ)}
    (hlen : LenWf (some l) data)
    (hdata : DataWf data sub) (hfit : lenFits m base (some l) data) (hstage : stage ≠ .counted)
    (hdl : dataLen < 256) (hin : ¬ (stage = .first ∧ level ≥ 2 ∧ inLen ≤ decoded))
    (hspace : (if stage = .first ∧ level ≥ 2 then inLen - decoded else tlvLen) = space + 1)
    (hmax : space < 65535)
    (hread : window inp (start + decoded) 1 = [m (base + l.offset)])
    (hnext : Copies (decodeData data t rest level base start inLen
      (valueCount m base (some l) data) space
      (decoded + 1)) inp m v B) :
    Copies (qmiDecodeElems (consLen (some l) (.cons data t rest)) level base start inLen stage
      tlvLen decoded
      dataLen) inp m v (lenBlock base (some l) ++ B) := by
  obtain ⟨hltype, -, hlsize, harr, -, hlmax⟩ := hlen
  obtain ⟨hbyte, hfield⟩ := lenField_eq (hfit l rfl) hlmax
  have hn : valueCount m base (some l) data = (m (base + l.offset)).toNat := hbyte
  have hle : valueCount m base (some l) data ≤ data.elemLen := hfit l rfl
  have hcount : decodeCount data (valueCount m base (some l) data) =
      pure (valueCount m base (some l) data) := by
    unfold decodeCount
    rw [harr]
    exact if_neg (by omega)
  have hsub : sub32 (space + 1) 1 = space := sub32_of_le (by omega) (by omega)
  rw [consLen, decodeElems_len hltype hlsize hstage hin, hspace, hsub, lenBlock,
    List.singleton_append]
  refine Copies.readN_bind hread ?_
  rw [setLow_byte hdl, ← hn]
  refine Copies.storeAll_bind hfield.symm ?_
  rw [decodeElems_data hdata.ne_flag hdata.ne_len (by simp), hcount, Prog.pure_bind,
    if_neg (by simp)]
  exact hnext

end Elements

/-! ### Nested structures -/

section Nested

variable {m inp : ℕ → UInt8}

/-- A nested structure that stands in the input is decoded at its own place. -/
def Descr.Decodes (m inp : ℕ → UInt8) (d : Descr) : Prop :=
  ∀ {level : ℕ}, 2 ≤ level → ∀ base, d.Fits m base →
    ∀ start inLen tlvLen decoded dataLen, dataLen < 256 →
    inLen ≤ 65535 → window inp (start + decoded) (d.wire m base).length = d.wire m base →
    decoded + (d.wire m base).length ≤ inLen →
    ∃ dataLen' < 256, Copies (qmiDecodeElems d.toTable level base start inLen .first tlvLen
      decoded dataLen)
      inp m (decoded + (d.wire m base).length, dataLen') (d.blocks m base)

theorem decodeValue_descr {data : ElemInfo} {sub : Descr}
    (hdata : DataWf data (sub ≠ .nil ∧ sub.Wf))
    (hsub : sub.Wf → sub.Decodes m inp) {level n space dst src : ℕ} (hlevel : 1 ≤ level)
    (hfit : dataFits m (sub.Fits m) data n dst)
    (hread : window inp src (dataBytes m (level ≠ 1) (sub.wire m) data n dst).length =
      dataBytes m (level ≠ 1) (sub.wire m) data n dst)
    (hlen : (dataBytes m (level ≠ 1) (sub.wire m) data n dst).length ≤ space)
    (htop : level ≤ 1 → (dataBytes m (level ≠ 1) (sub.wire m) data n dst).length = space)
    (hmax : space ≤ 65535) :
    Copies (decodeValue (fun dst src len => do
        let r ← qmiDecodeElems sub.toTable (level + 1) dst src len .first 0 0 0
        pure r.1) level data n space dst src) inp m
      (dataBytes m (level ≠ 1) (sub.wire m) data n dst).length (dataBlocks m (sub.blocks m) data
        n dst) := by
  refine decodeValue_copies hdata hfit ?_ ?_ hread hlen htop hmax
  · intro htype i hi
    exact Descr.wire_pos (hdata.struct htype).2 (hdata.struct htype).1 _
  · intro htype i hi src len hr hl hl'
    obtain ⟨_, _, hcopies⟩ := hsub (hdata.struct htype).2 (by omega : 2 ≤ level + 1) _
      (dataFits_struct hfit htype i hi) src len 0 0 0 (by norm_num) (hl'.trans hmax)
      (by rw [Nat.add_zero]; exact hr) (by rw [Nat.zero_add]; exact hl)
    rw [Nat.zero_add] at hcopies
    exact hcopies.map Prod.fst

theorem decode_descr {d : Descr} : d.Wf → d.Decodes m inp := by
  induction d with
  | nil =>
      intro _ level _ base _ start inLen tlvLen decoded dataLen hdl _ _ _
      refine ⟨dataLen, hdl, ?_⟩
      rw [Descr.toTable, qmiDecodeElems, if_pos rfl]
      exact Copies.pure _ _ _
  | elem len data sub rest ihsub ihrest =>
      intro hwf level hlevel base hfit start inLen tlvLen decoded dataLen hdl hmax hread hle
      have hpos := Descr.wire_pos (m := m) hwf (by simp) base
      obtain ⟨hlen, hdata, hrest⟩ := hwf
      obtain ⟨hlenfit, hdatafit, hrestfit⟩ := hfit
      have hcount := valueCount_lt hlen hlenfit
      set n := valueCount m base len data with hn
      have hdec : decide (level ≠ 1) = true := decide_eq_true (by omega)
      set value := dataBytes m true (sub.wire m) data n (base + data.offset) with hvalue
      have hentry : ∀ space decoded,
          window inp (start + decoded) (value ++ rest.wire m base).length =
            value ++ rest.wire m base →
          decoded + (value.length + (rest.wire m base).length) ≤ inLen → value.length ≤ space →
          space ≤ 65535 →
          ∃ dataLen' < 256, Copies (decodeData data sub.toTable rest.toTable level base start inLen
            n space decoded)
            inp m (decoded + (value.length + (rest.wire m base).length), dataLen')
            (dataBlocks m (sub.blocks m) data n (base + data.offset) ++ rest.blocks m base) := by
        intro space decoded hread hle hspace hbound
        obtain ⟨hread₁, hread₂⟩ := window_eq_append hread
        obtain ⟨dataLen', hdl', hcopies⟩ := ihrest hrest hlevel base hrestfit start inLen 0
          (decoded + value.length) n hcount hmax (by rw [← Nat.add_assoc]; exact hread₂) (by omega)
        refine ⟨dataLen', hdl', ?_⟩
        have hv := @decodeValue_descr m inp data sub hdata ihsub level n space (base + data.offset)
          (start + decoded)
          (by omega) hdatafit (by rw [hdec]; exact hread₁) (by rw [hdec]; exact hspace)
          (by omega) hbound
        rw [hdec, ← hvalue] at hv
        rw [decodeData, ← Nat.add_assoc]
        refine hv.bind ?_
        rw [if_pos hlevel]
        exact hcopies
      cases len with
      | none =>
          have hwire : (Descr.elem none data sub rest).wire m base = value ++ rest.wire m base := by
            simp only [Descr.wire, lenBytes, List.nil_append, hvalue, hn]
          rw [hwire] at hread hle hpos ⊢
          rw [List.length_append] at hle hpos ⊢
          rw [Descr.blocks, lenBlock, List.nil_append, ← hn, Descr.toTable,
            decodeElems_fixed (m := m) hlen hdata (by omega) (if_pos ⟨rfl, hlevel⟩), ← hn]
          exact hentry (inLen - decoded) decoded hread hle (by omega) (by omega)
      | some l =>
          have hwire : (Descr.elem (some l) data sub rest).wire m base =
              [m (base + l.offset)] ++ (value ++ rest.wire m base) := by
            simp only [Descr.wire, lenBytes, List.append_assoc, hvalue, hn]
          rw [hwire] at hread hle hpos ⊢
          obtain ⟨hread₁, hread₂⟩ := window_eq_append hread
          rw [List.length_append, List.length_singleton, List.length_append] at hle ⊢
          obtain ⟨dataLen', hdl', hcopies⟩ := hentry (inLen - decoded - 1) (decoded + 1)
            (by rw [← Nat.add_assoc]; exact hread₂) (by omega) (by omega) (by omega)
          refine ⟨dataLen', hdl', ?_⟩
          rw [Descr.toTable, Descr.blocks, List.append_assoc, ← Nat.add_assoc, ← hn]
          refine decodeElems_counted hlen hdata hlenfit (by simp) hdl (by omega) ?_ (by omega)
            hread₁ hcopies
          rw [if_pos ⟨rfl, hlevel⟩]
          omega

end Nested

/-! ### Messages -/

section Message

variable {m inp : ℕ → UInt8} {f : Field} (rest : Table)

theorem decode_present (hf : f.Wf) (hlenfit : lenFits m 0 f.len f.data)
    (hdatafit : dataFits m (f.sub.Fits m) f.data (valueCount m 0 f.len f.data) f.data.offset)
    {stage : Stage} (hstage : stage ≠ .counted) (start inLen decoded : ℕ) {dataLen : ℕ}
    (hdl : dataLen < 256)
    (hmax : (f.payload m).length ≤ 65535)
    (hread : window inp (start + decoded) (f.payload m).length = f.payload m) :
    ∃ dataLen' < 256, Copies (qmiDecodeElems (consLen f.len (.cons f.data f.sub.toTable rest)) 1
      0 start inLen
        stage (f.payload m).length decoded dataLen) inp m (decoded + (f.payload m).length, dataLen')
      (lenBlock 0 f.len ++ dataBlocks m (f.sub.blocks m) f.data (valueCount m 0 f.len f.data)
        f.data.offset) := by
  have hdata := hf.data_wf
  have hlen := hf.len_wf
  refine ⟨_, valueCount_lt hlen hlenfit, ?_⟩
  set n := valueCount m 0 f.len f.data with hn
  set value := dataBytes m false (f.sub.wire m) f.data n f.data.offset with hvalue
  have hlevel : ¬ (stage = .first ∧ 1 ≥ 2) := by omega
  have hentry : ∀ decoded, window inp (start + decoded) value.length = value →
      value.length ≤ 65535 →
      Copies (decodeData f.data f.sub.toTable rest 1 0 start inLen n value.length decoded) inp m
        (decoded + value.length, n) (dataBlocks m (f.sub.blocks m) f.data n f.data.offset) := by
    intro decoded hread hbound
    have hv := @decodeValue_descr m inp f.data f.sub hdata decode_descr 1 n value.length
      f.data.offset
      (start + decoded) le_rfl hdatafit hread le_rfl (fun _ => rfl) hbound
    rw [decodeData, Nat.zero_add]
    exact hv.map fun rc => (decoded + rc, n)
  cases hflen : f.len with
  | none =>
      rw [hflen] at hlen hn
      have hpayload : f.payload m = value := by
        simp only [Field.payload, hflen, lenBytes, List.nil_append, hvalue, hn]
      rw [hpayload] at hread hmax ⊢
      rw [decodeElems_fixed (m := m) hlen hdata (by omega) (if_neg hlevel), lenBlock,
        List.nil_append, ← hn]
      exact hentry decoded hread hmax
  | some l =>
      rw [hflen] at hlen hn hlenfit
      have hpayload : f.payload m = [m (0 + l.offset)] ++ value := by
        simp only [Field.payload, hflen, lenBytes, hvalue, hn]
      rw [hpayload] at hread hmax ⊢
      obtain ⟨hread₁, hread₂⟩ := window_eq_append hread
      rw [List.length_append, List.length_singleton] at hmax ⊢
      have hcopies := hentry (decoded + 1) (by rw [← Nat.add_assoc]; exact hread₂) (by omega)
      rw [Nat.add_assoc, hn] at hcopies
      rw [hn]
      refine decodeElems_counted hlen hdata hlenfit hstage hdl (by omega) ?_ (by omega)
        hread₁ hcopies
      rw [if_neg hlevel]
      omega

theorem decode_field (hf : f.Wf) (hfit : f.Fits m) (hp : f.Present m) (start inLen decoded : ℕ)
    {dataLen : ℕ}
    (hdl : dataLen < 256) (hmax : (f.payload m).length ≤ 65535)
    (hread : window inp (start + decoded) (f.payload m).length = f.payload m) :
    ∃ dataLen' < 256, Copies (qmiDecodeElems (f.consTable rest) 1 0 start inLen .first
      (f.payload m).length
      decoded dataLen) inp m (decoded + (f.payload m).length, dataLen') (f.blocks m) := by
  rw [Field.blocks, if_pos hp, Field.consTable]
  cases hfl : f.flag with
  | none =>
      exact decode_present rest hf (hfit.len hp) (hfit.data hp) (by simp) start inLen decoded
        hdl hmax hread
  | some g =>
      have hone : m g.offset = 1 := (hfit.flag g hfl).resolve_left (hp g hfl)
      obtain ⟨dataLen', hdl', hcopies⟩ := decode_present rest hf (hfit.len hp) (hfit.data hp)
        (by simp : Stage.flagged ≠ .counted) start inLen decoded hdl hmax hread
      refine ⟨dataLen', hdl', ?_⟩
      have hbyte : [1] = window m g.offset 1 := by
        rw [← hone]
        rfl
      rw [decodeElems_flag (hf.flag_type g hfl).1, Nat.zero_add]
      exact Copies.storeAll_bind hbyte hcopies

theorem consTable_eq_cons (f : Field) (rest : Table) :
    ∃ e sub rest', f.consTable rest = .cons e sub rest' := by
  obtain ⟨flag, len, data, sub⟩ := f
  cases flag with
  | some g => exact ⟨_, _, _, rfl⟩
  | none =>
      cases len with
      | some l => exact ⟨_, _, _, rfl⟩
      | none => exact ⟨_, _, _, rfl⟩

/-- All entries of an element have its type. -/
@[mk_iff] structure Field.Tagged (f : Field) : Prop where
  flag_tlv : ∀ g ∈ f.flag, g.tlvType = f.data.tlvType
  len_tlv : ∀ l ∈ f.len, l.tlvType = f.data.tlvType

theorem Field.Wf.tagged (hf : f.Wf) : f.Tagged := ⟨hf.flag_tlv, hf.len_tlv⟩

theorem findEi_consTable_self (hf : f.Tagged) (rest : Table) :
    findEi (f.consTable rest) f.data.tlvType = f.consTable rest := by
  have hflag := hf.flag_tlv
  have hlen := hf.len_tlv
  obtain ⟨flag, len, data, sub⟩ := f
  cases flag with
  | some g => rw [Field.consTable, findEi, if_pos (hflag g rfl)]
  | none =>
      cases len with
      | some l => rw [Field.consTable, consLen, findEi, if_pos (hlen l rfl)]
      | none => rw [Field.consTable, consLen, findEi, if_pos rfl]

theorem findEi_consTable_ne (hf : f.Tagged) {tlvType : UInt8} (hne : f.data.tlvType ≠ tlvType)
    (rest : Table) :
    findEi (f.consTable rest) tlvType = findEi rest tlvType := by
  have hflag := hf.flag_tlv
  have hlen := hf.len_tlv
  obtain ⟨flag, len, data, sub⟩ := f
  have hdata : findEi (consLen len (.cons data sub.toTable rest)) tlvType =
      findEi rest tlvType := by
    cases len with
    | some l => rw [consLen, findEi, if_neg (by rw [hlen l rfl]; exact hne), findEi, if_neg hne]
    | none => rw [consLen, findEi, if_neg hne]
  cases flag with
  | some g => rw [Field.consTable, findEi, if_neg (by rw [hflag g rfl]; exact hne), hdata]
  | none => exact hdata

theorem findEi_toTable {fs : List Field} (htag : ∀ f ∈ fs, f.Tagged)
    (hdist : fs.Pairwise fun f g => f.data.tlvType ≠ g.data.tlvType) (hf : f ∈ fs) :
    ∃ rest, findEi (toTable fs) f.data.tlvType = f.consTable rest := by
  induction fs with
  | nil => cases hf
  | cons g fs ih =>
      obtain ⟨hne, hdist'⟩ := List.pairwise_cons.mp hdist
      have htable : toTable (g :: fs) = g.consTable (toTable fs) := rfl
      rcases List.mem_cons.mp hf with rfl | hmem
      · exact ⟨toTable fs, by rw [htable, findEi_consTable_self (htag f (by simp))]⟩
      · obtain ⟨rest, hrest⟩ := ih (fun h hh => htag h (by simp [hh])) hdist' hmem
        exact ⟨rest, by rw [htable, findEi_consTable_ne (htag g (by simp)) (hne f hmem), hrest]⟩

/-- A TLV of a message. -/
structure Tlv where
  type : UInt8
  value : List UInt8
deriving DecidableEq

def Tlv.bytes (x : Tlv) : List UInt8 := x.type :: toLE 2 x.value.length ++ x.value

/-- TLVs, one after the other. -/
def tlvBytes (xs : List Tlv) : List UInt8 := xs.flatMap Tlv.bytes

theorem tlvBytes_cons (x : Tlv) (xs : List Tlv) : tlvBytes (x :: xs) = x.bytes ++ tlvBytes xs := rfl

theorem value_length_le {x : Tlv} {xs : List Tlv} (h : x ∈ xs) :
    x.value.length ≤ (tlvBytes xs).length := by
  have hx : x.value.length ≤ x.bytes.length := by
    simp only [Tlv.bytes, List.length_append]
    omega
  obtain ⟨xs₁, xs₂, rfl⟩ := List.append_of_mem h
  rw [tlvBytes, List.flatMap_append, List.flatMap_cons, List.length_append, List.length_append]
  omega

/-- The value of a TLV, wherever it stands, is decoded to the blocks `B` of `m`; a TLV that is not
in the table is skipped. -/
def Tlv.Decodes (t : Table) (m inp : ℕ → UInt8) (x : Tlv) (B : List (ℕ × ℕ)) : Prop :=
  (findEi t x.type = .nil ∧ 0x10 ≤ x.type ∧ B = []) ∨
    ∃ e sub rest, findEi t x.type = .cons e sub rest ∧
    ∀ start inLen decoded dataLen, dataLen < 256 →
      window inp (start + decoded) x.value.length = x.value →
      ∃ dataLen' < 256, Copies (qmiDecodeElems (.cons e sub rest) 1 0 start inLen .first
        x.value.length decoded dataLen)
        inp m (decoded + x.value.length, dataLen') B

/-- **The loop of the decoder.**  The TLVs that are left are decoded one after the other; what is
carried from one to the next is a number below 256. -/
theorem decode_tlvs {ι : Type} {t : Table} {start inLen : ℕ} (tlv : ι → Tlv) (B : ι → List (ℕ × ℕ))
    (is : List ι) :
    (∀ i ∈ is, (tlv i).value.length < 65536 ∧ (tlv i).Decodes t m inp (B i)) →
    ∀ rounds decoded dataLen, dataLen < 256 → (tlvBytes (is.map tlv)).length ≤ rounds →
      decoded + (tlvBytes (is.map tlv)).length = inLen →
      window inp (start + decoded) (tlvBytes (is.map tlv)).length = tlvBytes (is.map tlv) →
      Copies (qmiDecodeTlvs t 0 start inLen rounds decoded dataLen) inp m inLen (is.flatMap B) := by
  induction is with
  | nil =>
      intro _ rounds decoded dataLen _ _ hend _
      have hdone : decoded = inLen := by simpa [tlvBytes] using hend
      subst hdone
      cases rounds with
      | zero => exact Copies.pure _ _ _
      | succ rounds =>
          rw [qmiDecodeTlvs, if_neg (lt_irrefl _)]
          exact Copies.pure _ _ _
  | cons i is ih =>
      intro htlvs rounds decoded dataLen hdl hrounds hend hread
      obtain ⟨hsize, hdecodes⟩ := htlvs i (by simp)
      have hrest := ih fun j hj => htlvs j (by simp [hj])
      have hbytes : tlvBytes ((i :: is).map tlv) =
          ((tlv i).type :: toLE 2 (tlv i).value.length) ++
            ((tlv i).value ++ tlvBytes (is.map tlv)) := by
        rw [List.map_cons, tlvBytes_cons, Tlv.bytes, List.append_assoc]
      have hlen : (tlvBytes ((i :: is).map tlv)).length =
          3 + ((tlv i).value.length + (tlvBytes (is.map tlv)).length) := by
        rw [hbytes]
        simp only [List.length_append, List.length_cons, toLE_length]
      rw [hlen] at hrounds hend
      rw [hbytes] at hread
      obtain ⟨hheader, hread'⟩ := window_eq_append hread
      obtain ⟨hvalue, hlater⟩ := window_eq_append hread'
      have hthree : ((tlv i).type :: toLE 2 (tlv i).value.length).length = 3 := by simp
      rw [hthree] at hheader hvalue hlater
      have htlv : ofLE (toLE 2 (tlv i).value.length) = (tlv i).value.length := ofLE_toLE (by omega)
      obtain ⟨rounds, rfl⟩ : ∃ r, rounds = r + 1 := ⟨rounds - 1, by omega⟩
      rw [List.flatMap_cons, qmiDecodeTlvs, if_pos (by omega)]
      refine Copies.readN_bind hheader ?_
      simp only [List.headD_cons, List.drop_one, List.tail_cons, htlv]
      rcases hdecodes with ⟨hnil, htype, hB⟩ | ⟨e, sub, rest, hcons, hcopies⟩
      · have hlt : ¬ (tlv i).type < 0x10 := UInt8.not_lt.mpr htype
        simp only [hnil, hlt, if_false, hB, List.nil_append]
        refine hrest rounds _ dataLen hdl (by omega) (by omega) ?_
        rw [← Nat.add_assoc, ← Nat.add_assoc]
        exact hlater
      · obtain ⟨dataLen', hdl', hcopies⟩ := hcopies start inLen (decoded + 3) dataLen hdl
          (by rw [← Nat.add_assoc]; exact hvalue)
        simp only [hcons]
        refine hcopies.bind ?_
        refine hrest rounds _ dataLen' hdl' (by omega) (by omega) ?_
        rw [← Nat.add_assoc, ← Nat.add_assoc]
        exact hlater

/-- The TLV of an element. -/
def Field.tlv (m : ℕ → UInt8) (f : Field) : Tlv := ⟨f.data.tlvType, f.payload m⟩

theorem wire_eq_tlvBytes (m : ℕ → UInt8) (fs : List Field) :
    wire m fs = tlvBytes ((fs.filter fun f => f.Present m).map (Field.tlv m)) := by
  induction fs with
  | nil => rfl
  | cons f fs ih =>
      rw [wire, List.flatMap_cons, ← wire, ih, Field.wire]
      by_cases hp : f.Present m
      · rw [if_pos hp, List.filter_cons_of_pos (by simpa using hp), List.map_cons, tlvBytes_cons]
        rfl
      · rw [if_neg hp, List.filter_cons_of_neg (by simpa using hp), List.nil_append]

theorem blocks_eq_flatMap (m : ℕ → UInt8) (fs : List Field) :
    blocks m fs = (fs.filter fun f => f.Present m).flatMap fun f => f.blocks m := by
  induction fs with
  | nil => rfl
  | cons f fs ih =>
      rw [blocks, List.flatMap_cons, ← blocks, ih]
      by_cases hp : f.Present m
      · rw [List.filter_cons_of_pos (by simpa using hp), List.flatMap_cons]
      · rw [List.filter_cons_of_neg (by simpa using hp), Field.blocks, if_neg hp, List.nil_append]

/-- The elements of a message, in the order they were encoded. -/
theorem decode_fields {fs : List Field} (hfs : MessageWf fs) (hfit : ∀ f ∈ fs, f.Fits m) {start : ℕ}
    (hmax : (wire m fs).length ≤ 65535) (hread : window inp start (wire m fs).length = wire m fs) :
    Copies (qmiDecodeTlvs (toTable fs) 0 start (wire m fs).length (wire m fs).length 0 0) inp m
      (wire m fs).length
      (blocks m fs) := by
  rw [blocks_eq_flatMap]
  rw [wire_eq_tlvBytes] at hmax hread ⊢
  refine decode_tlvs (Field.tlv m) (Field.blocks m) _ (fun f hf => ?_) _ 0 0 (by norm_num) le_rfl
    (Nat.zero_add _) hread
  have hpayload : (f.payload m).length ≤ 65535 :=
    (value_length_le (List.mem_map_of_mem hf : Field.tlv m f ∈ _)).trans hmax
  obtain ⟨hmem, hp⟩ := List.mem_filter.mp hf
  obtain ⟨rest, hfind⟩ := findEi_toTable (fun g hg => (hfs.fields g hg).tagged) hfs.distinct hmem
  obtain ⟨e, sub, rest', hcons⟩ := consTable_eq_cons f rest
  refine ⟨Nat.lt_succ_of_le hpayload, Or.inr ⟨e, sub, rest', hfind.trans hcons, ?_⟩⟩
  intro start inLen decoded dataLen hdl hread
  rw [← hcons]
  exact decode_field rest (hfs.fields f hmem) (hfit f hmem) (by simpa using hp) start inLen decoded
    hdl hpayload hread

theorem window_packet {pkt : ℕ → UInt8} {type : UInt8} {txnId msgId msgLen : ℕ} {body : List UInt8}
    (h : window pkt 0 (qmiHeader type txnId msgId msgLen ++ body).length =
      qmiHeader type txnId msgId msgLen ++ body) :
    window pkt 0 1 = [type] ∧ window pkt 1 2 = toLE 2 txnId ∧ window pkt 3 2 = toLE 2 msgId ∧
      window pkt 5 2 = toLE 2 msgLen ∧ window pkt 7 body.length = body := by
  have hparts : qmiHeader type txnId msgId msgLen ++ body =
      [type] ++ (toLE 2 txnId ++ (toLE 2 msgId ++ (toLE 2 msgLen ++ body))) := by
    simp [qmiHeader]
  rw [hparts] at h
  obtain ⟨htype, h⟩ := window_eq_append h
  obtain ⟨htxn, h⟩ := window_eq_append h
  obtain ⟨hid, h⟩ := window_eq_append h
  obtain ⟨hlen, hbody⟩ := window_eq_append h
  simp only [toLE_length, List.length_singleton, Nat.zero_add] at htype htxn hid hlen hbody
  exact ⟨htype, htxn, hid, hlen, hbody⟩

end Message

/-! ### The header of a message -/

section Header

variable {inp : ℕ → UInt8} {t : Table} {dataLen type msgId : ℕ}

/-- An empty packet, or one with another type or id, is refused before its TLVs. -/
theorem decodeMessage_refused
    (h : dataLen = 0 ∨ ofLE (window inp 0 1) ≠ type ∨ ofLE (window inp 3 2) ≠ msgId) :
    (qmiDecodeMessage dataLen type msgId t).result inp = .error .einval ∧
      ∀ out, (qmiDecodeMessage dataLen type msgId t).memory inp out = out := by
  rw [qmiDecodeMessage]
  by_cases hempty : dataLen = 0
  · rw [if_pos hempty]
    exact ⟨rfl, fun out => rfl⟩
  rw [if_neg hempty, Prog.result_bind_ok (Prog.result_readN 0 1 inp)]
  simp only [Prog.memory_bind_ok (Prog.result_readN 0 1 inp), Prog.memory_readN]
  by_cases htype : ofLE (window inp 0 1) = type
  · have hid : ofLE (window inp 3 2) ≠ msgId := by
      rcases h with h | h | h
      · exact absurd h hempty
      · exact absurd htype h
      · exact h
    simp only [ne_eq, htype, not_true, if_false]
    rw [Prog.result_bind_ok (Prog.result_readN 3 2 inp)]
    simp only [Prog.memory_bind_ok (Prog.result_readN 3 2 inp), Prog.memory_readN]
    rw [if_pos hid]
    exact ⟨rfl, fun out => rfl⟩
  · rw [if_pos htype]
    exact ⟨rfl, fun out => rfl⟩

theorem decodeMessage_tlvs (hne : dataLen ≠ 0) (htype : ofLE (window inp 0 1) = type)
    (hid : ofLE (window inp 3 2) = msgId) :
    (qmiDecodeMessage dataLen type msgId t).result inp =
      ((qmiDecodeTlvs t 0 7 (sub32 dataLen 7) (sub32 dataLen 7) 0 0 >>= fun decoded =>
        pure (decoded, ofLE (window inp 1 2))) : Prog Errno (ℕ × ℕ)).result inp := by
  rw [qmiDecodeMessage, if_neg hne, Prog.result_bind_ok (Prog.result_readN _ _ _),
    if_neg (not_not.mpr htype),
    Prog.result_bind_ok (Prog.result_readN _ _ _), if_neg (not_not.mpr hid),
    Prog.result_bind_ok (Prog.result_readN _ _ _)]

theorem decodeMessage_copies {m : ℕ → UInt8} {decoded : ℕ} {B : List (ℕ × ℕ)} (hne : dataLen ≠ 0)
    (htype : ofLE (window inp 0 1) = type) (hid : ofLE (window inp 3 2) = msgId)
    (htlvs : Copies (qmiDecodeTlvs t 0 7 (sub32 dataLen 7) (sub32 dataLen 7) 0 0) inp m decoded B) :
    Copies (qmiDecodeMessage dataLen type msgId t) inp m (decoded, ofLE (window inp 1 2)) B := by
  rw [qmiDecodeMessage, if_neg hne]
  apply Copies.readN_bind rfl
  rw [if_neg (not_not.mpr htype)]
  apply Copies.readN_bind rfl
  rw [if_neg (not_not.mpr hid)]
  apply Copies.readN_bind rfl
  exact htlvs.map fun decoded => (decoded, ofLE (window inp 1 2))

end Header

/-- **The round trip**: when a message of the supported form is encoded, its packet decodes, with
the same type, id and table and into a zeroed structure, to the transaction id and to the described
blocks of the structure; everything else, unset elements included, stays zero. -/
theorem decode_encode {fs : List Field} (hfs : MessageWf fs) {m : ℕ → UInt8}
    (hfit : ∀ f ∈ fs, f.Fits m)
    (hsize : (wire m fs).length ≤ 65535) {dataLen : ℕ} {type : UInt8} {msgId txnId n : ℕ}
    (hid : msgId < 65536) (buf : ℕ → UInt8)
    (hok : (qmiEncodeMessage m dataLen type msgId txnId (toTable fs)).result m = .ok n) :
    let pkt := (qmiEncodeMessage m dataLen type msgId txnId (toTable fs)).memory m buf
    let msgLen := ofLE (window pkt 5 2)
    n = 7 + msgLen ∧
    (qmiDecodeMessage n type.toNat msgId (toTable fs)).result pkt = .ok (msgLen, txnId % 65536) ∧
    (qmiDecodeMessage n type.toNat msgId (toTable fs)).memory pkt (fun _ => 0) =
      copied (blocks m fs) m (fun _ => 0) := by
  intro pkt msgLen
  obtain ⟨rfl, hmem⟩ := encode_message_writes hfs hfit dataLen type msgId txnId m n hok
  have hpkt : window pkt 0 (qmiHeader type txnId msgId (wire m fs).length ++ wire m fs).length =
      qmiHeader type txnId msgId (wire m fs).length ++ wire m fs := by
    show window ((qmiEncodeMessage m dataLen type msgId txnId (toTable fs)).memory m buf) 0 _ = _
    rw [hmem buf, window_overlay]
  obtain ⟨htype, htxn, hmid, hlen, hbody⟩ := window_packet hpkt
  have hmsgLen : msgLen = (wire m fs).length := by
    show ofLE (window pkt 5 2) = _
    rw [hlen, ofLE_toLE (by omega)]
  have hinLen : sub32 (7 + (wire m fs).length) 7 = (wire m fs).length := by
    rw [sub32_of_le (by omega) (by omega), Nat.add_sub_cancel_left]
  have hfields : Copies (qmiDecodeTlvs (toTable fs) 0 7 (wire m fs).length (wire m fs).length 0 0)
    pkt m
      (wire m fs).length (blocks m fs) :=
    decode_fields hfs hfit hsize hbody
  have hdecode : Copies (qmiDecodeMessage (7 + (wire m fs).length) type.toNat msgId (toTable fs))
    pkt m
      ((wire m fs).length, txnId % 65536) (blocks m fs) := by
    have htxnId : ofLE (window pkt 1 2) = txnId % 65536 := htxn ▸ ofLE_toLE_mod 2 txnId
    rw [← htxnId]
    apply decodeMessage_copies
    · omega
    · rw [htype]
      simp [ofLE]
    · rw [hmid, ofLE_toLE (by omega)]
    · rw [hinLen]
      exact hfields
  rw [hmsgLen]
  exact ⟨rfl, hdecode.1, hdecode.2 _⟩

/-- The bytes of an encoded message, taken from the packet, decode to the described blocks. -/
theorem decode_sent {fs : List Field} (hfs : MessageWf fs) {m : ℕ → UInt8}
    (hfit : ∀ f ∈ fs, f.Fits m)
    (hsize : (wire m fs).length ≤ 65535) {dataLen : ℕ} {type : UInt8} {msgId txnId n : ℕ}
    (hid : msgId < 65536)
    (hok : (qmiEncodeMessage m dataLen type msgId txnId (toTable fs)).result m = .ok n)
    (buf : ℕ → UInt8) {data : List UInt8}
    (hdata : data = window ((qmiEncodeMessage m dataLen type msgId txnId (toTable fs)).memory m buf)
      0 n) :
    (∃ k, (qmiDecodeMessage data.length type.toNat msgId (toTable fs)).result (padded 0 data) =
      .ok (k, txnId % 65536)) ∧
    (qmiDecodeMessage data.length type.toNat msgId (toTable fs)).memory (padded 0 data)
    (fun _ => 0) =
      copied (blocks m fs) m (fun _ => 0) := by
  obtain ⟨hlen, hmem⟩ := encode_message_writes hfs hfit dataLen type msgId txnId _ n hok
  obtain ⟨-, hres, hdecoded⟩ := decode_encode hfs hfit hsize hid (fun _ => 0) hok
  generalize hbytes : qmiHeader type txnId msgId (wire m fs).length ++ wire m fs = bytes at hmem
  have hbytesLen : bytes.length = n := by
    rw [← hbytes, hlen, List.length_append]
    simp [qmiHeader]
  have hsent : data = bytes := by
    rw [hdata, hmem, ← hbytesLen, window_overlay]
  rw [hmem, ← padded_eq_overlay] at hres hdecoded
  rw [hsent, hbytesLen]
  exact ⟨⟨_, hres⟩, hdecoded⟩

theorem decode_encode_sampleDomainList : ∃ pkt,
    (qmiDecodeMessage 29 2 33 servregLocGetDomainListRespEi).result pkt = .ok (22, 7) ∧
    (qmiDecodeMessage 29 2 33 servregLocGetDomainListRespEi).memory pkt (fun _ => 0) =
      copied (blocks sampleDomainList domainListRespFields) sampleDomainList (fun _ => 0) := by
  have hlen : ofLE (window ((qmiEncodeMessage sampleDomainList 256 2 33 7
      (toTable domainListRespFields)).memory sampleDomainList fun _ => 0) 5 2) =
      22 := by decide +kernel
  have hrt := decode_encode (by decide : MessageWf domainListRespFields)
    (by decide : ∀ f ∈ domainListRespFields, f.Fits sampleDomainList) (by decide)
    (by norm_num : 33 < 65536) (fun _ => 0)
    (by decide +kernel : (qmiEncodeMessage sampleDomainList 256 2 33 7
      (toTable domainListRespFields)).result sampleDomainList = .ok 29)
  dsimp only at hrt
  rw [hlen] at hrt
  exact ⟨_, hrt.2⟩

end Imola.Qmi
