import Imola.QmiCodec

/-! # Where the decoder reads

`qmi_decode` trusts the counts it finds in a packet: it takes the three bytes of a TLV header
whenever a byte is left, the bytes of a basic element whatever the length of its TLV, and bounds a
string or a structure by the length of the TLV but not by the packet.

`wireMessage` is the grammar of a message with a given table, as a parser of the bytes of the body
alone; it wants `more` when the body ends inside a header, a length or a value.  The decoder reads
behind the packet exactly then (`decode_packetOnly_iff`), for every table.  The proof relates the
two function by function with the rules of `Sim`. -/

namespace Imola.Qmi

open Imola.Bytes Imola.Splice Imola.Progs Imola.Streams

/-! ### The grammar of a message -/

/-- The number of values of an element, from the length read last. -/
def wireCount (e : ElemInfo) (dataLen : ℕ) : Parser UInt8 ℕ :=
  match e.arrayType with
  | .noArray => pure 1
  | .staticArray => pure e.elemLen
  | .varLenArray => if dataLen > e.elemLen then Parser.fail else pure dataLen

/-- A string in a TLV or a structure of which `tlvLen` bytes are left.  The parsers give the number
of bytes they take. -/
def wireString (level : ℕ) (e : ElemInfo) (tlvLen : ℕ) : Parser UInt8 ℕ := do
  let lenSz := if level = 1 then 0 else e.stringLenSz
  let prefixBytes ← Parser.takeN lenSz
  let stringLen := if level = 1 then tlvLen else ofLE prefixBytes
  if stringLen > e.elemLen then Parser.fail
  else if stringLen > tlvLen then Parser.fail
  else do
    let _ ← Parser.takeN (stringLen * e.elemSize)
    pure (lenSz + stringLen * e.elemSize)

/-- `n` more structures, `taken` bytes behind the start of the first; `struct len` is one
structure of at most `len` bytes. -/
def wireStruct (struct : ℕ → Parser UInt8 ℕ) (level tlvLen : ℕ) : ℕ → (taken : ℕ) → Parser UInt8 ℕ
  | 0, taken =>
      if (level ≤ 2 ∧ taken ≠ tlvLen) ∨ (level > 2 ∧ taken > tlvLen) then Parser.fail
        else pure taken
  | n + 1, taken =>
      if taken < tlvLen then do
        let k ← struct (tlvLen - taken)
        wireStruct struct level tlvLen n (taken + k)
      else if (level ≤ 2 ∧ taken ≠ tlvLen) ∨ level > 2 then Parser.fail
      else pure taken

/-- The data of an element. -/
def wireValue (struct : ℕ → Parser UInt8 ℕ) (level : ℕ) (e : ElemInfo) (count tlvLen : ℕ) :
    Parser UInt8 ℕ :=
  match e.dataType with
  | .optFlag | .dataLen => Parser.fail
  | .struct => wireStruct struct (level + 1) tlvLen count 0
  | .string => wireString level e tlvLen
  | _ => do
      let _ ← Parser.takeN (count * e.elemSize)
      pure (count * e.elemSize)

/-- The entries of an element at level 1, and of a structure of which `left` bytes are left above.
Gives the bytes taken and the length read last. -/
def wireElems : Table → (level left : ℕ) → Stage → (tlvLen dataLen : ℕ) → Parser UInt8 (ℕ × ℕ)
  | .nil, _, _, stage, _, dataLen => if stage = .first then pure (0, dataLen) else Parser.fail
  | .cons e eiArray rest, level, left, stage, tlvLen, dataLen =>
      if stage = .first ∧ level ≥ 2 ∧ left = 0 then pure (0, dataLen)
      else
        let tlvLen := if stage = .first ∧ level ≥ 2 then left else tlvLen
        if e.dataType = .optFlag ∧ stage = .first then
          wireElems rest level left .flagged tlvLen dataLen
        else if e.dataType = .dataLen ∧ stage ≠ .counted then do
          let bytes ← Parser.takeN e.dataLenSz
          let r ← wireElems rest level (left - e.dataLenSz) .counted (sub32 tlvLen e.dataLenSz)
            (setLow dataLen bytes)
          pure (e.dataLenSz + r.1, r.2)
        else do
          let count ← wireCount e dataLen
          let n ← wireValue
            (fun len => do
              let r ← wireElems eiArray (level + 1) len .first 0 0
              pure r.1)
            level e count tlvLen
          if level ≥ 2 then do
            let r ← wireElems rest level (left - n) .first 0 count
            pure (n + r.1, r.2)
          else pure (n, count)

/-- The TLVs of a message; one of an unknown optional type is left out. -/
def wireTlvs (t : Table) : ℕ → (dataLen : ℕ) → Parser UInt8 ℕ
  | 0, _ => pure 0
  | rounds + 1, dataLen => Parser.orEnd 0 do
      let header ← Parser.takeN 3
      let tlvType := header.headD 0
      let tlvLen := ofLE (header.drop 1)
      match findEi t tlvType with
      | .nil =>
          if tlvType < 0x10 then Parser.fail
          else do
            Parser.skip tlvLen
            let k ← wireTlvs t rounds dataLen
            pure (3 + tlvLen + k)
      | .cons e eiArray rest => do
          let r ← wireElems (.cons e eiArray rest) 1 0 .first tlvLen dataLen
          let k ← wireTlvs t rounds r.2
          pure (3 + r.1 + k)

/-- The body of a message. -/
def wireMessage (t : Table) (body : List UInt8) : Verdict UInt8 ℕ := wireTlvs t body.length 0 body

/-! ### The decoder follows the grammar -/

section Sim

variable {inp : ℕ → UInt8} {bound : ℕ}

theorem decodeCount_sim (e : ElemInfo) (dataLen pos : ℕ) :
    Sim (decodeCount e dataLen) (wireCount e dataLen) inp bound pos id fun _ => pos := by
  unfold decodeCount wireCount
  cases e.arrayType with
  | noArray => exact Sim.pure rfl rfl
  | staticArray => exact Sim.pure rfl rfl
  | varLenArray =>
      dsimp only
      split_ifs
      · exact Sim.fail _
      · exact Sim.pure rfl rfl

theorem decodeString_sim (level : ℕ) (e : ElemInfo) (dst src tlvLen : ℕ) :
    Sim (qmiDecodeStringElem level e dst src tlvLen) (wireString level e tlvLen) inp bound src id
      fun n => src + n := by
  unfold qmiDecodeStringElem wireString
  apply (Sim.readN _).bind
  intro prefixBytes
  dsimp only [id]
  split_ifs
  all_goals first | exact Sim.fail _ | skip
  all_goals
    apply (Sim.readN _).bind
    intro bytes
    apply Sim.storeAll_bind
    apply Sim.storeAll_bind
    exact Sim.pure rfl (Nat.add_assoc _ _ _).symm

theorem decodeStruct_sim {dec : ℕ → ℕ → ℕ → Prog Errno ℕ} {struct : ℕ → Parser UInt8 ℕ}
    (hdec : ∀ dst src len, Sim (dec dst src len) (struct len) inp bound src id fun n => src + n)
    (level elemSize tlvLen first n : ℕ) : ∀ dst taken,
      Sim (qmiDecodeStructElem dec level elemSize tlvLen n dst (first + taken) taken)
        (wireStruct struct level tlvLen n taken) inp bound (first + taken) id fun k =>
        first + k := by
  induction n with
  | zero =>
      intro dst taken
      unfold qmiDecodeStructElem wireStruct
      split_ifs
      · exact Sim.fail _
      · exact Sim.pure rfl rfl
  | succ n ih =>
      intro dst taken
      unfold qmiDecodeStructElem wireStruct
      split_ifs
      · apply (hdec dst (first + taken) (tlvLen - taken)).bind
        intro k
        simpa only [Nat.add_assoc, id] using ih (dst + elemSize) (taken + k)
      · exact Sim.fail _
      · exact Sim.pure rfl rfl

theorem decodeValue_sim {dec : ℕ → ℕ → ℕ → Prog Errno ℕ} {struct : ℕ → Parser UInt8 ℕ}
    (hdec : ∀ dst src len, Sim (dec dst src len) (struct len) inp bound src id fun n => src + n)
    (level : ℕ) (e : ElemInfo) (count tlvLen dst src : ℕ) :
    Sim (decodeValue dec level e count tlvLen dst src) (wireValue struct level e count tlvLen) inp
      bound src id
      fun n => src + n := by
  unfold decodeValue wireValue
  cases e.dataType with
  | optFlag => exact Sim.fail _
  | dataLen => exact Sim.fail _
  | struct => exact decodeStruct_sim hdec (level + 1) e.elemSize tlvLen src count dst 0
  | string => exact decodeString_sim level e dst src tlvLen
  | _ =>
      apply (Sim.readN _).bind
      intro bytes
      apply Sim.storeAll_bind
      exact Sim.pure rfl rfl

theorem decodeElems_sim (t : Table) :
    ∀ {level inLen decoded left : ℕ}, (2 ≤ level → left = inLen - decoded) →
    ∀ base start stage tlvLen dataLen,
      Sim (qmiDecodeElems t level base start inLen stage tlvLen decoded dataLen)
        (wireElems t level left stage tlvLen dataLen) inp bound (start + decoded)
        (fun r => (decoded + r.1, r.2)) fun r => start + decoded + r.1 := by
  induction t with
  | nil =>
      intro level inLen decoded left _ base start stage tlvLen dataLen
      unfold qmiDecodeElems wireElems
      split_ifs
      · exact Sim.pure rfl rfl
      · exact Sim.fail _
  | cons e eiArray rest ihsub ihrest =>
      intro level inLen decoded left hleft base start stage tlvLen dataLen
      have hstop : (stage = .first ∧ level ≥ 2 ∧ inLen ≤ decoded) ↔
          (stage = .first ∧ level ≥ 2 ∧ left = 0) := by
        constructor
        · rintro ⟨h₁, h₂, h₃⟩
          exact ⟨h₁, h₂, by rw [hleft h₂]; omega⟩
        · rintro ⟨h₁, h₂, h₃⟩
          exact ⟨h₁, h₂, by rw [hleft h₂] at h₃; omega⟩
      have hlen : (if stage = .first ∧ level ≥ 2 then inLen - decoded else tlvLen) =
          if stage = .first ∧ level ≥ 2 then left else tlvLen := by
        split_ifs with h
        · rw [hleft h.2]
        · rfl
      unfold qmiDecodeElems wireElems
      dsimp only
      rw [hlen]
      generalize (if stage = .first ∧ level ≥ 2 then left else tlvLen) = len
      by_cases hs : stage = .first ∧ level ≥ 2 ∧ left = 0
      · rw [if_pos hs, if_pos (hstop.mpr hs)]
        exact Sim.pure rfl rfl
      rw [if_neg hs, if_neg (mt hstop.mp hs)]
      by_cases hflag : e.dataType = .optFlag ∧ stage = .first
      · rw [if_pos hflag, if_pos hflag]
        apply Sim.storeAll_bind
        exact ihrest hleft base start _ _ _
      rw [if_neg hflag, if_neg hflag]
      by_cases hcount : e.dataType = .dataLen ∧ stage ≠ .counted
      · rw [if_pos hcount, if_pos hcount]
        apply (Sim.readN _).bind
        intro bytes
        apply Sim.storeAll_bind
        have hr := @ihrest level inLen (decoded + e.dataLenSz) (left - e.dataLenSz)
          (fun h => by rw [hleft h]; omega) base start .counted (sub32 len e.dataLenSz)
          (setLow dataLen bytes)
        rw [← Nat.add_assoc] at hr
        apply hr.map
        · intro r
          rw [Nat.add_assoc]
        · intro r
          exact (Nat.add_assoc _ _ _).symm
      rw [if_neg hcount, if_neg hcount]
      apply (decodeCount_sim e dataLen _).bind
      intro count
      have hsub : ∀ dst src n, Sim (qmiDecodeElems eiArray (level + 1) dst src n .first 0 0 0 >>=
        fun r => pure r.1)
          (wireElems eiArray (level + 1) n .first 0 0 >>= fun r => pure r.1) inp bound src id
            fun k => src + k := by
        intro dst src n
        have hr := @ihsub (level + 1) n 0 n (fun _ => rfl) dst src .first 0 0
        exact hr.bind fun r => Sim.pure (Nat.zero_add _) rfl
      apply (decodeValue_sim hsub level e count len (base + e.offset) (start + decoded)).bind
      intro n
      by_cases hnested : level ≥ 2
      · rw [if_pos hnested, if_pos hnested]
        have hr := @ihrest level inLen (decoded + n) (left - n) (fun h => by rw [hleft h]; omega)
          base start .first 0
          count
        rw [← Nat.add_assoc] at hr
        apply hr.map
        · intro r
          rw [Nat.add_assoc]
        · intro r
          exact (Nat.add_assoc _ _ _).symm
      · rw [if_neg hnested, if_neg hnested]
        exact Sim.pure rfl rfl

theorem decodeTlvs_sim (t : Table) {start inLen : ℕ} (hbound : start + inLen = bound)
    (base rounds : ℕ) :
    ∀ decoded dataLen, Sim (qmiDecodeTlvs t base start inLen rounds decoded dataLen)
      (wireTlvs t rounds dataLen) inp
      bound (start + decoded) (fun n => decoded + n) fun n => start + decoded + n := by
  induction rounds with
  | zero =>
      intro decoded dataLen
      exact Sim.pure rfl rfl
  | succ rounds ih =>
      intro decoded dataLen
      unfold qmiDecodeTlvs wireTlvs
      apply Sim.orEnd
      · intro hend
        rw [if_neg (by omega)]
        exact Sim.pure rfl rfl
      · intro hmore
        rw [if_pos (by omega)]
        apply (Sim.readN 3).bind
        intro header
        dsimp only [id]
        cases findEi t (header.headD 0) with
        | nil =>
            dsimp only
            split_ifs
            · exact Sim.fail _
            · apply Sim.skip_bind
              have hr := ih (decoded + 3 + ofLE (header.drop 1)) dataLen
              simp only [← Nat.add_assoc] at hr
              apply hr.map
              · intro k
                omega
              · intro k
                omega
        | cons e eiArray rest =>
            have he := @decodeElems_sim inp bound (.cons e eiArray rest) 1 inLen (decoded + 3) 0
              (by omega) base start
              .first (ofLE (header.drop 1)) dataLen
            rw [← Nat.add_assoc] at he
            apply he.bind
            intro r
            have hr := ih (decoded + 3 + r.1) r.2
            simp only [← Nat.add_assoc] at hr
            apply hr.map
            · intro k
              omega
            · intro k
              omega

end Sim

/-! ### The loop of the decoder ends -/

/-- The decoder never goes back. -/
theorem decodeElems_returns (t : Table) : ∀ level base start inLen stage tlvLen decoded dataLen,
    (qmiDecodeElems t level base start inLen stage tlvLen decoded dataLen).Returns fun r =>
    decoded ≤ r.1 := by
  induction t with
  | nil =>
      intro level base start inLen stage tlvLen decoded dataLen
      unfold qmiDecodeElems
      split_ifs
      · exact le_refl decoded
      · trivial
  | cons e eiArray rest ihsub ihrest =>
      intro level base start inLen stage tlvLen decoded dataLen
      have hnext : ∀ n stage tlvLen dataLen,
          (qmiDecodeElems rest level base start inLen stage tlvLen (decoded + n) dataLen).Returns
            fun r => decoded ≤ r.1 :=
        fun n stage tlvLen dataLen => (ihrest _ _ _ _ _ _ _ _).mono fun r hr => by omega
      unfold qmiDecodeElems
      dsimp only
      generalize (if stage = .first ∧ level ≥ 2 then inLen - decoded else tlvLen) = len
      split_ifs with hstop hflag hcount hnested
      · exact le_refl decoded
      · exact (Prog.returns_true _).bind fun _ _ => hnext 0 _ _ _
      · apply (Prog.returns_true _).bind
        intro bytes _
        exact (Prog.returns_true _).bind fun _ _ => hnext _ _ _ _
      · apply (Prog.returns_true _).bind
        intro count _
        apply (Prog.returns_true _).bind
        intro n _
        exact hnext n _ _ _
      · apply (Prog.returns_true _).bind
        intro count _
        apply (Prog.returns_true _).bind
        intro n _
        exact Nat.le_add_right decoded n

/-- With as many rounds as there are bytes, more of them change nothing. -/
theorem qmiDecodeTlvs_rounds (t : Table) (base start inLen k : ℕ) {rounds : ℕ} : ∀ {decoded : ℕ},
    inLen ≤ decoded + rounds →
    ∀ dataLen, qmiDecodeTlvs t base start inLen (rounds + k) decoded dataLen =
      qmiDecodeTlvs t base start inLen rounds decoded dataLen := by
  induction rounds with
  | zero =>
      intro decoded hle dataLen
      cases k with
      | zero => rfl
      | succ k =>
          unfold qmiDecodeTlvs
          exact if_neg (by omega)
  | succ rounds ih =>
      intro decoded hle dataLen
      rw [Nat.add_right_comm, qmiDecodeTlvs, qmiDecodeTlvs]
      by_cases hlt : decoded < inLen
      · rw [if_pos hlt, if_pos hlt]
        congr 1
        funext header
        dsimp only
        cases findEi t (header.headD 0) with
        | nil =>
            dsimp only
            rw [ih (by omega)]
        | cons e eiArray rest =>
            apply (decodeElems_returns _ _ _ _ _ _ _ _ _).bind_congr
            intro r hr
            exact ih (by omega) r.2
      · rw [if_neg hlt, if_neg hlt]

/-! ### The packet -/

/-- Decoding depends on the packet alone: its result and the structure are the same whatever lies
behind the packet, and no byte there is read. -/
def PacketOnly (dataLen type msgId : ℕ) (t : Table) (buf : ℕ → UInt8) : Prop :=
  (∀ buf' : ℕ → UInt8, (∀ i < dataLen, buf' i = buf i) → ∀ out,
    (qmiDecodeMessage dataLen type msgId t).result buf' =
      (qmiDecodeMessage dataLen type msgId t).result buf ∧
    (qmiDecodeMessage dataLen type msgId t).memory buf' out =
      (qmiDecodeMessage dataLen type msgId t).memory buf out) ∧
  (qmiDecodeMessage dataLen type msgId t).ReadsBelow buf dataLen

/-- The length of an accepted packet. -/
theorem length_of_header {dataLen msgId : ℕ} {buf : ℕ → UInt8} (hsize : dataLen < 2 ^ 64)
    (h : (qmiDecodeHeader dataLen).result buf = .ok msgId) :
    7 ≤ dataLen ∧ dataLen < 2 ^ 16 + 7 := by
  unfold qmiDecodeHeader at h
  rw [Prog.result_bind_ok (Prog.result_readN 5 2 buf)] at h
  have hlt := ofLE_lt (window buf 5 2)
  rw [window_length] at hlt
  split_ifs at h with hlen
  · cases h
  · have heq := not_not.mp hlen
    omega

/-- **The decoder depends on the packet alone** exactly when it refuses the header, or the body does
not end inside an element. -/
theorem decode_packetOnly_iff {dataLen : ℕ} (hsize : dataLen < 2 ^ 64) {buf : ℕ → UInt8} {id : ℕ}
    (haccept : (qmiDecodeHeader dataLen).result buf = .ok id) (type msgId : ℕ) (t : Table) :
    PacketOnly dataLen type msgId t buf ↔
      (buf 0).toNat ≠ type ∨ ofLE (window buf 3 2) ≠ msgId ∨
      wireMessage t (window buf 7 (dataLen - 7)) ≠ .more := by
  obtain ⟨hmin, hmax⟩ := length_of_header hsize haccept
  have hreads : PacketOnly dataLen type msgId t buf ↔
      (qmiDecodeMessage dataLen type msgId t).ReadsBelow buf dataLen :=
    ⟨fun h => h.2, fun h => ⟨fun buf' heq out => h.congr heq out, h⟩⟩
  have hnone : (Prog.fail Errno.einval : Prog Errno (ℕ × ℕ)).ReadsBelow buf dataLen :=
    fun i hi => by cases hi
  have htype : ofLE (window buf 0 1) = (buf 0).toNat := by
    have hw : window buf 0 1 = [buf 0] := rfl
    simp [hw, ofLE]
  have hlen : sub32 dataLen 7 = dataLen - 7 := sub32_of_le (by omega) hmin
  rw [hreads]
  unfold qmiDecodeMessage
  rw [if_neg (by omega), Prog.readsBelow_readN_bind (by omega), htype]
  by_cases h₁ : (buf 0).toNat ≠ type
  · rw [if_pos h₁]
    exact ⟨fun _ => Or.inl h₁, fun _ => hnone⟩
  rw [if_neg h₁, Prog.readsBelow_readN_bind (by omega)]
  by_cases h₂ : ofLE (window buf 3 2) ≠ msgId
  · rw [if_pos h₂]
    exact ⟨fun _ => Or.inr (Or.inl h₂), fun _ => hnone⟩
  rw [if_neg h₂, Prog.readsBelow_readN_bind (by omega), hlen]
  have hsim := @decodeTlvs_sim buf dataLen t 7 (dataLen - 7) (by omega) 0 (dataLen - 7) 0 0
  rw [Prog.readsBelow_map, hsim.readsBelow_iff, wireMessage, window_length]
  simp only [h₁, h₂, false_or, Nat.add_zero]

/-- A CLOSE request for caller 9, cut after `n` bytes of its body; `b` fills the buffer behind
it. -/
def closeRequest (n : ℕ) (b : UInt8) (p : ℕ) : UInt8 :=
  ([0, 5, 0, 2, 0, UInt8.ofNat n, 0] ++ [1, 4, 0, 9, 0, 0, 0].take n).getD p b

theorem decode_closeRequest : PacketOnly 14 0 2 rmtfsCloseReqEi (closeRequest 7 0) :=
  (decode_packetOnly_iff (by norm_num : 14 < 2 ^ 64)
    (by decide +kernel : (qmiDecodeHeader 14).result (closeRequest 7 0) = .ok 2) 0 2
      rmtfsCloseReqEi).mpr
    (Or.inr (Or.inr (by decide +kernel)))

/-- With one byte of body the caller id comes from behind the packet. -/
theorem decode_closeRequest_cut : (qmiDecodeHeader 8).result (closeRequest 1 0) = .ok 2 ∧
    (∀ i < 8, closeRequest 1 3 i = closeRequest 1 0 i) ∧
    (qmiDecodeMessage 8 0 2 rmtfsCloseReqEi).memory (closeRequest 1 3) (fun _ => 0) 0 = 3 ∧
    (qmiDecodeMessage 8 0 2 rmtfsCloseReqEi).memory (closeRequest 1 0) (fun _ => 0) 0 = 0 ∧
    ¬ PacketOnly 8 0 2 rmtfsCloseReqEi (closeRequest 1 0) := by
  have hagree : ∀ i < 8, closeRequest 1 3 i = closeRequest 1 0 i := by decide
  have hthree : (qmiDecodeMessage 8 0 2 rmtfsCloseReqEi).memory (closeRequest 1 3)
      (fun _ => 0) 0 = 3 := by
    decide +kernel
  have hzero : (qmiDecodeMessage 8 0 2 rmtfsCloseReqEi).memory (closeRequest 1 0)
      (fun _ => 0) 0 = 0 := by
    decide +kernel
  refine ⟨by decide +kernel, hagree, hthree, hzero, ?_⟩
  intro honly
  have hsame := congrFun (honly.1 _ hagree fun _ => 0).2 0
  rw [hthree, hzero] at hsame
  exact absurd hsame (by decide)

end Imola.Qmi
