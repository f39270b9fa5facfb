import Imola.RmtfsReplies

/-! # Required elements

`qmi_rmtfs.qmi` marks every element of a request as required.  The decoder goes by the TLVs it finds
in the packet: a number is taken whatever the length of its TLV says, a path if it fits in its
array, an `iovec` if its TLV ends with one of the words of its entries, and other TLVs are skipped
if their type is optional.  Nothing asks whether an element has come.

`Msg.takes` and `accepts` say this without the descriptor tables, and `decodeReq_ok_iff` that it is
all the decoder asks for.  So the required elements of an accepted request are there only if its
sender put them there (`requiredEnforced_iff`); the elements that are missing are zeros. -/

namespace Imola.Rmtfs

open Imola.Bytes Imola.Progs Imola.Qmi Imola.Splice

/-! ### The property -/

/-- The types of the required elements. -/
def Msg.required : Msg → List UInt8
  | .open => [1]
  | .close => [1]
  | .rwIovec => [1, 2, 3, 4]
  | .allocBuff => [1, 2]
  | .getDevError => [1]

/-- The types of the TLVs in a body, which are as long as they say. -/
def tlvTypes : (fuel : ℕ) → List UInt8 → List UInt8
  | fuel + 1, type :: l₀ :: l₁ :: rest => type :: tlvTypes fuel (rest.drop (ofLE [l₀, l₁]))
  | _, _ => []

/-- The packet behind its header. -/
def Packet.body (pkt : Packet) : List UInt8 := window pkt.data 7 (pkt.dataLen - 7)

/-- The body has a TLV for every required element. -/
def Complete (msg : Msg) (pkt : Packet) : Prop :=
  ∀ type ∈ msg.required, type ∈ tlvTypes pkt.body.length pkt.body

/-- An accepted request is complete. -/
def RequiredEnforced (msg : Msg) (pkt : Packet) : Prop :=
  (∃ r, (decodeReq msg pkt).result pkt.data = .ok r) → Complete msg pkt

/-! ### What is accepted -/

/-- How many bytes behind the header of a TLV are taken, if the TLV is; `next` is the first of
them. -/
def Msg.takes (msg : Msg) (type : UInt8) (len : ℕ) (next : UInt8) : Option ℕ :=
  if type ∉ msg.required then if type < 0x10 then none else some len
  else
    match msg with
    | .open => if len ≤ 256 then some len else none
    | .rwIovec =>
        if type = 1 then some 4
        else if type = 3 then if len % 4 = 1 ∧ len ≤ 1 + 12 * next.toNat then some len else none
        else some 1
    | _ => some 4

/-- Every TLV from `pos` to `stop` is taken. -/
def accepts (msg : Msg) (data : ℕ → UInt8) (stop : ℕ) : (rounds : ℕ) → (pos : ℕ) → Bool
  | 0, _ => true
  | rounds + 1, pos =>
      if pos < stop then
        match msg.takes (data pos) (ofLE (window data (pos + 1) 2)) (data (pos + 3)) with
        | none => false
        | some n => accepts msg data stop rounds (pos + 3 + n)
      else true

/-- The packet is turned down: it is empty, no request, has another message id, or a TLV that is not
taken. -/
def Refused (msg : Msg) (pkt : Packet) : Prop :=
  pkt.dataLen = 0 ∨ pkt.data 0 ≠ 0 ∨ ofLE (window pkt.data 3 2) ≠ msg.id ∨
    accepts msg pkt.data (7 + sub32 pkt.dataLen 7) (sub32 pkt.dataLen 7) 7 = false

instance (msg : Msg) (pkt : Packet) : Decidable (Refused msg pkt) :=
  inferInstanceAs (Decidable (_ ∨ _))

/-! ### Elements -/

section Elements

variable {data : ℕ → UInt8} {level base start inLen len decoded dataLen : ℕ} {rest : Qmi.Table}

theorem decodeValue_basic {e : ElemInfo} (h : e.dataType.isBasic = true)
    (dec : ℕ → ℕ → ℕ → Prog Errno ℕ)
    (count dst src : ℕ) : (decodeValue dec level e count len dst src).result data =
      .ok (count * e.elemSize) := by
  have hcopy : ((do
      let bytes ← Prog.readN src (count * e.elemSize)
      Prog.storeAll dst bytes
      pure (count * e.elemSize)) : Prog Errno ℕ).result data = .ok (count * e.elemSize) := by
    rw [Prog.result_bind_ok (Prog.result_readN _ _ _),
      Prog.result_bind_ok (Prog.result_storeAll _ _ _)]
    rfl
  obtain ⟨hflag, hlen, hstruct, hstring⟩ := ElemType.ne_of_isBasic h
  unfold decodeValue
  split
  · rename_i htype
    exact absurd htype hflag
  · rename_i htype
    exact absurd htype hlen
  · rename_i htype
    exact absurd htype hstruct
  · rename_i htype
    exact absurd htype hstring
  · exact hcopy

theorem scalar_result {dataType : ElemType} (h : dataType.isBasic = true) (size : ℕ) (type : UInt8)
    (offset : ℕ) :
    (qmiDecodeElems (scalar dataType size type offset rest) 1 base start inLen .first len decoded
      dataLen).result
      data = .ok (decoded + size, 1) := by
  obtain ⟨hflag, hlen, -, -⟩ := ElemType.ne_of_isBasic h
  rw [scalar, decodeElems_data hflag hlen (by omega), Prog.result_bind_ok (a := 1) rfl,
    Prog.result_bind_ok (decodeValue_basic h _ _ _ _), if_neg (by omega), Nat.one_mul]
  rfl

theorem nested_result {dataType : ElemType} (h : dataType.isBasic = true) (size : ℕ) (type : UInt8)
    (offset : ℕ) :
    (qmiDecodeElems (scalar dataType size type offset rest) 2 base start inLen .first len decoded
      dataLen).result
      data = if inLen ≤ decoded then .ok (decoded, dataLen)
        else (qmiDecodeElems rest 2 base start inLen .first 0 (decoded + size) 1).result data := by
  obtain ⟨hflag, hlen, -, -⟩ := ElemType.ne_of_isBasic h
  split_ifs with hend
  · rw [scalar, qmiDecodeElems, if_pos ⟨rfl, le_rfl, hend⟩]
    rfl
  · rw [scalar, decodeElems_data hflag hlen (fun hall => hend hall.2.2),
      Prog.result_bind_ok (a := 1) rfl,
      Prog.result_bind_ok (decodeValue_basic h _ _ _ _), if_pos le_rfl, Nat.one_mul]

/-- An entry of an `iovec` takes its three words, or as many as are needed to reach the end. -/
theorem iovecEntry_result (dst src left : ℕ) : ∃ dl,
    (qmiDecodeElems rmtfsIovecEntryEi 2 dst src left .first 0 0 0).result data =
      .ok (min 12 ((left + 3) / 4 * 4), dl) := by
  rw [rmtfsIovecEntryEi, nested_result rfl]
  split_ifs with h₀
  · exact ⟨0, by congr 2; omega⟩
  · rw [nested_result rfl]
    split_ifs with h₁
    · exact ⟨1, by congr 2; omega⟩
    · rw [nested_result rfl]
      split_ifs with h₂
      · exact ⟨1, by congr 2; omega⟩
      · exact ⟨1, by rw [qmiDecodeElems, if_pos rfl]; exact congrArg Except.ok (by congr 1; omega)⟩

theorem decodeStruct_stop (dec : ℕ → ℕ → ℕ → Prog Errno ℕ) {tlvLen taken : ℕ} (h : tlvLen ≤ taken)
    (n dst src : ℕ) :
    (qmiDecodeStructElem dec 2 12 tlvLen n dst src taken).result data =
      if taken = tlvLen then .ok tlvLen else .error .efault := by
  by_cases heq : taken = tlvLen
  · subst heq
    cases n with
    | zero => simp [qmiDecodeStructElem]
    | succ n => simp [qmiDecodeStructElem]
  · have hlt : ¬ taken < tlvLen := by omega
    cases n with
    | zero => simp [qmiDecodeStructElem, heq]
    | succ n => simp [qmiDecodeStructElem, heq, hlt]

/-- The entries of an `iovec`: the TLV has to end with one of their words. -/
theorem iovecEntries_result (tlvLen n : ℕ) : ∀ dst src taken, taken ≤ tlvLen →
    (qmiDecodeStructElem (fun dst src left => do
        let r ← qmiDecodeElems rmtfsIovecEntryEi 2 dst src left .first 0 0 0
        pure r.1) 2 12 tlvLen n dst src taken).result data =
      if (tlvLen - taken) % 4 = 0 ∧ tlvLen - taken ≤ 12 * n then .ok tlvLen
        else .error .efault := by
  induction n with
  | zero =>
      intro dst src taken htaken
      rw [qmiDecodeStructElem]
      by_cases heq : taken = tlvLen
      · rw [if_neg (by omega), if_pos (by omega), heq]
        rfl
      · rw [if_pos (Or.inl ⟨le_rfl, heq⟩), if_neg (by omega)]
        rfl
  | succ n ih =>
      intro dst src taken htaken
      by_cases hlt : taken < tlvLen
      · obtain ⟨dl, hentry⟩ := @iovecEntry_result data dst src (tlvLen - taken)
        rw [qmiDecodeStructElem, if_pos hlt, Prog.result_bind_ok
          (a := min 12 ((tlvLen - taken + 3) / 4 * 4)) (by rw [Prog.result_bind_ok hentry]; rfl)]
        by_cases hnext : taken + min 12 ((tlvLen - taken + 3) / 4 * 4) ≤ tlvLen
        · rw [ih _ _ _ hnext]
          exact if_congr (by omega) rfl rfl
        · rw [decodeStruct_stop _ (by omega), if_neg (by omega), if_neg (by omega)]
      · obtain rfl : taken = tlvLen := by omega
        rw [decodeStruct_stop _ le_rfl, if_pos rfl, if_pos (by omega)]

theorem iovec_result (hlen : len < 65536) (hdl : dataLen < 256) :
    (qmiDecodeElems
      (scalar .dataLen 1 3 8 (.cons ⟨.struct, 255, 12, .varLenArray, 3, 16⟩ rmtfsIovecEntryEi rest))
      1 base start inLen .first len decoded dataLen).result data =
      if len % 4 = 1 ∧ len ≤ 1 + 12 * (data (start + decoded)).toNat then
        .ok (decoded + len, (data (start + decoded)).toNat)
      else .error .efault := by
  have hcount := (data (start + decoded)).toNat_lt
  have hwindow : window data (start + decoded) 1 = [data (start + decoded)] := rfl
  have hnumber : (decodeCount ⟨.struct, 255, 12, .varLenArray, 3, 16⟩
      (data (start + decoded)).toNat).result data =
      .ok (data (start + decoded)).toNat := by
    rw [decodeCount, if_neg (by dsimp only; omega)]
    rfl
  rw [scalar, decodeElems_len rfl rfl (by decide) (by omega),
    Prog.result_bind_ok (Prog.result_readN _ _ _),
    Prog.result_bind_ok (Prog.result_storeAll _ _ _), hwindow, setLow_byte hdl,
    decodeElems_data (by decide) (by decide) (by omega), Prog.result_bind_ok hnumber,
    if_neg (by omega),
    if_neg (by omega)]
  have hentries := @iovecEntries_result data (sub32 len 1)
    (data (start + decoded)).toNat (base + 16)
    (start + (decoded + 1)) 0 (Nat.zero_le _)
  have hwrap : ((sub32 len 1 - 0) % 4 = 0 ∧ sub32 len 1 - 0 ≤ 12 * (data (start + decoded)).toNat) ↔
      (len % 4 = 1 ∧ len ≤ 1 + 12 * (data (start + decoded)).toNat) := by
    unfold sub32
    omega
  by_cases hok : len % 4 = 1 ∧ len ≤ 1 + 12 * (data (start + decoded)).toNat
  · rw [if_pos (hwrap.mpr hok), sub32_of_le (by omega) (by omega)] at hentries
    rw [if_pos hok, sub32_of_le (by omega) (by omega)]
    refine (Prog.result_bind_ok hentries).trans ?_
    exact congrArg Except.ok (by congr 1; omega)
  · rw [if_neg (fun h => hok (hwrap.mp h))] at hentries
    rw [if_neg hok]
    exact Prog.result_bind_error hentries

theorem path_result (hdl : dataLen ≤ 256) :
    (qmiDecodeElems (string256 .varLenArray 1 4 rest) 1 base start inLen .first len decoded
      dataLen).result data =
      if len ≤ 256 then .ok (decoded + len, dataLen) else .error .einval := by
  have hnumber : (decodeCount ⟨.string, 256, 1, .varLenArray, 1, 4⟩ dataLen).result data =
      .ok dataLen := by
    rw [decodeCount, if_neg (by dsimp only; omega)]
    rfl
  have hstring : (qmiDecodeStringElem 1 ⟨.string, 256, 1, .varLenArray, 1, 4⟩ (base + 4)
    (start + decoded) len).result
      data = if len ≤ 256 then .ok len else .error .einval := by
    rw [qmiDecodeStringElem, if_pos rfl, Prog.result_bind_ok (Prog.result_readN _ _ _), if_pos rfl]
    by_cases hok : len ≤ 256
    · rw [if_neg (by dsimp only; omega), if_neg (by omega), if_pos hok,
        Prog.result_bind_ok (Prog.result_readN _ _ _),
        Prog.result_bind_ok (Prog.result_storeAll _ _ _),
        Prog.result_bind_ok (Prog.result_storeAll _ _ _)]
      exact congrArg Except.ok (by dsimp only; omega)
    · rw [if_pos (by dsimp only; omega), if_neg hok]
      rfl
  rw [string256, decodeElems_data (by decide) (by decide) (by omega), Prog.result_bind_ok hnumber,
    if_neg (by omega)]
  by_cases hok : len ≤ 256
  · rw [if_pos hok] at hstring ⊢
    exact Prog.result_bind_ok hstring
  · rw [if_neg hok] at hstring ⊢
    exact Prog.result_bind_error hstring

/-- A required element is in the table of its message, and decoded as `Msg.takes` says. -/
theorem element_result (msg : Msg) {type : UInt8} (h : type ∈ msg.required) (hlen : len < 65536)
    (hdl : dataLen < 256) :
    ∃ e sub rest, findEi msg.reqEi type = .cons e sub rest ∧
      match msg.takes type len (data (start + decoded)) with
      | none => ∃ err,
          (qmiDecodeElems (.cons e sub rest) 1 base start inLen .first len decoded
            dataLen).result data = .error err
      | some n => ∃ dl < 256,
          (qmiDecodeElems (.cons e sub rest) 1 base start inLen .first len decoded
            dataLen).result data =
            .ok (decoded + n, dl) := by
  cases msg with
  | «open» =>
      obtain rfl : type = 1 := by simpa [Msg.required] using h
      refine ⟨_, _, _, rfl, ?_⟩
      have hpath := @path_result data base start inLen len decoded dataLen .nil (by omega)
      by_cases hok : len ≤ 256
      · rw [if_pos hok] at hpath
        simp only [Msg.takes, Msg.required, List.mem_singleton, not_true, if_false, if_pos hok]
        exact ⟨dataLen, hdl, hpath⟩
      · rw [if_neg hok] at hpath
        simp only [Msg.takes, Msg.required, List.mem_singleton, not_true, if_false, if_neg hok]
        exact ⟨_, hpath⟩
  | close =>
      obtain rfl : type = 1 := by simpa [Msg.required] using h
      exact ⟨_, _, _, rfl, 1, by decide, scalar_result rfl 4 1 0⟩
  | getDevError =>
      obtain rfl : type = 1 := by simpa [Msg.required] using h
      exact ⟨_, _, _, rfl, 1, by decide, scalar_result rfl 4 1 0⟩
  | allocBuff =>
      obtain rfl | rfl : type = 1 ∨ type = 2 := by simpa [Msg.required] using h
      · exact ⟨_, _, _, rfl, 1, by decide, scalar_result rfl 4 1 0⟩
      · exact ⟨_, _, _, rfl, 1, by decide, scalar_result rfl 4 2 4⟩
  | rwIovec =>
      obtain rfl | rfl | rfl | rfl : type = 1 ∨ type = 2 ∨ type = 3 ∨ type = 4 := by
        simpa [Msg.required] using h
      · exact ⟨_, _, _, rfl, 1, by decide, scalar_result rfl 4 1 0⟩
      · exact ⟨_, _, _, rfl, 1, by decide, scalar_result rfl 1 2 4⟩
      · refine ⟨_, _, _, rfl, ?_⟩
        have hiovec := @iovec_result data base start inLen len decoded dataLen
          (scalar .unsigned1Byte 1 4 3076 .nil) hlen hdl
        have htakes : Msg.rwIovec.takes 3 len (data (start + decoded)) =
            if len % 4 = 1 ∧ len ≤ 1 + 12 * (data (start + decoded)).toNat then some len
              else none := rfl
        by_cases hok : len % 4 = 1 ∧ len ≤ 1 + 12 * (data (start + decoded)).toNat
        · rw [if_pos hok] at hiovec
          rw [htakes, if_pos hok]
          exact ⟨_, (data (start + decoded)).toNat_lt, hiovec⟩
        · rw [if_neg hok] at hiovec
          rw [htakes, if_neg hok]
          exact ⟨_, hiovec⟩
      · exact ⟨_, _, _, rfl, 1, by decide, scalar_result rfl 1 4 3076⟩

end Elements

theorem findEi_eq_nil {msg : Msg} {type : UInt8} (h : type ∉ msg.required) :
    findEi msg.reqEi type = .nil := by
  have hne : ∀ k ∈ msg.required, k ≠ type := by
    rintro k hk rfl
    exact h hk
  cases msg with
  | «open» => exact if_neg (hne 1 (by decide))
  | close => exact if_neg (hne 1 (by decide))
  | getDevError => exact if_neg (hne 1 (by decide))
  | allocBuff => exact (if_neg (hne 1 (by decide))).trans (if_neg (hne 2 (by decide)))
  | rwIovec =>
      simp only [Msg.reqEi, rmtfsIovecReqEi, scalar, findEi, if_neg (hne 1 (by decide)),
        if_neg (hne 2 (by decide)),
        if_neg (hne 3 (by decide)), if_neg (hne 4 (by decide))]

/-! ### Whole packets -/

theorem not_exists_ok {α : Type} {err : Errno} :
    ¬ ∃ r : α, (.error err : Except Errno α) = .ok r := by
  rintro ⟨r, hr⟩
  cases hr

/-- The loop accepts the TLVs that are taken. -/
theorem tlvs_ok_iff (msg : Msg) (data : ℕ → UInt8) (inLen rounds : ℕ) :
    ∀ {decoded dataLen : ℕ}, dataLen < 256 →
    ((∃ r, (qmiDecodeTlvs msg.reqEi 0 7 inLen rounds decoded dataLen).result data = .ok r) ↔
      accepts msg data (7 + inLen) rounds (7 + decoded) = true) := by
  induction rounds with
  | zero =>
      intro decoded dataLen _
      exact ⟨fun _ => rfl, fun _ => ⟨decoded, rfl⟩⟩
  | succ rounds ih =>
      intro decoded dataLen hdl
      rw [qmiDecodeTlvs, accepts]
      by_cases hin : decoded < inLen
      · have hlen : ofLE (window data (7 + decoded + 1) 2) < 65536 := by
          have hlt := ofLE_lt (window data (7 + decoded + 1) 2)
          rw [window_length] at hlt
          omega
        have htype : (window data (7 + decoded) 3).headD 0 = data (7 + decoded) := rfl
        have hdrop : (window data (7 + decoded) 3).drop 1 = window data (7 + decoded + 1) 2 := rfl
        rw [if_pos hin, if_pos (by omega), Prog.result_bind_ok (Prog.result_readN _ _ _)]
        simp only [htype, hdrop]
        by_cases hreq : data (7 + decoded) ∈ msg.required
        · obtain ⟨e, sub, rest, hfind, hresult⟩ := @element_result data 0 7 inLen
            (ofLE (window data (7 + decoded + 1) 2)) (decoded + 3) dataLen msg _ hreq hlen hdl
          rw [hfind]
          have hpos : 7 + (decoded + 3) = 7 + decoded + 3 := rfl
          rw [hpos] at hresult
          cases htakes : msg.takes (data (7 + decoded)) (ofLE (window data (7 + decoded + 1) 2))
              (data (7 + decoded + 3)) with
          | none =>
              rw [htakes] at hresult
              obtain ⟨err, herr⟩ := hresult
              dsimp only
              rw [Prog.result_bind_error herr]
              exact iff_of_false not_exists_ok (by decide)
          | some n =>
              rw [htakes] at hresult
              obtain ⟨dl, hdl', hok⟩ := hresult
              dsimp only
              rw [Prog.result_bind_ok hok, ← hpos, Nat.add_assoc 7]
              exact ih hdl'
        · have htakes : msg.takes (data (7 + decoded)) (ofLE (window data (7 + decoded + 1) 2))
              (data (7 + decoded + 3)) = if data (7 + decoded) < 0x10 then none
                else some (ofLE (window data (7 + decoded + 1) 2)) := if_pos hreq
          rw [findEi_eq_nil hreq, htakes]
          dsimp only
          split_ifs
          · exact iff_of_false not_exists_ok (by decide)
          · have hnext : 7 + decoded + 3 + ofLE (window data (7 + decoded + 1) 2) =
                7 + (decoded + 3 + ofLE (window data (7 + decoded + 1) 2)) := by omega
            dsimp only
            rw [hnext]
            exact ih hdl
      · rw [if_neg hin, if_neg (by omega)]
        exact ⟨fun _ => rfl, fun _ => ⟨decoded, rfl⟩⟩

/-- **What is accepted**: the decoder asks for nothing else. -/
theorem decodeReq_ok_iff (msg : Msg) (pkt : Packet) :
    (∃ r, (decodeReq msg pkt).result pkt.data = .ok r) ↔ ¬ Refused msg pkt := by
  have htype := isRequest_iff pkt
  have htlvs := @tlvs_ok_iff msg pkt.data (sub32 pkt.dataLen 7) (sub32 pkt.dataLen 7) 0
    0 (by decide)
  by_cases hheader : pkt.dataLen = 0 ∨ ofLE (window pkt.data 0 1) ≠ qmiRequest ∨
    ofLE (window pkt.data 3 2) ≠ msg.id
  · rw [decodeReq, (decodeMessage_refused hheader).1]
    refine iff_of_false not_exists_ok (not_not.mpr ?_)
    rcases hheader with h | h | h
    · exact Or.inl h
    · exact Or.inr (Or.inl (mt htype.mpr h))
    · exact Or.inr (Or.inr (Or.inl h))
  · simp only [not_or, not_not] at hheader
    obtain ⟨hne, hrequest, hid⟩ := hheader
    have hbody : (∃ r, (decodeReq msg pkt).result pkt.data = .ok r) ↔
        ∃ r, (qmiDecodeTlvs msg.reqEi 0 7 (sub32 pkt.dataLen 7) (sub32 pkt.dataLen 7) 0
          0).result pkt.data = .ok r := by
      rw [decodeReq, decodeMessage_tlvs hne hrequest hid]
      constructor
      · rintro ⟨r, hr⟩
        obtain ⟨decoded, hdecoded, -⟩ := Prog.ok_of_bind hr
        exact ⟨decoded, hdecoded⟩
      · rintro ⟨decoded, hdecoded⟩
        exact ⟨_, Prog.result_bind_ok hdecoded⟩
    rw [hbody, htlvs]
    simp [Refused, hne, htype.mp hrequest, hid]

/-- **Required elements** are enforced exactly for the packets that are refused or complete
anyway. -/
theorem requiredEnforced_iff (msg : Msg) (pkt : Packet) :
    RequiredEnforced msg pkt ↔ Refused msg pkt ∨ Complete msg pkt := by
  rw [RequiredEnforced, decodeReq_ok_iff]
  exact or_iff_not_imp_left.symm

/-- A CLOSE with transaction id 7 from node 3 that has no TLV. -/
def emptyClose : Packet := ⟨.data, 3, 9, padded 0 [0, 7, 0, 2, 0, 0, 0], 7, by decide⟩

/-- Node 3 has opened a partition, and nobody anything else. -/
def openedDaemon : Daemon :=
  ⟨fun c => if c.val = 0 then ⟨0, 3, 5, 0, some .modemFs1, none, 0⟩
    else ⟨c, 0, -1, 0, none, none, 0⟩, ⟨0, 0, true, []⟩⟩

/-- It closes the handle of node 3, who is told of the success. -/
theorem not_requiredEnforced_emptyClose :
    ¬ RequiredEnforced .close emptyClose ∧ (openedDaemon.table 0).InUse ∧
    (handleRmtfs ⟨"/boot", false, false⟩ false sampleEnv ⟨0, 0, false, fun _ => 0⟩ emptyClose
      openedDaemon).toOption.map (fun r => (r.1, decide (r.2.table 0).InUse)) =
        some ([⟨3, 9, [2, 7, 0, 2, 0, 7, 0, 2, 4, 0, 0, 0, 0, 0]⟩], false) := by
  refine ⟨?_, by decide, by decide +kernel⟩
  intro h
  have hcomplete := h ((decodeReq_ok_iff .close emptyClose).mpr (by decide))
  exact absurd (hcomplete 1 (by decide)) (by decide)

end Imola.Rmtfs
