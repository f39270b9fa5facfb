import Imola.QmiRequests
import Imola.RmtfsReplies

/-! # Looking up a caller

CLOSE, RW_IOVEC and GET_DEV_ERROR name a handle by a `uint32_t`, which each handler passes to the
`int` parameter of `storage_get`.  The function compares it with `MAX_CALLERS` and takes it as an
index.

The comparison is one of signed numbers, so it lets every negative one pass: the lookup stays in the
table exactly for the ids below `2 ^ 31` (`lookups_inTable_iff`). -/

namespace Imola.Rmtfs

open Imola.Bytes Imola.Progs Imola.Qmi Imola.Splice

/-- The messages that name a handle. -/
def Msg.looksUp : Msg → Bool
  | .close | .rwIovec | .getDevError => true
  | .open | .allocBuff => false

/-- The packet is a request that its handler accepts, for a handle. -/
structure Packet.Carries (pkt : Packet) (msg : Msg) (callerId : ℕ) : Prop where
  type : pkt.type = .data
  header : (qmiDecodeHeader pkt.dataLen).result pkt.data = .ok msg.id
  accepted : ∃ r, (decodeReq msg pkt).result pkt.data = .ok r
  callerId : reqCallerId (reqMemory msg pkt) = callerId

/-- The index in `&rmtfds[caller_id]`, if `storage_get` gets there. -/
def storageGetIndex (callerId : ℤ) : Option ℤ :=
  if callerId ≥ maxCallers then none else some callerId

/-- A handler looks a handle up in the table: no other index is formed, and the result is NULL or
the slot with the number of the request. -/
structure LooksUpInTable (pkt : Packet) (d : Daemon) (msg : Msg) (callerId : ℕ) : Prop where
  index : ∀ i ∈ storageGetIndex (toInt32 callerId), 0 ≤ i ∧ i < maxCallers
  result : storageGet d.table pkt.node (toInt32 callerId) = .null ∨
    ∃ c : Fin maxCallers, (c : ℕ) = callerId ∧
    storageGet d.table pkt.node (toInt32 callerId) = .slot c
  handler : ∀ cfg env loc, outcome cfg env loc pkt d msg ≠ .error (.action .outsideTable)

/-! ### Packets for every id -/

/-- The element of the caller id, first in the three tables. -/
def callerField : Field := valueField .unsigned4Byte 4 1 0

def callerTlv (callerId : ℕ) : Tlv := ⟨1, toLE 4 callerId⟩

theorem callerPacket_fits : 14 ≤ recvSize := by decide

/-- A request with the TLV of the caller id and nothing else. -/
def callerPacket (node : ℕ) (msg : Msg) (callerId : ℕ) : Packet :=
  ⟨.data, node, 9, overlay (fun _ => 0) 0 (tlvPacket 0 7 msg.id [callerTlv callerId]), 14,
    callerPacket_fits⟩

section Packets

variable {msg : Msg}

theorem exists_callerFields (h : msg.looksUp = true) :
    ∃ fs, RequestWf (callerField :: fs) ∧ toTable (callerField :: fs) = msg.reqEi := by
  cases msg with
  | «open» => cases h
  | allocBuff => cases h
  | close => exact ⟨[], by decide, rfl⟩
  | rwIovec => exact ⟨iovecReqFields.tail, by decide, rfl⟩
  | getDevError => exact ⟨[], by decide, rfl⟩

theorem callerPacket_length (msgId callerId : ℕ) :
    (tlvPacket 0 7 msgId [callerTlv callerId]).length = 14 := by
  simp [tlvPacket_length, tlvBytes, Tlv.bytes, callerTlv]

theorem id_mod (msg : Msg) : msg.id % 65536 = msg.id := by
  cases msg with
  | _ => rfl

theorem callerTlv_wf (fs : List Field) (callerId : ℕ) :
    (callerTlv callerId).Wf (toTable (callerField :: fs)) := by
  refine ⟨by simp [callerTlv], fun _ => ?_, fun hno => by cases hno⟩
  exact toLE_length 4 callerId

theorem callerPacket_decodes (h : msg.looksUp = true) (node callerId : ℕ) :
    Copies (decodeReq msg (callerPacket node msg callerId)) (callerPacket node msg callerId).data
      (overlay (fun _ => 0) 0 (toLE 4 callerId)) (7, 7) [(0, 4)] := by
  obtain ⟨fs, hwf, htable⟩ := exists_callerFields h
  have hlen := callerPacket_length msg.id callerId
  have hstored : callerField.Holds (overlay (fun _ => 0) 0 (toLE 4 callerId))
      (callerTlv callerId).value := by
    intro s hs
    obtain rfl : s = (0, toLE 4 callerId ++ []) := List.mem_singleton.mp hs
    rw [List.append_nil]
    exact window_overlay _ _ _
  have helem : elementOf (callerField :: fs) (callerTlv callerId) = some callerField := rfl
  have hholds : ∀ x ∈ [callerTlv callerId], ∀ f, elementOf (callerField :: fs) x = some f →
      f.Holds (overlay (fun _ => 0) 0 (toLE 4 callerId)) x.value := by
    intro x hx f hf
    obtain rfl := List.mem_singleton.mp hx
    rw [helem] at hf
    cases hf
    exact hstored
  have hdecode := @decode_packet (callerField :: fs) [callerTlv callerId] _ _ hwf
    (by simpa using callerTlv_wf fs callerId) hholds 0 7 msg.id (by rw [hlen]; norm_num)
    (window_overlay (fun _ => 0) 0 _)
  rw [hlen, id_mod, htable] at hdecode
  exact hdecode

/-- Every id can be carried by each of the messages. -/
theorem callerPacket_carries (h : msg.looksUp = true) (node : ℕ) {callerId : ℕ}
    (hid : callerId < 2 ^ 32) :
    (callerPacket node msg callerId).Carries msg callerId := by
  obtain ⟨hresult, hmemory⟩ := callerPacket_decodes h node callerId
  have hbody : (tlvBytes [callerTlv callerId]).length = 7 := by
    simp [tlvBytes, Tlv.bytes, callerTlv]
  refine ⟨rfl, ?_, ⟨_, hresult⟩, ?_⟩
  · have hheader := decodeHeader_packet
      (window_overlay (fun _ => 0) 0 (tlvPacket 0 7 msg.id [callerTlv callerId]))
      (by rw [hbody]; norm_num) (by rw [hbody]; norm_num)
    rwa [if_pos rfl, id_mod, hbody] at hheader
  · have hwindow : window (overlay (fun _ => 0) 0 (toLE 4 callerId)) 0 4 = toLE 4 callerId :=
      window_overlay _ _ _
    rw [reqCallerId, reqMemory, hmemory, window_copied (List.mem_singleton.mpr rfl), hwindow,
      ofLE_toLE hid]

end Packets

/-! ### The lookup -/

section Lookup

variable {pkt : Packet} {msg : Msg} {callerId : ℕ}

/-- An id that is no negative `int` is refused or found. -/
theorem storageGet_ne_outside (t : Table) (node : ℕ) (h : callerId < 2 ^ 31) :
    storageGet t node (toInt32 callerId) = .null ∨
      ∃ c : Fin maxCallers, (c : ℕ) = callerId ∧ storageGet t node (toInt32 callerId) =
        .slot c := by
  rw [storageGet_eq h]
  split_ifs with hc hnode
  · exact Or.inr ⟨⟨callerId, hc⟩, rfl, rfl⟩
  · exact Or.inl rfl
  · exact Or.inl rfl

theorem rmtfsClose_inTable {i : Input} {d : Daemon}
    (h : storageGet d.table i.node (toInt32 callerId) ≠ .outside) :
    rmtfsClose i d callerId ≠ .error .outsideTable := by
  unfold rmtfsClose
  generalize storageGet d.table i.node (toInt32 callerId) = found at h
  cases found with
  | outside => exact absurd rfl h
  | null => simp
  | slot c => simp

theorem rmtfsIovec_inTable {cfg : Config} {i : Input} {d : Daemon} {r : IovecReq}
    (h : storageGet d.table i.node (toInt32 r.callerId) ≠ .outside) :
    rmtfsIovec cfg i d r ≠ .error .outsideTable := by
  unfold rmtfsIovec
  generalize storageGet d.table i.node (toInt32 r.callerId) = found at h
  cases found with
  | outside => exact absurd rfl h
  | null =>
      dsimp only
      split_ifs
      · simp
      · simp
  | slot c => simp

theorem rmtfsGetDevError_inTable {d : Daemon} {node : ℕ}
    (h : storageGet d.table node (toInt32 callerId) ≠ .outside) :
    rmtfsGetDevError d node callerId ≠ .error .outsideTable := by
  unfold rmtfsGetDevError
  generalize storageGet d.table node (toInt32 callerId) = found at h
  cases found with
  | outside => exact absurd rfl h
  | null => simp
  | slot c => simp

theorem ofStep_eq_action {r : Except Fault (Reply × Daemon)} {f : Fault} :
    ofStep r = .error (.action f) ↔ r = .error f := by
  cases r with
  | error f' => simp [ofStep]
  | ok v => simp [ofStep]

theorem outcome_inTable (hcarries : pkt.Carries msg callerId) (cfg : Config) (env : Env)
    (loc : Locals)
    {d : Daemon} (h : storageGet d.table pkt.node (toInt32 callerId) ≠ .outside) :
    outcome cfg env loc pkt d msg ≠ .error (.action .outsideTable) := by
  obtain ⟨r, hr⟩ := hcarries.accepted
  have hid := hcarries.callerId
  rw [outcome, hr]
  dsimp only
  generalize reqMemory msg pkt = req at hid
  subst hid
  cases msg with
  | «open» => simp [act, step, Env.input, ofStep]
  | allocBuff => simp [act]
  | close => exact ofStep_eq_action.not.mpr (rmtfsClose_inTable h)
  | rwIovec => exact ofStep_eq_action.not.mpr (@rmtfsIovec_inTable cfg _ d (reqIovec req) h)
  | getDevError =>
      have hget := rmtfsGetDevError_inTable h
      unfold act
      cases hres : rmtfsGetDevError d pkt.node (reqCallerId req) with
      | error f =>
          rw [hres] at hget
          simpa [Except.mapError] using hget
      | ok v => simp [Except.mapError]

end Lookup

/-- **The lookup is in bounds** for all packets that carry an id exactly when the id is no negative
`int`. -/
theorem lookups_inTable_iff (node : ℕ) {msg : Msg} (hmsg : msg.looksUp = true) (callerId : UInt32) :
    (∀ pkt d, pkt.node = node → pkt.Carries msg callerId.toNat →
      LooksUpInTable pkt d msg callerId.toNat) ↔
      callerId.toNat < 2 ^ 31 := by
  have hlt := callerId.toNat_lt
  constructor
  · intro h
    have hcarries := callerPacket_carries hmsg node hlt
    have hindex :=
      (h _ ⟨fun _ => ⟨0, 0, -1, 0, none, none, 0⟩, ⟨0, 0, true, []⟩⟩ rfl hcarries).index
    by_contra hneg
    have hid : toInt32 callerId.toNat = (callerId.toNat : ℤ) - 2 ^ 32 := by
      rw [toInt32, if_neg hneg]
    have hformed : storageGetIndex (toInt32 callerId.toNat) = some (toInt32 callerId.toNat) := by
      rw [storageGetIndex, if_neg]
      omega
    have hrange := hindex _ hformed
    omega
  · intro hid pkt d hnode hcarries
    have hresult := storageGet_ne_outside d.table pkt.node hid
    refine ⟨?_, hresult, ?_⟩
    · intro i hi
      have hnonneg : toInt32 callerId.toNat = callerId.toNat := by rw [toInt32, if_pos hid]
      rw [storageGetIndex, hnonneg] at hi
      split_ifs at hi with hmax
      · cases hi
      · cases hi
        omega
    · intro cfg env loc
      refine outcome_inTable hcarries cfg env loc ?_
      rintro hout
      rw [hout] at hresult
      rcases hresult with h | ⟨c, -, h⟩
      · cases h
      · cases h

/-- A CLOSE of caller 0. -/
theorem lookups_inTable_close : LooksUpInTable (callerPacket 3 .close 0) sampleDaemon .close 0 :=
  (@lookups_inTable_iff 3 .close rfl 0).mpr (by decide) (callerPacket 3 .close 0) sampleDaemon rfl
    (callerPacket_carries rfl 3 (by decide))

/-- A CLOSE of caller `0xffffffff` reads the slot in front of the table. -/
theorem not_inTable_close : (callerPacket 3 .close 0xffffffff).Carries .close 0xffffffff ∧
    storageGetIndex (toInt32 0xffffffff) = some (-1) ∧
    outcome sampleConfig sampleEnv ⟨0, 0, false, fun _ => 0⟩ (callerPacket 3 .close 0xffffffff)
      sampleDaemon .close =
      .error (.action .outsideTable) ∧
    ¬ LooksUpInTable (callerPacket 3 .close 0xffffffff) sampleDaemon .close 0xffffffff := by
  have hindex : storageGetIndex (toInt32 0xffffffff) = some (-1) := by decide
  refine ⟨callerPacket_carries rfl 3 (by decide), hindex, rfl, fun h => ?_⟩
  exact absurd (h.index (-1) hindex) (by decide)

end Imola.Rmtfs
