import Imola.QmiEncodeBounds
import Imola.QmiRoundTrip
import Imola.RmtfsHandles
import Imola.RmtfsMessages

/-! # The replies of `rmtfs`

A request should get one response, sent to where it came from, with its message id and transaction
id, that says `MALFORMED_MSG` exactly when the request was rejected (`Replies`).  What a response
says is what a client decodes from it.

`respond_spec` is the encoding side: every response a handler can build is encoded and decodes to
its result and to `txn`.  What is left is the path from the packet to `respond`
(`replies_iff_outcome`). `txn` has no value when the packet is no request, `rmtfs_iovec` uses locals
without a value after a rejection, and some requests read outside the table or through NULL;
`Answerable` is the condition under which none of this happens, and `replies_iff` proves that it is
exact. -/

namespace Imola.Rmtfs

open Imola.Bytes Imola.Progs Imola.Qmi Imola.Splice

/-! ### The property -/

/-- A client decodes a response to `msg`. -/
def Sent.decode (sent : Sent) (msg : Msg) : Prog Errno (ℕ × ℕ) :=
  qmiDecodeMessage sent.data.length qmiResponse.toNat msg.id msg.respEi

/-- The result and the error the client finds. -/
def Sent.result (sent : Sent) (msg : Msg) : ℕ × ℕ :=
  let resp := (sent.decode msg).memory (padded 0 sent.data) fun _ => 0
  (ofLE (window resp 0 2), ofLE (window resp 2 2))

/-- `qmi_decode_message` rejects the request. -/
def Rejected (msg : Msg) (pkt : Packet) : Prop :=
  ∃ e, (decodeReq msg pkt).result pkt.data = .error e

/-- `sent` answers `pkt`. -/
structure Answers (msg : Msg) (pkt : Packet) (sent : Sent) : Prop where
  node : sent.node = pkt.node
  port : sent.port = pkt.port
  txn : ∃ n, (sent.decode msg).result (padded 0 sent.data) = .ok (n, pkt.txnId)
  malformed : sent.result msg = (1, errMalformedMsg) ↔ Rejected msg pkt

/-- The packet is handled and gets one response, which answers it. -/
def Replies (cfg : Config) (verbose : Bool) (env : Env) (loc : Locals) (pkt : Packet) (d : Daemon)
    (msg : Msg) : Prop :=
  ∃ sent d', handleRmtfs cfg verbose env loc pkt d = .ok ([sent], d') ∧ Answers msg pkt sent

/-- The handle a decoded request finds is one its handler can work with. -/
def FindsHandle (cfg : Config) (pkt : Packet) (d : Daemon) (msg : Msg) (req : ℕ → UInt8) : Prop :=
  let found := storageGet d.table pkt.node (toInt32 (reqCallerId req))
  match msg with
  | .open | .allocBuff => True
  | .close => found ≠ .outside
  | .rwIovec => found ≠ .outside ∧ (found = .null → cfg.readOnly ∨ req 4 = 0)
  | .getDevError => ∃ c, found = .slot c

instance (cfg : Config) (pkt : Packet) (d : Daemon) (msg : Msg) (req : ℕ → UInt8) :
    Decidable (FindsHandle cfg pkt d msg req) :=
  match msg with
  | .open | .allocBuff => isTrue trivial
  | .close => inferInstanceAs (Decidable (_ ≠ _))
  | .rwIovec => inferInstanceAs (Decidable (_ ∧ (_ → _)))
  | .getDevError => inferInstanceAs (Decidable (∃ _, _))

/-- The condition for replies. -/
structure Answerable (cfg : Config) (verbose : Bool) (pkt : Packet) (d : Daemon) (msg : Msg) :
    Prop where
  /-- The type byte is that of a request. -/
  request : pkt.data 0 = 0
  inArrays : DecodesInArrays msg pkt
  rejected : Rejected msg pkt → msg = .rwIovec → cfg.readOnly
  accepted : ¬ Rejected msg pkt → FindsHandle cfg pkt d msg (reqMemory msg pkt)
  quiet : msg = .close → ¬ verbose

/-! ### Encoding a response -/

/-- The elements of a response. -/
def Msg.respFields : Msg → List Field
  | .open => openRespFields
  | .close => [resultField]
  | .rwIovec => [resultField]
  | .allocBuff => [resultField, optional .unsigned8Byte 8 16 4 8]
  | .getDevError => [resultField, optional .unsigned1Byte 1 16 4 5]

theorem toTable_respFields (msg : Msg) : toTable msg.respFields = msg.respEi := by
  cases msg with
  | _ => rfl

theorem respFields_wf (msg : Msg) : MessageWf msg.respFields := by
  cases msg with
  | _ => decide

theorem respFields_maxLen (msg : Msg) : 7 + (msg.respFields.map Field.maxLen).sum ≤ 256 := by
  cases msg with
  | _ => decide

section Encode

variable {msg : Msg} {resp : Response}

theorem five_le_value (msg : Msg) : 5 ≤ msg.value.1 := by
  cases msg with
  | _ => decide

theorem window_memory (msg : Msg) (resp : Response) :
    window (resp.memory msg) 0 4 = toLE 2 resp.result ++ toLE 2 resp.error := by
  have hlen : (toLE 2 resp.result ++ toLE 2 resp.error).length = 4 := by simp
  have hfront : window (resp.memory msg) 0 4 =
      window (overlay (fun _ => 0) 0 (toLE 2 resp.result ++ toLE 2 resp.error)) 0 4 := by
    apply List.map_congr_left
    intro p hp
    have hvalue := five_le_value msg
    rw [List.mem_range] at hp
    rw [Nat.zero_add]
    unfold Response.memory
    cases resp.value with
    | none => rfl
    | some v =>
        dsimp only
        rw [overlay_of_lt _ _ (by omega), overlay_of_lt _ _ (by omega)]
  rw [hfront, ← hlen, window_overlay]

theorem memory_flag (msg : Msg) (resp : Response) :
    resp.memory msg 4 = 0 ∨ resp.memory msg 4 = 1 := by
  have hvalue := five_le_value msg
  unfold Response.memory
  cases resp.value with
  | none => exact Or.inl rfl
  | some v =>
      dsimp only
      rw [overlay_of_lt _ _ (by omega)]
      exact Or.inr rfl

theorem respFields_fits (msg : Msg) (resp : Response) :
    ∀ f ∈ msg.respFields, f.Fits (resp.memory msg) := by
  have hflag := memory_flag msg resp
  have hresult := resultField_fits (resp.memory msg)
  have hoptional : ∀ dataType elemSize offset, dataType.isBasic = true →
      (optional dataType elemSize 16 4 offset).Fits (resp.memory msg) :=
        fun _ _ _ hbasic => optional_fits hbasic hflag
  cases msg with
  | close => simpa [Msg.respFields] using hresult
  | rwIovec => simpa [Msg.respFields] using hresult
  | «open» =>
      simpa [Msg.respFields, openRespFields] using ⟨hresult, hoptional .unsigned4Byte 4 8 rfl⟩
  | allocBuff => simpa [Msg.respFields] using ⟨hresult, hoptional .unsigned8Byte 8 8 rfl⟩
  | getDevError => simpa [Msg.respFields] using ⟨hresult, hoptional .unsigned1Byte 1 5 rfl⟩

theorem resultField_mem (msg : Msg) : resultField ∈ msg.respFields := by
  cases msg with
  | _ => exact List.mem_cons_self ..

/-- What a client finds in an encoded response. -/
theorem respond_spec (loc : Locals) (pkt : Packet) (msg : Msg) {resp : Response}
    (hresult : resp.result < 65536)
    (herror : resp.error < 65536) : ∃ sent, respond loc pkt msg resp = [sent] ∧
    sent.node = pkt.node ∧
      sent.port = pkt.port ∧
      (∃ n, (sent.decode msg).result (padded 0 sent.data) = .ok (n, txnAfter msg pkt loc % 65536)) ∧
      sent.result msg = (resp.result, resp.error) := by
  have hwf := respFields_wf msg
  have hfit := respFields_fits msg resp
  have hid : msg.id < 65536 := by
    cases msg with
    | _ => decide
  obtain ⟨n, hn, hok⟩ := encode_message_ok hwf hfit (respFields_maxLen msg) (by norm_num)
    qmiResponse msg.id
    (txnAfter msg pkt loc)
  have hspan := span_pieces_le hwf.fields hfit
  have hmax := respFields_maxLen msg
  rw [span_pieces hwf.fields] at hspan
  obtain ⟨hres, hdecoded⟩ := decode_sent hwf hfit (by omega) hid hok loc.respBuf rfl
  rw [toTable_respFields] at hok hres hdecoded
  generalize hdata : window
    ((qmiEncodeMessage (resp.memory msg) 256 qmiResponse msg.id (txnAfter msg pkt loc)
    msg.respEi).memory (resp.memory msg) loc.respBuf) 0 n = data at hres hdecoded
  refine ⟨⟨pkt.node, pkt.port, data⟩, ?_, rfl, rfl, hres, ?_⟩
  · simp only [respond, hok, hdata]
  · have hwindow := @window_result (resp.memory msg) _ (resultField_mem msg) fun _ => 0
    rw [window_memory, window_add _ 0 2 2] at hwindow
    obtain ⟨h₁, h₂⟩ := List.append_inj hwindow (by simp)
    simp only [Sent.result, Sent.decode, hdecoded]
    rw [h₁, h₂, ofLE_toLE (by omega), ofLE_toLE (by omega)]

end Encode

/-! ### From the packet to the response -/

section Handlers

variable {cfg : Config} {verbose : Bool} {env : Env} {loc : Locals} {pkt : Packet}
    {d : Daemon} {msg : Msg}

theorem header_spec {n id : ℕ} {data : ℕ → UInt8} (h : (qmiDecodeHeader n).result data = .ok id) :
    n ≠ 0 ∧ ofLE (window data 3 2) = id := by
  rw [qmiDecodeHeader, Prog.result_bind_ok (Prog.result_readN _ _ _)] at h
  have hlen := ofLE_lt (window data 5 2)
  rw [window_length] at hlen
  split_ifs at h with hne
  · cases h
  · rw [Prog.result_bind_ok (Prog.result_readN _ _ _)] at h
    refine ⟨?_, Except.ok.inj h⟩
    rintro rfl
    omega

theorem isRequest_iff (pkt : Packet) :
    ofLE (window pkt.data 0 1) = qmiRequest ↔ pkt.data 0 = 0 := by
  rw [qmiRequest, ← UInt8.toNat_inj]
  simp [window, ofLE]

/-- `txn` gets the transaction id exactly when the packet is a request. -/
theorem txnAfter_eq (hid : (qmiDecodeHeader pkt.dataLen).result pkt.data = .ok msg.id)
    (loc : Locals) :
    txnAfter msg pkt loc = if pkt.data 0 = 0 then pkt.txnId else loc.txn := by
  obtain ⟨hne, hmsg⟩ := header_spec hid
  rw [txnAfter]
  by_cases h : pkt.data 0 = 0
  · rw [if_pos h, if_neg]
    simp only [not_or, not_not]
    exact ⟨hne, (isRequest_iff pkt).mpr h, hmsg⟩
  · rw [if_neg h, if_pos (Or.inr (Or.inl fun h' => h ((isRequest_iff pkt).mp h')))]

/-- The action gives a response, with success or `INTERNAL`, exactly when `P` holds. -/
def GivesResponse (P : Prop) (r : Except Undefined (Response × Daemon)) : Prop :=
  (P ∧ ∃ resp d', r = .ok (resp, d') ∧ resp.result ≤ 1 ∧ resp.error ≤ 1) ∨ (¬ P ∧ ∃ u, r = .error u)

theorem rmtfsOpen_gives (cfg : Config) (i : Input) (d : Daemon) (path : String) :
    GivesResponse True (ofStep (.ok (rmtfsOpen cfg i d path))) := by
  unfold rmtfsOpen
  generalize storageOpen cfg i.fs d.table i.node path = r
  obtain ⟨slot, t⟩ := r
  cases slot with
  | none => exact Or.inl ⟨trivial, _, _, rfl, le_rfl, le_rfl⟩
  | some c => exact Or.inl ⟨trivial, _, _, rfl, Nat.zero_le _, Nat.zero_le _⟩

theorem rmtfsClose_gives (i : Input) (d : Daemon) (callerId : ℕ) :
    GivesResponse (storageGet d.table i.node (toInt32 callerId) ≠ .outside)
      (ofStep (rmtfsClose i d callerId)) := by
  unfold rmtfsClose
  generalize storageGet d.table i.node (toInt32 callerId) = found
  cases found with
  | outside => exact Or.inr ⟨fun h => h rfl, _, rfl⟩
  | null => exact Or.inl ⟨by simp, _, _, rfl, le_rfl, le_rfl⟩
  | slot c => exact Or.inl ⟨by simp, _, _, rfl, Nat.zero_le _, Nat.zero_le _⟩

theorem rmtfsIovec_gives (cfg : Config) (i : Input) (d : Daemon) (r : IovecReq) :
    GivesResponse (storageGet d.table i.node (toInt32 r.callerId) ≠ .outside ∧
      (storageGet d.table i.node (toInt32 r.callerId) = .null → cfg.readOnly ∨ r.direction = 0))
      (ofStep (rmtfsIovec cfg i d r)) := by
  unfold rmtfsIovec
  generalize storageGet d.table i.node (toInt32 r.callerId) = found
  cases found with
  | outside => exact Or.inr ⟨fun h => h.1 rfl, _, rfl⟩
  | null =>
      dsimp only
      by_cases hsync : r.direction ≠ 0 ∧ ¬ cfg.readOnly
      · rw [if_pos hsync]
        refine Or.inr ⟨fun h => ?_, _, rfl⟩
        cases h.2 rfl with
        | inl hro => exact hsync.2 hro
        | inr hdir => exact hsync.1 hdir
      · rw [if_neg hsync]
        refine Or.inl ⟨⟨by simp, fun _ => ?_⟩, _, _, rfl, le_rfl, le_rfl⟩
        tauto
  | slot c =>
      refine Or.inl ⟨by simp, _, _, rfl, ?_⟩
      dsimp only [Response.ofReply]
      split_ifs
      · exact ⟨Nat.zero_le _, Nat.zero_le _⟩
      · exact ⟨le_rfl, le_rfl⟩

theorem rmtfsAllocBuf_gives (d : Daemon) (buffSize : ℕ) :
    GivesResponse True (.ok (rmtfsAllocBuf d buffSize)) := by
  unfold rmtfsAllocBuf
  cases rmtfsMemAlloc d.rmem buffSize with
  | none => exact Or.inl ⟨trivial, _, _, rfl, le_rfl, le_rfl⟩
  | some address => exact Or.inl ⟨trivial, _, _, rfl, Nat.zero_le _, Nat.zero_le _⟩

theorem rmtfsGetDevError_gives (d : Daemon) (node callerId : ℕ) :
    GivesResponse (∃ c, storageGet d.table node (toInt32 callerId) = .slot c)
      ((rmtfsGetDevError d node callerId).mapError .action) := by
  unfold rmtfsGetDevError
  generalize storageGet d.table node (toInt32 callerId) = found
  cases found with
  | outside => exact Or.inr ⟨by simp, _, rfl⟩
  | null => exact Or.inr ⟨by simp, _, rfl⟩
  | slot c => exact Or.inl ⟨⟨c, rfl⟩, _, _, rfl, le_rfl, le_rfl⟩

theorem act_gives (cfg : Config) (env : Env) (pkt : Packet) (d : Daemon) (msg : Msg)
    (req : ℕ → UInt8) :
    GivesResponse (FindsHandle cfg pkt d msg req) (act cfg env pkt d msg req) := by
  cases msg with
  | «open» => exact rmtfsOpen_gives cfg (env.input pkt (.open (reqPath req))) d (reqPath req)
  | close => exact rmtfsClose_gives (env.input pkt (.close (reqCallerId req))) d (reqCallerId req)
  | rwIovec =>
      have hdir : req 4 = 0 ↔ (reqIovec req).direction = 0 := UInt8.toNat_inj.symm
      unfold FindsHandle
      rw [hdir]
      exact rmtfsIovec_gives cfg (env.input pkt (.iovec (reqIovec req))) d (reqIovec req)
  | allocBuff => exact rmtfsAllocBuf_gives d _
  | getDevError => exact rmtfsGetDevError_gives d _ _

/-- A rejection does not go on with a handle without a value. -/
def Tolerates (cfg : Config) (loc : Locals) (msg : Msg) : Prop :=
  msg = .rwIovec → loc.isWrite = 0 ∨ cfg.readOnly ∨ loc.rmtfdReadable

/-- The handler gets to its response. -/
def Responds (cfg : Config) (loc : Locals) (pkt : Packet) (d : Daemon) (msg : Msg) : Prop :=
  (Rejected msg pkt → Tolerates cfg loc msg) ∧
    (¬ Rejected msg pkt → FindsHandle cfg pkt d msg (reqMemory msg pkt))

/-- The response says `MALFORMED_MSG` exactly for a rejected request. -/
theorem outcome_spec (cfg : Config) (env : Env) (loc : Locals) (pkt : Packet) (d : Daemon)
    (msg : Msg) :
    (Responds cfg loc pkt d msg ∧ ∃ resp d', outcome cfg env loc pkt d msg = .ok (resp, d') ∧
      resp.result ≤ 1 ∧
      resp.error ≤ 2 ∧ ((resp.result, resp.error) = (1, errMalformedMsg) ↔ Rejected msg pkt)) ∨
    (¬ Responds cfg loc pkt d msg ∧ ∃ u, outcome cfg env loc pkt d msg = .error u) := by
  unfold outcome
  cases hres : (decodeReq msg pkt).result pkt.data with
  | error e =>
      have hrej : Rejected msg pkt := ⟨e, hres⟩
      have hresponds : Responds cfg loc pkt d msg ↔ Tolerates cfg loc msg :=
        ⟨fun h => h.1 hrej, fun h => ⟨fun _ => h, fun hn => absurd hrej hn⟩⟩
      dsimp only
      unfold malformed
      split_ifs with hwild
      · refine Or.inr ⟨fun h => ?_, _, rfl⟩
        have htol := hresponds.mp h hwild.1
        tauto
      · refine Or.inl ⟨hresponds.mpr fun hmsg => ?_, _, _, rfl, le_rfl, le_rfl,
          iff_of_true rfl hrej⟩
        tauto
  | ok v =>
      have hacc : ¬ Rejected msg pkt := by
        rintro ⟨e, he⟩
        rw [hres] at he
        cases he
      have hresponds : Responds cfg loc pkt d msg ↔ FindsHandle cfg pkt d msg (reqMemory msg pkt) :=
        ⟨fun h => h.2 hacc, fun h => ⟨fun hr => absurd hr hacc, fun _ => h⟩⟩
      rw [hresponds]
      cases act_gives cfg env pkt d msg (reqMemory msg pkt) with
      | inl h =>
          obtain ⟨hfinds, resp, d', hact, hresult, herror⟩ := h
          refine Or.inl ⟨hfinds, resp, d', hact, hresult, by omega, iff_of_false ?_ hacc⟩
          rw [Prod.mk.injEq, errMalformedMsg]
          omega
      | inr h => exact Or.inr h

/-- **Replies in terms of the handler**: it stays inside its arrays, gets to its response and has
the transaction id. -/
theorem replies_iff_responds (htype : pkt.type = .data)
    (hid : (qmiDecodeHeader pkt.dataLen).result pkt.data = .ok msg.id) :
    Replies cfg verbose env loc pkt d msg ↔ DecodesInArrays msg pkt ∧ (msg = .close → ¬ verbose) ∧
      Responds cfg loc pkt d msg ∧ txnAfter msg pkt loc % 65536 = pkt.txnId := by
  have hhandle : handleRmtfs cfg verbose env loc pkt d = handle cfg verbose env loc pkt d msg := by
    simp only [handleRmtfs, htype, hid, Msg.ofId_id]
  have herr : ∀ {u}, handle cfg verbose env loc pkt d msg = .error u →
      ¬ Replies cfg verbose env loc pkt d msg := by
    rintro u hu ⟨sent, d', hsent, -⟩
    rw [hhandle, hu] at hsent
    cases hsent
  by_cases harr : DecodesInArrays msg pkt
  swap
  · exact iff_of_false (herr (by rw [handle, if_pos harr])) fun h => harr h.1
  cases outcome_spec cfg env loc pkt d msg with
  | inr h =>
      obtain ⟨hno, u, hu⟩ := h
      exact iff_of_false (@herr u (by simp only [handle, harr, not_true_eq_false, if_false, hu]))
        fun h => hno h.2.2.1
  | inl h =>
      obtain ⟨hyes, resp, d', hout, hresult, herror, hmal⟩ := h
      by_cases hquiet : msg = .close ∧ verbose
      · refine iff_of_false (@herr .format ?_) fun h => h.2.1 hquiet.1 hquiet.2
        simp only [handle, harr, not_true_eq_false, if_false, hout, if_pos hquiet]
      · have hsends : handleRmtfs cfg verbose env loc pkt d =
            .ok (respond loc pkt msg resp, d') := by
          rw [hhandle]
          simp only [handle, harr, not_true_eq_false, if_false, hout, if_neg hquiet]
        obtain ⟨sent, hsent, hnode, hport, ⟨n, htxn⟩, hres⟩ :=
          @respond_spec loc pkt msg resp (by omega) (by omega)
        rw [hsent] at hsends
        constructor
        · rintro ⟨sent', d'', hsends', hans⟩
          rw [hsends] at hsends'
          cases hsends'
          obtain ⟨n', htxn'⟩ := hans.txn
          rw [htxn] at htxn'
          exact ⟨harr, fun hmsg hv => hquiet ⟨hmsg, hv⟩, hyes,
            (Prod.mk.inj (Except.ok.inj htxn')).2⟩
        · rintro ⟨-, -, -, heq⟩
          rw [heq] at htxn
          exact ⟨sent, d', hsends, hnode, hport, ⟨n, htxn⟩, by rw [hres]; exact hmal⟩

theorem txnId_lt (pkt : Packet) : pkt.txnId < 65536 := by
  have h := ofLE_lt (window pkt.data 1 2)
  rwa [window_length] at h

end Handlers

/-- **The replies**: whatever the locals without a value hold, a request gets the one response it
should get exactly when it is answerable. -/
theorem replies_iff (cfg : Config) (verbose : Bool) (env : Env) (d : Daemon) (msg : Msg)
    (pkt : Packet)
    (htype : pkt.type = .data) (hid : (qmiDecodeHeader pkt.dataLen).result pkt.data = .ok msg.id) :
    (∀ loc, Replies cfg verbose env loc pkt d msg) ↔ Answerable cfg verbose pkt d msg := by
  simp only [replies_iff_responds htype hid, txnAfter_eq hid]
  constructor
  · intro h
    obtain ⟨harr, hquiet, hresponds, htxn⟩ := h ⟨pkt.txnId + 1, 1, false, fun _ => 0⟩
    refine ⟨?_, harr, fun hrej hmsg => ?_, hresponds.2, hquiet⟩
    · by_contra hne
      rw [if_neg hne] at htxn
      have hlt := txnId_lt pkt
      dsimp only at htxn
      omega
    · have htol := hresponds.1 hrej hmsg
      simpa using htol
  · intro h loc
    refine ⟨h.inArrays, h.quiet, ⟨fun hrej hmsg => ?_, h.accepted⟩, ?_⟩
    · exact Or.inr (Or.inl (h.rejected hrej hmsg))
    · rw [if_pos h.request, Nat.mod_eq_of_lt (txnId_lt pkt)]

/-- A CLOSE of caller 0 with transaction id 7 from node 3, with a given type byte. -/
def samplePacket (type : UInt8) : Packet :=
  ⟨.data, 3, 9, padded 0 [type, 7, 0, 2, 0, 7, 0, 1, 4, 0, 0, 0, 0, 0], 14, by decide⟩

/-- The settings of the device, with the storage directory empty. -/
def sampleConfig : Config := ⟨"/dev/block/by-name", true, true⟩

def sampleDaemon : Daemon := Daemon.init ⟨0, 0, true, []⟩ (some sampleConfig.storageDir) true true

def sampleEnv : Env :=
  ⟨⟨fun _ => -1, fun _ => .openFails⟩, fun _ => ⟨(0, []), 0, (0, []), ⟨0, none⟩⟩, []⟩

theorem replies_samplePacket :
    Replies sampleConfig false sampleEnv ⟨0, 0, false, fun _ => 0⟩ (samplePacket 0)
      sampleDaemon .close :=
  (replies_iff sampleConfig false sampleEnv sampleDaemon .close (samplePacket 0) rfl rfl).mpr
    ⟨rfl, by decide, fun _ _ => rfl, fun _ => by decide, by decide⟩ ⟨0, 0, false, fun _ => 0⟩

/-- With the type byte of a response and a `txn` that holds 0, the reply has the transaction id
0. -/
theorem not_replies_samplePacket :
    ¬ Replies sampleConfig false sampleEnv ⟨0, 0, false, fun _ => 0⟩ (samplePacket 2) sampleDaemon
      .close := by
  rw [replies_iff_responds rfl rfl]
  rintro ⟨-, -, -, htxn⟩
  revert htxn
  decide

end Imola.Rmtfs
