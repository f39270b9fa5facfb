import Imola.PdMapperTable
import Imola.QmiEncodeBounds
import Imola.QmiRequests

/-! # The replies of `pd-mapper`

A GET_DOMAIN_LIST request names a service, and the response should list the rows of `pd_maps` with
this service.  `handle_get_domain_list` collects the rows in a structure with 255 entries of 256
bytes each, without a check, and encodes it into a packet of 256 bytes.  When the packet is too
small the encoder gives an error and no response is sent.

The rows of a service are listed in full exactly when the response fits in the packet
(`lists_domains_iff`).  The other two limits are behind this one: a response with more than 255 rows
or with a longer name does not fit either. -/

namespace Imola.PdMapper

open Imola.Bytes Imola.CStrings Imola.Progs Imola.Qmi Imola.Splice Imola.Streams

/-! ### Packets -/

/-- `QMI_REQUEST`. -/
def qmiRequest : UInt8 := 0

/-- `QMI_RESPONSE`. -/
def qmiResponse : UInt8 := 2

/-- `SERVREG_LOC_GET_DOMAIN_LIST`. -/
def servregLocGetDomainList : ℕ := 33

/-- `QMI_RESULT_FAILURE`. -/
def qmiResultFailure : ℕ := 1

/-- `QMI_ERR_MALFORMED_MSG`. -/
def qmiErrMalformedMsg : ℕ := 2

/-- The size of the buffer of `main`. -/
def recvSize : ℕ := 4096

/-- The size of `resp_buf`. -/
def respBufSize : ℕ := 256

/-- `struct qrtr_packet` of type `QRTR_TYPE_DATA`; the packet is the first `dataLen` bytes of
`data`. -/
structure Packet where
  node : ℕ
  port : ℕ
  data : ℕ → UInt8
  dataLen : ℕ

/-- A call of `qrtr_sendto`. -/
structure Sent where
  node : ℕ
  port : ℕ
  data : List UInt8
deriving DecidableEq, Repr

/-- What the locals without an initial value hold: `txn`, and the buffers with the bytes behind
them. -/
structure Locals where
  txn : ℕ
  buf : ℕ → UInt8
  respBuf : ℕ → UInt8

/-- Undefined behaviour in the handling of a packet. -/
inductive Fault where
  /-- The decoder left the receive buffer or the request. -/
  | decoder
  /-- An entry behind `domain_list`. -/
  | entries
  /-- `strcpy` behind the `name` of an entry. -/
  | name
  /-- The encoder left `resp_buf`. -/
  | encoder
deriving DecidableEq, Repr

/-- `recvfrom` and `qrtr_decode`: a datagram is cut to the size of the buffer. -/
def receive (loc : Locals) (node port : ℕ) (bytes : List UInt8) : Packet where
  node := node
  port := port
  data := overlay loc.buf 0 (bytes.take recvSize)
  dataLen := (bytes.take recvSize).length

/-! ### The request -/

section Request

variable (pkt : Packet)

/-- The call of `qmi_decode_message`. -/
def decodeReq : Prog Errno (ℕ × ℕ) :=
  qmiDecodeMessage pkt.dataLen qmiRequest.toNat servregLocGetDomainList servregLocGetDomainListReqEi

/-- The decoder reads in the receive buffer and stores in `req`, which has 268 bytes. -/
def InArrays : Event → Prop
  | .read i => i < recvSize
  | .store a => a < 268
  | .sub _ _ => True

instance (ev : Event) : Decidable (InArrays ev) :=
  match ev with
  | .read _ => inferInstanceAs (Decidable (_ < _))
  | .store _ => inferInstanceAs (Decidable (_ < _))
  | .sub _ _ => isTrue trivial

/-- The call has no access outside its two arrays. -/
def DecodesInArrays : Prop := ∀ ev ∈ (decodeReq pkt).events pkt.data, InArrays ev

instance : Decidable (DecodesInArrays pkt) := inferInstanceAs (Decidable (∀ ev ∈ _, _))

/-- `req.name` behind the assignment of its last byte. -/
def reqName : List UInt8 :=
  (cString (overlay ((decodeReq pkt).memory pkt.data fun _ => 0) 259 [0]) 256 4).getD []

/-- `txn` after the call, which assigns it when the type and the message id are as expected. -/
def txnAfter (loc : Locals) : ℕ :=
  if pkt.dataLen = 0 ∨ ofLE (window pkt.data 0 1) ≠ qmiRequest.toNat ∨
      ofLE (window pkt.data 3 2) ≠ servregLocGetDomainList then loc.txn
  else ofLE (window pkt.data 1 2)

end Request

/-! ### The response -/

/-- The offset of `resp.domain_list[i]`. -/
def entryAt (i : ℕ) : ℕ := 20 + i * 272

/-- A row is stored in entry `n`, and `domain_list_len` counts it. -/
def storeEntry (resp : ℕ → UInt8) (n : ℕ) (row : PdMap) : ℕ → UInt8 :=
  let resp := overlay resp 16 (toLE 4 (n + 1))
  let resp := overlay resp (entryAt n + 4) (row.domain ++ [0])
  let resp := overlay resp (entryAt n) (toLE 4 row.domain.length)
  overlay resp (entryAt n + 260) (toLE 4 row.inst.toUInt32.toNat)

/-- The loop over `pd_maps`; `n` is `domain_list_len`. -/
def collect (name : List UInt8) : List PdMap → ℕ → (ℕ → UInt8) → Except Fault (ℕ × (ℕ → UInt8))
  | [], n, resp => .ok (n, resp)
  | row :: rows, n, resp =>
      if row.service = name then
        if 255 ≤ n then .error .entries
        else if 256 ≤ row.domain.length then .error .name
        else collect name rows (n + 1) (storeEntry resp n row)
      else collect name rows n resp

/-- `resp` before the loop: success, and the revision of the database. -/
def successResp : ℕ → UInt8 :=
  overlay (overlay (overlay (fun _ => 0) 0 (toLE 2 0)) 8 [1]) 10 (toLE 2 1)

/-- `resp` behind the loop. -/
def finishResp (n : ℕ) (resp : ℕ → UInt8) : ℕ → UInt8 :=
  overlay (overlay (if n ≠ 0 then overlay resp 12 [1] else resp) 4 [1]) 6 (toLE 2 n)

/-- `resp` when the request is rejected. -/
def malformedResp : ℕ → UInt8 :=
  overlay (overlay (fun _ => 0) 0 (toLE 2 qmiResultFailure)) 2 (toLE 2 qmiErrMalformedMsg)

/-- The label `respond`: nothing is sent when the encoder fails. -/
def respond (loc : Locals) (pkt : Packet) (resp : ℕ → UInt8) : Except Fault (List Sent) :=
  let encode := qmiEncodeMessage resp respBufSize qmiResponse servregLocGetDomainList
    (txnAfter pkt loc)
    servregLocGetDomainListRespEi
  if ¬ encode.Inside resp respBufSize then .error .encoder
  else
    match encode.result resp with
    | .error _ => .ok []
    | .ok len => .ok [⟨pkt.node, pkt.port, window (encode.memory resp loc.respBuf) 0 len⟩]

/-- `handle_get_domain_list`. -/
def handleGetDomainList (table : List PdMap) (loc : Locals) (pkt : Packet) :
    Except Fault (List Sent) :=
  if ¬ DecodesInArrays pkt then .error .decoder
  else
    match (decodeReq pkt).result pkt.data with
    | .error _ => respond loc pkt malformedResp
    | .ok _ =>
        match collect (reqName pkt) table 0 successResp with
        | .error f => .error f
        | .ok (n, resp) => respond loc pkt (finishResp n resp)

/-- A round of the loop of `main` with a packet of type `QRTR_TYPE_DATA`; SERVREG_LOC_PFR is only
printed. -/
def handlePacket (table : List PdMap) (loc : Locals) (pkt : Packet) : Except Fault (List Sent) :=
  match (qmiDecodeHeader pkt.dataLen).result pkt.data with
  | .error _ => .ok []
  | .ok msgId =>
      if msgId = servregLocGetDomainList then handleGetDomainList table loc pkt else .ok []

/-! ### The property -/

/-- A well-formed request: its TLVs are of the lengths that the table asks for, no type of the table
comes twice, and the name of the service is a string. -/
structure Request where
  node : ℕ
  port : ℕ
  txnId : ℕ
  tlvs : List Tlv
  service : List UInt8
  wf : ∀ x ∈ tlvs, x.Wf servregLocGetDomainListReqEi
  distinct : ((tlvs.filter fun x => x.known servregLocGetDomainListReqEi).map Tlv.type).Nodup
  named : ⟨1, service⟩ ∈ tlvs
  noNul : NoNul service
  txnId_lt : txnId < 65536
  size_lt : (tlvBytes tlvs).length < 65536

/-- The request on the wire. -/
def Request.packet (r : Request) : List UInt8 :=
  tlvPacket qmiRequest r.txnId servregLocGetDomainList r.tlvs

/-- The rows with a service, in the order of the table. -/
def rowsOf (table : List PdMap) (service : List UInt8) : List PdMap :=
  table.filter fun row => row.service = service

/-- A client decodes a response. -/
def Sent.decode (sent : Sent) : Prog Errno (ℕ × ℕ) :=
  qmiDecodeMessage sent.data.length qmiResponse.toNat servregLocGetDomainList
    servregLocGetDomainListRespEi

/-- The structure the client finds. -/
def Sent.resp (sent : Sent) : ℕ → UInt8 := sent.decode.memory (padded 0 sent.data) fun _ => 0

/-- The names and instances in the domain list. -/
def domainList (resp : ℕ → UInt8) : List (Option (List UInt8) × Int32) :=
  if resp 12 = 0 then []
  else (List.range (ofLE (window resp 16 4))).map fun i =>
    (cString resp 256 (entryAt i + 4),
      (UInt32.ofNat (ofLE (window resp (entryAt i + 260) 4))).toInt32)

/-- `sent` is a response with the transaction id that lists the rows. -/
structure Lists (rows : List PdMap) (txnId : ℕ) (sent : Sent) : Prop where
  txn : ∃ n, sent.decode.result (padded 0 sent.data) = .ok (n, txnId)
  success : ofLE (window sent.resp 0 2) = 0 ∧ ofLE (window sent.resp 2 2) = 0
  total : sent.resp 4 = 1 ∧ ofLE (window sent.resp 6 2) = rows.length
  domains : domainList sent.resp = rows.map fun row => (some row.domain, row.inst)

/-- The request gets one response, which lists the rows of its service. -/
def ListsDomains (table : List PdMap) (loc : Locals) (r : Request) : Prop :=
  ∃ sent, handlePacket table loc (receive loc r.node r.port r.packet) = .ok [sent] ∧
    sent.node = r.node ∧
    sent.port = r.port ∧ Lists (rowsOf table r.service) r.txnId sent

/-- The length of a response: the header, the result, the total and the revision, and the list if it
is not empty. -/
def respSize (rows : List PdMap) : ℕ :=
  24 + if rows = [] then 0 else 4 + (rows.map fun row => 10 + row.domain.length).sum

/-! ### Collecting the rows -/

/-- The first entries of the list hold the rows. -/
def Entries (resp : ℕ → UInt8) (rows : List PdMap) : Prop :=
  ∀ i row, rows[i]? = some row → row.domain.length ≤ 255 ∧
    window resp (entryAt i + 4) (row.domain ++ [0]).length = row.domain ++ [0] ∧
    window resp (entryAt i + 260) 4 = toLE 4 row.inst.toUInt32.toNat

section Collect

variable {name : List UInt8} {row : PdMap} {rows table : List PdMap} {resp : ℕ → UInt8} {n : ℕ}

theorem window_overlay_toLE (a : ℕ → UInt8) (off w x : ℕ) :
    window (overlay a off (toLE w x)) off w = toLE w x := by
  have hwindow := window_overlay a off (toLE w x)
  rwa [toLE_length] at hwindow

theorem window_storeEntry (hlen : row.domain.length ≤ 255) {p k : ℕ} (hcount : 20 ≤ p ∨ p + k ≤ 16)
    (hentry : p + k ≤ entryAt n ∨ entryAt (n + 1) ≤ p) :
    window (storeEntry resp n row) p k = window resp p k := by
  have hname : (row.domain ++ [0]).length ≤ 256 := by
    rw [List.length_append, List.length_singleton]
    omega
  unfold entryAt at hentry
  rw [storeEntry, window_overlay_of_apart _ (by rw [toLE_length, entryAt]; omega),
    window_overlay_of_apart _ (by rw [toLE_length, entryAt]; omega),
    window_overlay_of_apart _ (by rw [entryAt]; omega),
    window_overlay_of_apart _ (by rw [toLE_length]; omega)]

theorem window_storeEntry_len (resp : ℕ → UInt8) (n : ℕ) (row : PdMap) :
    window (storeEntry resp n row) 16 4 = toLE 4 (n + 1) := by
  rw [storeEntry, window_overlay_of_apart _ (by rw [entryAt]; omega),
    window_overlay_of_apart _ (by rw [entryAt]; omega),
    window_overlay_of_apart _ (by rw [entryAt]; omega), window_overlay_toLE]

theorem entries_storeEntry (h : Entries resp rows) (hlen : row.domain.length ≤ 255) :
    Entries (storeEntry resp rows.length row) (rows ++ [row]) := by
  intro i row' hi
  rcases Nat.lt_trichotomy i rows.length with hlt | rfl | hgt
  · rw [List.getElem?_append_left hlt] at hi
    obtain ⟨hlen', hdomain, hinst⟩ := h i row' hi
    refine ⟨hlen', ?_, ?_⟩
    · rw [window_storeEntry hlen (by rw [entryAt]; omega), hdomain]
      rw [List.length_append, List.length_singleton, entryAt, entryAt]
      omega
    · rw [window_storeEntry hlen (by rw [entryAt]; omega), hinst]
      rw [entryAt, entryAt]
      omega
  · rw [List.getElem?_concat_length, Option.some.injEq] at hi
    subst hi
    refine ⟨hlen, ?_, window_overlay_toLE _ _ _ _⟩
    have hname : (row.domain ++ [0]).length ≤ 256 := by
      rw [List.length_append, List.length_singleton]
      omega
    rw [storeEntry, window_overlay_of_apart _ (by omega),
      window_overlay_of_apart _ (by rw [toLE_length]; omega),
      window_overlay]
  · rw [List.getElem?_eq_none (by rw [List.length_append, List.length_singleton]; omega)] at hi
    cases hi

theorem rowsOf_cons_of_eq (h : row.service = name) :
    rowsOf (row :: table) name = row :: rowsOf table name :=
  List.filter_cons_of_pos (by simpa using h)

theorem rowsOf_cons_of_ne (h : row.service ≠ name) :
    rowsOf (row :: table) name = rowsOf table name :=
  List.filter_cons_of_neg (by simpa using h)

/-- **The loop** stores the rows of the service behind those it has stored before. -/
theorem entries_collect : ∀ {rows : List PdMap} {resp : ℕ → UInt8} {n : ℕ} {resp' : ℕ → UInt8},
    collect name table rows.length resp = .ok (n, resp') → rows.length ≤ 255 → Entries resp rows →
    window resp 16 4 = toLE 4 rows.length →
      n = (rows ++ rowsOf table name).length ∧ n ≤ 255 ∧ Entries resp' (rows ++ rowsOf table name) ∧
        window resp' 16 4 = toLE 4 n ∧ window resp' 0 16 = window resp 0 16 := by
  induction table with
  | nil =>
      intro rows resp n resp' h hle hentries hlen
      cases h
      rw [rowsOf, List.filter_nil, List.append_nil]
      exact ⟨rfl, hle, hentries, hlen, rfl⟩
  | cons row table ih =>
      intro rows resp n resp' h hle hentries hlen
      rw [collect] at h
      by_cases hname : row.service = name
      · rw [if_pos hname] at h
        split_ifs at h with hfull hlong
        have hshort : row.domain.length ≤ 255 := by omega
        have hcount : (rows ++ [row]).length = rows.length + 1 := by
          rw [List.length_append, List.length_singleton]
        rw [← hcount] at h
        obtain ⟨hn, hn', hentries', hlen', hfront⟩ :=
          ih h (by omega) (entries_storeEntry hentries hshort)
          (by rw [window_storeEntry_len, hcount])
        rw [rowsOf_cons_of_eq hname, List.append_cons]
        refine ⟨hn, hn', hentries', hlen', hfront.trans ?_⟩
        exact window_storeEntry hshort (by omega) (by rw [entryAt]; omega)
      · rw [if_neg hname] at h
        rw [rowsOf_cons_of_ne hname]
        exact ih h hle hentries hlen

/-- The loop ends when the rows fit in the list and the names in the entries. -/
theorem collect_isOk (hrows : ∀ row ∈ rowsOf table name, row.domain.length ≤ 255) :
    ∀ {n : ℕ} {resp : ℕ → UInt8},
    n + (rowsOf table name).length ≤ 255 →
    ∃ n' resp', collect name table n resp = .ok (n', resp') := by
  induction table with
  | nil => exact fun {n resp} _ => ⟨n, resp, rfl⟩
  | cons row table ih =>
      intro n resp hn
      rw [collect]
      by_cases hname : row.service = name
      · rw [rowsOf_cons_of_eq hname] at hrows hn
        rw [List.length_cons] at hn
        have hlen := hrows row List.mem_cons_self
        rw [if_pos hname, if_neg (by omega), if_neg (by omega)]
        exact ih (fun row' h => hrows row' (List.mem_cons_of_mem _ h)) (by omega)
      · rw [rowsOf_cons_of_ne hname] at hrows hn
        rw [if_neg hname]
        exact ih hrows hn

end Collect

/-! ### The structure that is encoded -/

/-- `resp` lists the rows. -/
structure Filled (rows : List PdMap) (resp : ℕ → UInt8) : Prop where
  room : rows.length ≤ 255
  result : window resp 0 4 = [0, 0, 0, 0]
  total : window resp 4 1 = [1]
  totalDomains : window resp 6 2 = toLE 2 rows.length
  revision : window resp 8 1 = [1]
  valid : window resp 12 1 = [if rows = [] then 0 else 1]
  len : window resp 16 4 = toLE 4 rows.length
  entries : Entries resp rows

theorem filled_collect {name : List UInt8} {table : List PdMap} {n : ℕ} {resp : ℕ → UInt8}
    (h : collect name table 0 successResp = .ok (n, resp)) :
    Filled (rowsOf table name) (finishResp n resp) := by
  have hlen : window successResp 16 4 = toLE 4 ([] : List PdMap).length := by decide
  obtain ⟨hn, hroom, hentries, hcount, hfront⟩ :=
    @entries_collect name table [] successResp n resp h (by simp)
    (fun i row hi => by simp at hi) hlen
  rw [List.nil_append] at hn hentries
  have hkeep : ∀ p k, 13 ≤ p → window (finishResp n resp) p k = window resp p k := by
    intro p k hp
    rw [finishResp, window_overlay_of_apart _ (by rw [toLE_length]; omega),
      window_overlay_of_apart _ (by rw [List.length_singleton]; omega)]
    split_ifs
    · rw [window_overlay_of_apart _ (by rw [List.length_singleton]; omega)]
    · rfl
  have hfirst : ∀ p k, p + k ≤ 16 → (p + k ≤ 4 ∨ (8 ≤ p ∧ p + k ≤ 12)) →
      window (finishResp n resp) p k = window successResp p k := by
    intro p k hk hout
    rw [finishResp, window_overlay_of_apart _ (by rw [toLE_length]; omega),
      window_overlay_of_apart _ (by rw [List.length_singleton]; omega)]
    rw [← window_inside hfront (Nat.zero_le p) (by omega)]
    split_ifs
    · rw [window_overlay_of_apart _ (by rw [List.length_singleton]; omega)]
    · rfl
  refine ⟨hn ▸ hroom, ?_, ?_, ?_, ?_, ?_, ?_, ?_⟩
  · rw [hfirst 0 4 (by norm_num) (by norm_num)]
    decide
  · rw [finishResp, window_overlay_of_apart _ (by norm_num)]
    exact window_overlay _ 4 [1]
  · rw [finishResp, window_overlay_toLE, hn]
  · rw [hfirst 8 1 (by norm_num) (by norm_num)]
    decide
  · rw [finishResp, window_overlay_of_apart _ (by rw [toLE_length]; omega),
      window_overlay_of_apart _ (by rw [List.length_singleton]; omega)]
    by_cases hzero : n = 0
    · rw [if_neg (not_not.mpr hzero), window_inside hfront (by norm_num) (by norm_num),
        if_pos (List.eq_nil_of_length_eq_zero (hn.symm.trans hzero))]
      decide
    · have hne : rowsOf table name ≠ [] := by
        intro hnil
        rw [hnil] at hn
        exact hzero hn
      rw [if_pos hzero, if_neg hne]
      exact window_overlay _ 12 [1]
  · rw [hkeep 16 4 (by norm_num), hcount, hn]
  · intro i row hi
    obtain ⟨hshort, hdomain, hinst⟩ := hentries i row hi
    rw [hkeep _ _ (by rw [entryAt]; omega), hkeep _ _ (by rw [entryAt]; omega)]
    exact ⟨hshort, hdomain, hinst⟩

/-- The elements of an entry of the list. -/
def entryDescr : Descr :=
  descrOf [⟨.string, 256, 1, .noArray, 0, 4⟩, single .unsigned4Byte 4 0 260,
    single .unsigned1Byte 1 0 264,
    single .unsigned4Byte 4 0 268]

/-- The list. -/
def listField : Field :=
  ⟨some (single .optFlag 1 18 12), some (single .dataLen 1 18 16),
    ⟨.struct, 255, 272, .varLenArray, 18, 20⟩, entryDescr⟩

theorem domainListRespFields_eq : domainListRespFields =
    [resultField, optional .unsigned2Byte 2 16 4 6, optional .unsigned2Byte 2 17 8 10, listField] :=
      rfl

section Filled

variable {rows : List PdMap} {resp : ℕ → UInt8}

theorem Filled.count_eq (h : Filled rows resp) :
    valueCount resp 0 listField.len listField.data = rows.length := by
  have hroom := h.room
  show ofLE (window resp (0 + 16) 4) = rows.length
  rw [Nat.zero_add, h.len, ofLE_toLE (by omega)]

theorem Filled.strlen_name (h : Filled rows resp) (hnul : ∀ row ∈ rows, NoNul row.domain) {i : ℕ}
    {row : PdMap}
    (hi : rows[i]? = some row) : strlen resp (20 + i * 272 + 4) 257 = row.domain.length := by
  obtain ⟨hshort, hdomain, -⟩ := h.entries i row hi
  exact strlen_of_window (hnul row (List.mem_of_getElem? hi)) (by omega) hdomain

theorem Filled.isRow (h : Filled rows resp) {i : ℕ}
    (hi : i < valueCount resp 0 listField.len listField.data) : ∃ row, rows[i]? = some row := by
  rw [h.count_eq] at hi
  exact ⟨_, List.getElem?_eq_getElem hi⟩

theorem Filled.fits (h : Filled rows resp) (hnul : ∀ row ∈ rows, NoNul row.domain) :
    ∀ f ∈ domainListRespFields, f.Fits resp := by
  have hlist : listField.Fits resp := by
    refine ⟨?_, ?_, fun _ i hi => ?_⟩
    · rintro g ⟨⟩
      have hvalid : resp 12 = if rows = [] then 0 else 1 := (List.cons.inj h.valid).1
      show resp 12 = 0 ∨ resp 12 = 1
      rw [hvalid]
      split_ifs
      · exact Or.inl rfl
      · exact Or.inr rfl
    · rintro - l ⟨⟩
      exact h.count_eq.trans_le h.room
    · obtain ⟨row, hrow⟩ := h.isRow hi
      have hshort := (h.entries i row hrow).1
      refine ⟨fun l hl => (by cases hl), ?_, fun l hl => (by cases hl), trivial,
        fun l hl => (by cases hl), trivial,
        fun l hl => (by cases hl), trivial, trivial⟩
      show strlen resp (20 + i * 272 + 4) 257 < 256
      rw [h.strlen_name hnul hrow]
      omega
  intro f hf
  rw [domainListRespFields_eq] at hf
  simp only [List.mem_cons, List.not_mem_nil, or_false] at hf
  rcases hf with rfl | rfl | rfl | rfl
  · exact resultField_fits resp
  · exact optional_fits rfl (Or.inr (List.cons.inj h.total).1)
  · exact optional_fits rfl (Or.inr (List.cons.inj h.revision).1)
  · exact hlist

theorem Filled.entry_wire (h : Filled rows resp) (hnul : ∀ row ∈ rows, NoNul row.domain) {i : ℕ}
    {row : PdMap}
    (hi : rows[i]? = some row) :
    (entryDescr.wire resp (20 + i * 272)).length = 10 + row.domain.length := by
  have hwire : (entryDescr.wire resp (20 + i * 272)).length = 1 + strlen resp (20 + i * 272 + 4)
      257 + 4 + 1 + 4 := by
    simp [entryDescr, descrOf, Descr.wire, lenBytes, dataBytes, single, valueCount,
      ElemInfo.stringLenSz]
    omega
  rw [hwire, h.strlen_name hnul hi]
  omega

theorem Filled.present_iff (h : Filled rows resp) : listField.Present resp ↔ rows ≠ [] := by
  have hvalid : resp 12 = if rows = [] then 0 else 1 := (List.cons.inj h.valid).1
  have hpresent : listField.Present resp ↔ resp 12 ≠ 0 := by
    constructor
    · intro hp
      exact hp _ rfl
    · rintro hne g ⟨⟩
      exact hne
  rw [hpresent, hvalid]
  split_ifs with hnil
  · exact ⟨fun hne => absurd rfl hne, fun hne => absurd hnil hne⟩
  · exact ⟨fun _ => hnil, fun _ => by decide⟩

theorem Filled.list_wire (h : Filled rows resp) (hnul : ∀ row ∈ rows, NoNul row.domain) :
    (listField.wire resp).length = if rows = [] then 0
      else 4 + (rows.map fun row => 10 + row.domain.length).sum := by
  rw [Field.wire]
  by_cases hnil : rows = []
  · rw [if_neg (mt h.present_iff.mp (not_not.mpr hnil)), if_pos hnil, List.length_nil]
  · have hentries : ((List.range rows.length).map fun i =>
        (entryDescr.wire resp (20 + i * 272)).length) =
        rows.map fun row => 10 + row.domain.length := by
      refine List.ext_getElem (by simp) fun i hi hi' => ?_
      rw [List.length_map] at hi'
      rw [List.getElem_map, List.getElem_map, List.getElem_range,
        h.entry_wire hnul (List.getElem?_eq_getElem hi')]
    have hpayload : (listField.payload resp).length =
        1 + (rows.map fun row => 10 + row.domain.length).sum := by
      rw [Field.payload, h.count_eq, List.length_append, ← hentries, ← List.length_flatMap]
      rfl
    rw [if_pos (h.present_iff.mpr hnil), if_neg hnil, List.length_append, List.length_cons,
      toLE_length, hpayload]
    omega

theorem Filled.wire_length (h : Filled rows resp) (hnul : ∀ row ∈ rows, NoNul row.domain) :
    7 + (wire resp domainListRespFields).length = respSize rows := by
  have hresult : (resultField.wire resp).length = 7 := by
    have hp : resultField.Present resp := fun g hg => by cases hg
    rw [Field.wire, if_pos hp]
    rfl
  have hoptional : ∀ tlvType flagOffset offset, window resp flagOffset 1 = [1] →
      ((optional .unsigned2Byte 2 tlvType flagOffset offset).wire resp).length = 5 := by
    intro tlvType flagOffset offset hflag
    have hp : (optional .unsigned2Byte 2 tlvType flagOffset offset).Present resp := by
      rintro g ⟨⟩
      show resp flagOffset ≠ 0
      rw [show resp flagOffset = 1 from (List.cons.inj hflag).1]
      decide
    rw [Field.wire, if_pos hp]
    rfl
  rw [domainListRespFields_eq, wire, List.flatMap_cons, List.flatMap_cons, List.flatMap_cons,
    List.flatMap_singleton,
    List.length_append, List.length_append, List.length_append, hresult, hoptional 16 4 6 h.total,
    hoptional 17 8 10 h.revision, h.list_wire hnul, respSize]
  omega

/-! ### What a client decodes -/

/-- The structure that is decoded: the described part of `resp`. -/
def decoded (resp : ℕ → UInt8) : ℕ → UInt8 :=
  copied (blocks resp domainListRespFields) resp fun _ => 0

theorem window_decoded {f : Field} {off n : ℕ} (hf : f ∈ domainListRespFields)
    (hblock : (off, n) ∈ f.blocks resp) :
    window (decoded resp) off n = window resp off n :=
  window_copied (List.mem_flatMap.mpr ⟨f, hf, hblock⟩) _ _

theorem Filled.decoded_result (h : Filled rows resp) :
    window (decoded resp) 0 2 = [0, 0] ∧ window (decoded resp) 2 2 = [0, 0] := by
  have hresult : window (decoded resp) 0 2 ++ window (decoded resp) 2 2 = [0, 0] ++ [0, 0] := by
    rw [← window_add _ 0 2 2, decoded, window_result (by simp [domainListRespFields]), h.result]
    rfl
  exact List.append_inj hresult (window_length _ _ _)

theorem Filled.decoded_total (h : Filled rows resp) :
    window (decoded resp) 4 1 = [1] ∧ window (decoded resp) 6 2 = toLE 2 rows.length := by
  have hone : resp 4 = 1 := (List.cons.inj h.total).1
  have hblocks : (optional .unsigned2Byte 2 16 4 6).blocks resp = [(4, 1), (6, 2)] := by
    have hpresent : (optional .unsigned2Byte 2 16 4 6).Present resp := by
      rintro g ⟨⟩
      show resp 4 ≠ 0
      rw [hone]
      decide
    rw [Field.blocks, if_pos hpresent]
    rfl
  have hmem : optional .unsigned2Byte 2 16 4 6 ∈ domainListRespFields := by
    simp [domainListRespFields]
  rw [window_decoded hmem (by simp [hblocks]), window_decoded hmem (by simp [hblocks])]
  exact ⟨h.total, h.totalDomains⟩

theorem Filled.list_blocks (h : Filled rows resp) (hne : rows ≠ []) : listField.blocks resp =
    [(12, 1)] ++ [(16, 4)] ++ (List.range rows.length).flatMap fun i =>
    entryDescr.blocks resp (20 + i * 272) := by
  rw [Field.blocks, if_pos (h.present_iff.mpr hne), h.count_eq]
  rfl

theorem Filled.decoded_entry (h : Filled rows resp) (hnul : ∀ row ∈ rows, NoNul row.domain) {i : ℕ}
    {row : PdMap}
    (hi : rows[i]? = some row) : cString (decoded resp) 256 (entryAt i + 4) = some row.domain ∧
      (UInt32.ofNat (ofLE (window (decoded resp) (entryAt i + 260) 4))).toInt32 = row.inst := by
  obtain ⟨hlt, -⟩ := List.getElem?_eq_some_iff.mp hi
  have hne : rows ≠ [] := List.ne_nil_of_length_pos (by omega)
  obtain ⟨hshort, hdomain, hinst⟩ := h.entries i row hi
  have hnonul := hnul row (List.mem_of_getElem? hi)
  have hmem : listField ∈ domainListRespFields := by simp [domainListRespFields_eq]
  have hentry : entryDescr.blocks resp (20 + i * 272) =
      [(entryAt i + 4, row.domain.length + 1), (entryAt i + 260, 4), (entryAt i + 264, 1),
        (entryAt i + 268, 4)] := by
    rw [← h.strlen_name hnul hi]
    rfl
  have hblock : ∀ r ∈ entryDescr.blocks resp (20 + i * 272), r ∈ listField.blocks resp := by
    intro r hr
    rw [h.list_blocks hne]
    exact List.mem_append_right _ (List.mem_flatMap.mpr ⟨i, List.mem_range.mpr hlt, hr⟩)
  constructor
  · refine cString_of_window hnonul (by omega) ?_
    rw [window_decoded hmem (hblock _ (by simp [hentry]))]
    rw [List.length_append, List.length_singleton] at hdomain
    exact hdomain
  · have hsize := row.inst.toUInt32.toNat_lt
    rw [window_decoded hmem (hblock _ (by simp [hentry])), hinst, ofLE_toLE (by omega),
      UInt32.ofNat_toNat]
    rfl

/-- **The decoded list has the rows.** -/
theorem Filled.decoded_list (h : Filled rows resp) (hnul : ∀ row ∈ rows, NoNul row.domain) :
    domainList (decoded resp) = rows.map fun row => (some row.domain, row.inst) := by
  have hvalid : resp 12 = if rows = [] then 0 else 1 := (List.cons.inj h.valid).1
  rw [domainList]
  by_cases hnil : rows = []
  · rw [if_pos hnil] at hvalid
    have hzero : decoded resp 12 = 0 := by
      rw [decoded, copied, hvalid, ite_self]
    rw [if_pos hzero, hnil, List.map_nil]
  · have hmem : listField ∈ domainListRespFields := by simp [domainListRespFields_eq]
    have hflag : window (decoded resp) 12 1 = [1] := by
      rw [window_decoded hmem (by simp [h.list_blocks hnil]), h.valid, if_neg hnil]
    have hone : decoded resp 12 = 1 := (List.cons.inj hflag).1
    have hroom := h.room
    have hlen : ofLE (window (decoded resp) 16 4) = rows.length := by
      rw [window_decoded hmem (by simp [h.list_blocks hnil]), h.len, ofLE_toLE (by omega)]
    rw [if_neg (by rw [hone]; decide), hlen]
    refine List.ext_getElem (by simp) fun i hi hi' => ?_
    rw [List.length_map] at hi'
    obtain ⟨hname, hinst⟩ := h.decoded_entry hnul (List.getElem?_eq_getElem hi')
    rw [List.getElem_map, List.getElem_map, List.getElem_range, hname, hinst]

/-! ### Sending the response -/

/-- The encoder succeeds exactly when the response fits. -/
theorem Filled.encode_ends (h : Filled rows resp) (hnul : ∀ row ∈ rows, NoNul row.domain)
    (txnId : ℕ) :
    ∃ f, (f = .done ↔ respSize rows ≤ respBufSize) ∧
      Ends (qmiEncodeMessage resp respBufSize qmiResponse servregLocGetDomainList txnId
        servregLocGetDomainListRespEi)
        resp respBufSize (respSize rows) f := by
  have hwf : MessageWf domainListRespFields := by decide
  have hends := encode_message_ends hwf (h.fits hnul) (by decide) (by decide : 7 ≤ respBufSize)
    (by decide) qmiResponse
    servregLocGetDomainList txnId
  have hspan := @span_pieces resp domainListRespFields hwf.fields
  have hsize := h.wire_length hnul
  rw [hsize] at hends
  refine ⟨_, ⟨fun hdone => ?_, fun hle => fate_eq_done (by omega)⟩, hends⟩
  have hne : (domainListRespFields.flatMap fun f => f.pieces resp) ≠ [] := by
    intro hnil
    rw [hnil, span_nil] at hspan
    unfold respSize at hsize
    omega
  have hroom := span_le_of_done_of_ne_nil hdone hne
  omega

theorem respond_lists (h : Filled rows resp) (hnul : ∀ row ∈ rows, NoNul row.domain) (loc : Locals)
    (pkt : Packet)
    (hfits : respSize rows ≤ respBufSize) : ∃ sent, respond loc pkt resp = .ok [sent] ∧
    sent.node = pkt.node ∧
      sent.port = pkt.port ∧ Lists rows (txnAfter pkt loc % 65536) sent := by
  obtain ⟨f, hdone, hends⟩ := h.encode_ends hnul (txnAfter pkt loc)
  rw [hdone.mpr hfits] at hends
  obtain ⟨hok, hinside⟩ := hends
  have hwire := h.wire_length hnul
  have hbuf : respBufSize = 256 := rfl
  have hwf : MessageWf domainListRespFields := by decide
  obtain ⟨hres, hdecoded⟩ :=
    decode_sent hwf (h.fits hnul) (by omega) (by decide : servregLocGetDomainList < 65536)
    hok loc.respBuf rfl
  generalize hdata : window
    ((qmiEncodeMessage resp respBufSize qmiResponse servregLocGetDomainList (txnAfter pkt loc)
    (toTable domainListRespFields)).memory resp loc.respBuf) 0 (respSize rows) = data
    at hres hdecoded
  have hresp : Sent.resp ⟨pkt.node, pkt.port, data⟩ = decoded resp := hdecoded
  obtain ⟨hresult, herror⟩ := h.decoded_result
  obtain ⟨htotal, htotalDomains⟩ := h.decoded_total
  have hroom := h.room
  refine ⟨⟨pkt.node, pkt.port, data⟩, ?_, rfl, rfl, hres, ?_, ?_, ?_⟩
  · rw [respond, if_neg (not_not.mpr hinside)]
    simp only [hok, ← hdata]
    rfl
  · rw [hresp, hresult, herror]
    decide
  · rw [hresp, htotalDomains, ofLE_toLE (by omega)]
    exact ⟨(List.cons.inj htotal).1, rfl⟩
  · rw [hresp]
    exact h.decoded_list hnul

theorem respond_silent (h : Filled rows resp) (hnul : ∀ row ∈ rows, NoNul row.domain) (loc : Locals)
    (pkt : Packet)
    (hlarge : respBufSize < respSize rows) (sent : Sent) : respond loc pkt resp ≠ .ok [sent] := by
  obtain ⟨f, hdone, hends⟩ := h.encode_ends hnul (txnAfter pkt loc)
  rw [respond]
  cases f with
  | done => exact absurd (hdone.mp rfl) (by omega)
  | refused =>
      obtain ⟨⟨e, he⟩, hinside⟩ := hends
      rw [if_neg (not_not.mpr hinside)]
      simp only [he]
      simp
  | outside =>
      have hout : ¬ _ := hends
      rw [if_pos hout]
      simp

end Filled

/-! ### From the packet to the response -/

/-- The elements of a request. -/
def requestFields : List Field := [textField 1 4, optional .unsigned4Byte 4 16 260 264]

theorem requestFields_wf : RequestWf requestFields := by decide

theorem mem_requestFields {f : Field} (hf : f ∈ requestFields) :
    f = textField 1 4 ∨ f = optional .unsigned4Byte 4 16 260 264 := by
  simpa [requestFields] using hf

theorem tlvBlocks_le {x : Tlv} (hx : x.Wf (toTable requestFields)) {m : ℕ → UInt8} {r : ℕ × ℕ}
    (hr : r ∈ tlvBlocks requestFields m x) : r.1 + r.2 ≤ 268 := by
  rw [tlvBlocks] at hr
  cases hf : elementOf requestFields x with
  | none =>
      rw [hf] at hr
      cases hr
  | some f =>
      rw [hf] at hr
      have htakes := (hx.takes requestFields_wf hf).2
      rcases mem_requestFields (findEi_of_some requestFields_wf hf).1 with rfl | rfl
      · have hlen : x.value.length < 256 := htakes
        have hr' : r ∈ [(4, x.value.length + 1)] := hr
        rw [List.mem_singleton.mp hr']
        dsimp only
        omega
      · have hr' : r ∈ (optional .unsigned4Byte 4 16 260 264).blocks m := hr
        rw [Field.blocks] at hr'
        split_ifs at hr'
        · have hmem : r ∈ [(260, 1), (264, 4)] := hr'
          rcases List.mem_pair.mp hmem with rfl | rfl
          · norm_num
          · norm_num
        · cases hr'

section Receive

variable (loc : Locals) (r : Request)

/-- What is left of a request in the buffer: its header, and the front of its body. -/
theorem take_packet : r.packet.take recvSize =
    qmiHeader qmiRequest r.txnId servregLocGetDomainList (tlvBytes r.tlvs).length ++
      (tlvBytes r.tlvs).take 4089 := by
  rw [Request.packet, tlvPacket, List.take_append,
    List.take_of_length_le (by simp [qmiHeader, recvSize])]
  simp [qmiHeader, recvSize]

/-- A request that was cut is dropped: its header has another length. -/
theorem handlePacket_receive (table : List PdMap) :
    handlePacket table loc (receive loc r.node r.port r.packet) =
    if r.packet.length ≤ recvSize then
      handleGetDomainList table loc (receive loc r.node r.port r.packet)
    else .ok [] := by
  have hsize := r.size_lt
  have hpacket : r.packet.length = 7 + (tlvBytes r.tlvs).length := tlvPacket_length _ _ _ _
  have hcut : ((tlvBytes r.tlvs).take 4089).length = min 4089 (tlvBytes r.tlvs).length :=
    List.length_take
  have hrecv : recvSize = 4096 := rfl
  have hinp := window_overlay loc.buf 0 (r.packet.take recvSize)
  have hlen : (receive loc r.node r.port r.packet).dataLen =
      7 + ((tlvBytes r.tlvs).take 4089).length := by
    show (r.packet.take recvSize).length = _
    rw [List.length_take, hcut]
    omega
  have hdata : (receive loc r.node r.port r.packet).data =
      overlay loc.buf 0 (r.packet.take recvSize) := rfl
  rw [take_packet] at hinp hdata
  rw [handlePacket, hlen, hdata, decodeHeader_packet hinp hsize (by omega)]
  by_cases hfits : r.packet.length ≤ recvSize
  · rw [if_pos (by omega), if_pos hfits]
    exact if_pos rfl
  · rw [if_neg (by omega), if_neg hfits]

variable {loc r}

theorem exists_decodeReq (hfits : r.packet.length ≤ recvSize) : ∃ m : ℕ → UInt8,
    (∀ x ∈ r.tlvs, ∀ f, elementOf requestFields x = some f → f.Holds m x.value) ∧
      Copies (decodeReq (receive loc r.node r.port r.packet))
        (receive loc r.node r.port r.packet).data m
        ((tlvBytes r.tlvs).length, r.txnId % 65536)
        (r.tlvs.flatMap (tlvBlocks requestFields m)) := by
  obtain ⟨m, hm⟩ := exists_holds requestFields_wf r.wf r.distinct
  have hrecv : recvSize = 4096 := rfl
  refine ⟨m, hm, ?_⟩
  have hcopies := decode_packet requestFields_wf r.wf hm (by omega : r.packet.length < 2 ^ 32)
    (window_overlay loc.buf 0 r.packet)
  have htake : r.packet.take recvSize = r.packet := List.take_of_length_le hfits
  rw [decodeReq, receive]
  dsimp only
  rw [htake]
  exact hcopies

theorem decodesInArrays_receive (hfits : r.packet.length ≤ recvSize) :
    DecodesInArrays (receive loc r.node r.port r.packet) := by
  have hreads : (decodeReq (receive loc r.node r.port r.packet)).ReadsBelow
      (receive loc r.node r.port r.packet).data r.packet.length := by
    have hplain : ∀ f ∈ requestFields, f.Plain := by decide
    have hbelow := decode_packet_readsBelow requestFields_wf hplain r.wf r.size_lt
      (window_overlay loc.buf 0 r.packet) qmiRequest.toNat servregLocGetDomainList
    rw [decodeReq, receive]
    dsimp only
    rw [List.take_of_length_le hfits]
    exact hbelow
  obtain ⟨m, -, hcopies⟩ := @exists_decodeReq loc r hfits
  intro ev hev
  cases ev with
  | read i => exact (hreads i hev).trans_le hfits
  | store a =>
      obtain ⟨b, hb, hlow, hhigh⟩ := hcopies.store_mem hev
      obtain ⟨x, hx, hbx⟩ := List.mem_flatMap.mp hb
      exact hhigh.trans_le (tlvBlocks_le (r.wf x hx) hbx)
  | sub x y => trivial

theorem reqName_receive (hfits : r.packet.length ≤ recvSize) :
    reqName (receive loc r.node r.port r.packet) = r.service := by
  obtain ⟨m, hm, hcopies⟩ := @exists_decodeReq loc r hfits
  have helement : elementOf requestFields ⟨1, r.service⟩ = some (textField 1 4) := rfl
  have hwf : Tlv.Wf (toTable requestFields) ⟨1, r.service⟩ := r.wf _ r.named
  have hshort : r.service.length < 256 := (hwf.takes requestFields_wf helement).2
  have hstored : window m 4 (r.service ++ [0]).length = r.service ++ [0] :=
    hm _ r.named _ helement (4, r.service ++ [0])
      (by simp [Field.stores, textField, Field.splitValue])
  have hblock : (4, (r.service ++ [0]).length) ∈ r.tlvs.flatMap (tlvBlocks requestFields m) := by
    refine List.mem_flatMap.mpr ⟨_, r.named, ?_⟩
    rw [tlvBlocks, helement, List.length_append]
    exact List.mem_singleton.mpr rfl
  set req := (decodeReq (receive loc r.node r.port r.packet)).memory (receive loc r.node r.port
    r.packet).data
    fun _ => 0 with hreq
  have hname : window req 4 (r.service ++ [0]).length = r.service ++ [0] := by
    rw [hreq, hcopies.2, window_copied hblock, hstored]
  have hlast : window (overlay req 259 [0]) 4 (r.service ++ [0]).length = r.service ++ [0] := by
    by_cases hfull : r.service.length = 255
    · obtain ⟨-, hnul⟩ := window_eq_append hname
      rw [hfull] at hnul
      rw [overlay_self hnul, hname]
    · rw [window_overlay_of_apart _ (by rw [List.length_append, List.length_singleton]; omega),
        hname]
  rw [List.length_append, List.length_singleton] at hlast
  rw [reqName, ← hreq, cString_of_window r.noNul hshort hlast, Option.getD_some]

theorem txnAfter_receive (hfits : r.packet.length ≤ recvSize) :
    txnAfter (receive loc r.node r.port r.packet) loc = r.txnId := by
  have hpacket : r.packet.length = 7 + (tlvBytes r.tlvs).length := tlvPacket_length _ _ _ _
  have hlen : (receive loc r.node r.port r.packet).dataLen = r.packet.length := by
    show (r.packet.take recvSize).length = _
    rw [List.take_of_length_le hfits]
  have hinp : window (receive loc r.node r.port r.packet).data 0 r.packet.length = r.packet := by
    show window (overlay loc.buf 0 (r.packet.take recvSize)) 0 r.packet.length = r.packet
    rw [List.take_of_length_le hfits, window_overlay]
  obtain ⟨htype, htxn, hid, -, -⟩ := window_packet hinp
  have htxnId : ofLE (toLE 2 r.txnId) = r.txnId := ofLE_toLE r.txnId_lt
  rw [txnAfter, htype, htxn, hid, htxnId, if_neg]
  rintro (hzero | htypes | hids)
  · omega
  · exact htypes rfl
  · exact hids rfl

theorem handleGetDomainList_receive (table : List PdMap) (hfits : r.packet.length ≤ recvSize) :
    handleGetDomainList table loc (receive loc r.node r.port r.packet) =
      match collect r.service table 0 successResp with
      | .error f => .error f
      | .ok (n, resp) => respond loc (receive loc r.node r.port r.packet) (finishResp n resp) := by
  obtain ⟨m, -, hcopies⟩ := @exists_decodeReq loc r hfits
  rw [handleGetDomainList, if_neg (not_not.mpr (decodesInArrays_receive hfits)), hcopies.1,
    reqName_receive hfits]

end Receive

/-! ### Complete responses -/

/-- A row has ten bytes besides the name of its domain. -/
theorem le_respSize (rows : List PdMap) :
    10 * rows.length ≤ respSize rows ∧ ∀ row ∈ rows, row.domain.length + 10 ≤ respSize rows := by
  have hcount : 10 * rows.length ≤ (rows.map fun row => 10 + row.domain.length).sum := by
    induction rows with
    | nil => exact le_rfl
    | cons row rows ih =>
        rw [List.length_cons, List.map_cons, List.sum_cons]
        omega
  have hrow : ∀ row ∈ rows, 10 + row.domain.length ≤
      (rows.map fun row => 10 + row.domain.length).sum := fun row h =>
    List.le_sum_of_mem (List.mem_map_of_mem h)
  unfold respSize
  by_cases hnil : rows = []
  · subst hnil
    exact ⟨by simp, fun row h => by cases h⟩
  · rw [if_neg hnil]
    refine ⟨by omega, fun row h => ?_⟩
    have hle := hrow row h
    omega

/-- **The rows of a service are listed in full**, for every table that was loaded and every request,
exactly when the request fits in the receive buffer and the response in its packet. -/
theorem lists_domains_iff {ν : Type} (strtod : List UInt8 → ν) (toInt : ν → Int32) (depth : ℕ)
    (files : List (UInt8 × List UInt8)) (table : List PdMap)
    (hload : pdLoadMaps strtod toInt depth files = some table)
    (loc : Locals) (r : Request) : ListsDomains table loc r ↔
      r.packet.length ≤ recvSize ∧ respSize (rowsOf table r.service) ≤ respBufSize := by
  have hnul : ∀ row ∈ rowsOf table r.service, NoNul row.domain := fun row hrow =>
    (noNul_of_load hload row (List.mem_of_mem_filter hrow)).2
  have hbuf : respBufSize = 256 := rfl
  rw [ListsDomains, handlePacket_receive]
  by_cases hfits : r.packet.length ≤ recvSize
  · rw [if_pos hfits, handleGetDomainList_receive table hfits, and_iff_right hfits]
    have htxn : txnAfter (receive loc r.node r.port r.packet) loc % 65536 = r.txnId := by
      rw [txnAfter_receive hfits, Nat.mod_eq_of_lt r.txnId_lt]
    constructor
    · rintro ⟨sent, hsent, -⟩
      by_contra hlarge
      cases hcollect : collect r.service table 0 successResp with
      | error f =>
          rw [hcollect] at hsent
          cases hsent
      | ok v =>
          rw [hcollect] at hsent
          exact respond_silent (filled_collect hcollect) hnul loc
            _ (Nat.lt_of_not_le hlarge) sent hsent
    · intro hsize
      obtain ⟨hcount, hnames⟩ := le_respSize (rowsOf table r.service)
      obtain ⟨n, resp, hcollect⟩ := @collect_isOk r.service table
        (fun row hrow => by have hname := hnames row hrow; omega) 0 successResp (by omega)
      obtain ⟨sent, hsent, hnode, hport, hlists⟩ :=
        respond_lists (filled_collect hcollect) hnul loc (receive loc r.node r.port r.packet) hsize
      rw [htxn] at hlists
      rw [hcollect]
      exact ⟨sent, hsent, hnode, hport, hlists⟩
  · rw [if_neg hfits]
    constructor
    · rintro ⟨sent, hsent, -⟩
      cases hsent
    · rintro ⟨hle, -⟩
      exact absurd hle hfits

/-- A file with the service `"s/t"` in the domain `"soc/dp/pd"`, whose instance is 74. -/
def sampleFile : UInt8 × List UInt8 :=
  (0,
    ascii
      "\x7b\"sr_domain\":\x7b\"soc\":\"soc\",\"domain\":\"dp\",\"subdomain\":\"pd\",\"qmi_instance_id\":74\x7d," ++
    ascii "\"sr_service\":[\x7b\"provider\":\"s\",\"service\":\"t\"\x7d]\x7d")

/-- Its row. -/
def sampleRow : PdMap := ⟨ascii "s/t", ascii "soc/dp/pd", 74⟩

theorem sampleRequest_wf (x : Tlv) (hx : x ∈ [⟨1, sampleRow.service⟩]) :
    x.Wf servregLocGetDomainListReqEi := by
  rw [List.mem_singleton.mp hx]
  exact ⟨by decide, fun _ => (by decide : 3 < 256), fun h => absurd h (by decide)⟩

/-- A request for the service. -/
def sampleServiceRequest : Request where
  node := 1
  port := 2
  txnId := 7
  tlvs := [⟨1, sampleRow.service⟩]
  service := sampleRow.service
  wf := sampleRequest_wf
  distinct := by decide
  named := List.mem_singleton.mpr rfl
  noNul := by simp [NoNul, sampleRow, ascii]
  txnId_lt := by decide
  size_lt := by decide

def zeroLocals : Locals := ⟨0, fun _ => 0, fun _ => 0⟩

/-- A file with two services in the domain `"soc/ad/rp"`, whose instance is 5. -/
def secondFile : UInt8 × List UInt8 :=
  (0,
    ascii
      "\x7b\"sr_domain\":\x7b\"soc\":\"soc\",\"domain\":\"ad\",\"subdomain\":\"rp\",\"qmi_instance_id\":5\x7d," ++
    ascii "\"sr_service\":[\x7b\"provider\":\"u\",\"service\":\"v\"\x7d," ++
    ascii "\x7b\"provider\":\"s\",\"service\":\"t\"\x7d]\x7d")

/-- The rows of both files. -/
def twoFiles : List PdMap :=
  [sampleRow, ⟨ascii "u/v", ascii "soc/ad/rp", 5⟩, ⟨ascii "s/t", ascii "soc/ad/rp", 5⟩]

theorem lists_domains_files :
    pdLoadMaps digits Int32.ofNat 4 [sampleFile, secondFile] = some twoFiles ∧
    rowsOf twoFiles (ascii "s/t") = [sampleRow, ⟨ascii "s/t", ascii "soc/ad/rp", 5⟩] ∧
    ListsDomains twoFiles zeroLocals sampleServiceRequest := by
  have hload : pdLoadMaps digits Int32.ofNat 4 [sampleFile, secondFile] = some twoFiles := by
    decide +kernel
  refine ⟨hload, by decide +kernel, ?_⟩
  exact (lists_domains_iff digits Int32.ofNat 4 [sampleFile, secondFile] twoFiles hload zeroLocals
    sampleServiceRequest).mpr (by decide +kernel)

/-- Thirteen files with the service: the list does not fit, and the request gets no response. -/
theorem not_lists_domains_files :
    pdLoadMaps digits Int32.ofNat 4 (List.replicate 13 sampleFile) =
      some (List.replicate 13 sampleRow) ∧
      handlePacket (List.replicate 13 sampleRow) zeroLocals
        (receive zeroLocals 1 2 sampleServiceRequest.packet) = .ok [] ∧
      ¬ ListsDomains (List.replicate 13 sampleRow) zeroLocals sampleServiceRequest := by
  have hsilent : handlePacket (List.replicate 13 sampleRow) zeroLocals
      (receive zeroLocals 1 2 sampleServiceRequest.packet) = .ok [] := by decide +kernel
  refine ⟨by decide +kernel, hsilent, ?_⟩
  rintro ⟨sent, hsent, -⟩
  have hnone := hsilent.symm.trans hsent
  cases hnone

end Imola.PdMapper
