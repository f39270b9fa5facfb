import Imola.CStrings
import Imola.QmiWire
import Imola.RmtfsRequests

/-! # The packets of `rmtfs`

`handle_rmtfs` takes a packet from the socket, finds its handler by the message id and lets it
decode the request, act on it and send a response.  `RmtfsRequests.lean` has what a handler does
with a decoded request; here are the bytes in front of it and behind it.

The handlers share one shape: `qmi_decode_message` into a zeroed structure, on a rejection
`MALFORMED_MSG`, else the action, and in both cases a response encoded into 256 bytes.  The locals
that a handler declares without a value (`txn`, and in `rmtfs_iovec` also `is_write` and `rmtfd`)
are inputs of the model (`Locals`), since the rejection skips their assignments.  A run with
undefined behaviour gives an `Undefined` instead of what it sends. -/

namespace Imola.Rmtfs

open Imola.Bytes Imola.CStrings Imola.Progs Imola.Qmi Imola.Splice

/-! ### Messages -/

/-- The message ids with a handler. -/
inductive Msg where
  | open
  | close
  | rwIovec
  | allocBuff
  | getDevError
deriving DecidableEq, Repr

namespace Msg

def id : Msg → ℕ
  | .open => 1
  | .close => 2
  | .rwIovec => 3
  | .allocBuff => 4
  | .getDevError => 5

/-- The `switch` of `handle_rmtfs`. -/
def ofId (n : ℕ) : Option Msg :=
  [Msg.open, .close, .rwIovec, .allocBuff, .getDevError].find? fun msg => msg.id == n

theorem ofId_id (msg : Msg) : ofId msg.id = some msg := by
  cases msg with
  | _ => rfl

def reqEi : Msg → Qmi.Table
  | .open => rmtfsOpenReqEi
  | .close => rmtfsCloseReqEi
  | .rwIovec => rmtfsIovecReqEi
  | .allocBuff => rmtfsAllocBufReqEi
  | .getDevError => rmtfsDevErrorReqEi

def respEi : Msg → Qmi.Table
  | .open => rmtfsOpenRespEi
  | .close => rmtfsCloseRespEi
  | .rwIovec => rmtfsIovecRespEi
  | .allocBuff => rmtfsAllocBufRespEi
  | .getDevError => rmtfsDevErrorRespEi

/-- `sizeof(req)`. -/
def reqSize : Msg → ℕ
  | .open => 260
  | .close => 4
  | .rwIovec => 3080
  | .allocBuff => 8
  | .getDevError => 4

/-- The offset and the size of the optional value of a response. -/
def value : Msg → ℕ × ℕ
  | .open => (8, 4)
  | .close => (8, 0)
  | .rwIovec => (8, 0)
  | .allocBuff => (8, 8)
  | .getDevError => (5, 1)

end Msg

/-- `QMI_REQUEST`. -/
def qmiRequest : ℕ := 0

/-- `QMI_RESPONSE`. -/
def qmiResponse : UInt8 := 2

/-- `QMI_RMTFS_ERR_MALFORMED_MSG`. -/
def errMalformedMsg : ℕ := 2

/-- A response structure: the result, and the caller id, address or status if its flag is set. -/
structure Response where
  result : ℕ
  error : ℕ
  value : Option ℕ
deriving DecidableEq, Repr

namespace Response

def ofReply (r : Reply) : Response := ⟨r.result, r.error, r.callerId⟩

/-- A response that has failed. -/
def failure (error : ℕ) : Response := ofReply (.failure error)

/-- The structure in memory; it starts as zeros, and the flag is at 4 in all that have one. -/
def memory (r : Response) (msg : Msg) : ℕ → UInt8 :=
  let result := overlay (fun _ => 0) 0 (toLE 2 r.result ++ toLE 2 r.error)
  match r.value with
  | none => result
  | some v => overlay (overlay result 4 [1]) msg.value.1 (toLE msg.value.2 v)

end Response

/-! ### Packets -/

/-- The types of `struct qrtr_packet` that `handle_rmtfs` tells apart. -/
inductive PacketType where
  | data
  | bye
  | delClient
  | other
deriving DecidableEq, Repr

/-- The size of the buffer of `handle_rmtfs`. -/
def recvSize : ℕ := 4096

/-- A received packet.  `data` is the buffer and what lies behind it on the stack; the packet is
its first `dataLen` bytes. -/
structure Packet where
  type : PacketType
  node : ℕ
  port : ℕ
  data : ℕ → UInt8
  dataLen : ℕ
  dataLen_le : dataLen ≤ recvSize

/-- The transaction id in the header. -/
def Packet.txnId (pkt : Packet) : ℕ := ofLE (window pkt.data 1 2)

/-- A call of `qrtr_sendto`. -/
structure Sent where
  node : ℕ
  port : ℕ
  data : List UInt8
deriving DecidableEq, Repr

/-- What the locals without an initial value hold, and whether the memory `rmtfd` then points to
can be read. -/
structure Locals where
  txn : ℕ
  isWrite : UInt8
  rmtfdReadable : Bool
  respBuf : ℕ → UInt8

/-- The results of the system calls, and the sector buffer on the stack. -/
structure Env where
  fs : FileSystem
  io : ℕ → SectorIo
  stack : List UInt8

/-- Undefined behaviour in the handling of a packet. -/
inductive Undefined where
  /-- The decoder left the receive buffer or the request. -/
  | decoder
  /-- The action on the request failed. -/
  | action (f : Fault)
  /-- `storage_sync` read through an `rmtfd` without a value. -/
  | wildHandle
  /-- `dbgprintf` printed a number with `%s`. -/
  | format
deriving DecidableEq, Repr

/-! ### Requests -/

/-- The decoder reads in the receive buffer and stores in the request. -/
def InArrays (msg : Msg) : Event → Prop
  | .read i => i < recvSize
  | .store a => a < msg.reqSize
  | .sub _ _ => True

instance (msg : Msg) (ev : Event) : Decidable (InArrays msg ev) :=
  match ev with
  | .read _ => inferInstanceAs (Decidable (_ < _))
  | .store _ => inferInstanceAs (Decidable (_ < _))
  | .sub _ _ => isTrue trivial

section Request

variable (msg : Msg) (pkt : Packet)

/-- The call of `qmi_decode_message` in a handler. -/
def decodeReq : Prog Errno (ℕ × ℕ) := qmiDecodeMessage pkt.dataLen qmiRequest msg.id msg.reqEi

/-- The call has no access outside its two arrays. -/
def DecodesInArrays : Prop := ∀ ev ∈ (decodeReq msg pkt).events pkt.data, InArrays msg ev

instance : Decidable (DecodesInArrays msg pkt) := inferInstanceAs (Decidable (∀ ev ∈ _, _))

/-- `req` after the call. -/
def reqMemory : ℕ → UInt8 := (decodeReq msg pkt).memory pkt.data fun _ => 0

/-- `txn` after the call, which assigns it when the type and the message id are as expected. -/
def txnAfter (loc : Locals) : ℕ :=
  if pkt.dataLen = 0 ∨ ofLE (window pkt.data 0 1) ≠ qmiRequest ∨ ofLE (window pkt.data 3 2) ≠ msg.id
    then loc.txn
  else pkt.txnId

end Request

/-- `req.path`; the bytes as characters. -/
def reqPath (req : ℕ → UInt8) : String :=
  String.ofList (((cString req 256 4).getD []).map fun b => Char.ofNat b.toNat)

/-- The caller id, first in the other requests. -/
def reqCallerId (req : ℕ → UInt8) : ℕ := ofLE (window req 0 4)

/-- `struct rmtfs_iovec_req`. -/
def reqIovec (req : ℕ → UInt8) : IovecReq where
  callerId := reqCallerId req
  direction := (req 4).toNat
  iovec := (List.range (ofLE (window req 8 8))).map fun i =>
    ⟨ofLE (window req (16 + 12 * i) 4), ofLE (window req (20 + 12 * i) 4),
      ofLE (window req (24 + 12 * i) 4)⟩
  isForceSync := (req 3076).toNat

/-! ### The handlers -/

/-- `rmtfs_mem_alloc`; `none` stands for a negative result. -/
def rmtfsMemAlloc (m : RmtfsMem) (allocSize : ℕ) : Option ℕ :=
  if allocSize > m.size then none
  else if m.address % 2 ^ 64 ≥ 2 ^ 63 then none
  else some (m.address % 2 ^ 64)

/-- `rmtfs_alloc_buf`. -/
def rmtfsAllocBuf (d : Daemon) (buffSize : ℕ) : Response × Daemon :=
  match rmtfsMemAlloc d.rmem buffSize with
  | none => (.failure errInternal, d)
  | some address => (⟨0, 0, some address⟩, d)

/-- `rmtfs_get_dev_error`: the handle is refused when there is one, and read when there is none. -/
def rmtfsGetDevError (d : Daemon) (node callerId : ℕ) : Except Fault (Response × Daemon) :=
  match storageGet d.table node (toInt32 callerId) with
  | .outside => .error .outsideTable
  | .null => .error .nullHandle
  | .slot _ => .ok (.failure errInternal, d)

section Handlers

variable (cfg : Config) (verbose : Bool) (env : Env) (loc : Locals) (pkt : Packet) (d : Daemon)

/-- The reply of a handler of `RmtfsRequests.lean` as a response. -/
def ofStep (r : Except Fault (Reply × Daemon)) : Except Undefined (Response × Daemon) :=
  match r with
  | .error f => .error (.action f)
  | .ok (reply, d') => .ok (.ofReply reply, d')

/-- A decoded request as `RmtfsRequests.lean` takes it. -/
def Env.input (r : Req) : Input := ⟨pkt.node, r, env.fs, env.io, env.stack⟩

/-- What a handler does with the decoded request. -/
def act (msg : Msg) (req : ℕ → UInt8) : Except Undefined (Response × Daemon) :=
  match msg with
  | .open => ofStep (step cfg d (env.input pkt (.open (reqPath req))))
  | .close => ofStep (step cfg d (env.input pkt (.close (reqCallerId req))))
  | .rwIovec => ofStep (step cfg d (env.input pkt (.iovec (reqIovec req))))
  | .allocBuff => .ok (rmtfsAllocBuf d (ofLE (window req 4 4)))
  | .getDevError => (rmtfsGetDevError d pkt.node (reqCallerId req)).mapError .action

/-- What a handler does when the request is rejected: `rmtfs_iovec` still syncs `rmtfd` if
`is_write` is set. -/
def malformed (msg : Msg) : Except Undefined (Response × Daemon) :=
  if msg = .rwIovec ∧ loc.isWrite ≠ 0 ∧ ¬ cfg.readOnly ∧ ¬ loc.rmtfdReadable then .error .wildHandle
  else .ok (.failure errMalformedMsg, d)

/-- A handler up to its label `respond`. -/
def outcome (msg : Msg) : Except Undefined (Response × Daemon) :=
  match (decodeReq msg pkt).result pkt.data with
  | .error _ => malformed cfg loc d msg
  | .ok _ => act cfg env pkt d msg (reqMemory msg pkt)

/-- The encoded response, and its `qrtr_sendto`. -/
def respond (msg : Msg) (resp : Response) : List Sent :=
  let encode := qmiEncodeMessage (resp.memory msg) 256 qmiResponse msg.id
    (txnAfter msg pkt loc) msg.respEi
  match encode.result (resp.memory msg) with
  | .error _ => []
  | .ok len => [⟨pkt.node, pkt.port, window (encode.memory (resp.memory msg) loc.respBuf) 0 len⟩]

/-- A handler; `rmtfs_close` passes a number to `%s` when messages are printed. -/
def handle (msg : Msg) : Except Undefined (List Sent × Daemon) :=
  if ¬ DecodesInArrays msg pkt then .error .decoder
  else
    match outcome cfg env loc pkt d msg with
    | .error u => .error u
    | .ok (resp, d') =>
        if msg = .close ∧ verbose then .error .format else .ok (respond loc pkt msg resp, d')

/-- `handle_rmtfs` behind `qrtr_decode`. -/
def handleRmtfs : Except Undefined (List Sent × Daemon) :=
  match pkt.type with
  | .data =>
      match (qmiDecodeHeader pkt.dataLen).result pkt.data with
      | .error _ => .ok ([], d)
      | .ok msgId =>
          match Msg.ofId msgId with
          | none => .ok ([], d)
          | some msg => handle cfg verbose env loc pkt d msg
  | _ => .ok ([], d)

end Handlers

end Imola.Rmtfs
