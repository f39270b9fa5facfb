import Imola.CInts
import Imola.CStrings

/-! # The read side of `tqftpserv`

`tqftpserv.c` serves files over TFTP.  `handle_rrq` answers a read request with the options it
accepted (OACK), or with the first block when the request has none; `handle_reader` answers each
ACK with a window of blocks.  The server keeps no position: the offset of a block is its number
times the block size.

`size_t` and `uint16_t` values are natural numbers, reduced where the code's arithmetic can
leave the range.  The results of the system calls are inputs; a regular file gives as many bytes
as are asked for, up to its end. -/

namespace Imola.Tqftp

open Imola.Splice Imola.CInts Imola.CStrings

/-- The opcodes. -/
inductive Op where
  | rrq
  | wrq
  | data
  | ack
  | error
  | oack
deriving DecidableEq, Repr

def Op.code : Op → ℕ
  | rrq => 1
  | wrq => 2
  | data => 3
  | ack => 4
  | error => 5
  | oack => 6

/-- The address of a peer. -/
structure Addr where
  node : ℕ
  port : ℕ
deriving DecidableEq, Repr

/-- The contents of a file. -/
structure File where
  size : ℕ
  bytes : ℕ → UInt8

/-- `struct tftp_client`; `block` is never used. -/
structure TftpClient where
  sq : Addr
  sock : ℤ
  fd : ℤ
  blksize : ℕ
  rsize : ℕ
  wsize : ℕ
  timeoutms : ℕ
deriving DecidableEq, Repr

/-- Undefined behaviour. -/
inductive Fault where
  /-- A store through the NULL of a failed `malloc`. -/
  | nullBuffer
  /-- A store behind the end of a buffer. -/
  | overflow
  /-- A string that does not end in the receive buffer. -/
  | unterminated
deriving DecidableEq, Repr

/-- How a handler ends: with its return value, in undefined behaviour, or not within the steps
given. -/
inductive Stop where
  | returned (ret : ℤ)
  | fault (f : Fault)
  | running
deriving DecidableEq, Repr

/-- The packets a handler has sent, and how it ended. -/
structure Handled where
  sent : List (List UInt8)
  stop : Stop
deriving DecidableEq, Repr

/-! ### Sending -/

/-- A packet with a 16-bit number behind the opcode. -/
def numbered (op : Op) (n : ℕ) (payload : List UInt8) : List UInt8 :=
  0 :: UInt8.ofNat op.code :: UInt8.ofNat (n / 256) :: UInt8.ofNat n :: payload

/-- `pread` of a regular file; `none` is an error. -/
def pread (f : File) (count offset : ℕ) : Option (List UInt8) :=
  if offset ≥ 2 ^ 63 then none else some (window f.bytes offset (min count (f.size - offset)))

/-- `tftp_send_data`: its result, and the packet that was sent, if any.  `malloc` gives NULL for a
size above `PTRDIFF_MAX`, which is not checked. -/
def tftpSendData (f : File) (blksize : ℕ) (sendOk : Bool) (block offset : ℕ) :
    Except Fault (ℤ × List (List UInt8)) :=
  let alloc := (4 + blksize) % 2 ^ 64
  if alloc ≥ 2 ^ 63 then .error .nullBuffer
  else if alloc < 4 + ((pread f blksize offset).getD []).length then .error .overflow
  else
    match pread f blksize offset with
    | none => .ok (-1, [])
    | some [] => .ok (0, [])
    | some payload =>
        if sendOk then .ok (4 + payload.length, [numbered .data block payload]) else .ok (-1, [])

/-- An option of an OACK. -/
def oackOption (name : String) (value : ℤ) : List UInt8 := ascii name ++ [0] ++ decimal value ++ [0]

/-- The packet of `tftp_send_oack` as `handle_rrq` calls it; the sizes are printed as signed
numbers. -/
def oackPacket (c : TftpClient) (tsize : ℤ) : List UInt8 :=
  [0, UInt8.ofNat Op.oack.code] ++
    oackOption "blksize" ((c.blksize : ℤ).bmod (2 ^ 64)) ++
    oackOption "timeoutms" ((c.timeoutms : ℤ).bmod (2 ^ 32)) ++
    (if tsize ≠ 0 ∧ tsize ≠ -1 then oackOption "tsize" tsize else []) ++
    (if c.wsize ≠ 0 then oackOption "wsize" ((c.wsize : ℤ).bmod (2 ^ 64)) else []) ++
    (if c.rsize ≠ 0 then oackOption "rsize" ((c.rsize : ℤ).bmod (2 ^ 64)) else [])

/-- The packet of `tftp_send_error`. -/
def errorPacket (code : ℕ) (msg : String) : List UInt8 := numbered .error code (ascii msg ++ [0])

/-! ### Reading -/

/-- The loop of `handle_reader`: `limit` is `last + client->wsize`, and `block` is a `uint16_t`.
`i` counts the rounds, for the results of `send`. -/
def windowLoop (f : File) (blksize limit : ℕ) (sendOk : ℕ → Bool) : (fuel i block : ℕ) → Handled
  | 0, _, _ => ⟨[], .running⟩
  | fuel + 1, i, block =>
      if block < limit then
        match tftpSendData f blksize (sendOk i) (block + 1) (block * blksize % 2 ^ 64) with
        | .error e => ⟨[], .fault e⟩
        | .ok (n, sent) =>
            if n ≤ 0 then ⟨sent, .returned 1⟩
            else
              let r := windowLoop f blksize limit sendOk fuel (i + 1) ((block + 1) % 2 ^ 16)
              ⟨sent ++ r.sent, r.stop⟩
      else ⟨[], .returned 1⟩

/-- What `recvfrom` gives. -/
inductive Recv where
  | error
  | datagram (sq : Addr) (bytes : List UInt8)
deriving DecidableEq, Repr

/-- An array of `size` bytes after a datagram was received into it; `stack` is what it held. -/
def recvBuf (size : ℕ) (stack : ℕ → UInt8) (bytes : List UInt8) (p : ℕ) : UInt8 :=
  (bytes.take size).getD p (stack p)

/-- A big-endian 16-bit number. -/
def be16 (buf : ℕ → UInt8) (p : ℕ) : ℕ := 256 * (buf p).toNat + (buf (p + 1)).toNat

/-- `handle_reader`. -/
def handleReader (f : File) (sendOk : ℕ → Bool) (stack : ℕ → UInt8) (fuel : ℕ) (c : TftpClient)
    (r : Recv) :
    Handled :=
  match r with
  | .error => ⟨[], .returned (-1)⟩
  | .datagram sq bytes =>
      let buf := recvBuf 128 stack bytes
      if sq.node ≠ c.sq.node ∨ sq.port ≠ c.sq.port then ⟨[], .returned (-1)⟩
      else if be16 buf 0 = Op.error.code then
        -- a NUL is stored behind the message
        if 128 ≤ bytes.length then ⟨[], .fault .overflow⟩ else ⟨[], .returned (-1)⟩
      else if be16 buf 0 ≠ Op.ack.code then ⟨[], .returned (-1)⟩
      else
        windowLoop f c.blksize ((be16 buf 2 + c.wsize) % 2 ^ 64) sendOk fuel 0 (be16 buf 2)

/-! ### Read requests -/

/-- The receive buffer of `main`. -/
abbrev rrqBufSize : ℕ := 4096

/-- The string at `p` in the receive buffer. -/
def stringAt (buf : ℕ → UInt8) (p : ℕ) : Except Fault (List UInt8) :=
  match cString buf (rrqBufSize - p) p with
  | none => .error .unterminated
  | some s => .ok s

/-- The variables of `handle_rrq` that options set. -/
structure RrqOptions where
  blksize : ℕ := 512
  timeoutms : ℕ := 1000
  tsize : ℤ := -1
  rsize : ℕ := 0
  wsize : ℕ := 0
deriving DecidableEq, Repr

/-- One option. -/
def rrqOption (o : RrqOptions) (opt value : List UInt8) : RrqOptions :=
  if opt = ascii "blksize" then { o with blksize := toSize (atoi value) }
  else if opt = ascii "timeoutms" then { o with timeoutms := (atoi value % 2 ^ 32).toNat }
  else if opt = ascii "tsize" then { o with tsize := atoi value }
  else if opt = ascii "rsize" then { o with rsize := toSize (atoi value) }
  else if opt = ascii "wsize" then { o with wsize := toSize (atoi value) }
  else o

/-- The loop over the options.  Every round takes two bytes at least, so `len` rounds are enough. -/
def rrqOptions (buf : ℕ → UInt8) (len : ℕ) : (rounds p : ℕ) → RrqOptions → Except Fault RrqOptions
  | 0, _, o => .ok o
  | rounds + 1, p, o =>
      if p < len then do
        let opt ← stringAt buf p
        let value ← stringAt buf (p + opt.length + 1)
        rrqOptions buf len rounds (p + opt.length + 1 + value.length + 1) (rrqOption o opt value)
      else .ok o

/-- A read request as `handle_rrq` sees it. -/
structure Rrq where
  filename : List UInt8
  doOack : Bool
  options : RrqOptions
deriving DecidableEq, Repr

/-- The first part of `handle_rrq`, up to the options; `none` when the mode is not `octet`. -/
def parseRrq (buf : ℕ → UInt8) (len : ℕ) : Except Fault (Option Rrq) := do
  let filename ← stringAt buf 2
  let mode ← stringAt buf (2 + filename.length + 1)
  let p := 2 + filename.length + 1 + mode.length + 1
  if ¬ caseEq mode (ascii "octet") then pure none
  else do
    let options ← rrqOptions buf len len p {}
    pure (some ⟨filename, p < len, options⟩)

/-- The results of the calls `handle_rrq` makes. -/
structure RrqIo where
  qrtrOpen : ℤ
  connect : ℤ
  translateOpen : List UInt8 → ℤ
  sendOk : Bool

/-- `handle_rrq`: the client that is added to the readers, if any; `f` is the file that is
opened. -/
def handleRrq (f : File) (io : RrqIo) (buf : ℕ → UInt8) (len : ℕ) (sq : Addr) :
    Option TftpClient × Handled :=
  match parseRrq buf len with
  | .error e => (none, ⟨[], .fault e⟩)
  | .ok none => (none, ⟨[], .returned 0⟩)
  | .ok (some r) =>
      if io.qrtrOpen < 0 then (none, ⟨[], .returned 0⟩)
      else if io.connect < 0 then (none, ⟨[], .returned 0⟩)
      else if io.translateOpen r.filename < 0 then
        (none, ⟨if io.sendOk then [errorPacket 1 "file not found"] else [], .returned 0⟩)
      else
        let c : TftpClient := ⟨sq, io.qrtrOpen, io.translateOpen r.filename, r.options.blksize,
          r.options.rsize,
          r.options.wsize, r.options.timeoutms⟩
        if r.doOack then
          let tsize : ℤ := if r.options.tsize ≠ -1 then f.size else -1
          (some c, ⟨if io.sendOk then [oackPacket c tsize] else [], .returned 0⟩)
        else
          match tftpSendData f c.blksize io.sendOk 1 0 with
          | .error e => (some c, ⟨[], .fault e⟩)
          | .ok (_, sent) => (some c, ⟨sent, .returned 0⟩)

end Imola.Tqftp
