import Imola.Bytes
import Imola.Runs
import Imola.TqftpTranslate

/-! # The descriptors of `tqftpserv`

The main loop of `tqftpserv.c` serves its clients, the writers and then the readers, and takes a
packet from the service socket.  A request opens a socket and a file for a new client; a client that
is done, or whose node goes away, is closed.

One round of the loop is a step.  In every state at the top of the loop the descriptors that are
open are the service socket and a socket and a file for each client (`accounted_of_run`), as long as
no request fails after it has opened something: `handle_rrq` keeps its socket when `connect` or
`translate_open` fails, `handle_wrq` keeps its file when `qrtr_open` or `connect` fails, and the
socket with it. -/

namespace Imola.Tqftp

open Imola.CStrings Imola.Bytes Imola.Runs

/-- The server at the top of the main loop. -/
structure Tqftpserv where
  fds : Fds
  service : ℕ
  writers : List TftpClient
  readers : List TftpClient

/-- Why the main loop is left. -/
inductive End where
  | exits
  | fault (f : Fault)
  /-- A handler does not come back. -/
  | hangs
deriving DecidableEq, Repr

/-! ### Clients -/

/-- `close` of a descriptor that is kept as an `int`. -/
def Fds.closeInt (t : Fds) (d : ℤ) : Fds := if 0 ≤ d then t.close d.toNat else t

/-- What `client_close_and_free` does to the descriptors. -/
def clientClose (t : Fds) (c : TftpClient) : Fds := (t.closeInt c.sock).closeInt c.fd

/-- A loop over the clients that closes those for which it is called for. -/
def reap (done : TftpClient → Except End Bool) :
    List TftpClient → Fds → Except End (List TftpClient × Fds)
  | [], t => .ok ([], t)
  | c :: cs, t =>
      match done c with
      | .error e => .error e
      | .ok true => reap done cs (clientClose t c)
      | .ok false =>
          match reap done cs t with
          | .error e => .error e
          | .ok (kept, t) => .ok (c :: kept, t)

/-- What `handle_writer` gets from the outside. -/
structure WriterIo where
  recv : Recv
  stack : ℕ → UInt8
  /-- The result of `write`. -/
  write : ℤ

/-- The number of bytes that `handle_writer` asks `write` for.  It is unsigned, so it is huge for a
packet of less than four bytes. -/
def payload (bytes : List UInt8) : ℕ := (((min 516 bytes.length : ℤ) - 4) % 2 ^ 64).toNat

/-- The branches of `handle_writer`. -/
inductive Writing where
  /-- Nothing was received, or not from the client. -/
  | dropped
  | notData
  | failed
  /-- `write` has taken bytes behind the header in the buffer. -/
  | written (buf : ℕ → UInt8) (payload : ℕ)

/-- The branch that `handle_writer` takes. -/
def writing (c : TftpClient) (io : WriterIo) : Writing :=
  match io.recv with
  | .error => .dropped
  | .datagram sq bytes =>
      let buf := recvBuf 516 io.stack bytes
      if sq.node ≠ c.sq.node ∨ sq.port ≠ c.sq.port then .dropped
      else if be16 buf 0 ≠ Op.data.code then .notData
      else if io.write < 0 then .failed
      else .written buf (payload bytes)

/-- `handle_writer`. -/
def handleWriter (c : TftpClient) (io : WriterIo) : ℤ :=
  match writing c io with
  | .written _ payload => if payload = 512 then 1 else 0
  | _ => -1

/-- What `handle_reader` gets from the outside, and the steps it is given. -/
structure ReaderIo where
  recv : Recv
  stack : ℕ → UInt8
  file : File
  sendOk : ℕ → Bool
  fuel : ℕ

/-- The result of `handle_reader`. -/
def readerResult (c : TftpClient) (io : ReaderIo) : Except End ℤ :=
  match (handleReader io.file io.sendOk io.stack io.fuel c io.recv).stop with
  | .returned ret => .ok ret
  | .fault f => .error (.fault f)
  | .running => .error .hangs

/-! ### Requests -/

/-- The results of the calls for a packet on the service socket. -/
structure ServiceIo where
  recv : Recv
  stack : ℕ → UInt8
  socket : Bool
  setsockopt : Bool
  connect : Bool
  translate : TranslateIo
  calloc : Bool
  file : File
  sendOk : Bool

/-- `qrtr_open`, without a port. -/
def qrtrOpen (io : ServiceIo) (t : Fds) : Option ℕ × Fds :=
  match t.get io.socket with
  | (none, t) => (none, t)
  | (some sock, t) => if io.setsockopt then (some sock, t) else (none, t.close sock)

/-- `handle_rrq` with the descriptors it opens and keeps; the client it adds is that of `handleRrq`
(`serveRrq_readers`). -/
def serveRrq (b : Build) (io : ServiceIo) (s : Tqftpserv) (buf : ℕ → UInt8) (len : ℕ) (sq : Addr) :
    Except End Tqftpserv :=
  match parseRrq buf len with
  | .error f => .error (.fault f)
  | .ok none => .ok s
  | .ok (some r) =>
      match qrtrOpen io s.fds with
      | (none, t) => .ok { s with fds := t }
      | (some sock, t) =>
          if io.connect then
            let file := translateOpen b io.translate t r.filename
            match file.fd with
            | .error f => .error (.fault f)
            | .ok none => .ok { s with fds := file.fds }
            | .ok (some fd) =>
                let c : TftpClient := ⟨sq, sock, fd, r.options.blksize, r.options.rsize,
                  r.options.wsize, r.options.timeoutms⟩
                let s' := { s with fds := file.fds, readers := s.readers ++ [c] }
                if ¬ io.calloc then .error (.fault .nullBuffer)
                else if r.doOack then .ok s'
                else
                  match tftpSendData io.file c.blksize io.sendOk 1 0 with
                  | .error f => .error (.fault f)
                  | .ok _ => .ok s'
          else .ok { s with fds := t }

/-- The first part of `handle_wrq`: the file name, if the mode is `octet`. -/
def parseWrq (buf : ℕ → UInt8) : Except Fault (Option (List UInt8)) := do
  let filename ← stringAt buf 2
  let mode ← stringAt buf (2 + filename.length + 1)
  pure (if caseEq mode (ascii "octet") then some filename else none)

/-- `handle_wrq`. -/
def serveWrq (b : Build) (io : ServiceIo) (s : Tqftpserv) (buf : ℕ → UInt8) (sq : Addr) :
    Except End Tqftpserv :=
  match parseWrq buf with
  | .error f => .error (.fault f)
  | .ok none => .ok s
  | .ok (some filename) =>
      let file := translateOpen b io.translate s.fds filename
      match file.fd with
      | .error f => .error (.fault f)
      | .ok none => .ok { s with fds := file.fds }
      | .ok (some fd) =>
          match qrtrOpen io file.fds with
          | (none, t) => .ok { s with fds := t }
          | (some sock, t) =>
              if io.connect then
                if ¬ io.calloc then .error (.fault .nullBuffer)
                else if io.sendOk then .ok
                  { s with fds := t, writers := s.writers ++ [⟨sq, sock, fd, 0, 0, 0, 0⟩] }
                else .ok { s with fds := (t.close sock).close fd }
              else .ok { s with fds := t }

/-- `QRTR_PORT_CTRL`. -/
def portCtrl : ℕ := 0xfffffffe

/-- `QRTR_TYPE_BYE`. -/
def typeBye : ℕ := 3

/-- `QRTR_TYPE_DEL_CLIENT`. -/
def typeDelClient : ℕ := 6

/-- The type that `qrtr_decode` finds in a control packet. -/
def ctrlType (bytes : List UInt8) : Option ℕ :=
  if bytes.length < 20 then none
  else
    let cmd := ofLE (bytes.take 4)
    some (if cmd ∈ [3, 4, 5, 6] then cmd else 0)

/-- The part of the main loop for the service socket. -/
def serve (b : Build) (s : Tqftpserv) (io : ServiceIo) : Except End Tqftpserv :=
  match io.recv with
  | .error => .error .exits
  | .datagram sq datagram =>
      let bytes := datagram.take rrqBufSize
      let buf := recvBuf rrqBufSize io.stack bytes
      if sq.port = portCtrl then
        match ctrlType bytes with
        | none => .error .exits
        | some type =>
            let gone : TftpClient → Bool := fun c =>
              (type = typeBye && c.sq.node = sq.node) || (type = typeDelClient && c.sq = sq)
            match reap (fun c => .ok (gone c)) s.writers s.fds with
            | .error e => .error e
            | .ok (writers, t) => .ok { s with fds := t, writers := writers }
      else if bytes.length < 2 then .ok s
      else if be16 buf 0 = Op.rrq.code then serveRrq b io s buf bytes.length sq
      else if be16 buf 0 = Op.wrq.code then serveWrq b io s buf sq
      else .ok s

/-! ### The main loop -/

/-- The result of `select`. -/
inductive Select where
  | interrupted
  | failed
  | ready
deriving DecidableEq, Repr

/-- What a round of the main loop gets from the outside; `none` is for sockets that are not
ready. -/
structure Round where
  select : Select
  writer : TftpClient → Option WriterIo
  reader : TftpClient → Option ReaderIo
  service : Option ServiceIo

/-- Whether a writer is closed. -/
def Round.writerDone (i : Round) (c : TftpClient) : Except End Bool :=
  match i.writer c with
  | none => .ok false
  | some io => .ok (handleWriter c io ≤ 0)

/-- Whether a reader is closed. -/
def Round.readerDone (i : Round) (c : TftpClient) : Except End Bool :=
  match i.reader c with
  | none => .ok false
  | some io =>
      match readerResult c io with
      | .error e => .error e
      | .ok ret => .ok (ret ≤ 0)

/-- A round of the main loop. -/
def mainLoop (b : Build) (s : Tqftpserv) (i : Round) : Except End (Unit × Tqftpserv) :=
  match i.select with
  | .interrupted => .ok ((), s)
  | .failed => .error .exits
  | .ready => do
      let (writers, t) ← reap i.writerDone s.writers s.fds
      let (readers, t) ← reap i.readerDone s.readers t
      let s : Tqftpserv := { s with fds := t, writers := writers, readers := readers }
      let s ← match i.service with
        | none => .ok s
        | some io => serve b s io
      pure ((), s)

/-- What `main` sets up: the descriptors it was started with, and the service socket. -/
def tqftpservInit (inherited : Finset ℕ) : Tqftpserv :=
  let t : Fds := ⟨inherited, ∅⟩
  ⟨{ t with opened := {t.lowest} }, t.lowest, [], []⟩

/-! ### What is open -/

/-- The descriptors that are open, as `int`s. -/
def Fds.ints (t : Fds) : Multiset ℤ := t.opened.val.map fun d : ℕ => (d : ℤ)

/-- The descriptors of some clients. -/
def heldBy (cs : List TftpClient) : Multiset ℤ := (cs.flatMap fun c => [c.sock, c.fd] : List ℤ)

/-- **The accounts are right**: what is open are the service socket and a socket and a file for each
client. -/
def Tqftpserv.Accounted (s : Tqftpserv) : Prop :=
  s.fds.ints = (s.service : ℤ) ::ₘ (heldBy s.writers + heldBy s.readers)

section Accounts

variable {t t' : Fds} {d : ℕ} {cs : List TftpClient} {c : TftpClient}

theorem heldBy_cons (c : TftpClient) (cs : List TftpClient) :
    heldBy (c :: cs) = c.sock ::ₘ c.fd ::ₘ heldBy cs := rfl

theorem heldBy_snoc (cs : List TftpClient) (c : TftpClient) :
    heldBy (cs ++ [c]) = c.sock ::ₘ c.fd ::ₘ heldBy cs := by
  rw [heldBy, List.flatMap_append, ← Multiset.coe_add, add_comm]
  rfl

theorem Fds.Gets.ints (h : t.Gets d t') : t'.ints = (d : ℤ) ::ₘ t.ints := by
  have hnot : d ∉ t.opened := fun hd => h.fresh (Finset.mem_union_right _ hd)
  rw [h.eq, Fds.ints, Finset.insert_val_of_notMem hnot, Multiset.map_cons]
  rfl

theorem Fds.closeInt_ints (t : Fds) (d : ℤ) : (t.closeInt d).ints = t.ints.erase d := by
  unfold Fds.closeInt
  split_ifs with hd
  · obtain ⟨n, rfl⟩ := Int.eq_ofNat_of_zero_le hd
    rw [Int.toNat_natCast, Fds.close, Fds.ints, Fds.ints, Finset.erase_val]
    exact Multiset.map_erase _ Nat.cast_injective n _
  · refine (Multiset.erase_of_notMem fun hmem => hd ?_).symm
    obtain ⟨n, -, rfl⟩ := Multiset.mem_map.mp hmem
    exact Int.natCast_nonneg n

theorem clientClose_ints {rest : Multiset ℤ} (h : t.ints = c.sock ::ₘ c.fd ::ₘ rest) :
    (clientClose t c).ints = rest := by
  rw [clientClose, Fds.closeInt_ints, Fds.closeInt_ints, h, Multiset.erase_cons_head,
    Multiset.erase_cons_head]

/-- **Closing clients keeps the accounts**, whatever else is open. -/
theorem reap_ints {done : TftpClient → Except End Bool} (cs : List TftpClient) :
    ∀ {t t' kept} {rest : Multiset ℤ},
    t.ints = heldBy cs + rest → reap done cs t = .ok (kept, t') → t'.ints = heldBy kept + rest := by
  induction cs with
  | nil =>
      intro t t' kept rest h hreap
      cases hreap
      exact h
  | cons c cs ih =>
      intro t t' kept rest h hreap
      rw [reap] at hreap
      rcases hdone : done c with e | _ | _
      · rw [hdone] at hreap
        cases hreap
      · rw [hdone] at hreap
        dsimp only at hreap
        rcases hrest : reap done cs t with e | ⟨kept', t''⟩
        · rw [hrest] at hreap
          cases hreap
        · rw [hrest] at hreap
          cases hreap
          have hints : t.ints = heldBy cs + (c.sock ::ₘ c.fd ::ₘ rest) := by
            rw [h, heldBy_cons, Multiset.cons_add, Multiset.cons_add, Multiset.add_cons,
              Multiset.add_cons]
          rw [ih hints hrest, heldBy_cons, Multiset.cons_add, Multiset.cons_add, Multiset.add_cons,
            Multiset.add_cons]
      · rw [hdone] at hreap
        rw [heldBy_cons, Multiset.cons_add, Multiset.cons_add] at h
        exact ih (clientClose_ints h) hreap

end Accounts

/-! ### Requests -/

/-- `qrtr_open` succeeds. -/
def ServiceIo.opens (io : ServiceIo) : Bool := io.socket && io.setsockopt

theorem qrtrOpen_spec (io : ServiceIo) (t : Fds) : (io.opens = false ∧ qrtrOpen io t = (none, t)) ∨
    (io.opens = true ∧ ∃ d t', qrtrOpen io t = (some d, t') ∧ t.Gets d t') := by
  unfold ServiceIo.opens qrtrOpen
  rcases t.get_spec io.socket with ⟨hok, hget⟩ | ⟨hok, d, t', hget, hgets⟩
  · rw [hget, hok]
    exact Or.inl ⟨rfl, rfl⟩
  · rw [hget, hok]
    cases io.setsockopt with
    | false =>
        refine Or.inl ⟨rfl, ?_⟩
        simp [hgets.close]
    | true => exact Or.inr ⟨rfl, d, t', rfl, hgets⟩

/-- `handle_rrq` returns early with its socket open. -/
def rrqLeaks (b : Build) (io : ServiceIo) : Except Fault (Option Rrq) → Bool
  | .ok (some r) => io.opens && !(io.connect && opensFile b io.translate r.filename)
  | _ => false

/-- `handle_wrq` returns early with its file open. -/
def wrqLeaks (b : Build) (io : ServiceIo) : Except Fault (Option (List UInt8)) → Bool
  | .ok (some filename) => opensFile b io.translate filename && !(io.opens && io.connect)
  | _ => false

section Requests

variable {b : Build} {io : ServiceIo} {s s' : Tqftpserv} {buf : ℕ → UInt8} {len : ℕ} {sq : Addr}

theorem not_accounted {t : Fds} {d : ℤ} {more : Multiset ℤ} (h : s.Accounted)
    (ht : t.ints = d ::ₘ (more + s.fds.ints)) :
    ¬ Tqftpserv.Accounted { s with fds := t } := by
  intro h'
  have hints : t.ints = s.fds.ints := Eq.trans h' h.symm
  have hcard := congrArg Multiset.card (ht.symm.trans hints)
  rw [Multiset.card_cons, Multiset.card_add] at hcard
  omega

theorem serveRrq_accounted (h : s.Accounted) (hserve : serveRrq b io s buf len sq = .ok s') :
    s'.Accounted ↔ rrqLeaks b io (parseRrq buf len) = false := by
  unfold serveRrq at hserve
  rcases hparse : parseRrq buf len with f | _ | r
  · rw [hparse] at hserve
    cases hserve
  · rw [hparse] at hserve
    cases hserve
    exact iff_of_true h rfl
  rw [hparse] at hserve
  rw [rrqLeaks]
  rcases qrtrOpen_spec io s.fds with ⟨hopens, hopen⟩ | ⟨hopens, sock, t, hopen, hsock⟩
  · simp only [hopen] at hserve
    cases hserve
    exact iff_of_true h (by simp [hopens])
  simp only [hopen] at hserve
  by_cases hconnect : io.connect = true
  swap
  · rw [if_neg hconnect] at hserve
    cases hserve
    exact iff_of_false (not_accounted h (by rw [hsock.ints, zero_add])) (by simp [hopens, hconnect])
  rw [if_pos hconnect] at hserve
  have hkeeps := translateOpen_keeps b io.translate t r.filename
  rcases hfd : (translateOpen b io.translate t r.filename).fd with f | _ | fd
  · rw [hfd] at hserve
    cases hserve
  · rw [hfd] at hserve
    cases hserve
    refine iff_of_false (@not_accounted s _ sock 0 h
      ?_) (by simp [hopens, hconnect, opensFile_eq hfd])
    rw [hkeeps.nothing hfd, hsock.ints, zero_add]
  · simp only [hfd] at hserve
    have hs' : s' =
        { s with fds := (translateOpen b io.translate t r.filename).fds, readers := s.readers ++
        [⟨sq, sock, fd, r.options.blksize, r.options.rsize,
          r.options.wsize, r.options.timeoutms⟩] } := by
      split_ifs at hserve with hcalloc hoack
      · cases hserve
        rfl
      · rcases hsend : tftpSendData io.file r.options.blksize io.sendOk 1 0 with f | x
        · rw [hsend] at hserve
          cases hserve
        · rw [hsend] at hserve
          cases hserve
          rfl
    refine iff_of_true ?_ (by simp [hconnect, opensFile_eq hfd])
    rw [hs', Tqftpserv.Accounted, (hkeeps.one fd hfd).ints, hsock.ints, h, heldBy_snoc]
    simp only [← Multiset.singleton_add]
    abel

/-- The results of the calls as `handleRrq` takes them. -/
def ServiceIo.rrqIo (b : Build) (io : ServiceIo) (t : Fds) : RrqIo where
  qrtrOpen := (qrtrOpen io t).1.elim (-1) Nat.cast
  connect := if io.connect then 0 else -1
  translateOpen := fun filename =>
    match (translateOpen b io.translate (qrtrOpen io t).2 filename).fd with
    | .ok (some fd) => fd
    | _ => -1
  sendOk := io.sendOk

/-- The client that is added is the one of `handleRrq`, which says what is sent to it. -/
theorem serveRrq_readers (hserve : serveRrq b io s buf len sq = .ok s') :
    s'.readers = s.readers ++ (handleRrq io.file (io.rrqIo b s.fds) buf len sq).1.toList := by
  unfold serveRrq at hserve
  unfold handleRrq
  rcases hparse : parseRrq buf len with f | _ | r
  · rw [hparse] at hserve
    cases hserve
  · rw [hparse] at hserve
    cases hserve
    simp
  rw [hparse] at hserve
  rcases qrtrOpen_spec io s.fds with ⟨-, hopen⟩ | ⟨-, sock, t, hopen, -⟩
  · simp only [hopen] at hserve
    cases hserve
    simp [ServiceIo.rrqIo, hopen]
  simp only [hopen] at hserve
  by_cases hconnect : io.connect = true
  swap
  · rw [if_neg hconnect] at hserve
    cases hserve
    simp [ServiceIo.rrqIo, hopen, hconnect]
  rw [if_pos hconnect] at hserve
  rcases hfd : (translateOpen b io.translate t r.filename).fd with f | _ | fd
  · rw [hfd] at hserve
    cases hserve
  · rw [hfd] at hserve
    cases hserve
    have hpos : ¬ (sock : ℤ) < 0 := by omega
    simp [ServiceIo.rrqIo, hopen, hconnect, hfd, hpos]
  · simp only [hfd] at hserve
    have hpos : ¬ (sock : ℤ) < 0 ∧ ¬ (fd : ℤ) < 0 := by omega
    simp only [ServiceIo.rrqIo, hopen, hconnect, hfd, Option.elim_some, if_true, hpos.1, hpos.2,
      if_false, lt_irrefl]
    split_ifs at hserve with hcalloc hoack
    · cases hserve
      rw [if_pos hoack]
      rfl
    · rw [if_neg hoack]
      rcases hsend : tftpSendData io.file r.options.blksize io.sendOk 1 0 with f | x
      · rw [hsend] at hserve
        cases hserve
      · rw [hsend] at hserve
        cases hserve
        rfl

theorem serveWrq_accounted (h : s.Accounted) (hserve : serveWrq b io s buf sq = .ok s') :
    s'.Accounted ↔ wrqLeaks b io (parseWrq buf) = false := by
  unfold serveWrq at hserve
  rcases hparse : parseWrq buf with f | _ | filename
  · rw [hparse] at hserve
    cases hserve
  · rw [hparse] at hserve
    cases hserve
    exact iff_of_true h rfl
  rw [hparse] at hserve
  rw [wrqLeaks]
  have hkeeps := translateOpen_keeps b io.translate s.fds filename
  rcases hfd : (translateOpen b io.translate s.fds filename).fd with f | _ | fd
  · simp only [hfd] at hserve
    cases hserve
  · simp only [hfd] at hserve
    cases hserve
    refine iff_of_true ?_ (by simp [opensFile_eq hfd])
    rw [Tqftpserv.Accounted, hkeeps.nothing hfd]
    exact h
  have hfile := hkeeps.one fd hfd
  simp only [hfd] at hserve
  rcases qrtrOpen_spec io (translateOpen b io.translate s.fds filename).fds with
    ⟨hopens, hopen⟩ | ⟨hopens, sock, t, hopen, hsock⟩
  · simp only [hopen] at hserve
    cases hserve
    exact iff_of_false (not_accounted h (by rw [hfile.ints, zero_add]))
      (by simp [hopens, opensFile_eq hfd])
  simp only [hopen] at hserve
  split_ifs at hserve with hconnect hcalloc hsend
  · cases hserve
    refine iff_of_true ?_ (by simp [hopens, hconnect])
    rw [Tqftpserv.Accounted, hsock.ints, hfile.ints, h, heldBy_snoc]
    simp only [← Multiset.singleton_add]
    abel
  · cases hserve
    refine iff_of_true ?_ (by simp [hopens, hconnect])
    rw [Tqftpserv.Accounted, hsock.close, hfile.close]
    exact h
  · cases hserve
    refine iff_of_false (@not_accounted s t sock {(fd : ℤ)} h ?_)
      (by simp [hconnect, opensFile_eq hfd])
    rw [hsock.ints, hfile.ints, Multiset.singleton_add]

end Requests

/-! ### Rounds -/

/-- The packet on the service socket is a request that leaks. -/
def ServiceIo.leaks (b : Build) (io : ServiceIo) : Bool :=
  match io.recv with
  | .error => false
  | .datagram sq datagram =>
      let bytes := datagram.take rrqBufSize
      let buf := recvBuf rrqBufSize io.stack bytes
      if sq.port = portCtrl then false
      else if bytes.length < 2 then false
      else if be16 buf 0 = Op.rrq.code then rrqLeaks b io (parseRrq buf bytes.length)
      else if be16 buf 0 = Op.wrq.code then wrqLeaks b io (parseWrq buf)
      else false

/-- A round with such a packet. -/
def Round.leaks (b : Build) (i : Round) : Bool :=
  i.select = .ready && i.service.any (ServiceIo.leaks b)

section Rounds

variable {b : Build} {s s' : Tqftpserv}

theorem serve_accounted {io : ServiceIo} (h : s.Accounted) (hserve : serve b s io = .ok s') :
    s'.Accounted ↔ io.leaks b = false := by
  unfold serve at hserve
  unfold ServiceIo.leaks
  cases hrecv : io.recv with
  | error =>
      rw [hrecv] at hserve
      cases hserve
  | datagram sq datagram =>
      simp only [hrecv] at hserve ⊢
      generalize datagram.take rrqBufSize = bytes at hserve ⊢
      split_ifs at hserve ⊢ with hctrl hshort hrrq hwrq
      · refine iff_of_true ?_ rfl
        rcases htype : ctrlType bytes with _ | type
        · rw [htype] at hserve
          cases hserve
        rw [htype] at hserve
        dsimp only at hserve
        split at hserve
        · cases hserve
        · rename_i writers t hreap
          cases hserve
          have hints : s.fds.ints = heldBy s.writers + ((s.service : ℤ) ::ₘ heldBy s.readers) := by
            rw [h, Multiset.add_cons]
          rw [Tqftpserv.Accounted, reap_ints s.writers hints hreap, Multiset.add_cons]
      · cases hserve
        exact iff_of_true h rfl
      · exact serveRrq_accounted h hserve
      · exact serveWrq_accounted h hserve
      · cases hserve
        exact iff_of_true h rfl

/-- **A round keeps the accounts exactly when it does not leak.** -/
theorem mainLoop_accounted {i : Round} (h : s.Accounted) (hstep : mainLoop b s i = .ok ((), s')) :
    s'.Accounted ↔ i.leaks b = false := by
  unfold mainLoop at hstep
  unfold Round.leaks
  cases hselect : i.select with
  | interrupted =>
      rw [hselect] at hstep
      cases hstep
      exact iff_of_true h rfl
  | failed =>
      rw [hselect] at hstep
      cases hstep
  | ready =>
      simp only [hselect] at hstep
      rcases hwriters : reap i.writerDone s.writers s.fds with e | ⟨writers, t⟩
      · rw [hwriters] at hstep
        cases hstep
      rw [hwriters] at hstep
      rcases hreaders : reap i.readerDone s.readers t with e | ⟨readers, t'⟩
      · simp only [bind, Except.bind, hreaders] at hstep
        cases hstep
      simp only [bind, Except.bind, hreaders] at hstep
      have hints : s.fds.ints = heldBy s.writers + ((s.service : ℤ) ::ₘ heldBy s.readers) := by
        rw [h, Multiset.add_cons]
      have hints' : t.ints = heldBy s.readers + ((s.service : ℤ) ::ₘ heldBy writers) := by
        rw [reap_ints s.writers hints hwriters, Multiset.add_cons, Multiset.add_cons, add_comm]
      have hreaped : Tqftpserv.Accounted
          { s with fds := t', writers := writers, readers := readers } := by
        rw [Tqftpserv.Accounted, reap_ints s.readers hints' hreaders, Multiset.add_cons, add_comm]
      cases hservice : i.service with
      | none =>
          rw [hservice] at hstep
          cases hstep
          exact iff_of_true hreaped rfl
      | some io =>
          simp only [hservice] at hstep
          split at hstep
          · cases hstep
          · rename_i s'' hserve
            cases hstep
            exact serve_accounted hreaped hserve

end Rounds

/-! ### Runs -/

theorem accounted_init (inherited : Finset ℕ) : (tqftpservInit inherited).Accounted := rfl

/-- **Descriptors are accounted for**: in every state at the top of the main loop, if no request
leaks; and the next round that leaks breaks the accounts. -/
theorem accounted_of_run {b : Build} {inherited : Finset ℕ} {h : List (Round × Unit)}
    {s : Tqftpserv}
    (hrun : Run (mainLoop b) (fun _ i => i.leaks b = false) (tqftpservInit inherited) h s) :
    s.Accounted ∧ ∀ i s', mainLoop b s i = .ok ((), s') → (s'.Accounted ↔ i.leaks b = false) := by
  have hacc : s.Accounted := by
    refine @Run.invariant _ _ _ _ _ _ _ (fun _ s => s.Accounted)
      (accounted_init inherited) ?_ _ _ hrun
    intro h s i o s' hs hleaks hstep
    exact (mainLoop_accounted hs hstep).mpr hleaks
  exact ⟨hacc, fun i s' hstep => mainLoop_accounted hacc hstep⟩

/-- A round with a read request for a file of the temporary directory from the node 0, which can be
opened or not. -/
def rrqRound (opens : Bool) : Round where
  select := .ready
  writer := fun _ => none
  reader := fun _ => none
  service := some {
    recv := .datagram ⟨0, 7⟩ ([0, 1] ++ ascii "/readwrite/a" ++ [0] ++ ascii "octet" ++ [0])
    stack := fun _ => 0
    socket := true
    setsockopt := true
    connect := true
    translate := ⟨true, true, [], true, true, opens⟩
    calloc := true
    file := ⟨0, fun _ => 0⟩
    sendOk := true }

/-- A reader is added for a file that can be opened. -/
theorem accounted_rrq :
    ∃ s, mainLoop .android (tqftpservInit {0, 1, 2}) (rrqRound true) = .ok ((), s) ∧
    s.readers.length = 1 ∧ s.Accounted := by
  have hrun : Run (mainLoop .android) (fun _ i => i.leaks .android = false)
    (tqftpservInit {0, 1, 2})
      [(rrqRound true, ())] _ := Run.nil.snoc (by decide) rfl
  exact ⟨_, rfl, rfl, (accounted_of_run hrun).1⟩

/-- For one that cannot, the socket stays open. -/
theorem not_accounted_rrq : ∃ s, Run (mainLoop .android) (fun _ _ => True) (tqftpservInit {0, 1, 2})
    [(rrqRound false, ())] s ∧ s.writers = [] ∧ s.readers = [] ∧ s.fds.ints = {4, 3} ∧
    ¬ s.Accounted := by
  have hrun : Run (mainLoop .android) (fun _ _ => True) (tqftpservInit {0, 1, 2})
      [(rrqRound false, ())] _ :=
    Run.nil.snoc trivial rfl
  refine ⟨_, hrun, rfl, rfl, by decide, fun h => ?_⟩
  have hcard := congrArg Multiset.card h
  revert hcard
  decide

end Imola.Tqftp
