import Imola.Sessions
import Imola.TqftpBlocks
import Imola.TqftpDescriptors
import Imola.TqftpRequests

/-! # Uploads to `tqftpserv`

A write request opens the file with `O_WRONLY | O_CREAT` and adds a client to the writers.  For each
packet on the socket of the client `handle_writer` writes what is behind the four bytes of the
header at the position of the descriptor, and acknowledges the block number of the packet.  The
upload ends with the first packet whose payload does not have 512 bytes.

The old content of the file is not cut off, so a shorter upload leaves its end in place
(`upload_stored_iff`).  The block number is not compared with anything, so each copy of a block is
written behind the one before, and after the last block nobody is there to acknowledge a copy
(`retransmissions_iff`). -/

namespace Imola.Tqftp

open Imola.CStrings Imola.Splice Imola.Sessions

/-! ### Open files -/

/-- A file that is open for writing: what it holds, and where the next `write` goes. -/
@[ext]
structure OpenFile where
  content : List UInt8
  pos : ℕ
  pos_le : pos ≤ content.length

namespace OpenFile

theorem pos_le_splice (f : OpenFile) (data : List UInt8) :
    f.pos + data.length ≤ (splice f.content f.pos data).length := by
  have hpos := f.pos_le
  simp only [splice, List.length_append, List.length_take]
  omega

/-- `write` of as many bytes. -/
def write (f : OpenFile) (data : List UInt8) : OpenFile where
  content := splice f.content f.pos data
  pos := f.pos + data.length
  pos_le := f.pos_le_splice data

/-- `open` with `O_WRONLY | O_CREAT` of a file that holds `old`, or that does not exist. -/
def openWrite (old : Option (List UInt8)) : OpenFile := ⟨old.getD [], 0, Nat.zero_le _⟩

theorem write_nil (f : OpenFile) : f.write [] = f := by
  ext1
  · simp [write, splice]
  · rfl

theorem write_write (f : OpenFile) (x y : List UInt8) : (f.write x).write y = f.write (x ++ y) := by
  ext1
  · exact splice_append f.pos_le
  · simp only [write, List.length_append, Nat.add_assoc]

theorem openWrite_write (old : Option (List UInt8)) (x : List UInt8) :
    ((openWrite old).write x).content = x ++ (old.getD []).drop x.length := by
  simp [openWrite, write, splice]

end OpenFile

/-! ### `handle_writer` -/

/-- What `handle_writer` gets from the outside, with the result of `send`. -/
structure WriterInput extends WriterIo where
  sendOk : Bool

/-- What `handle_writer` sends, and what it makes of the file.  The kernel writes what it says, and
not more than it is asked to. -/
def writerEffects (c : TftpClient) (f : OpenFile) (io : WriterInput) :
    List (List UInt8) × OpenFile :=
  match writing c io.toWriterIo with
  | .dropped => ([], f)
  | .notData => (if io.sendOk then [errorPacket 4 "Expected DATA opcode"] else [], f)
  | .failed => ([], f)
  | .written buf payload =>
      (if io.sendOk then [numbered .ack (be16 buf 2) []] else [],
        f.write (window buf 4 (min io.write.toNat payload)))

/-- A packet for a writer.  The main loop keeps the client if `handle_writer` gives a positive
number. -/
def writerStep (c : TftpClient) (f : OpenFile) (io : WriterInput) : Answer (List UInt8) OpenFile :=
  let r := writerEffects c f io
  ⟨r.1, r.2, 0 < handleWriter c io.toWriterIo⟩

/-! ### Blocks -/

/-- The block with the number and the data `x` arrives from the client, and the calls succeed. -/
structure Delivers (c : TftpClient) (io : WriterInput) (x : ℕ × List UInt8) : Prop where
  recv : io.recv = .datagram c.sq (numbered .data x.1 x.2)
  write : io.write = x.2.length
  sendOk : io.sendOk = true

/-- The acknowledgement of a block. -/
def ackOf (x : ℕ × List UInt8) : List UInt8 := numbered .ack x.1 []

section Blocks

variable {c : TftpClient} {f : OpenFile} {io : WriterInput} {n : ℕ} {d : List UInt8}

theorem be16_numbered {size : ℕ} (hsize : 4 ≤ size) (stack : ℕ → UInt8) (op : Op) (n : ℕ)
    (d : List UInt8) :
    be16 (recvBuf size stack (numbered op n d)) 0 = op.code ∧
      be16 (recvBuf size stack (numbered op n d)) 2 = n % 2 ^ 16 := by
  obtain ⟨size, rfl⟩ := Nat.exists_eq_add_of_le' hsize
  simp only [be16, recvBuf, numbered, List.take_succ_cons, List.getD_cons_zero, List.getD_cons_succ,
    Nat.zero_add,
    UInt8.toNat_ofNat', UInt8.toNat_zero]
  refine ⟨?_, by omega⟩
  cases op with
  | _ => rfl

/-- **A block** is written behind the others and acknowledged; the session ends with a short one. -/
theorem writerStep_block (h : Delivers c io (n, d)) (hd : d.length ≤ 512) :
    writerStep c f io = ⟨[ackOf (n, d)], f.write d, decide (d.length = 512)⟩ := by
  obtain ⟨hop, hn⟩ := be16_numbered (by decide : 4 ≤ 516) io.stack .data n d
  have hlen : (numbered .data n d).length = d.length + 4 := rfl
  have hpayload : payload (numbered .data n d) = d.length := by
    rw [payload, hlen]
    omega
  have hdata : window (recvBuf 516 io.stack (numbered .data n d)) 4 d.length = d := by
    have hwindow := @window_recvBuf io.stack 516 (numbered .data n []) d []
      (by simp [numbered]; omega)
    rwa [List.append_nil] at hwindow
  have hwrite : ¬ io.write < 0 := by
    rw [h.write]
    omega
  have hwriting : writing c io.toWriterIo =
      .written (recvBuf 516 io.stack (numbered .data n d)) d.length := by
    simp only [writing, h.recv]
    rw [if_neg (by simp), hop, if_neg (by simp), if_neg hwrite, hpayload]
  have heffects : writerEffects c f io = ([ackOf (n, d)], f.write d) := by
    simp only [writerEffects, hwriting, h.sendOk, if_true, hn, numbered_mod, h.write,
      Int.toNat_natCast, min_self, hdata]
    rfl
  have hret : handleWriter c io.toWriterIo = if d.length = 512 then 1 else 0 := by
    rw [handleWriter, hwriting]
  rw [writerStep, heffects, hret]
  congr 1
  by_cases hfull : d.length = 512
  · simp [hfull]
  · simp [hfull]

/-- Full blocks are stored one behind the other, whatever their numbers are. -/
theorem feed_blocks {xs : List (ℕ × List UInt8)} {ios : List WriterInput}
    (h : List.Forall₂ (Delivers c) ios xs)
    (hfull : ∀ x ∈ xs, x.2.length = 512) : ∀ f,
    feed (writerStep c) f ios = ⟨xs.map ackOf, f.write (xs.flatMap Prod.snd), true⟩ := by
  induction h with
  | nil =>
      intro f
      rw [List.flatMap_nil, OpenFile.write_nil]
      rfl
  | @cons io x ios xs hio _ ih =>
      intro f
      have hx : x.2.length = 512 := hfull x List.mem_cons_self
      have hstep : writerStep c f io = ⟨[ackOf x], f.write x.2, true⟩ := by
        rw [writerStep_block hio (by omega), decide_eq_true hx]
      rw [feed_cons_of_goesOn (by rw [hstep]), hstep,
        ih (fun y hy => hfull y (List.mem_cons_of_mem _ hy)),
        OpenFile.write_write]
      rfl

/-- The upload ends with a short block, and what comes later is not received. -/
theorem feed_short {x : ℕ × List UInt8} {xs : List (ℕ × List UInt8)} {ios later : List WriterInput}
    (h : List.Forall₂ (Delivers c) ios xs) (hfull : ∀ x ∈ xs, x.2.length = 512)
    (hio : Delivers c io x)
    (hshort : x.2.length < 512) :
    feed (writerStep c) f (ios ++ io :: later) =
      ⟨xs.map ackOf ++ [ackOf x], f.write (xs.flatMap Prod.snd ++ x.2), false⟩ := by
  have hblocks := feed_blocks h hfull f
  have hstep : ∀ f, writerStep c f io = ⟨[ackOf x], f.write x.2, false⟩ := by
    intro f
    rw [writerStep_block hio (by omega), decide_eq_false (by omega)]
  rw [feed_append (by rw [hblocks]), hblocks, feed_cons_of_closes (by rw [hstep]), hstep,
    OpenFile.write_write]

end Blocks

/-! ### Uploads -/

/-- A block of an upload, and how often it is sent again. -/
structure Block where
  number : ℕ
  data : List UInt8
  copies : ℕ

/-- The block as it is sent first. -/
def Block.once (k : Block) : ℕ × List UInt8 := (k.number, k.data)

/-- The block with its copies. -/
def Block.sent (k : Block) : List (ℕ × List UInt8) := List.replicate (k.copies + 1) k.once

/-- The blocks of an upload.  The last one is the short one; without it the upload is not
finished. -/
structure Upload where
  full : List Block
  last : Option Block
  full_length : ∀ k ∈ full, k.data.length = 512
  last_length : ∀ k ∈ last, k.data.length < 512

namespace Upload

/-- What is sent if every block arrives. -/
def once (u : Upload) : List (ℕ × List UInt8) :=
  u.full.map Block.once ++ u.last.toList.map Block.once

/-- What is sent with the copies, each before the next block. -/
def sent (u : Upload) : List (ℕ × List UInt8) :=
  u.full.flatMap Block.sent ++ u.last.toList.flatMap Block.sent

/-- The data of the upload. -/
def data (u : Upload) : List UInt8 := u.once.flatMap Prod.snd

/-- The data of the full blocks with their copies, and of the last block. -/
def doubled (u : Upload) : List UInt8 :=
  (u.full.flatMap Block.sent ++ u.last.toList.map Block.once).flatMap Prod.snd

variable {u : Upload} {c : TftpClient} {f : OpenFile} {ios : List WriterInput}

theorem once_full (u : Upload) : ∀ x ∈ u.full.map Block.once, x.2.length = 512 := by
  intro x hx
  obtain ⟨k, hk, rfl⟩ := List.mem_map.mp hx
  exact u.full_length k hk

theorem sent_full (u : Upload) : ∀ x ∈ u.full.flatMap Block.sent, x.2.length = 512 := by
  intro x hx
  obtain ⟨k, hk, hx⟩ := List.mem_flatMap.mp hx
  rw [List.eq_of_mem_replicate hx]
  exact u.full_length k hk

/-- The answer to the packets of an upload: `xs` are the full ones, and behind them comes the short
block, more than once or not. -/
theorem feed_upload {xs : List (ℕ × List UInt8)} (hfull : ∀ x ∈ xs, x.2.length = 512)
    (copies : Block → ℕ)
    (h : List.Forall₂ (Delivers c) ios
      (xs ++ u.last.toList.flatMap fun k => List.replicate (copies k + 1) k.once)) :
    feed (writerStep c) f ios = ⟨(xs ++ u.last.toList.map Block.once).map ackOf,
      f.write ((xs ++ u.last.toList.map Block.once).flatMap Prod.snd), u.last.isNone⟩ := by
  have htake := List.forall₂_take_append _ _ _ h
  have hdrop := List.forall₂_drop_append _ _ _ h
  rw [← List.take_append_drop xs.length ios]
  cases hlast : u.last with
  | none =>
      rw [hlast] at hdrop
      have hnil : ios.drop xs.length = [] := List.forall₂_nil_right_iff.mp hdrop
      rw [hnil, List.append_nil, feed_blocks htake hfull]
      simp
  | some k =>
      rw [hlast] at hdrop
      simp only [Option.toList_some, List.flatMap_cons, List.flatMap_nil, List.append_nil,
        List.replicate_succ] at hdrop
      obtain ⟨io, later, hio, -, hrest⟩ := List.forall₂_cons_right_iff.mp hdrop
      rw [hrest, feed_short htake hfull hio (u.last_length k hlast)]
      simp

theorem feed_once (h : List.Forall₂ (Delivers c) ios u.once) :
    feed (writerStep c) f ios = ⟨u.once.map ackOf, f.write u.data, u.last.isNone⟩ := by
  refine feed_upload u.once_full (fun _ => 0) ?_
  have hflat : (u.last.toList.flatMap fun k => List.replicate (0 + 1) k.once) =
      u.last.toList.map Block.once :=
    List.map_eq_flatMap.symm
  rw [hflat]
  exact h

theorem feed_sent (h : List.Forall₂ (Delivers c) ios u.sent) : feed (writerStep c) f ios =
    ⟨(u.full.flatMap Block.sent ++ u.last.toList.map Block.once).map ackOf, f.write u.doubled,
      u.last.isNone⟩ :=
  feed_upload u.sent_full Block.copies h

theorem feed_take (h : List.Forall₂ (Delivers c) ios u.once) :
    (feed (writerStep c) f (ios.take u.full.length)).goesOn = true := by
  have htake := List.forall₂_take_append _ _ _ h
  rw [List.length_map] at htake
  rw [feed_blocks htake u.once_full]

/-! ### What the copies make of the file -/

theorem length_doubled (u : Upload) :
    u.doubled.length = u.data.length + 512 * (u.full.map Block.copies).sum := by
  have hfull : ∀ ks : List Block, (∀ k ∈ ks, k.data.length = 512) →
      ((ks.flatMap Block.sent).flatMap Prod.snd).length =
      ((ks.map Block.once).flatMap Prod.snd).length + 512 * (ks.map Block.copies).sum := by
    intro ks
    induction ks with
    | nil => exact fun _ => rfl
    | cons k ks ih =>
        intro hks
        have hk : k.data.length = 512 := hks k List.mem_cons_self
        have hsent : (k.sent.flatMap Prod.snd).length = (k.copies + 1) * 512 := by
          simp [Block.sent, Block.once, List.length_flatMap, hk]
        have hrest := ih fun k' hk' => hks k' (List.mem_cons_of_mem _ hk')
        have honce : k.once.2.length = 512 := hk
        rw [List.flatMap_cons, List.flatMap_append, List.length_append, hrest, hsent, List.map_cons,
          List.flatMap_cons,
          List.length_append, honce, List.map_cons, List.sum_cons]
        omega
  have h := hfull u.full u.full_length
  rw [doubled, data, once, List.flatMap_append, List.flatMap_append, List.length_append,
    List.length_append, h]
  omega

theorem doubled_eq_data_iff (u : Upload) : u.doubled = u.data ↔ ∀ k ∈ u.full, k.copies = 0 := by
  constructor
  · intro h
    have hlen := u.length_doubled
    rw [h] at hlen
    have hsum : (u.full.map Block.copies).sum = 0 := by omega
    intro k hk
    exact List.sum_eq_zero_iff.mp hsum _ (List.mem_map_of_mem hk)
  · intro h
    have hsent : u.full.flatMap Block.sent = u.full.map Block.once := by
      rw [List.map_eq_flatMap]
      exact List.flatMap_congr fun k hk => by rw [Block.sent, h k hk]; rfl
    rw [doubled, data, once, hsent]

/-- Behind the old content the copies do no harm only if there are none. -/
theorem doubled_isPrefix_iff (h : f.content.length ≤ f.pos + u.data.length) :
    u.doubled <+: u.data ++ f.content.drop (f.pos + u.data.length) ↔
    ∀ k ∈ u.full, k.copies = 0 := by
  rw [List.drop_eq_nil_of_le h, List.append_nil, ← doubled_eq_data_iff]
  constructor
  · intro hprefix
    refine hprefix.eq_of_length ?_
    have hle := hprefix.length_le
    have hlen := u.length_doubled
    omega
  · intro heq
    rw [heq]

theorem sent_eq_iff (u : Upload) :
    u.sent.map ackOf = (u.full.flatMap Block.sent ++ u.last.toList.map Block.once).map ackOf ↔
    ∀ k ∈ u.last, k.copies = 0 := by
  rw [sent, List.map_append, List.map_append, List.append_cancel_left_eq]
  cases u.last with
  | none => simp
  | some k => simp [Block.sent, List.replicate_succ]

end Upload

/-- A block that arrives. -/
def blockInput (c : TftpClient) (x : ℕ × List UInt8) : WriterInput :=
  ⟨⟨.datagram c.sq (numbered .data x.1 x.2), fun _ => 0, x.2.length⟩, true⟩

theorem delivers_blockInput (c : TftpClient) (xs : List (ℕ × List UInt8)) :
    List.Forall₂ (Delivers c) (xs.map (blockInput c)) xs := by
  rw [List.forall₂_map_left_iff]
  exact List.forall₂_same.mpr fun x _ => ⟨rfl, rfl, rfl⟩

/-- **Retransmissions** are acknowledged and do not change the file exactly when the last block is
not sent again, and the copies of the others write what is in the file anyway. -/
theorem retransmissions_iff (c : TftpClient) (f : OpenFile) (u : Upload)
    (once sent : List WriterInput)
    (honce : List.Forall₂ (Delivers c) once u.once)
    (hsent : List.Forall₂ (Delivers c) sent u.sent) :
    ((feed (writerStep c) f sent).out = u.sent.map ackOf ∧
      (feed (writerStep c) f sent).state.content = (feed (writerStep c) f once).state.content) ↔
    (∀ k ∈ u.last, k.copies = 0) ∧
    u.doubled <+: u.data ++ f.content.drop (f.pos + u.data.length) := by
  rw [Upload.feed_sent hsent, Upload.feed_once honce, eq_comm, u.sent_eq_iff]
  refine and_congr_right fun _ => ?_
  have hlen := u.length_doubled
  exact splice_eq_splice_iff (by omega)

/-- A full block. -/
def sampleBlock : List UInt8 := List.replicate 512 7

theorem length_sampleBlock : sampleBlock.length = 512 := List.length_replicate

/-- An upload of one full block, which is sent again as often, and an empty last one. -/
def sampleUpload (copies : ℕ) : Upload where
  full := [⟨1, sampleBlock, copies⟩]
  last := some ⟨2, [], 0⟩
  full_length := by simp [length_sampleBlock]
  last_length := by simp

/-- A writer. -/
def sampleWriter : TftpClient := ⟨⟨0, 7⟩, 4, 5, 0, 0, 0, 0⟩

/-- A copy of a block does no harm where the file had the same bytes behind it. -/
theorem retransmissions_overwriting :
    (feed (writerStep sampleWriter) (.openWrite (some (sampleBlock ++ sampleBlock)))
      ((sampleUpload 1).sent.map (blockInput sampleWriter))).out = (sampleUpload 1).sent.map ackOf ∧
    (feed (writerStep sampleWriter) (.openWrite (some (sampleBlock ++ sampleBlock)))
      ((sampleUpload 1).sent.map (blockInput sampleWriter))).state.content =
    (feed (writerStep sampleWriter) (.openWrite (some (sampleBlock ++ sampleBlock)))
      ((sampleUpload 1).once.map (blockInput sampleWriter))).state.content := by
  have hdata : (sampleUpload 1).data = sampleBlock := by
    simp [Upload.data, Upload.once, sampleUpload, Block.once]
  have hdoubled : (sampleUpload 1).doubled = sampleBlock ++ sampleBlock := by
    simp [Upload.doubled, sampleUpload, Block.sent, Block.once]
  refine (retransmissions_iff sampleWriter (.openWrite (some (sampleBlock ++ sampleBlock)))
    (sampleUpload 1) _ _ (delivers_blockInput _ _) (delivers_blockInput _ _)).mpr
    ⟨by simp [sampleUpload], ?_⟩
  rw [hdata, hdoubled]
  dsimp only [OpenFile.openWrite, Option.getD_some]
  rw [Nat.zero_add, List.drop_left]

/-- A full block that is sent twice is stored twice. -/
theorem not_retransmissions_copy :
    (feed (writerStep sampleWriter) (.openWrite none)
      ((sampleUpload 1).once.map (blockInput sampleWriter))).state.content = sampleBlock ∧
    (feed (writerStep sampleWriter) (.openWrite none)
      ((sampleUpload 1).sent.map (blockInput sampleWriter))).state.content =
      sampleBlock ++ sampleBlock ∧
    sampleBlock ++ sampleBlock ≠ sampleBlock := by
  rw [Upload.feed_once (delivers_blockInput _ _), Upload.feed_sent (delivers_blockInput _ _)]
  dsimp only
  rw [OpenFile.openWrite_write, OpenFile.openWrite_write]
  refine ⟨by simp [Upload.data, Upload.once, sampleUpload, Block.once],
    by simp [Upload.doubled, sampleUpload, Block.sent, Block.once], fun h => ?_⟩
  have hlen := congrArg List.length h
  rw [List.length_append, length_sampleBlock] at hlen
  omega

/-! ### Requests -/

/-- The calls for a write request under `/readwrite/` succeed. -/
structure ServiceIo.Succeeds (io : ServiceIo) : Prop where
  mkdir : io.translate.mkdir = true
  base : io.translate.base = true
  file : io.translate.file = true
  socket : io.socket = true
  setsockopt : io.setsockopt = true
  connect : io.connect = true
  calloc : io.calloc = true
  send : io.sendOk = true

theorem translateOpen_readwrite {io : ServiceIo} (h : io.Succeeds) (b : Build) (t : Fds)
    (name : List UInt8) :
    ∃ fd t', translateOpen b io.translate t (readwritePath ++ name) =
      ⟨.ok (some fd), t', [.tmp, .readwrite name]⟩ := by
  have hreadonly : readonlyPath.isPrefixOf (readwritePath ++ name) = false := rfl
  have hreadwrite : readwritePath.isPrefixOf (readwritePath ++ name) = true :=
    List.isPrefixOf_iff_prefix.mpr (List.prefix_append _ _)
  rw [translateOpen, if_neg (by simp [hreadonly]), if_pos hreadwrite, List.drop_left,
    translateReadwrite, if_pos h.mkdir,
    h.base, h.file]
  exact ⟨_, _, rfl⟩

theorem serveWrq_writer {io : ServiceIo} (h : io.Succeeds) {buf : ℕ → UInt8} {name : List UInt8}
    (hparse : parseWrq buf = .ok (some (readwritePath ++ name))) (b : Build) (s : Tqftpserv)
    (sq : Addr) :
    ∃ c s', serveWrq b io s buf sq = .ok s' ∧ s'.writers = s.writers ++ [c] ∧ c.sq = sq := by
  obtain ⟨fd, t, hopen⟩ := translateOpen_readwrite h b s.fds name
  rcases qrtrOpen_spec io t with ⟨hopens, -⟩ | ⟨-, sock, t', hsock, -⟩
  · rw [ServiceIo.opens, h.socket, h.setsockopt] at hopens
    cases hopens
  · simp only [serveWrq, hparse, hopen, hsock]
    rw [if_pos h.connect, if_neg (by simp [h.calloc]), if_pos h.send]
    exact ⟨_, _, rfl, rfl, rfl⟩

/-- **An upload is stored exactly when the file was not longer before.**  The request opens the file
and adds a writer; the session is open up to the last block and closed by it. -/
theorem upload_stored_iff (b : Build) (s : Tqftpserv) (io : ServiceIo) (buf : ℕ → UInt8) (sq : Addr)
    (name : List UInt8)
    (hcalls : io.Succeeds) (hparse : parseWrq buf = .ok (some (readwritePath ++ name))) :
    (translateOpen b io.translate s.fds (readwritePath ++ name)).calls = [.tmp, .readwrite name] ∧
    ∃ c s', serveWrq b io s buf sq = .ok s' ∧ s'.writers = s.writers ++ [c] ∧ c.sq = sq ∧
      ∀ (old : Option (List UInt8)) (u : Upload) (ios : List WriterInput), u.last.isSome →
        List.Forall₂ (Delivers c) ios u.once →
        (feed (writerStep c) (.openWrite old) (ios.take u.full.length)).goesOn = true ∧
        (feed (writerStep c) (.openWrite old) ios).goesOn = false ∧
        ((feed (writerStep c) (.openWrite old) ios).state.content = u.data ↔
          (old.getD []).length ≤ u.data.length) := by
  obtain ⟨fd, t, hopen⟩ := translateOpen_readwrite hcalls b s.fds name
  obtain ⟨c, s', hserve, hwriters, hsq⟩ := serveWrq_writer hcalls hparse b s sq
  refine ⟨by rw [hopen], c, s', hserve, hwriters, hsq, fun old u ios hlast hios => ?_⟩
  refine ⟨Upload.feed_take hios, ?_, ?_⟩
  · rw [Upload.feed_once hios]
    simpa using hlast
  · rw [Upload.feed_once hios]
    dsimp only
    rw [OpenFile.openWrite_write, List.append_right_eq_self]
    exact List.drop_eq_nil_iff

/-- Calls that succeed, for a write request from the node 0. -/
def wrqIo : ServiceIo where
  recv := .datagram ⟨0, 7⟩ ([0, 2] ++ ascii "/readwrite/a" ++ [0] ++ ascii "octet" ++ [0])
  stack := fun _ => 0
  socket := true
  setsockopt := true
  connect := true
  translate := ⟨true, true, [], true, true, true⟩
  calloc := true
  file := ⟨0, fun _ => 0⟩
  sendOk := true

/-- Its receive buffer. -/
def wrqBuf : ℕ → UInt8 :=
  recvBuf rrqBufSize (fun _ => 0) ([0, 2] ++ ascii "/readwrite/a" ++ [0] ++ ascii "octet" ++ [0])

/-- An upload to a new file. -/
theorem upload_stored_new :
    ∃ c s', serveWrq .android wrqIo (tqftpservInit {0, 1, 2}) wrqBuf ⟨0, 7⟩ = .ok s' ∧
    s'.writers = [c] ∧
    (feed (writerStep c) (.openWrite none) ((sampleUpload 0).once.map (blockInput c))).goesOn =
      false ∧
    (feed (writerStep c) (.openWrite none)
      ((sampleUpload 0).once.map (blockInput c))).state.content =
      (sampleUpload 0).data := by
  obtain ⟨-, c, s', hserve, hwriters, -, hupload⟩ :=
    upload_stored_iff .android (tqftpservInit {0, 1, 2}) wrqIo wrqBuf
    ⟨0, 7⟩ (ascii "a") ⟨rfl, rfl, rfl, rfl, rfl, rfl, rfl, rfl⟩ rfl
  obtain ⟨-, hclosed, hstored⟩ := hupload none (sampleUpload 0) _ rfl (delivers_blockInput c _)
  exact ⟨c, s', hserve, hwriters, hclosed, hstored.mpr (Nat.zero_le _)⟩

/-- An upload of one byte to a file of three leaves two of them in place. -/
theorem not_upload_stored_shorter :
    (∃ s', serveWrq .android wrqIo (tqftpservInit {0, 1, 2}) wrqBuf ⟨0, 7⟩ = .ok s' ∧
      s'.writers = [sampleWriter]) ∧
    (feed (writerStep sampleWriter) (.openWrite (some [5, 6, 7]))
      [blockInput sampleWriter (1, [1])]).goesOn = false ∧
    (feed (writerStep sampleWriter) (.openWrite (some [5, 6, 7]))
      [blockInput sampleWriter (1, [1])]).state.content =
      [1, 6, 7] :=
  ⟨⟨_, rfl, rfl⟩, rfl, rfl⟩

end Imola.Tqftp
