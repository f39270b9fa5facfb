import Imola.TqftpBlocks
import Imola.TqftpRequests

/-! # Read transfers

A transfer is an exchange between the server and a TFTP client (`Receiver`), which is no part of the
repository: it takes the blocks in order, answers an OACK with ACK 0 and every window with the ACK
of the last block it has, and is finished by a block shorter than the block size.

Two things keep transfers from finishing.  Without a window option the server sends no block in
answer to an ACK.  And the end of the file is an empty read, for which no packet is sent, so a file
whose size is a multiple of the block size has no short block.  These are the only ones, apart
from block sizes that are not positive (`completes_iff`). -/

namespace Imola.Tqftp

open Imola.Splice Imola.CInts Imola.CStrings

/-! ### The exchange -/

/-- The client: the blocks it has taken, their bytes, and whether the last one was short. -/
structure Receiver where
  blocks : ℕ
  data : List UInt8
  finished : Bool
deriving DecidableEq, Repr

/-- Take a packet, if it is the next block. -/
def Receiver.receive (blksize : ℕ) (s : Receiver) (packet : List UInt8) : Receiver :=
  match packet with
  | 0 :: 3 :: hi :: lo :: payload =>
      if s.finished = false ∧ 256 * hi.toNat + lo.toNat = (s.blocks + 1) % 2 ^ 16 then
        ⟨s.blocks + 1, s.data ++ payload, payload.length < blksize⟩
      else s
  | _ => s

/-- A transfer: the request, the file, and what the calls give. -/
structure Transfer where
  request : ReadRequest
  file : File
  io : RrqIo
  sq : Addr
  /-- What the receive buffers held before. -/
  stack : ℕ → UInt8

namespace Transfer

variable (t : Transfer)

/-- The answer to the request. -/
def opening : Option TftpClient × Handled :=
  handleRrq t.file t.io (recvBuf rrqBufSize t.stack t.request.bytes) t.request.bytes.length t.sq

/-- The block size both sides use. -/
def blksize : ℕ := toSize t.request.blksize

/-- The client after `n` ACKs; `fuel` bounds the rounds of each window. -/
def exchange (fuel : ℕ) : ℕ → Receiver
  | 0 => t.opening.2.sent.foldl (Receiver.receive t.blksize) ⟨0, [], false⟩
  | n + 1 =>
      let s := exchange fuel n
      match t.opening.1 with
      | none => s
      | some c =>
          if s.finished then s
          else
            (handleReader t.file (fun _ => true) t.stack fuel c
              (.datagram t.sq (numbered .ack s.blocks []))).sent.foldl
              (Receiver.receive t.blksize) s

/-- The client gets the whole file and a short last block. -/
def Completes : Prop :=
  ∃ fuel n, (t.exchange fuel n).finished = true ∧
    (t.exchange fuel n).data = window t.file.bytes 0 t.file.size

end Transfer

/-! ### Taking blocks -/

/-- The number of blocks that are not empty. -/
def blockCount (f : File) (blksize : ℕ) : ℕ := (f.size + blksize - 1) / blksize

/-- The client after `k` blocks. -/
def progress (f : File) (blksize k : ℕ) : Receiver :=
  ⟨k, window f.bytes 0 (min (k * blksize) f.size), f.size < k * blksize⟩

section Progress

variable {f : File} {blksize : ℕ}

theorem progress_zero : progress f blksize 0 = ⟨0, [], false⟩ := by
  simp [progress, window]

@[simp] theorem progress_blocks (k : ℕ) : (progress f blksize k).blocks = k := rfl

@[simp] theorem progress_finished (k : ℕ) :
    (progress f blksize k).finished = true ↔ f.size < k * blksize :=
  decide_eq_true_iff

theorem lt_blockCount_iff (hpos : 1 ≤ blksize) (b : ℕ) :
    b < blockCount f blksize ↔ b * blksize < f.size := by
  unfold blockCount
  rw [← Nat.succ_le_iff, Nat.le_div_iff_mul_le (by omega), Nat.succ_mul]
  omega

theorem receive_next {s : Receiver} (hs : s.finished = false) (payload : List UInt8) :
    s.receive blksize (numbered .data (s.blocks + 1) payload) =
      ⟨s.blocks + 1, s.data ++ payload, payload.length < blksize⟩ := by
  have hnumber : 256 * (UInt8.ofNat ((s.blocks + 1) / 256)).toNat +
      (UInt8.ofNat (s.blocks + 1)).toNat =
      (s.blocks + 1) % 2 ^ 16 := by
    rw [UInt8.toNat_ofNat', UInt8.toNat_ofNat']
    omega
  exact if_pos ⟨hs, hnumber⟩

theorem receive_block (hpos : 1 ≤ blksize) {k : ℕ} (hk : k < blockCount f blksize) :
    (progress f blksize k).receive blksize (numbered .data (k + 1) (block f blksize k)) =
      progress f blksize (k + 1) := by
  rw [lt_blockCount_iff hpos] at hk
  have hopen : decide (f.size < k * blksize) = false := decide_eq_false (by omega)
  have hdata : window f.bytes 0 (min (k * blksize) f.size) ++ block f blksize k =
      window f.bytes 0 (min ((k + 1) * blksize) f.size) := by
    have hlen : min ((k + 1) * blksize) f.size = k * blksize + min blksize
        (f.size - k * blksize) := by
      rw [Nat.succ_mul]
      omega
    rw [min_eq_left hk.le, hlen, window_add, Nat.zero_add, block]
  have hshort : decide ((block f blksize k).length < blksize) =
      decide (f.size < (k + 1) * blksize) := by
    apply decide_eq_decide.mpr
    rw [block_length, Nat.succ_mul]
    omega
  have hnext := @receive_next blksize (progress f blksize k) hopen (block f blksize k)
  exact hnext.trans (congrArg₂ (Receiver.mk (k + 1)) hdata hshort)

theorem foldl_receive (hpos : 1 ≤ blksize) (n : ℕ) : ∀ {k : ℕ}, k + n ≤ blockCount f blksize →
    (blockPackets f blksize k n).foldl (Receiver.receive blksize) (progress f blksize k) =
      progress f blksize (k + n) := by
  induction n with
  | zero =>
      intro k _
      rfl
  | succ n ih =>
      intro k hk
      rw [blockPackets, List.foldl_cons, receive_block hpos (by omega), ih (by omega),
        Nat.add_assoc, Nat.add_comm 1 n]

/-- A window of a file whose blocks have 16-bit numbers: blocks in order, and with enough fuel all
up to the end of the window or of the file. -/
theorem windowLoop_blocks {limit : ℕ} (hpos : 1 ≤ blksize) (hmax : blksize < 2 ^ 31)
    (hcount : blockCount f blksize < 2 ^ 16) (fuel : ℕ) : ∀ i b, b ≤ blockCount f blksize → ∃ n,
      b + n ≤ blockCount f blksize ∧
      (windowLoop f blksize limit (fun _ => true) fuel i b).sent = blockPackets f blksize b n ∧
      (blockCount f blksize < b + fuel → b + n = blockCount f blksize ∨ limit ≤ b + n) := by
  induction fuel with
  | zero =>
      intro i b hb
      exact ⟨0, hb, rfl, by omega⟩
  | succ fuel ih =>
      intro i b hb
      rcases windowLoop_cases f blksize limit (fun _ => true) hmax
        (by omega : b < 2 ^ 16) fuel i with
        ⟨hloop, hstop⟩ | ⟨-, hne, -, hloop⟩
      · refine ⟨0, hb, by rw [hloop]; rfl, fun _ => ?_⟩
        rcases hstop with h | h | h
        · exact Or.inr h
        · left
          rw [block_eq_nil_iff hpos] at h
          have hnot : ¬ b < blockCount f blksize := by
            rw [lt_blockCount_iff hpos]
            omega
          omega
        · cases h
      · have hlt : b < blockCount f blksize := by
          rw [lt_blockCount_iff hpos]
          rw [ne_eq, block_eq_nil_iff hpos] at hne
          omega
        obtain ⟨n, hn, hsent, hend⟩ := ih (i + 1) (b + 1) (by omega)
        have hassoc : b + 1 + n = b + (n + 1) := by omega
        rw [hassoc] at hn hend
        refine ⟨n + 1, hn, ?_, fun h => hend (by omega)⟩
        rw [hloop, Nat.mod_eq_of_lt (by omega), hsent, blockPackets]

end Progress

/-! ### Transfers that stand still -/

theorem windowLoop_closed (f : File) (blksize : ℕ) (sendOk : ℕ → Bool) (fuel i b : ℕ) {limit : ℕ}
    (h : limit ≤ b) :
    (windowLoop f blksize limit sendOk fuel i b).sent = [] := by
  cases fuel with
  | zero => rfl
  | succ fuel => rw [windowLoop, if_neg (by omega)]

/-- A negative block size gives a buffer that the header does not fit into, or none. -/
theorem tftpSendData_negative {v : ℤ} (hv : v < 0) (hmin : -2 ^ 31 ≤ v) (f : File) (sendOk : Bool)
    (n offset : ℕ) :
    ∃ e, tftpSendData f (toSize v) sendOk n offset = .error e := by
  have hsize := toSize_of_neg hv hmin
  unfold tftpSendData
  dsimp only
  by_cases hnull : (4 + toSize v) % 2 ^ 64 ≥ 2 ^ 63
  · exact ⟨_, if_pos hnull⟩
  · refine ⟨.overflow, ?_⟩
    rw [if_neg hnull, if_pos]
    omega

theorem tftpSendData_nonpos {v : ℤ} (hv : v ≤ 0) (hmin : -2 ^ 31 ≤ v) (f : File) (sendOk : Bool)
    (n offset : ℕ) :
    (∃ e, tftpSendData f (toSize v) sendOk n offset = .error e) ∨
      ∃ rc ≤ 0, tftpSendData f (toSize v) sendOk n offset = .ok (rc, []) := by
  rcases lt_or_eq_of_le hv with hneg | rfl
  · exact Or.inl (tftpSendData_negative hneg hmin f sendOk n offset)
  · right
    have hsize : toSize 0 = 0 := by decide
    have hread : pread f 0 offset = none ∨ pread f 0 offset = some [] := by
      unfold pread
      split_ifs
      · exact Or.inl rfl
      · rw [Nat.zero_min]
        exact Or.inr rfl
    unfold tftpSendData
    rw [hsize]
    rcases hread with h | h
    · rw [h]
      exact ⟨-1, by norm_num, rfl⟩
    · rw [h]
      exact ⟨0, le_rfl, rfl⟩

theorem windowLoop_nonpos {v : ℤ} (hv : v ≤ 0) (hmin : -2 ^ 31 ≤ v) (f : File) (limit : ℕ)
    (sendOk : ℕ → Bool)
    (fuel i b : ℕ) : (windowLoop f (toSize v) limit sendOk fuel i b).sent = [] := by
  cases fuel with
  | zero => rfl
  | succ fuel =>
      rw [windowLoop]
      split_ifs
      · rcases tftpSendData_nonpos hv hmin f (sendOk i) (b + 1) (b * toSize v % 2 ^ 64)
          with ⟨e, he⟩ | ⟨rc, hrc, he⟩
        · rw [he]
        · rw [he]
          dsimp only
          rw [if_pos hrc]
      · rfl

namespace Transfer

variable {t : Transfer} {c : TftpClient}

theorem exchange_succ (hopen : t.opening.1 = some c) (fuel n : ℕ) :
    t.exchange fuel (n + 1) = if (t.exchange fuel n).finished then t.exchange fuel n else
      (handleReader t.file (fun _ => true) t.stack fuel c
        (.datagram t.sq (numbered .ack (t.exchange fuel n).blocks []))).sent.foldl (Receiver.receive
          t.blksize)
        (t.exchange fuel n) := by
  show (match t.opening.1 with | none => _ | some c => _) = _
  rw [hopen]

theorem exchange_still (hopen : t.opening.1 = some c)
    (hstill : ∀ fuel k, (handleReader t.file (fun _ => true) t.stack fuel c
      (.datagram t.sq (numbered .ack k []))).sent = []) (fuel n : ℕ) :
    t.exchange fuel n = t.exchange fuel 0 := by
  induction n with
  | zero => rfl
  | succ n ih =>
      rw [exchange_succ hopen]
      split_ifs
      · exact ih
      · rw [hstill]
        exact ih

theorem answer_eq (hsq : c.sq = t.sq) (fuel k : ℕ) :
    handleReader t.file (fun _ => true) t.stack fuel c (.datagram t.sq (numbered .ack k [])) =
      windowLoop t.file c.blksize ((k % 2 ^ 16 + c.wsize) % 2 ^ 64) (fun _ => true) fuel 0
        (k % 2 ^ 16) := by
  rw [← hsq]
  exact handleReader_ack _ _ _

/-! ### When transfers complete -/

theorem exchange_plain (hopen : t.opening.1 = some c) (hsend : t.io.sendOk = true)
    (hplain : t.request.options = [])
    (fuel n : ℕ) :
    t.exchange fuel n = progress t.file 512 (if t.file.size = 0 then 0 else 1) := by
  obtain ⟨hsq, hblk, hwin, -, hfirst⟩ := handleRrq_accepted hopen hsend
  have hvalue : ∀ name, t.request.value name = none := by
    intro name
    rw [ReadRequest.value, hplain]
    rfl
  have hb : t.blksize = 512 := by
    rw [blksize, ReadRequest.blksize, hvalue]
    rfl
  have hw : c.wsize = 0 := by
    rw [hwin, ReadRequest.wsize, hvalue]
    rfl
  have hcb : c.blksize = 512 := hblk.trans hb
  have hstill : ∀ fuel k, (handleReader t.file (fun _ => true) t.stack fuel c
      (.datagram t.sq (numbered .ack k []))).sent = [] := by
    intro fuel k
    rw [answer_eq hsq, hw]
    apply windowLoop_closed
    omega
  rw [exchange_still hopen hstill]
  have hdata := @tftpSendData_block t.file 512 0 (by norm_num) (by norm_num) true 1
  rw [Nat.zero_mul, Nat.zero_mod] at hdata
  by_cases hsize : t.file.size = 0
  · have hnil : block t.file 512 0 = [] := by
      rw [block_eq_nil_iff (by norm_num)]
      omega
    rw [if_pos hnil] at hdata
    have hsent := hfirst hplain _ _ (by rw [hcb]; exact hdata)
    rw [if_pos hsize, exchange, opening, hsent, progress_zero]
    rfl
  · have hne : block t.file 512 0 ≠ [] := by
      rw [ne_eq, block_eq_nil_iff (by norm_num)]
      omega
    rw [if_neg hne, if_pos rfl] at hdata
    have hsent := hfirst hplain _ _ (by rw [hcb]; exact hdata)
    have hcount : 0 < blockCount t.file 512 := by
      rw [lt_blockCount_iff (by norm_num)]
      omega
    rw [if_neg hsize, exchange, opening, hsent, hb, ← @progress_zero t.file 512]
    exact receive_block (by norm_num) hcount

theorem exchange_zero (hopen : t.opening.1 = some c) (hsend : t.io.sendOk = true)
    (hopts : t.request.options ≠ [])
    (fuel : ℕ) : t.exchange fuel 0 = progress t.file t.blksize 0 := by
  obtain ⟨-, -, -, hoack, -⟩ := handleRrq_accepted hopen hsend
  obtain ⟨tsize, hsent⟩ := hoack hopts
  rw [exchange, opening, hsent, progress_zero]
  rfl

theorem exchange_blocked (hopen : t.opening.1 = some c) (hsend : t.io.sendOk = true)
    (hopts : t.request.options ≠ []) (hbad : t.request.wsize = 0 ∨ t.request.blksize ≤ 0)
    (fuel n : ℕ) :
    t.exchange fuel n = progress t.file t.blksize 0 := by
  obtain ⟨hsq, hblk, hwin, -, -⟩ := handleRrq_accepted hopen hsend
  rw [exchange_still hopen, exchange_zero hopen hsend hopts]
  intro fuel k
  rw [answer_eq hsq]
  rcases hbad with hw | hb
  · rw [hwin, hw]
    apply windowLoop_closed
    have hzero : toSize 0 = 0 := by decide
    omega
  · rw [hblk]
    exact windowLoop_nonpos hb t.request.blksize_range.1 _ _ _ _ _ _

section Positive

variable (hopen : t.opening.1 = some c) (hsend : t.io.sendOk = true)
    (hopts : t.request.options ≠ [])
  (hpos : 0 < t.request.blksize) (hcount : blockCount t.file t.blksize < 2 ^ 16)

include hpos in
theorem blksize_pos : 1 ≤ t.blksize ∧ t.blksize < 2 ^ 31 := by
  have hsize := toSize_of_nonneg hpos.le t.request.blksize_range.2
  have hmax := t.request.blksize_range.2
  unfold blksize
  omega

include hopen hsend hpos hcount in
/-- One ACK: more blocks in order, and with enough fuel all of the window. -/
theorem exchange_step {fuel n k : ℕ} (hk : k ≤ blockCount t.file t.blksize)
    (hprog : t.exchange fuel n = progress t.file t.blksize k) :
    ∃ k', k ≤ k' ∧ k' ≤ blockCount t.file t.blksize ∧
      t.exchange fuel (n + 1) = progress t.file t.blksize k' ∧
      (blockCount t.file t.blksize < fuel → t.file.size < k * t.blksize ∨
        k' = blockCount t.file t.blksize ∨
        (k + c.wsize) % 2 ^ 64 ≤ k') := by
  obtain ⟨hsq, hblk, -, -, -⟩ := handleRrq_accepted hopen hsend
  obtain ⟨hone, hmax⟩ := blksize_pos hpos
  rw [exchange_succ hopen, hprog]
  by_cases hfin : t.file.size < k * t.blksize
  · rw [if_pos ((progress_finished k).mpr hfin)]
    exact ⟨k, le_rfl, hk, rfl, fun _ => Or.inl hfin⟩
  · rw [if_neg (mt (progress_finished k).mp hfin), progress_blocks, answer_eq hsq, hblk,
      Nat.mod_eq_of_lt (by omega : k < 2 ^ 16)]
    obtain ⟨m, hm, hsent, hend⟩ :=
      @windowLoop_blocks t.file t.blksize ((k + c.wsize) % 2 ^ 64) hone hmax hcount fuel
      0 k hk
    refine ⟨k + m, Nat.le_add_right _ _, hm, ?_, fun h => Or.inr (hend (by omega))⟩
    exact (congrArg (List.foldl _ _) hsent).trans (foldl_receive hone m hm)

include hopen hsend hopts hpos hcount in
theorem exchange_progress (fuel n : ℕ) : ∃ k ≤ blockCount t.file t.blksize,
    t.exchange fuel n = progress t.file t.blksize k := by
  induction n with
  | zero => exact ⟨0, Nat.zero_le _, exchange_zero hopen hsend hopts fuel⟩
  | succ n ih =>
      obtain ⟨k, hk, hprog⟩ := ih
      obtain ⟨k', -, hk', hprog', -⟩ := exchange_step hopen hsend hpos hcount hk hprog
      exact ⟨k', hk', hprog'⟩

include hopen hsend hopts hpos hcount in
/-- With a positive window every ACK brings a block, until all have been sent. -/
theorem exchange_advance (hwin : 0 < t.request.wsize) {fuel : ℕ}
    (hfuel : blockCount t.file t.blksize < fuel) (n : ℕ) :
    ∃ k ≤ blockCount t.file t.blksize, min n (blockCount t.file t.blksize) ≤ k ∧
      t.exchange fuel n = progress t.file t.blksize k := by
  obtain ⟨-, -, hw, -, -⟩ := handleRrq_accepted hopen hsend
  have hrange := t.request.wsize_range
  have hsize := toSize_of_nonneg hwin.le hrange.2
  obtain ⟨hone, -⟩ := blksize_pos hpos
  induction n with
  | zero => exact ⟨0, Nat.zero_le _, by omega, exchange_zero hopen hsend hopts fuel⟩
  | succ n ih =>
      obtain ⟨k, hk, hmin, hprog⟩ := ih
      obtain ⟨k', hle, hk', hprog', hend⟩ := exchange_step hopen hsend hpos hcount hk hprog
      refine ⟨k', hk', ?_, hprog'⟩
      rcases hend hfuel with h | h | h
      · have hnot : ¬ k < blockCount t.file t.blksize := by
          rw [lt_blockCount_iff hone]
          omega
        omega
      · omega
      · rw [hw, Nat.mod_eq_of_lt (by omega)] at h
        omega

include hopen hsend hopts hpos hcount in
/-- A negative window is a huge one: all blocks are sent in answer to the first ACK. -/
theorem exchange_negative (hwin : t.request.wsize < 0) {fuel : ℕ}
    (hfuel : blockCount t.file t.blksize < fuel) :
    t.exchange fuel 1 = progress t.file t.blksize (blockCount t.file t.blksize) := by
  obtain ⟨-, -, hw, -, -⟩ := handleRrq_accepted hopen hsend
  have hrange := t.request.wsize_range
  have hsize := toSize_of_neg hwin hrange.1
  obtain ⟨k', -, hk', hprog, hend⟩ := exchange_step hopen hsend hpos hcount (Nat.zero_le _)
    (exchange_zero hopen hsend hopts fuel)
  rcases hend hfuel with h | h | h
  · omega
  · rw [hprog, h]
  · rw [hw, Nat.zero_add, Nat.mod_eq_of_lt (by omega)] at h
    omega

include hopen hsend hopts hpos hcount in
theorem exchange_all (hwin : t.request.wsize ≠ 0) :
    ∃ fuel n, t.exchange fuel n = progress t.file t.blksize (blockCount t.file t.blksize) := by
  refine ⟨blockCount t.file t.blksize + 1, ?_⟩
  rcases lt_or_gt_of_ne hwin with hneg | hwin
  · exact ⟨1, exchange_negative hopen hsend hopts hpos hcount hneg (by omega)⟩
  · obtain ⟨k, hk, hmin, hprog⟩ := exchange_advance hopen hsend hopts hpos hcount hwin
      (Nat.lt_succ_self _) (blockCount t.file t.blksize)
    have heq : k = blockCount t.file t.blksize := by omega
    exact ⟨_, heq ▸ hprog⟩

include hopen hsend hopts hpos hcount in
theorem completes_iff_short (hwin : t.request.wsize ≠ 0) :
    t.Completes ↔ t.file.size < blockCount t.file t.blksize * t.blksize := by
  constructor
  · rintro ⟨fuel, n, hfin, -⟩
    obtain ⟨k, hk, hprog⟩ := exchange_progress hopen hsend hopts hpos hcount fuel n
    rw [hprog, progress_finished] at hfin
    exact hfin.trans_le (Nat.mul_le_mul_right t.blksize hk)
  · intro hshort
    obtain ⟨fuel, n, hprog⟩ := exchange_all hopen hsend hopts hpos hcount hwin
    refine ⟨fuel, n, ?_, ?_⟩
    · rw [hprog, progress_finished]
      exact hshort
    · rw [hprog, progress, min_eq_right hshort.le]

end Positive

theorem completes_iff_plain (hopen : t.opening.1 = some c) (hsend : t.io.sendOk = true)
    (hplain : t.request.options = []) : t.Completes ↔ 0 < t.file.size ∧ t.file.size < 512 := by
  constructor
  · rintro ⟨fuel, n, hfin, -⟩
    rw [exchange_plain hopen hsend hplain, progress_finished] at hfin
    split_ifs at hfin
    · omega
    · omega
  · rintro ⟨hpos, hlt⟩
    refine ⟨0, 0, ?_, ?_⟩
    · rw [exchange_plain hopen hsend hplain, if_neg (by omega), progress_finished]
      omega
    · rw [exchange_plain hopen hsend hplain, if_neg (by omega), progress, min_eq_right (by omega)]

theorem not_completes_blocked (hopen : t.opening.1 = some c) (hsend : t.io.sendOk = true)
    (hopts : t.request.options ≠ []) (hbad : t.request.wsize = 0 ∨ t.request.blksize ≤ 0) :
    ¬ t.Completes := by
  rintro ⟨fuel, n, hfin, -⟩
  rw [exchange_blocked hopen hsend hopts hbad, progress_finished] at hfin
  omega

theorem blockCount_lt {f : File} {blksize : ℕ} (hpos : 1 ≤ blksize)
    (hblocks : f.size / blksize + 1 < 2 ^ 16) :
    blockCount f blksize < 2 ^ 16 := by
  by_contra hge
  have hlast := (@lt_blockCount_iff f blksize hpos (2 ^ 16 - 1)).mp (by omega)
  have hdiv := (Nat.le_div_iff_mul_le (by omega : 0 < blksize)).mpr hlast.le
  omega

/-- The last block is short unless the file is a whole number of blocks. -/
theorem short_iff {f : File} {blksize : ℕ} (hpos : 1 ≤ blksize) :
    f.size < blockCount f blksize * blksize ↔ f.size % blksize ≠ 0 := by
  have hlast := (@lt_blockCount_iff f blksize hpos (blockCount f blksize)).not.mp (lt_irrefl _)
  constructor
  · intro h hmod
    have hwhole : f.size / blksize * blksize = f.size := by
      have := Nat.div_add_mod f.size blksize
      rw [Nat.mul_comm]
      omega
    have hlt : f.size / blksize < blockCount f blksize := by
      by_contra hge
      have := Nat.mul_le_mul_right blksize (Nat.not_lt.mp hge)
      omega
    rw [lt_blockCount_iff hpos] at hlt
    omega
  · intro hmod
    apply lt_of_le_of_ne (Nat.not_lt.mp hlast)
    intro heq
    apply hmod
    rw [heq, Nat.mul_mod_left]

/-- **Which transfers complete**: without options, those of a file of 1 to 511 bytes; with options,
those with a window and a positive block size whose file is no whole number of blocks. -/
theorem completes_iff (hopen : t.opening.1 = some c) (hsend : t.io.sendOk = true)
    (hblocks : t.file.size / t.blksize + 1 < 2 ^ 16) :
    t.Completes ↔ (t.request.options = [] ∧ 0 < t.file.size ∧ t.file.size < 512) ∨
      (t.request.options ≠ [] ∧ t.request.wsize ≠ 0 ∧ 0 < t.request.blksize ∧
        t.file.size % t.request.blksize.toNat ≠ 0) := by
  by_cases hopts : t.request.options = []
  · simp only [hopts, true_and, ne_eq, not_true, false_and, or_false]
    exact completes_iff_plain hopen hsend hopts
  · simp only [hopts, false_and, ne_eq, not_false_eq_true, true_and, false_or]
    by_cases hbad : t.request.wsize = 0 ∨ t.request.blksize ≤ 0
    · have hnot := not_completes_blocked hopen hsend hopts hbad
      refine iff_of_false hnot ?_
      rintro ⟨hwin, hpos, -⟩
      omega
    · rw [not_or, not_le] at hbad
      obtain ⟨hwin, hpos⟩ := hbad
      obtain ⟨hone, -⟩ := blksize_pos hpos
      have hnat : t.request.blksize.toNat = t.blksize := by
        have := toSize_of_nonneg hpos.le t.request.blksize_range.2
        unfold blksize
        omega
      rw [completes_iff_short hopen hsend hopts hpos (blockCount_lt hone hblocks) hwin,
        short_iff hone, hnat]
      exact ⟨fun hmod => ⟨hwin, hpos, hmod⟩, fun h => h.2.2⟩

/-- A request for blocks of 4 bytes in windows of 2. -/
def sampleRequest : ReadRequest where
  filename := ascii "f"
  mode := ascii "octet"
  options := [(ascii "blksize", ascii "4"), (ascii "wsize", ascii "2")]
  filename_ne := by decide +kernel
  mode_octet := by decide +kernel
  options_ne := by decide +kernel
  fits := by decide +kernel

/-- The same without options. -/
def plainRequest : ReadRequest where
  filename := ascii "f"
  mode := ascii "octet"
  options := []
  filename_ne := by decide +kernel
  mode_octet := by decide +kernel
  options_ne := by decide +kernel
  fits := by decide +kernel

/-- A transfer of a file of `size` bytes. -/
def sampleTransfer (request : ReadRequest) (size : ℕ) : Transfer :=
  ⟨request, ⟨size, fun p => UInt8.ofNat p⟩, ⟨5, 0, fun _ => 6, true⟩, ⟨1, 2⟩, fun _ => 0⟩

theorem completes_sampleTransfer : (sampleTransfer sampleRequest 10).Completes := by
  have hopen : (sampleTransfer sampleRequest 10).opening.1 =
      some ⟨⟨1, 2⟩, 5, 6, 4, 0, 2, 1000⟩ := by decide +kernel
  exact (completes_iff hopen rfl (by decide +kernel)).mpr (Or.inr (by decide +kernel))

/-- Without options the second block of a file is never sent. -/
theorem not_completes_plainTransfer : (sampleTransfer plainRequest 1000).opening.1.isSome ∧
    ¬ (sampleTransfer plainRequest 1000).Completes := by
  have hopen : (sampleTransfer plainRequest 1000).opening.1 =
      some ⟨⟨1, 2⟩, 5, 6, 512, 0, 0, 1000⟩ := by
    decide +kernel
  refine ⟨by rw [hopen]; rfl, ?_⟩
  rintro ⟨fuel, n, hfin, -⟩
  rw [exchange_plain hopen rfl rfl, progress_finished] at hfin
  exact absurd hfin (by decide)

end Transfer

end Imola.Tqftp
