import Imola.TqftpBuffers
import Imola.TqftpWriter

/-! # Packets for readers and writers

`handle_reader` and `handle_writer` receive a packet into an array on the stack and read the opcode
and the block number from it.  They do not compare the length with anything, so what they find
behind the end of a short packet is what the array held before.

A handler uses only what it received when its outcome does not depend on that.  For a reader this
fails for acknowledgements that are too short, and an error of the full size makes it store a NUL
behind its array (`readerUses_iff`).  For a writer the number of bytes to be written is the length
less four, unsigned. Where the kernel refuses a `write` of more bytes than fit into an `ssize_t`,
nothing comes of data packets without a whole header, and only packets without a whole opcode are
left (`writerUses_iff`).  What is printed is not part of the outcome. -/

namespace Imola.Tqftp

open Imola.CStrings Imola.Splice Imola.Sessions

/-! ### Receive buffers -/

section Buffers

variable {size : ℕ} {stack stack' : ℕ → UInt8} {bytes : List UInt8} {p : ℕ}

theorem recvBuf_congr (hp : p < bytes.length) (hsize : p < size) :
    recvBuf size stack bytes p = recvBuf size stack' bytes p := by
  have hlen : p < (bytes.take size).length := by
    rw [List.length_take]
    omega
  rw [recvBuf, recvBuf, List.getD_eq_getElem _ _ hlen, List.getD_eq_getElem _ _ hlen]

theorem recvBuf_of_le (hp : bytes.length ≤ p) : recvBuf size stack bytes p = stack p := by
  rw [recvBuf, List.getD_eq_default]
  rw [List.length_take]
  omega

theorem be16_congr (hp : p + 1 < bytes.length) (hsize : p + 1 < size) :
    be16 (recvBuf size stack bytes) p = be16 (recvBuf size stack' bytes) p := by
  rw [be16, be16, @recvBuf_congr size stack stack' bytes p (by omega) (by omega),
    @recvBuf_congr size stack stack' bytes (p + 1) hp hsize]

theorem window_recvBuf_take {n : ℕ} (hp : p + n ≤ (bytes.take size).length) :
    window (recvBuf size stack bytes) p n = ((bytes.take size).drop p).take n := by
  apply List.ext_getElem
  · rw [window_length, List.length_take, List.length_drop]
    omega
  · intro i h₁ h₂
    rw [window_length] at h₁
    have hi : p + i < (bytes.take size).length := by omega
    simp only [window, List.getElem_map, List.getElem_range, List.getElem_take,
      List.getElem_drop, recvBuf]
    rw [List.getD_eq_getElem _ _ hi, List.getElem_take]

end Buffers

/-! ### Opcodes -/

/-- What was received does not rule out the opcode. -/
def MayBe (op : Op) (bytes : List UInt8) : Prop := bytes.take 2 <+: [0, UInt8.ofNat op.code]

instance (op : Op) (bytes : List UInt8) : Decidable (MayBe op bytes) :=
  inferInstanceAs (Decidable (_ <+: _))

theorem be16_eq_iff {buf : ℕ → UInt8} {p n : ℕ} (hn : n < 256) :
    be16 buf p = n ↔ buf p = 0 ∧ buf (p + 1) = UInt8.ofNat n := by
  have h₁ := (buf p).toNat_lt
  have h₂ := (buf (p + 1)).toNat_lt
  have hof : (UInt8.ofNat n).toNat = n := by
    rw [UInt8.toNat_ofNat']
    exact Nat.mod_eq_of_lt hn
  rw [be16, ← UInt8.toNat_inj, ← UInt8.toNat_inj, hof, UInt8.toNat_zero]
  omega

theorem Op.code_lt (op : Op) : op.code < 256 := by
  cases op
  all_goals decide

section Opcodes

variable {op : Op} {size : ℕ} {stack : ℕ → UInt8} {bytes : List UInt8}

theorem mayBe_of_be16 (hsize : 2 ≤ size) (h : be16 (recvBuf size stack bytes) 0 = op.code) :
    MayBe op bytes := by
  obtain ⟨size, rfl⟩ := Nat.exists_eq_add_of_le' hsize
  obtain ⟨h₀, h₁⟩ := (be16_eq_iff op.code_lt).mp h
  match bytes with
  | [] => exact List.nil_prefix
  | [x] =>
      obtain rfl : x = 0 := h₀
      exact ⟨[UInt8.ofNat op.code], rfl⟩
  | x :: y :: rest =>
      obtain rfl : x = 0 := h₀
      obtain rfl : y = UInt8.ofNat op.code := h₁
      exact ⟨[], rfl⟩

/-- The bytes that are missing can make it the opcode. -/
theorem be16_of_mayBe (hsize : 2 ≤ size) (h : MayBe op bytes) (h₀ : stack 0 = 0)
    (h₁ : stack 1 = UInt8.ofNat op.code) :
    be16 (recvBuf size stack bytes) 0 = op.code := by
  obtain ⟨size, rfl⟩ := Nat.exists_eq_add_of_le' hsize
  apply (be16_eq_iff op.code_lt).mpr
  match bytes with
  | [] => exact ⟨h₀, h₁⟩
  | [x] =>
      obtain ⟨t, ht⟩ := h
      exact ⟨(List.cons.inj ht).1, h₁⟩
  | x :: y :: rest =>
      obtain ⟨t, ht⟩ := h
      obtain ⟨hx, htail⟩ := List.cons.inj ht
      exact ⟨hx, (List.cons.inj htail).1⟩

theorem mayBe_iff_take (hlen : 2 ≤ bytes.length) :
    MayBe op bytes ↔ bytes.take 2 = [0, UInt8.ofNat op.code] := by
  constructor
  · intro h
    apply h.eq_of_length
    rw [List.length_take]
    exact min_eq_left hlen
  · intro h
    rw [MayBe, h]

theorem be16_iff_mayBe (hsize : 2 ≤ size) (hlen : 2 ≤ bytes.length) :
    be16 (recvBuf size stack bytes) 0 = op.code ↔ MayBe op bytes := by
  constructor
  · exact mayBe_of_be16 hsize
  · intro h
    have hcongr := @be16_congr size stack (fun p => if p = 1 then UInt8.ofNat op.code else 0) bytes
      0 (by omega) (by omega)
    rw [hcongr]
    exact be16_of_mayBe hsize h rfl rfl

end Opcodes

/-! ### Readers -/

/-- **A packet for a reader is used as far as it was received**: the outcome is the same for any two
leftover contents, and `handle_reader` does not store behind its array.  Clients with bad buffers
for DATA packets are left out of the second part. -/
structure ReaderUses (bytes : List UInt8) : Prop where
  same : ∀ (f : File) (sendOk : ℕ → Bool) (fuel : ℕ) (c : TftpClient) (sq : Addr)
    (stack stack' : ℕ → UInt8),
    handleReader f sendOk stack fuel c (.datagram sq bytes) = handleReader f sendOk stack' fuel c
      (.datagram sq bytes)
  inside : ∀ (f : File) (sendOk : ℕ → Bool) (fuel : ℕ) (c : TftpClient) (sq : Addr)
    (stack : ℕ → UInt8),
    DataFits c → (handleReader f sendOk stack fuel c (.datagram sq bytes)).stop ≠ .fault .overflow

section Readers

variable {f : File} {sendOk : ℕ → Bool} {fuel : ℕ} {c : TftpClient} {sq : Addr}
    {stack stack' : ℕ → UInt8}
  {bytes : List UInt8}

theorem windowLoop_inside (hc : DataFits c) (limit : ℕ) : ∀ (fuel i block : ℕ),
    (windowLoop f c.blksize limit sendOk fuel i block).stop ≠ .fault .overflow := by
  intro fuel
  induction fuel with
  | zero =>
      intro i block h
      cases h
  | succ fuel ih =>
      intro i block h
      rw [windowLoop] at h
      split_ifs at h
      split at h
      · next e hdata =>
          cases h
          exact hc.inside f _ _ _ hdata
      · split_ifs at h
        exact ih _ _ h

/-- An error closes the client, if its message leaves room for a NUL. -/
theorem handleReader_error (hop : be16 (recvBuf 128 stack bytes) 0 = Op.error.code) :
    handleReader f sendOk stack fuel c (.datagram c.sq bytes) =
      if 128 ≤ bytes.length then ⟨[], .fault .overflow⟩ else ⟨[], .returned (-1)⟩ := by
  rw [handleReader, if_neg (by simp), if_pos hop]

/-- What is neither an acknowledgement nor an error of the full size closes the client. -/
theorem handleReader_other (hack : be16 (recvBuf 128 stack bytes) 0 ≠ Op.ack.code)
    (hlen : bytes.length < 128) :
    handleReader f sendOk stack fuel c (.datagram sq bytes) = ⟨[], .returned (-1)⟩ := by
  rw [handleReader]
  split_ifs
  · rfl
  · omega
  · rfl
  · rfl

theorem handleReader_congr (hlen : 4 ≤ bytes.length) :
    handleReader f sendOk stack fuel c (.datagram sq bytes) =
      handleReader f sendOk stack' fuel c (.datagram sq bytes) := by
  rw [handleReader, handleReader, @be16_congr 128 stack stack' bytes 0 (by omega) (by omega),
    @be16_congr 128 stack stack' bytes 2 (by omega) (by omega)]

/-- A reader of one byte at a time. -/
def byteClient : TftpClient := ⟨⟨1, 2⟩, 5, 6, 1, 0, 1, 1000⟩

theorem dataFits_byteClient : DataFits byteClient := dataFits_of_lt (by decide)

theorem tftpSendData_byte {block : ℕ} (hblock : block < 2 ^ 16) :
    tftpSendData ⟨2 ^ 17, fun _ => 0⟩ 1 true (block + 1) (block * 1 % 2 ^ 64) =
      .ok (5, [numbered .data (block + 1) [0]]) := by
  have hread : pread ⟨2 ^ 17, fun _ => 0⟩ 1 (block * 1 % 2 ^ 64) = some [0] := by
    rw [pread, if_neg (by omega), min_eq_left (by dsimp only; omega)]
    rfl
  unfold tftpSendData
  rw [hread]
  rfl

theorem be16_lt (buf : ℕ → UInt8) (p : ℕ) : be16 buf p < 2 ^ 16 := by
  have h₁ := (buf p).toNat_lt
  have h₂ := (buf (p + 1)).toNat_lt
  rw [be16]
  omega

theorem sent_byteClient (hop : be16 (recvBuf 128 stack bytes) 0 = Op.ack.code) :
    (handleReader ⟨2 ^ 17, fun _ => 0⟩ (fun _ => true) stack 1 byteClient
      (.datagram ⟨1, 2⟩ bytes)).sent =
      [numbered .data (be16 (recvBuf 128 stack bytes) 2 + 1) [0]] := by
  have hlt := be16_lt (recvBuf 128 stack bytes) 2
  have hblocks : be16 (recvBuf 128 stack bytes) 2 <
      (be16 (recvBuf 128 stack bytes) 2 + byteClient.wsize) % 2 ^ 64 := by
    rw [Nat.mod_eq_of_lt (by simp only [byteClient]; omega)]
    exact Nat.lt_succ_self _
  rw [handleReader, if_neg (by decide), hop, if_neg (by decide), if_neg (by decide), windowLoop,
    if_pos hblocks,
    show byteClient.blksize = 1 from rfl, tftpSendData_byte hlt]
  rfl

/-- A block number that was not received is taken from what the array held. -/
theorem not_readerUses_of_short (hlen : bytes.length < 4) (hack : MayBe .ack bytes) :
    ¬ ReaderUses bytes := by
  intro h
  have hsent : ∀ n : UInt8, ∃ m : ℕ, m % 256 = n.toNat ∧
      (handleReader ⟨2 ^ 17, fun _ => 0⟩ (fun _ => true)
        (fun p => if p = 1 then 4 else if p = 3 then n else 0) 1
        byteClient (.datagram ⟨1, 2⟩ bytes)).sent = [numbered .data (m + 1) [0]] := by
    intro n
    have hop : be16 (recvBuf 128 (fun p => if p = 1 then 4 else if p = 3 then n else 0) bytes) 0 =
        Op.ack.code :=
      be16_of_mayBe (by omega) hack rfl rfl
    refine ⟨_, ?_, sent_byteClient hop⟩
    rw [be16, recvBuf_of_le (p := 3) (by omega), if_neg (by decide), if_pos rfl]
    have := n.toNat_lt
    omega
  obtain ⟨m₀, hm₀, h₀⟩ := hsent 0
  obtain ⟨m₁, hm₁, h₁⟩ := hsent 1
  have heq := h.same ⟨2 ^ 17, fun _ => 0⟩ (fun _ => true) 1 byteClient ⟨1, 2⟩
    (fun p => if p = 1 then 4 else if p = 3 then 0 else 0)
    (fun p => if p = 1 then 4 else if p = 3 then 1 else 0)
  rw [heq, h₁] at h₀
  have hlow : UInt8.ofNat (m₁ + 1) = UInt8.ofNat (m₀ + 1) := by
    simp only [numbered, List.cons.injEq, and_true, true_and] at h₀
    exact h₀.2
  have hnat := congrArg UInt8.toNat hlow
  simp only [UInt8.toNat_ofNat'] at hnat
  simp only [UInt8.toNat_zero, UInt8.toNat_one] at hm₀ hm₁
  omega

/-- **When a reader uses only what it received.** -/
theorem readerUses_iff : ReaderUses bytes ↔
    (4 ≤ bytes.length ∨ ¬ MayBe .ack bytes) ∧ ¬ (128 ≤ bytes.length ∧ MayBe .error bytes) := by
  constructor
  · intro h
    refine ⟨?_, ?_⟩
    · by_contra hshort
      rw [not_or, not_not, not_le] at hshort
      exact not_readerUses_of_short hshort.1 hshort.2 h
    · rintro ⟨hlen, herr⟩
      have hop := (@be16_iff_mayBe .error 128 (fun _ => 0) bytes (by omega) (by omega)).mpr herr
      refine h.inside ⟨0, fun _ => 0⟩ (fun _ => true) 0 byteClient byteClient.sq (fun _ => 0)
        dataFits_byteClient ?_
      rw [handleReader_error hop, if_pos hlen]
  · rintro ⟨hack, herr⟩
    constructor
    · intro f sendOk fuel c sq stack stack'
      by_cases hlen : 4 ≤ bytes.length
      · exact handleReader_congr hlen
      · have hnot : ∀ stack, be16 (recvBuf 128 stack bytes) 0 ≠ Op.ack.code := by
          intro stack h
          exact hack.resolve_left hlen (mayBe_of_be16 (by omega) h)
        rw [handleReader_other (hnot stack) (by omega), handleReader_other (hnot stack') (by omega)]
    · intro f sendOk fuel c sq stack hc h
      rw [handleReader] at h
      split_ifs at h with hsq hop hlen hack'
      · exact herr ⟨hlen, mayBe_of_be16 (by omega) hop⟩
      · exact windowLoop_inside hc _ _ _ _ h

end Readers

/-! ### Writers -/

/-- The largest count that the kernel's `write` accepts. -/
def ssizeMax : ℕ := 2 ^ 63 - 1

/-- `write` refuses a larger count, as Linux does. -/
def WriterInput.RefusesHuge (io : WriterInput) : Prop :=
  ∀ sq bytes, io.recv = .datagram sq bytes → ssizeMax < payload bytes → io.write < 0

/-- **A packet for a writer is used as far as it was received**: the outcome is the same for any two
leftover contents, and of the bytes behind the header the file gets those that `write` takes, and no
others. -/
structure WriterUses (bytes : List UInt8) : Prop where
  same : ∀ (c : TftpClient) (f : OpenFile) (io : WriterInput) (sq : Addr)
    (stack : ℕ → UInt8),
    io.recv = .datagram sq bytes → io.RefusesHuge →
    writerStep c f { io with stack := stack } = writerStep c f io
  written : ∀ (c : TftpClient) (f : OpenFile) (io : WriterInput) (sq : Addr),
    io.recv = .datagram sq bytes → io.RefusesHuge →
    (writerStep c f io).state =
      if sq = c.sq ∧ bytes.take 2 = [0, UInt8.ofNat Op.data.code] ∧ 0 ≤ io.write then
        f.write (((bytes.take 516).drop 4).take io.write.toNat)
      else f

theorem Addr.ne_iff (a b : Addr) : (a.node ≠ b.node ∨ a.port ≠ b.port) ↔ a ≠ b := by
  cases a
  cases b
  simp only [ne_eq, Addr.mk.injEq, not_and_or]

section Writers

variable {c : TftpClient} {f : OpenFile} {io : WriterInput} {sq : Addr} {bytes : List UInt8}

theorem ssizeMax_lt_payload (hlen : bytes.length < 4) : ssizeMax < payload bytes := by
  rw [ssizeMax, payload]
  omega

theorem payload_of_le (hlen : 4 ≤ bytes.length) :
    payload bytes = ((bytes.take 516).drop 4).length := by
  rw [payload, List.length_drop, List.length_take]
  omega

theorem writing_other (hrecv : io.recv = .datagram sq bytes)
    (hop : be16 (recvBuf 516 io.stack bytes) 0 ≠ Op.data.code) :
    writing c io.toWriterIo = if sq = c.sq then .notData else .dropped := by
  simp only [writing, hrecv, Addr.ne_iff, if_pos hop]
  by_cases hsq : sq = c.sq
  · rw [if_neg (not_not.mpr hsq), if_pos hsq]
  · rw [if_pos hsq, if_neg hsq]

theorem writing_data (hrecv : io.recv = .datagram sq bytes)
    (hop : be16 (recvBuf 516 io.stack bytes) 0 = Op.data.code) :
    writing c io.toWriterIo =
      if sq = c.sq then
        if io.write < 0 then .failed else .written (recvBuf 516 io.stack bytes) (payload bytes)
      else .dropped := by
  simp only [writing, hrecv, Addr.ne_iff, hop, ne_eq, not_true_eq_false, if_false]
  by_cases hsq : sq = c.sq
  · rw [if_neg (not_not.mpr hsq), if_pos hsq]
  · rw [if_pos hsq, if_neg hsq]

theorem writerStep_other (hrecv : io.recv = .datagram sq bytes)
    (hop : be16 (recvBuf 516 io.stack bytes) 0 ≠ Op.data.code) :
    writerStep c f io =
      ⟨if sq = c.sq ∧ io.sendOk then [errorPacket 4 "Expected DATA opcode"] else [], f, false⟩ := by
  rw [writerStep, writerEffects, handleWriter, writing_other hrecv hop]
  by_cases hsq : sq = c.sq
  · simp only [hsq, if_true, true_and]
    rfl
  · simp only [hsq, if_false, false_and]
    rfl

theorem writerStep_failed (hrecv : io.recv = .datagram sq bytes)
    (hop : be16 (recvBuf 516 io.stack bytes) 0 = Op.data.code) (hwrite : io.write < 0) :
    writerStep c f io = ⟨[], f, false⟩ := by
  rw [writerStep, writerEffects, handleWriter, writing_data hrecv hop, if_pos hwrite]
  by_cases hsq : sq = c.sq
  · simp only [hsq, if_true]
    rfl
  · simp only [hsq, if_false]
    rfl

theorem window_payload (stack : ℕ → UInt8) (hlen : 4 ≤ bytes.length) (n : ℕ) :
    window (recvBuf 516 stack bytes) 4 (min n (payload bytes)) =
      ((bytes.take 516).drop 4).take n := by
  have htake : (bytes.take 516).length = min 516 bytes.length := List.length_take
  rw [payload_of_le hlen, window_recvBuf_take (by rw [List.length_drop]; omega), ← List.take_take,
    List.take_length]

theorem writerStep_congr (hrecv : io.recv = .datagram sq bytes) (hlen : 4 ≤ bytes.length)
    (stack : ℕ → UInt8) : writerStep c f { io with stack := stack } = writerStep c f io := by
  have hop := @be16_congr 516 stack io.stack bytes 0 (by omega) (by omega)
  have hblock := @be16_congr 516 stack io.stack bytes 2 (by omega) (by omega)
  by_cases hdata : be16 (recvBuf 516 io.stack bytes) 0 = Op.data.code
  · rw [writerStep, writerStep, writerEffects, writerEffects, handleWriter, handleWriter,
      writing_data hrecv hdata, @writing_data c { io with stack := stack } sq bytes hrecv
      (hop.trans hdata)]
    by_cases hsq : sq = c.sq
    · by_cases hwrite : io.write < 0
      · simp only [hsq, hwrite, if_true]
      · simp only [hsq, hwrite, if_true, if_false, hblock, window_payload _ hlen]
    · simp only [hsq, if_false]
  · rw [writerStep_other hrecv hdata,
      @writerStep_other c f { io with stack := stack } sq bytes hrecv
      (hop.trans_ne hdata)]

theorem state_writerStep (hrecv : io.recv = .datagram sq bytes) (hlen : 4 ≤ bytes.length) :
    (writerStep c f io).state =
      if sq = c.sq ∧ bytes.take 2 = [0, UInt8.ofNat Op.data.code] ∧ 0 ≤ io.write then
        f.write (((bytes.take 516).drop 4).take io.write.toNat)
      else f := by
  have hop := @be16_iff_mayBe .data 516 io.stack bytes (by omega) (by omega)
  rw [mayBe_iff_take (by omega)] at hop
  by_cases hdata : bytes.take 2 = [0, UInt8.ofNat Op.data.code]
  · rw [writerStep, writerEffects, writing_data hrecv (hop.mpr hdata)]
    by_cases hsq : sq = c.sq
    · by_cases hwrite : io.write < 0
      · simp only [hsq, hwrite, if_true, not_le.mpr hwrite, and_false, if_false]
      · simp only [hsq, hdata, hwrite, not_lt.mp hwrite, if_true, if_false, and_self,
          window_payload _ hlen]
    · simp only [hsq, if_false, false_and]
  · have hother : ¬ (sq = c.sq ∧ bytes.take 2 = [0, UInt8.ofNat Op.data.code] ∧ 0 ≤ io.write) :=
      fun h => hdata h.2.1
    rw [writerStep_other hrecv (mt hop.mp hdata), if_neg hother]

/-- Data without a header is not taken, whatever the array held. -/
theorem writerStep_short (hrecv : io.recv = .datagram sq bytes) (hhuge : io.RefusesHuge)
    (hlen : bytes.length < 4) (hop : be16 (recvBuf 516 io.stack bytes) 0 = Op.data.code) :
    writerStep c f io = ⟨[], f, false⟩ :=
  writerStep_failed hrecv hop (hhuge sq bytes hrecv (ssizeMax_lt_payload hlen))

/-- Whether a packet without an opcode is data depends on what the array held. -/
theorem not_writerUses_of_short (hlen : bytes.length < 2) (hdata : MayBe .data bytes) :
    ¬ WriterUses bytes := by
  intro h
  let stack : ℕ → UInt8 := fun p => if p = 1 then 3 else 0
  let io : WriterInput := ⟨⟨.datagram ⟨1, 2⟩ bytes, fun _ => 0, -1⟩, true⟩
  have hwrite : io.write < 0 := Int.negSucc_lt_zero 0
  have hhuge : io.RefusesHuge := fun _ _ _ _ => hwrite
  have hop : be16 (recvBuf 516 stack bytes) 0 = Op.data.code :=
    be16_of_mayBe (by omega) hdata rfl rfl
  have hother : be16 (recvBuf 516 io.stack bytes) 0 ≠ Op.data.code := by
    intro hcode
    have hlow := ((be16_eq_iff Op.data.code_lt).mp hcode).2
    rw [recvBuf_of_le (by omega)] at hlow
    cases hlow
  have hsame := h.same byteClient (OpenFile.openWrite none) io ⟨1, 2⟩ stack rfl hhuge
  rw [@writerStep_failed byteClient _ { io with stack := stack } ⟨1, 2⟩ bytes rfl hop hwrite,
    @writerStep_other byteClient _ io ⟨1, 2⟩ bytes rfl hother] at hsame
  have hsent := congrArg Answer.out hsame
  rw [if_pos ⟨rfl, rfl⟩] at hsent
  cases hsent

theorem writerUses_of_other (hnot : ¬ MayBe .data bytes) : WriterUses bytes := by
  have hop : ∀ stack, be16 (recvBuf 516 stack bytes) 0 ≠ Op.data.code := fun stack hcode =>
    hnot (mayBe_of_be16 (by omega) hcode)
  constructor
  · intro c f io sq stack hrecv _
    rw [writerStep_other hrecv (hop io.stack),
      @writerStep_other c f { io with stack := stack } sq bytes hrecv (hop stack)]
  · intro c f io sq hrecv _
    have hother : ¬ (sq = c.sq ∧ bytes.take 2 = [0, UInt8.ofNat Op.data.code] ∧ 0 ≤ io.write) := by
      rintro ⟨-, hdata, -⟩
      apply hnot
      rw [MayBe, hdata]
    rw [writerStep_other hrecv (hop io.stack), if_neg hother]

theorem writerUses_of_data (hlen : 2 ≤ bytes.length) (hdata : MayBe .data bytes) :
    WriterUses bytes := by
  by_cases hheader : 4 ≤ bytes.length
  · constructor
    · intro c f io sq stack hrecv _
      exact writerStep_congr hrecv hheader stack
    · intro c f io sq hrecv _
      exact state_writerStep hrecv hheader
  · rw [not_le] at hheader
    have hop : ∀ stack, be16 (recvBuf 516 stack bytes) 0 = Op.data.code := fun stack =>
      (be16_iff_mayBe (by omega) hlen).mpr hdata
    constructor
    · intro c f io sq stack hrecv hhuge
      rw [writerStep_short hrecv hhuge hheader (hop io.stack),
        @writerStep_short c f { io with stack := stack } sq bytes hrecv hhuge hheader (hop stack)]
    · intro c f io sq hrecv hhuge
      have hwrite := hhuge sq bytes hrecv (ssizeMax_lt_payload hheader)
      rw [writerStep_short hrecv hhuge hheader (hop io.stack),
        if_neg (fun h => absurd h.2.2 (not_le.mpr hwrite))]

/-- **When a writer uses only what it received.** -/
theorem writerUses_iff : WriterUses bytes ↔ 2 ≤ bytes.length ∨ ¬ MayBe .data bytes := by
  constructor
  · intro h
    by_contra hshort
    rw [not_or, not_not, not_le] at hshort
    exact not_writerUses_of_short hshort.1 hshort.2 h
  · intro h
    by_cases hdata : MayBe .data bytes
    · exact writerUses_of_data (h.resolve_right (not_not.mpr hdata)) hdata
    · exact writerUses_of_other hdata

end Writers

end Imola.Tqftp
