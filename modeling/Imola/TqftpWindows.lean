import Imola.TqftpTransfer

/-! # The window loop of `handle_reader`

In answer to an ACK of block `last`, `handle_reader` should send at most `wsize` packets, with the
numbers `last + 1`, `last + 2` and so on, and return (`WindowEnds`).  The sizes are those that
`handle_rrq` took from a request: an `int` each, converted to `size_t`.

The loop variable has 16 bits and its bound has 64.  A bound above the largest block number is never
reached, so the loop ends only at the end of the file, and a file that goes on behind block 65534
has none.  The window ends exactly when the bound is below `2 ^ 16` or the file ends before, apart
from block sizes that are not positive (`windowEnds_iff`). -/

namespace Imola.Tqftp

open Imola.CInts Imola.CStrings Imola.Splice

/-! ### What a client can negotiate -/

/-- A `size_t` that was an `int`. -/
def FromInt (n : ℕ) : Prop := ∃ v : ℤ, -2 ^ 31 ≤ v ∧ v < 2 ^ 31 ∧ n = toSize v

theorem fromInt_atoi (value : List UInt8) : FromInt (toSize (atoi value)) :=
  ⟨atoi value, le_atoi value, atoi_lt value, rfl⟩

/-- The two sizes that the window depends on. -/
structure RrqOptions.Negotiated (o : RrqOptions) : Prop where
  blksize : FromInt o.blksize
  wsize : FromInt o.wsize

theorem RrqOptions.negotiated_default : RrqOptions.Negotiated {} :=
  ⟨⟨512, by norm_num, by norm_num, rfl⟩, ⟨0, by norm_num, by norm_num, rfl⟩⟩

theorem RrqOptions.Negotiated.option {o : RrqOptions} (h : o.Negotiated) (opt value : List UInt8) :
    (rrqOption o opt value).Negotiated := by
  unfold rrqOption
  split_ifs
  · exact ⟨fromInt_atoi value, h.wsize⟩
  · exact ⟨h.blksize, h.wsize⟩
  · exact ⟨h.blksize, h.wsize⟩
  · exact ⟨h.blksize, h.wsize⟩
  · exact ⟨h.blksize, fromInt_atoi value⟩
  · exact h

theorem negotiated_foldl (pairs : List (List UInt8 × List UInt8)) {o : RrqOptions}
    (ho : o.Negotiated) :
    (pairs.foldl (fun o kv => rrqOption o kv.1 kv.2) o).Negotiated := by
  induction pairs generalizing o with
  | nil => exact ho
  | cons kv pairs ih => exact ih (ho.option kv.1 kv.2)

theorem negotiated_parseRrq {buf : ℕ → UInt8} {len : ℕ} {r : Rrq}
    (h : parseRrq buf len = .ok (some r)) :
    r.options.Negotiated := by
  rw [parseRrq_eq_map] at h
  obtain ⟨x, -, hx⟩ := exists_of_bind_eq_ok h
  have hrrq : x.rrq len = some r := Except.ok.inj hx
  unfold Strings.rrq at hrrq
  split_ifs at hrrq
  cases hrrq
  exact negotiated_foldl x.pairs RrqOptions.negotiated_default

theorem negotiated_handleRrq {f : File} {io : RrqIo} {buf : ℕ → UInt8} {len : ℕ} {sq : Addr}
    {c : TftpClient}
    {hd : Handled} (h : handleRrq f io buf len sq = (some c, hd)) :
    FromInt c.blksize ∧ FromInt c.wsize := by
  unfold handleRrq at h
  rcases hparse : parseRrq buf len with e | _ | r
  · rw [hparse] at h
    cases h
  · rw [hparse] at h
    cases h
  · have hopts := negotiated_parseRrq hparse
    simp only [hparse] at h
    have hc : c.blksize = r.options.blksize ∧ c.wsize = r.options.wsize := by
      split at h
      · cases h
      · split at h
        · cases h
        · split at h
          · cases h
          · split at h
            · cases h
              exact ⟨rfl, rfl⟩
            · split at h
              · cases h
                exact ⟨rfl, rfl⟩
              · cases h
                exact ⟨rfl, rfl⟩
    rw [hc.1, hc.2]
    exact ⟨hopts.blksize, hopts.wsize⟩

/-! ### The loop -/

section Loop

variable {f : File} {blksize limit : ℕ} {sendOk : ℕ → Bool}

/-- A window that does not wrap ends, within the rounds that are left for 16 bits. -/
theorem windowLoop_ends (hpos : 1 ≤ blksize) (hmax : blksize < 2 ^ 31)
    (hwrap : limit < 2 ^ 16 ∨ f.size ≤ (2 ^ 16 - 1) * blksize) (n : ℕ) :
    ∀ i b, b + (n + 1) = 2 ^ 16 →
      (windowLoop f blksize limit sendOk (n + 1) i b).stop = .returned 1 ∧
        (windowLoop f blksize limit sendOk (n + 1) i b).sent.length ≤ limit - b ∧
        (windowLoop f blksize limit sendOk (n + 1) i b).sent.length ≤ n + 1 := by
  induction n with
  | zero =>
      intro i b hb
      rcases windowLoop_cases f blksize limit sendOk hmax (by omega : b < 2 ^ 16) 0 i with
        ⟨hloop, -⟩ | ⟨hlimit, hne, -, hloop⟩
      · rw [hloop]
        exact ⟨rfl, Nat.zero_le _, Nat.zero_le _⟩
      · rcases hwrap with hwrap | hwrap
        · omega
        · rw [ne_eq, block_eq_nil_iff hpos, (by omega : b = 2 ^ 16 - 1)] at hne
          exact absurd hwrap hne
  | succ n ih =>
      intro i b hb
      rcases windowLoop_cases f blksize limit sendOk hmax (by omega : b < 2 ^ 16) (n + 1) i with
        ⟨hloop, -⟩ | ⟨hlimit, hne, -, hloop⟩
      · rw [hloop]
        exact ⟨rfl, Nat.zero_le _, Nat.zero_le _⟩
      · obtain ⟨hstop, hlen⟩ := ih (i + 1) (b + 1) (by omega)
        rw [hloop, Nat.mod_eq_of_lt (by omega : b + 1 < 2 ^ 16)]
        refine ⟨hstop, ?_⟩
        rw [List.length_cons]
        omega

/-- A window that wraps never ends, if every packet can be sent. -/
theorem windowLoop_forever (hpos : 1 ≤ blksize) (hmax : blksize < 2 ^ 31) (hlimit : 2 ^ 16 ≤ limit)
    (hsize : (2 ^ 16 - 1) * blksize < f.size) (hsend : ∀ i, sendOk i = true) (fuel : ℕ) :
    ∀ i b, b < 2 ^ 16 →
      (windowLoop f blksize limit sendOk fuel i b).stop = .running := by
  induction fuel with
  | zero =>
      intro i b _
      rfl
  | succ fuel ih =>
      intro i b hb
      rcases windowLoop_cases f blksize limit sendOk hmax hb fuel i
        with ⟨-, hstop⟩ | ⟨-, -, -, hloop⟩
      · exfalso
        rcases hstop with hend | hnil | hfail
        · omega
        · rw [block_eq_nil_iff hpos] at hnil
          have hle : b * blksize ≤ (2 ^ 16 - 1) * blksize := Nat.mul_le_mul_right _ (by omega)
          omega
        · rw [hsend] at hfail
          cases hfail
      · rw [hloop]
        exact ih _ _ (Nat.mod_lt _ (by norm_num))

theorem windowLoop_empty {b : ℕ} (h : limit ≤ b) (fuel i : ℕ) :
    windowLoop f blksize limit sendOk (fuel + 1) i b = ⟨[], .returned 1⟩ := by
  rw [windowLoop, if_neg (by omega)]

theorem windowLoop_negative {v : ℤ} (hv : v < 0) (hmin : -2 ^ 31 ≤ v) {b : ℕ} (hb : b < limit)
    (fuel i : ℕ) (ret : ℤ) :
    (windowLoop f (toSize v) limit sendOk fuel i b).stop ≠ .returned ret := by
  cases fuel with
  | zero =>
      intro h
      cases h
  | succ fuel =>
      obtain ⟨e, he⟩ := tftpSendData_negative hv hmin f (sendOk i) (b + 1) (b * toSize v % 2 ^ 64)
      rw [windowLoop, if_pos hb, he]
      intro h
      cases h

end Loop

/-! ### The answer to an ACK -/

/-- A datagram that `handle_reader` takes for an ACK; a short one leaves the number as the stack had
it. -/
structure Ack (c : TftpClient) where
  sq : Addr
  bytes : List UInt8
  stack : ℕ → UInt8
  from_client : sq.node = c.sq.node ∧ sq.port = c.sq.port
  isAck : be16 (recvBuf 128 stack bytes) 0 = Op.ack.code

/-- The acknowledged block. -/
def Ack.last {c : TftpClient} (ack : Ack c) : ℕ := be16 (recvBuf 128 ack.stack ack.bytes) 2

/-- `last + client->wsize`. -/
def Ack.limit {c : TftpClient} (ack : Ack c) : ℕ := (ack.last + c.wsize) % 2 ^ 64

/-- The block number of a packet. -/
def dataBlock (packet : List UInt8) : ℕ := be16 (padded 0 packet) 2

/-- Whatever `send` gives, the call returns, has sent at most `wsize` packets, and these have the
numbers behind the acknowledged one, each once. -/
def WindowEnds (f : File) (c : TftpClient) (ack : Ack c) : Prop :=
  ∀ sendOk : ℕ → Bool, ∃ fuel sent,
    handleReader f sendOk ack.stack fuel c (.datagram ack.sq ack.bytes) = ⟨sent, .returned 1⟩ ∧
      sent.length ≤ c.wsize ∧ (∀ p ∈ sent, ∃ n payload, p = numbered .data n payload) ∧
      sent.map dataBlock = (List.range sent.length).map (fun j => (ack.last + 1 + j) % 2 ^ 16) ∧
      (sent.map dataBlock).Nodup

section Answer

variable {f : File} {c : TftpClient} {ack : Ack c}

theorem Ack.last_lt (ack : Ack c) : ack.last < 2 ^ 16 := by
  have h₁ := (recvBuf 128 ack.stack ack.bytes 2).toNat_lt
  have h₂ := (recvBuf 128 ack.stack ack.bytes (2 + 1)).toNat_lt
  unfold Ack.last be16
  omega

theorem handleReader_of_ack (sendOk : ℕ → Bool) (fuel : ℕ) :
    handleReader f sendOk ack.stack fuel c (.datagram ack.sq ack.bytes) =
      windowLoop f c.blksize ack.limit sendOk fuel 0 ack.last := by
  have hnode := ack.from_client
  rw [handleReader, if_neg (by tauto), ack.isAck, if_neg (by decide), if_neg (by simp)]
  rfl

theorem dataBlock_numbered (n : ℕ) (payload : List UInt8) :
    dataBlock (numbered .data n payload) = n % 2 ^ 16 := by
  simp only [dataBlock, be16, padded, numbered, List.getD_cons_succ, List.getD_cons_zero,
    UInt8.toNat_ofNat']
  omega

theorem numbers_of_getElem {sent : List (List UInt8)} {last : ℕ} (hlen : sent.length ≤ 2 ^ 16)
    (h : ∀ j p, sent[j]? = some p → ∃ payload, p = numbered .data (last + (j + 1)) payload) :
    (∀ p ∈ sent, ∃ n payload, p = numbered .data n payload) ∧
      sent.map dataBlock = (List.range sent.length).map (fun j => (last + 1 + j) % 2 ^ 16) ∧
      (sent.map dataBlock).Nodup := by
  have hmap : sent.map dataBlock =
      (List.range sent.length).map (fun j => (last + 1 + j) % 2 ^ 16) := by
    apply List.ext_getElem?
    intro j
    rw [List.getElem?_map, List.getElem?_map]
    by_cases hj : j < sent.length
    · obtain ⟨payload, hp⟩ := h j sent[j] (List.getElem?_eq_getElem hj)
      rw [List.getElem?_eq_getElem hj, List.getElem?_range hj, Option.map_some, Option.map_some, hp,
        dataBlock_numbered]
      congr 2
      omega
    · rw [List.getElem?_eq_none (by omega), List.getElem?_eq_none (by simpa using hj)]
      rfl
  refine ⟨?_, hmap, ?_⟩
  · intro p hp
    obtain ⟨j, hj, rfl⟩ := List.mem_iff_getElem.mp hp
    obtain ⟨payload, hpay⟩ := h j sent[j] (List.getElem?_eq_getElem hj)
    exact ⟨_, payload, hpay⟩
  · rw [hmap]
    refine List.Nodup.map_on ?_ List.nodup_range
    intro a ha b hb hab
    rw [List.mem_range] at ha hb
    omega

theorem windowEnds_of_empty
    (h : ∀ sendOk, windowLoop f c.blksize ack.limit sendOk 1 0 ack.last = ⟨[], .returned 1⟩) :
    WindowEnds f c ack := by
  intro sendOk
  refine ⟨1, [], ?_, Nat.zero_le _, ?_, rfl, List.nodup_nil⟩
  · rw [handleReader_of_ack, h]
  · intro p hp
    cases hp

theorem windowEnds_of_bounded (hpos : 1 ≤ c.blksize) (hmax : c.blksize < 2 ^ 31)
    (hwrap : ack.limit < 2 ^ 16 ∨ f.size ≤ (2 ^ 16 - 1) * c.blksize) : WindowEnds f c ack := by
  intro sendOk
  have hlast := ack.last_lt
  obtain ⟨n, hn⟩ : ∃ n, ack.last + (n + 1) = 2 ^ 16 := ⟨2 ^ 16 - ack.last - 1, by omega⟩
  obtain ⟨hstop, hwin, hlen⟩ :=
    @windowLoop_ends f c.blksize ack.limit sendOk hpos hmax hwrap n 0 ack.last hn
  have hnumbers := @windowLoop_mapping f c.blksize ack.limit sendOk hpos hmax hwrap (n + 1) 0
    ack.last hlast
  have hlimit : ack.limit ≤ ack.last + c.wsize := Nat.mod_le _ _
  generalize hloop : windowLoop f c.blksize ack.limit sendOk (n + 1) 0 ack.last = r
    at hstop hwin hlen hnumbers
  refine ⟨n + 1, r.sent,
    ?_, by omega, numbers_of_getElem (by omega) fun j p hp => ⟨_, hnumbers j p hp⟩⟩
  rw [handleReader_of_ack, hloop, ← hstop]

theorem windowEnds_of_zero (hzero : c.blksize = 0) : WindowEnds f c ack := by
  apply windowEnds_of_empty
  intro sendOk
  have hnil : block f c.blksize ack.last = [] := by
    rw [← List.length_eq_zero_iff, block_length, hzero, Nat.zero_min]
  rcases windowLoop_cases f c.blksize ack.limit sendOk (by omega) ack.last_lt 0 0
    with ⟨hloop, -⟩ | ⟨-, hne, -⟩
  · exact hloop
  · exact absurd hnil hne

end Answer

/-- **The window loop**: for sizes that a client has negotiated, an answer ends as it should exactly
when the window is empty, the block size is 0, or it is positive and the bound has 16 bits or the
file ends before the last block number. -/
theorem windowEnds_iff {f₀ : File} {io : RrqIo} {buf : ℕ → UInt8} {len : ℕ} {sq : Addr}
    {c : TftpClient} {hd : Handled}
    (haccept : handleRrq f₀ io buf len sq = (some c, hd)) (f : File) (ack : Ack c) :
    WindowEnds f c ack ↔ ack.limit ≤ ack.last ∨ c.blksize = 0 ∨
      (c.blksize < 2 ^ 31 ∧ (ack.limit < 2 ^ 16 ∨ f.size ≤ (2 ^ 16 - 1) * c.blksize)) := by
  have hlast := ack.last_lt
  constructor
  · intro hends
    obtain ⟨v, hmin, hmax, hv⟩ := (negotiated_handleRrq haccept).1
    obtain ⟨fuel, sent, hreturned, -⟩ := hends fun _ => true
    rw [handleReader_of_ack] at hreturned
    by_contra hcon
    rw [not_or, not_or, not_and, not_or, not_le, not_lt, not_le] at hcon
    obtain ⟨hlimit, hne, hrest⟩ := hcon
    rcases lt_or_ge v 0 with hneg | hnonneg
    · rw [hv] at hreturned
      exact windowLoop_negative hneg hmin hlimit fuel 0 1 (congrArg Handled.stop hreturned)
    · have hsize := toSize_of_nonneg hnonneg hmax
      rw [← hv] at hsize
      obtain ⟨hbound, hfile⟩ := hrest (by omega)
      have hrunning := windowLoop_forever (by omega) (by omega) hbound hfile (fun _ => rfl) fuel 0
        ack.last hlast
      rw [hreturned] at hrunning
      cases hrunning
  · rintro (hempty | hzero | ⟨hmax, hwrap⟩)
    · exact windowEnds_of_empty fun sendOk => windowLoop_empty hempty 0 0
    · exact windowEnds_of_zero hzero
    · rcases Nat.eq_zero_or_pos c.blksize with hzero | hpos
      · exact windowEnds_of_zero hzero
      · exact windowEnds_of_bounded hpos hmax hwrap

/-- A request for a file with a window of one block. -/
def windowRequest : List UInt8 :=
  [0, 1] ++ ascii "mbn" ++ [0] ++ ascii "octet" ++ [0] ++ ascii "wsize" ++ [0] ++ ascii "1" ++ [0]

def windowClient : TftpClient := ⟨⟨1, 2⟩, 5, 6, 512, 0, 1, 1000⟩

theorem windowRequest_accepted : ∃ hd, handleRrq ⟨0, fun _ => 0⟩ ⟨5, 0, fun _ => 6, true⟩
    (recvBuf rrqBufSize (fun _ => 0) windowRequest) windowRequest.length ⟨1, 2⟩ =
      (some windowClient, hd) := by
  refine ⟨_, Prod.ext ?_ rfl⟩
  decide +kernel

/-- The ACK of a block by the client. -/
def readerAck (c : TftpClient) (k : ℕ) : Ack c :=
  ⟨c.sq, numbered .ack k [], fun _ => 0, ⟨rfl, rfl⟩, (be16_ack (fun _ => 0) k).1⟩

/-- The ACK of block 3. -/
theorem windowEnds_three :
    WindowEnds ⟨4096, fun _ => 0⟩ windowClient (readerAck windowClient 3) := by
  obtain ⟨hd, haccept⟩ := windowRequest_accepted
  exact (windowEnds_iff haccept ⟨4096, fun _ => 0⟩ (readerAck windowClient 3)).mpr
    (Or.inr (Or.inr ⟨by decide, Or.inl (by decide)⟩))

/-- The ACK of block 65535 of a file with one block more is answered without end: the loop goes on
with the beginning of the file. -/
theorem not_windowEnds_wrapped :
    (∃ hd, handleRrq ⟨0, fun _ => 0⟩ ⟨5, 0, fun _ => 6, true⟩
      (recvBuf rrqBufSize (fun _ => 0) windowRequest) windowRequest.length ⟨1, 2⟩ =
        (some windowClient, hd)) ∧
    (∀ fuel, (handleReader ⟨65535 * 512 + 1, fun _ => 0⟩ (fun _ => true) (fun _ => 0) fuel
      windowClient
      (.datagram ⟨1, 2⟩ (numbered .ack 65535 []))).stop = .running) ∧
    ¬ WindowEnds ⟨65535 * 512 + 1, fun _ => 0⟩ windowClient (readerAck windowClient 65535) := by
  have hforever : ∀ fuel, (windowLoop ⟨65535 * 512 + 1, fun _ => 0⟩ windowClient.blksize
      (readerAck windowClient 65535).limit (fun _ => true) fuel 0
        (readerAck windowClient 65535).last).stop = .running := by
    intro fuel
    exact windowLoop_forever (by decide) (by decide) (by decide) (by decide) (fun _ => rfl) fuel 0
      _ (by decide)
  refine ⟨windowRequest_accepted, fun fuel => ?_, fun hends => ?_⟩
  · have hrunning := hforever fuel
    rwa [← handleReader_of_ack] at hrunning
  · obtain ⟨fuel, sent, hreturned, -⟩ := hends fun _ => true
    have hrunning := hforever fuel
    rw [← handleReader_of_ack, hreturned] at hrunning
    cases hrunning

end Imola.Tqftp
