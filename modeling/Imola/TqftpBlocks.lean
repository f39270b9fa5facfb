import Imola.TqftpServer

/-! # The blocks of a read transfer

The answer of `handle_reader` to an ACK is a window of blocks.  The block number on the wire has
16 bits, and the server computes the offset in the file from it: the mapping is right as long as
no block number has wrapped.  It wraps when the client acknowledges `2 ^ 16` blocks or more, and
inside a window that reaches block `2 ^ 16`: the loop variable is a `uint16_t`, so the loop then
starts over at the beginning of the file, unless it meets the end of the file before
(`blockMapping_iff`). -/

namespace Imola.Tqftp

open Imola.Splice

/-- The bytes of block `b` of a file, counted from 0. -/
def block (f : File) (blksize b : ℕ) : List UInt8 :=
  window f.bytes (b * blksize) (min blksize (f.size - b * blksize))

section Block

variable {f : File} {blksize b : ℕ}

theorem block_length : (block f blksize b).length = min blksize (f.size - b * blksize) :=
  window_length _ _ _

theorem block_eq_nil_iff (hpos : 1 ≤ blksize) : block f blksize b = [] ↔ f.size ≤ b * blksize := by
  rw [← List.length_eq_zero_iff, block_length]
  omega

theorem tftpSendData_block (hmax : blksize < 2 ^ 31) (hb : b < 2 ^ 16) (sendOk : Bool) (n : ℕ) :
    tftpSendData f blksize sendOk n (b * blksize % 2 ^ 64) =
      if block f blksize b = [] then .ok (0, [])
      else if sendOk then .ok (4 + (block f blksize b).length,
        [numbered .data n (block f blksize b)])
      else .ok (-1, []) := by
  have hoffset : b * blksize < 2 ^ 47 := by
    calc b * blksize ≤ 2 ^ 16 * blksize := Nat.mul_le_mul_right _ hb.le
      _ < 2 ^ 47 := by omega
  have hread : pread f blksize (b * blksize) = some (block f blksize b) := by
    rw [pread, if_neg (by omega), block]
  have hlen : (block f blksize b).length ≤ blksize := by
    rw [block_length]
    exact min_le_left _ _
  rw [Nat.mod_eq_of_lt (by omega), tftpSendData, if_neg (by omega), hread, Option.getD_some,
    if_neg (by omega)]
  cases hblock : block f blksize b with
  | nil => rfl
  | cons a l => rfl

end Block

/-! ### The window -/

section Window

variable (f : File) (blksize limit : ℕ) (sendOk : ℕ → Bool)

/-- What one round of the loop can do. -/
theorem windowLoop_cases (hmax : blksize < 2 ^ 31) {b : ℕ} (hb : b < 2 ^ 16) (fuel i : ℕ) :
    (windowLoop f blksize limit sendOk (fuel + 1) i b = ⟨[], .returned 1⟩ ∧
      (limit ≤ b ∨ block f blksize b = [] ∨ sendOk i = false)) ∨
    (b < limit ∧ block f blksize b ≠ [] ∧ sendOk i = true ∧
      windowLoop f blksize limit sendOk (fuel + 1) i b =
        ⟨numbered .data (b + 1) (block f blksize b) ::
            (windowLoop f blksize limit sendOk fuel (i + 1) ((b + 1) % 2 ^ 16)).sent,
          (windowLoop f blksize limit sendOk fuel (i + 1) ((b + 1) % 2 ^ 16)).stop⟩) := by
  rw [windowLoop]
  by_cases hlimit : b < limit
  · rw [if_pos hlimit, tftpSendData_block hmax hb]
    by_cases hnil : block f blksize b = []
    · rw [if_pos hnil]
      exact Or.inl ⟨rfl, Or.inr (Or.inl hnil)⟩
    · rw [if_neg hnil]
      cases hsend : sendOk i with
      | false => exact Or.inl ⟨rfl, Or.inr (Or.inr rfl)⟩
      | true =>
          right
          refine ⟨hlimit, hnil, rfl, ?_⟩
          rw [if_pos rfl]
          dsimp only
          rw [if_neg (by omega)]
          rfl
  · rw [if_neg hlimit]
    exact Or.inl ⟨rfl, Or.inl (by omega)⟩

variable {f blksize limit sendOk}

theorem windowLoop_mapping (hpos : 1 ≤ blksize) (hmax : blksize < 2 ^ 31)
    (hwrap : limit < 2 ^ 16 ∨ f.size ≤ (2 ^ 16 - 1) * blksize) (fuel : ℕ) :
    ∀ i b, b < 2 ^ 16 → ∀ j p,
      (windowLoop f blksize limit sendOk fuel i b).sent[j]? = some p →
        p = numbered .data (b + (j + 1)) (block f blksize (b + j)) := by
  induction fuel with
  | zero =>
      intro i b _ j p h
      simp [windowLoop] at h
  | succ fuel ih =>
      intro i b hb j p h
      rcases windowLoop_cases f blksize limit sendOk hmax hb fuel i
        with ⟨hloop, -⟩ | ⟨hlimit, hne, -, hloop⟩
      · simp [hloop] at h
      · rw [hloop] at h
        have hnext : b + 1 < 2 ^ 16 := by
          by_contra hcon
          have hlast : b = 2 ^ 16 - 1 := by omega
          rcases hwrap with hwrap | hwrap
          · omega
          · apply hne
            rw [block_eq_nil_iff hpos, hlast]
            exact hwrap
        cases j with
        | zero =>
            simp only [List.getElem?_cons_zero, Option.some.injEq] at h
            exact h.symm
        | succ j =>
            simp only [List.getElem?_cons_succ, Nat.mod_eq_of_lt hnext] at h
            have hp := ih (i + 1) (b + 1) hnext j p h
            have h₁ : b + 1 + (j + 1) = b + (j + 1 + 1) := by omega
            have h₂ : b + 1 + j = b + (j + 1) := by omega
            rwa [h₁, h₂] at hp

/-- The packets of `n` blocks from `b` on. -/
def blockPackets (f : File) (blksize : ℕ) : (b n : ℕ) → List (List UInt8)
  | _, 0 => []
  | b, n + 1 => numbered .data (b + 1) (block f blksize b) :: blockPackets f blksize (b + 1) n

theorem blockPackets_length (b n : ℕ) : (blockPackets f blksize b n).length = n := by
  induction n generalizing b with
  | zero => rfl
  | succ n ih => rw [blockPackets, List.length_cons, ih]

theorem windowLoop_run (hpos : 1 ≤ blksize) (hmax : blksize < 2 ^ 31) (hsend : ∀ i, sendOk i = true)
    (fuel n : ℕ) :
    ∀ i b, b + n ≤ 2 ^ 16 → b + n ≤ limit → (∀ j < n, (b + j) * blksize < f.size) →
      (windowLoop f blksize limit sendOk (n + fuel) i (b % 2 ^ 16)).sent =
        blockPackets f blksize b n ++
        (windowLoop f blksize limit sendOk fuel (i + n) ((b + n) % 2 ^ 16)).sent := by
  induction n with
  | zero =>
      intro i b _ _ _
      rw [Nat.zero_add]
      rfl
  | succ n ih =>
      intro i b hwrap hlimit hdata
      have hb : b < 2 ^ 16 := by omega
      have hne : block f blksize b ≠ [] := by
        rw [ne_eq, block_eq_nil_iff hpos]
        exact Nat.not_le.mpr (hdata 0 (by omega))
      have hrest := ih (i + 1) (b + 1) (by omega) (by omega)
        (fun j hj => by
          rw [Nat.add_assoc, Nat.add_comm 1 j]
          exact hdata (j + 1) (by omega))
      have h₁ : i + 1 + n = i + (n + 1) := by omega
      have h₂ : b + 1 + n = b + (n + 1) := by omega
      rw [h₁, h₂] at hrest
      have hfuel : n + 1 + fuel = n + fuel + 1 := by omega
      rw [hfuel, Nat.mod_eq_of_lt hb]
      rcases windowLoop_cases f blksize limit sendOk hmax hb (n + fuel) i
        with ⟨-, hstop⟩ | ⟨-, -, -, hloop⟩
      · rcases hstop with h | h | h
        · omega
        · exact absurd h hne
        · rw [hsend] at h
          cases h
      · rw [hloop, hrest, blockPackets, List.cons_append]

end Window

/-! ### The answer to an ACK -/

section Answer

variable {f : File} {c : TftpClient} {k : ℕ}

theorem numbered_mod (op : Op) (n : ℕ) (payload : List UInt8) :
    numbered op (n % 2 ^ 16) payload = numbered op n payload := by
  have h₁ : UInt8.ofNat (n % 2 ^ 16 / 256) = UInt8.ofNat (n / 256) := by
    apply UInt8.toNat_inj.mp
    rw [UInt8.toNat_ofNat', UInt8.toNat_ofNat']
    omega
  have h₂ : UInt8.ofNat (n % 2 ^ 16) = UInt8.ofNat n := by
    apply UInt8.toNat_inj.mp
    rw [UInt8.toNat_ofNat', UInt8.toNat_ofNat']
    omega
  rw [numbered, numbered, h₁, h₂]

theorem numbered_payload {op op' : Op} {n n' : ℕ} {x y : List UInt8}
    (h : numbered op n x = numbered op' n' y) : x = y := by
  simp only [numbered, List.cons.injEq] at h
  exact h.2.2.2.2

theorem be16_ack (stack : ℕ → UInt8) (k : ℕ) :
    be16 (recvBuf 128 stack (numbered .ack k [])) 0 = Op.ack.code ∧
    be16 (recvBuf 128 stack (numbered .ack k [])) 2 = k % 2 ^ 16 := by
  constructor
  · simp [be16, recvBuf, numbered, Op.code]
  · simp only [be16, recvBuf, numbered, List.take_succ_cons, List.take_nil, List.getD_cons_succ,
      List.getD_cons_zero, UInt8.toNat_ofNat']
    omega

/-- The answer to the ACK of block `k`. -/
theorem handleReader_ack (sendOk : ℕ → Bool) (stack : ℕ → UInt8) (fuel : ℕ) :
    handleReader f sendOk stack fuel c (.datagram c.sq (numbered .ack k [])) =
      windowLoop f c.blksize ((k % 2 ^ 16 + c.wsize) % 2 ^ 64) sendOk fuel 0 (k % 2 ^ 16) := by
  obtain ⟨hop, hlast⟩ := be16_ack stack k
  rw [handleReader, if_neg (by simp), hop, if_neg (by decide), if_neg (by simp), hlast]

theorem answer_run (hpos : 1 ≤ c.blksize) (hmax : c.blksize < 2 ^ 31) (hwmax : c.wsize < 2 ^ 31)
    (fuel : ℕ) {n : ℕ}
    (hwrap : k % 2 ^ 16 + n ≤ 2 ^ 16) (hwin : n ≤ c.wsize)
    (hdata : ∀ j < n, (k % 2 ^ 16 + j) * c.blksize < f.size) :
    (handleReader f (fun _ => true) (fun _ => 0) (n + fuel) c
      (.datagram c.sq (numbered .ack k []))).sent =
      blockPackets f c.blksize (k % 2 ^ 16) n ++
        (windowLoop f c.blksize (k % 2 ^ 16 + c.wsize) (fun _ => true) fuel n
          ((k % 2 ^ 16 + n) % 2 ^ 16)).sent := by
  rw [handleReader_ack, Nat.mod_eq_of_lt (by omega : k % 2 ^ 16 + c.wsize < 2 ^ 64)]
  have hrun := windowLoop_run (f := f) hpos hmax
    (fun _ => rfl : ∀ i, (fun _ => true : ℕ → Bool) i = true) fuel n 0
    (k % 2 ^ 16) hwrap (by omega : k % 2 ^ 16 + n ≤ k % 2 ^ 16 + c.wsize) hdata
  rwa [Nat.mod_mod, Nat.zero_add] at hrun

/-- In answer to the ACK of the first `k` blocks, every packet has the number and the bytes of the
next block. -/
def BlockMapping (f : File) (c : TftpClient) (k : ℕ) : Prop :=
  ∀ sendOk stack fuel j p,
    (handleReader f sendOk stack fuel c (.datagram c.sq (numbered .ack k []))).sent[j]? = some p →
      p = numbered .data ((k + (j + 1)) % 2 ^ 16) (block f c.blksize (k + j))

/-- A file in which block `b` differs from all others. -/
def marked (size blksize b : ℕ) : File :=
  ⟨size, fun p => if b * blksize ≤ p ∧ p < b * blksize + blksize then 1 else 0⟩

theorem block_marked_ne {size blksize b b' : ℕ} (hpos : 1 ≤ blksize) (hb : b * blksize < size)
    (hlt : b < b') :
    block (marked size blksize b) blksize b ≠ block (marked size blksize b) blksize b' := by
  have hfirst : (block (marked size blksize b) blksize b)[0]? = some 1 := by
    have hlen : 0 < min blksize (size - b * blksize) := by omega
    simp only [block, marked, window, List.getElem?_map, List.getElem?_range hlen, Option.map_some,
      Nat.add_zero]
    rw [if_pos (by omega)]
  have hbehind : b * blksize + blksize ≤ b' * blksize := by
    rw [← Nat.succ_mul]
    exact Nat.mul_le_mul_right _ hlt
  intro heq
  rw [heq] at hfirst
  simp only [block, marked, window, List.getElem?_map, Option.map_eq_some_iff] at hfirst
  obtain ⟨i, -, hi⟩ := hfirst
  rw [if_neg (by omega)] at hi
  exact absurd hi (by decide)

/-- The ACK of a block from `2 ^ 16` on is taken for that of an earlier block. -/
theorem lt_of_blockMapping (hpos : 1 ≤ c.blksize) (hmax : c.blksize < 2 ^ 31) (hwin : 1 ≤ c.wsize)
    (hwmax : c.wsize < 2 ^ 31) {size : ℕ} (hk : k * c.blksize < size + c.blksize)
    (h : ∀ f : File, f.size = size → BlockMapping f c k) : k < 2 ^ 16 := by
  by_contra hge
  set b := k % 2 ^ 16 with hb
  have hbk : b + 1 ≤ k := by omega
  have hdata : b * c.blksize < size := by
    have hmul := Nat.mul_le_mul_right c.blksize hbk
    rw [Nat.succ_mul] at hmul
    omega
  have hsent := answer_run (f := marked size c.blksize b) hpos hmax hwmax (k := k) 0
      (n := 1) (by omega)
    (by omega) (fun j hj => by
      obtain rfl : j = 0 := by omega
      exact hdata)
  have hp := h (marked size c.blksize b) rfl (fun _ => true) (fun _ => 0) (1 + 0) 0
    (numbered .data (b + 1) (block (marked size c.blksize b) c.blksize b)) (by rw [hsent]; rfl)
  exact block_marked_ne hpos hdata (by omega) (numbered_payload hp)

theorem window_of_blockMapping (hpos : 1 ≤ c.blksize) (hmax : c.blksize < 2 ^ 31)
    (hwmax : c.wsize < 2 ^ 31)
    {size : ℕ} (hlt : k < 2 ^ 16) (h : ∀ f : File, f.size = size → BlockMapping f c k) :
    k + c.wsize < 2 ^ 16 ∨ size ≤ (2 ^ 16 - 1) * c.blksize := by
  by_contra hwrap
  rw [not_or, Nat.not_lt, Nat.not_le] at hwrap
  obtain ⟨hwindow, hlarge⟩ := hwrap
  have hmod : k % 2 ^ 16 = k := Nat.mod_eq_of_lt hlt
  have hzero : (k % 2 ^ 16 + (2 ^ 16 - k)) % 2 ^ 16 = 0 := by omega
  have hsent := answer_run (f := marked size c.blksize 0) hpos hmax hwmax (k := k) 1
      (n := 2 ^ 16 - k) (by omega)
    (by omega) (fun j hj => by
      have hmul := Nat.mul_le_mul_right c.blksize (by omega : k % 2 ^ 16 + j ≤ 2 ^ 16 - 1)
      exact hmul.trans_lt hlarge)
  have hstart : (windowLoop (marked size c.blksize 0) c.blksize (k % 2 ^ 16 + c.wsize)
    (fun _ => true) 1
      (2 ^ 16 - k) 0).sent = [numbered .data 1 (block (marked size c.blksize 0) c.blksize 0)] := by
    rcases windowLoop_cases (marked size c.blksize 0) c.blksize (k % 2 ^ 16 + c.wsize)
      (fun _ => true) hmax
      (by norm_num : 0 < 2 ^ 16) 0 (2 ^ 16 - k) with ⟨-, hstop⟩ | ⟨-, -, -, hloop⟩
    · rcases hstop with h₀ | h₀ | h₀
      · omega
      · rw [block_eq_nil_iff hpos, Nat.zero_mul] at h₀
        have hsize : size ≤ 0 := h₀
        omega
      · cases h₀
    · rw [hloop]
      rfl
  rw [hzero, hstart] at hsent
  have hp := h (marked size c.blksize 0) rfl (fun _ => true) (fun _ => 0) (2 ^ 16 - k + 1)
    (2 ^ 16 - k)
    (numbered .data 1 (block (marked size c.blksize 0) c.blksize 0)) (by
      rw [hsent, List.getElem?_append_right (by rw [blockPackets_length]), blockPackets_length,
        Nat.sub_self]
      rfl)
  exact block_marked_ne hpos (by omega : 0 * c.blksize < size) (by omega : 0 < k + (2 ^ 16 - k))
    (numbered_payload hp)

/-- **The block mapping** is right for all files of a size exactly when no number wraps: the ACK is
of fewer than `2 ^ 16` blocks, and the window ends below block `2 ^ 16` or the file does. -/
theorem blockMapping_iff (hpos : 1 ≤ c.blksize) (hmax : c.blksize < 2 ^ 31) (hwin : 1 ≤ c.wsize)
    (hwmax : c.wsize < 2 ^ 31) {size : ℕ} (hk : k * c.blksize < size + c.blksize) :
    (∀ f : File, f.size = size → BlockMapping f c k) ↔
      k < 2 ^ 16 ∧ (k + c.wsize < 2 ^ 16 ∨ size ≤ (2 ^ 16 - 1) * c.blksize) := by
  constructor
  · intro h
    have hlt := lt_of_blockMapping hpos hmax hwin hwmax hk h
    exact ⟨hlt, window_of_blockMapping hpos hmax hwmax hlt h⟩
  · rintro ⟨hlt, hwrap⟩ f rfl sendOk stack fuel j p hp
    rw [handleReader_ack, Nat.mod_eq_of_lt hlt, Nat.mod_eq_of_lt (by omega)] at hp
    rw [numbered_mod]
    exact windowLoop_mapping hpos hmax hwrap fuel 0 k hlt j p hp

/-- A client with blocks and windows of size 1. -/
def sampleReader : TftpClient := ⟨⟨1, 2⟩, 5, 6, 1, 0, 1, 1000⟩

theorem blockMapping_sampleReader : BlockMapping (marked 10 1 0) sampleReader 3 :=
  (blockMapping_iff (c := sampleReader) (by decide) (by decide) (by decide) (by decide)
    (by decide : 3 * sampleReader.blksize < 10 + sampleReader.blksize)).mpr (by decide)
    (marked 10 1 0) rfl

/-- After 65536 blocks of a file of 65537 bytes, the first byte is sent again. -/
theorem not_blockMapping_wrapped : ¬ BlockMapping (marked 65537 1 0) sampleReader 65536 := by
  intro h
  have hp := h (fun _ => true) (fun _ => 0) 1 0 (numbered .data 1 [1]) (by decide +kernel)
  exact absurd hp (by decide +kernel)

end Answer

end Imola.Tqftp
