import Imola.TqftpRequests

/-! # The buffers of DATA packets

`tftp_send_data` allocates `4 + blksize` bytes for a packet and lets `pread` store up to `blksize`
bytes behind the header.  The block size is a text of the client that went through `atoi`, an `int`,
into a `size_t`, so a negative one is close to `2 ^ 64`, and with `-4` to `-1` the sum wraps to `0`
to `3`: the header does not fit any more.  These are all (`dataFits_iff`).  With the other negative
sizes the sum does not wrap, but `malloc` has no such buffer and the header is stored through
NULL. -/

namespace Imola.Tqftp

open Imola.CInts Imola.CStrings Imola.Splice

/-- The size given to `malloc` is enough for the header and what `pread` may store, and no packet is
written behind its buffer. -/
structure DataFits (c : TftpClient) : Prop where
  size : ∀ n ≤ c.blksize, 4 + n ≤ (4 + c.blksize) % 2 ^ 64
  inside : ∀ (f : File) (sendOk : Bool) (block offset : ℕ),
    tftpSendData f c.blksize sendOk block offset ≠ .error .overflow

/-- Every packet has a buffer, and stays in it. -/
def DataBuilt (c : TftpClient) : Prop :=
  ∀ (f : File) (sendOk : Bool) (block offset : ℕ), ∃ v, tftpSendData f c.blksize sendOk block
    offset = .ok v

/-! ### What is read, and where it goes -/

theorem length_pread_le (f : File) (count offset : ℕ) :
    ((pread f count offset).getD []).length ≤ count := by
  unfold pread
  split_ifs
  · exact Nat.zero_le _
  · rw [Option.getD_some, window_length]
    exact Nat.min_le_left _ _

theorem tftpSendData_eq_error {f : File} {blksize : ℕ} {sendOk : Bool} {block offset : ℕ}
    {e : Fault} :
    tftpSendData f blksize sendOk block offset = .error e ↔
      (2 ^ 63 ≤ (4 + blksize) % 2 ^ 64 ∧ e = .nullBuffer) ∨
      ((4 + blksize) % 2 ^ 64 < 2 ^ 63 ∧
        (4 + blksize) % 2 ^ 64 < 4 + ((pread f blksize offset).getD []).length ∧
        e = .overflow) := by
  unfold tftpSendData
  dsimp only
  by_cases hnull : 2 ^ 63 ≤ (4 + blksize) % 2 ^ 64
  · rw [if_pos hnull, Except.error.injEq]
    constructor
    · rintro rfl
      exact Or.inl ⟨hnull, rfl⟩
    · rintro (⟨-, rfl⟩ | ⟨hlt, -⟩)
      · rfl
      · exact absurd hnull (not_le.mpr hlt)
  rw [if_neg hnull]
  by_cases hshort : (4 + blksize) % 2 ^ 64 < 4 + ((pread f blksize offset).getD []).length
  · rw [if_pos hshort, Except.error.injEq]
    constructor
    · rintro rfl
      exact Or.inr ⟨not_le.mp hnull, hshort, rfl⟩
    · rintro (⟨hle, -⟩ | ⟨-, -, rfl⟩)
      · exact absurd hle hnull
      · rfl
  · rw [if_neg hshort]
    apply iff_of_false
    · intro h
      split at h
      · cases h
      · cases h
      · split_ifs at h
    · rintro (⟨hle, -⟩ | ⟨-, hlt, -⟩)
      · exact hnull hle
      · exact hshort hlt

/-- Where the sum does not wrap, the buffer is large enough. -/
theorem dataFits_of_lt {c : TftpClient} (h : 4 + c.blksize < 2 ^ 64) : DataFits c := by
  constructor
  · intro n hn
    rw [Nat.mod_eq_of_lt h]
    omega
  · intro f sendOk block offset hover
    have hread := length_pread_le f c.blksize offset
    rcases tftpSendData_eq_error.mp hover with ⟨-, he⟩ | ⟨-, hshort, -⟩
    · cases he
    · rw [Nat.mod_eq_of_lt h] at hshort
      omega

/-- Where it wraps, even the header of a packet without data is too long. -/
theorem overflow_of_wrap {blksize : ℕ} (hle : 2 ^ 64 ≤ 4 + blksize) (hlt : blksize < 2 ^ 64)
    (f : File) (sendOk : Bool)
    (block offset : ℕ) : tftpSendData f blksize sendOk block offset = .error .overflow := by
  apply tftpSendData_eq_error.mpr
  right
  refine ⟨?_, ?_, rfl⟩
  · omega
  · omega

theorem dataBuilt_of_lt {c : TftpClient} (h : 4 + c.blksize < 2 ^ 63) : DataBuilt c := by
  intro f sendOk block offset
  cases hdata : tftpSendData f c.blksize sendOk block offset with
  | ok v => exact ⟨v, rfl⟩
  | error e =>
      have hread := length_pread_le f c.blksize offset
      rcases tftpSendData_eq_error.mp hdata with ⟨hnull, -⟩ | ⟨-, hshort, -⟩
      · omega
      · omega

/-! ### The block sizes a client can ask for -/

section Accepted

variable {r : ReadRequest} {f : File} {io : RrqIo} {stack : ℕ → UInt8} {sq : Addr} {c : TftpClient}

theorem blksize_of_accepted
    (haccept : (handleRrq f io (recvBuf rrqBufSize stack r.bytes) r.bytes.length sq).1 = some c) :
    c.blksize = toSize r.blksize := by
  obtain ⟨rfl, -⟩ := handleRrq_request haccept
  exact r.rrq_blksize

/-- **The packets fit their buffers unless the block size is one of the four that wrap the sum, and
there are buffers for the sizes that are not negative.** -/
theorem dataFits_iff
    (haccept : (handleRrq f io (recvBuf rrqBufSize stack r.bytes) r.bytes.length sq).1 = some c) :
    (DataFits c ↔ ¬ (-4 ≤ r.blksize ∧ r.blksize ≤ -1)) ∧ (DataBuilt c ↔ 0 ≤ r.blksize) := by
  have hblk := blksize_of_accepted haccept
  obtain ⟨hmin, hmax⟩ := r.blksize_range
  by_cases hsign : 0 ≤ r.blksize
  · have hsize := toSize_of_nonneg hsign hmax
    have hfits : DataFits c := dataFits_of_lt (by omega)
    have hbuilt : DataBuilt c := dataBuilt_of_lt (by omega)
    exact ⟨iff_of_true hfits (by omega), iff_of_true hbuilt hsign⟩
  · have hsize := toSize_of_neg (not_le.mp hsign) hmin
    have hnone : ¬ DataBuilt c := by
      intro h
      obtain ⟨v, hv⟩ := h ⟨0, fun _ => 0⟩ true 1 0
      by_cases hwrap : 2 ^ 64 ≤ 4 + c.blksize
      · rw [overflow_of_wrap hwrap (by omega)] at hv
        cases hv
      · rw [tftpSendData_eq_error.mpr (Or.inl ⟨by omega, rfl⟩)] at hv
        cases hv
    refine ⟨?_, iff_of_false hnone hsign⟩
    by_cases hwrap : -4 ≤ r.blksize
    · apply iff_of_false
      · intro h
        exact h.inside ⟨0, fun _ => 0⟩ true 1 0 (overflow_of_wrap (by omega) (by omega) _ _ _ _)
      · omega
    · exact iff_of_true (dataFits_of_lt (by omega)) (by omega)

end Accepted

theorem sampleName_ne : ∀ b ∈ ascii "f", b ≠ 0 := by decide +kernel

theorem caseEq_octet : caseEq (ascii "octet") (ascii "octet") := by decide +kernel

section OneOption

variable {value : List UInt8}

theorem blksizeOption_ne (hne : ∀ b ∈ value, b ≠ 0) :
    ∀ o ∈ [(ascii "blksize", value)], (∀ b ∈ o.1, b ≠ 0) ∧ ∀ b ∈ o.2, b ≠ 0 := by
  have hname : ∀ b ∈ ascii "blksize", b ≠ 0 := by decide +kernel
  intro o ho
  obtain rfl := List.mem_singleton.mp ho
  exact ⟨hname, hne⟩

theorem blksizeOption_fits (hlen : value.length ≤ 32) :
    (rrqBytes (ascii "f") (ascii "octet") [(ascii "blksize", value)]).length ≤ rrqBufSize := by
  have hbytes : (rrqBytes (ascii "f") (ascii "octet") [(ascii "blksize", value)]).length =
      value.length + 19 := by
    simp [rrqBytes, optionBytes, ascii]
  rw [hbytes, rrqBufSize]
  omega

end OneOption

/-- A request with one option, the block size. -/
def blksizeRequest (value : List UInt8) (hne : ∀ b ∈ value, b ≠ 0) (hlen : value.length ≤ 32) :
    ReadRequest where
  filename := ascii "f"
  mode := ascii "octet"
  options := [(ascii "blksize", value)]
  filename_ne := sampleName_ne
  mode_octet := caseEq_octet
  options_ne := blksizeOption_ne hne
  fits := blksizeOption_fits hlen

/-- The results of the calls when all goes well. -/
def sampleIo : RrqIo := ⟨5, 0, fun _ => 6, true⟩

theorem accepts_sample (r : ReadRequest) (f : File) :
    (handleRrq f sampleIo (recvBuf rrqBufSize (fun _ => 0) r.bytes) r.bytes.length ⟨1, 2⟩).1 =
      some (r.client sampleIo ⟨1, 2⟩) :=
  handleRrq_of_opens (by decide) le_rfl (show (0 : ℤ) ≤ 6 by decide)

theorem dataFits_1024 : ∃ hne hlen c, (handleRrq ⟨0, fun _ => 0⟩ sampleIo
      (recvBuf rrqBufSize (fun _ => 0) (blksizeRequest (ascii "1024") hne hlen).bytes)
      (blksizeRequest (ascii "1024") hne hlen).bytes.length ⟨1, 2⟩).1 = some c ∧
    c.blksize = 1024 ∧ DataFits c ∧ DataBuilt c := by
  refine ⟨by decide +kernel, by decide +kernel, _, accepts_sample _ _, by decide +kernel, ?_⟩
  have h :=
    dataFits_iff
      (accepts_sample (blksizeRequest (ascii "1024") (by decide +kernel) (by decide +kernel))
    ⟨0, fun _ => 0⟩)
  exact ⟨h.1.mpr (by decide +kernel), h.2.mpr (by decide +kernel)⟩

/-- With `-1`, or with a number too large for `long`, the buffer has three bytes. -/
theorem not_dataFits_wrap : (atoi (ascii "-1") = -1 ∧ atoi (ascii "99999999999999999999") = -1) ∧
    ∀ value ∈ [ascii "-1", ascii "99999999999999999999"], ∃ hne hlen c,
    (handleRrq ⟨0, fun _ => 0⟩ sampleIo
      (recvBuf rrqBufSize (fun _ => 0) (blksizeRequest value hne hlen).bytes)
      (blksizeRequest value hne hlen).bytes.length ⟨1, 2⟩).1 = some c ∧
    (4 + c.blksize) % 2 ^ 64 = 3 ∧ ¬ DataFits c := by
  have hclient : ∀ value ∈ [ascii "-1", ascii "99999999999999999999"], ∃ hne hlen,
      (4 + ((blksizeRequest value hne hlen).client sampleIo ⟨1, 2⟩).blksize) % 2 ^ 64 = 3 := by
        decide +kernel
  refine ⟨by decide +kernel, fun value hvalue => ?_⟩
  obtain ⟨hne, hlen, hthree⟩ := hclient value hvalue
  refine ⟨hne, hlen, _, accepts_sample _ _, hthree, ?_⟩
  intro h
  have hheader := h.size 0 (Nat.zero_le _)
  rw [hthree] at hheader
  exact absurd hheader (by decide)

end Imola.Tqftp
