import Imola.TqftpPackets

/-! # Only what was received

`handle_rrq` and `handle_wrq` walk over the strings of a request with `strlen`.  They should find
all strings in the part of the buffer that was received, and then what the buffer held before does
not matter (`ServiceUses`).  The length of the request is compared with the start of an option only,
so this holds exactly for requests that end every string they begin, with an even number of strings
behind the mode (`serviceUses_iff`).

`usesReceived_iff` puts this together with the packets for readers and writers. -/

namespace Imola.Tqftp

open Imola.CStrings Imola.Splice

/-! ### The strings and their places -/

/-- The options with the places where they begin, from `p` on. -/
def places : ℕ → List (List UInt8 × List UInt8) → List (ℕ × List UInt8)
  | _, [] => []
  | p, (name, value) :: pairs =>
      (p, name) :: (p + name.length + 1, value) ::
        places (p + name.length + 1 + value.length + 1) pairs

/-- All strings of a request, with the places where they begin. -/
def Strings.placed (x : Strings) : List (ℕ × List UInt8) :=
  (2, x.filename) :: (2 + x.filename.length + 1, x.mode) ::
    places (2 + x.filename.length + 1 + x.mode.length + 1) x.pairs

/-- The strings lie within the first `len` bytes. -/
def Strings.Within (x : Strings) (len : ℕ) : Prop := ∀ s ∈ x.placed, s.1 + s.2.length ≤ len

/-- The strings that `handle_wrq` reads. -/
def wrqStrings (buf : ℕ → UInt8) : Except Fault Strings := do
  let filename ← stringAt buf 2
  let mode ← stringAt buf (2 + filename.length + 1)
  pure ⟨filename, mode, []⟩

theorem parseWrq_eq_map (buf : ℕ → UInt8) :
    parseWrq buf = (wrqStrings buf).map fun x => if caseEq x.mode (ascii "octet")
      then some x.filename else none := by
  unfold parseWrq wrqStrings
  cases hname : stringAt buf 2 with
  | error e => rfl
  | ok filename =>
      cases hmode : stringAt buf (2 + filename.length + 1) with
      | error e =>
          simp only [bind, Except.bind, hmode]
          rfl
      | ok mode =>
          simp only [bind, Except.bind, hmode]
          rfl

/-- **A packet on the service socket is used as far as it was received**: the outcome is the same
for any two leftover contents, and the strings of a request are there and lie within what was
received. -/
structure ServiceUses (datagram : List UInt8) : Prop where
  same : ∀ (b : Build) (s : Tqftpserv) (io : ServiceIo) (sq : Addr) (stack : ℕ → UInt8),
    io.recv = .datagram sq datagram → serve b s { io with stack := stack } = serve b s io
  answers : datagram.take 2 = [0, UInt8.ofNat Op.rrq.code] →
    ∀ (f : File) (io : RrqIo) (sq : Addr) (stack stack' : ℕ → UInt8),
      handleRrq f io (recvBuf rrqBufSize stack (datagram.take rrqBufSize))
        (datagram.take rrqBufSize).length sq =
        handleRrq f io (recvBuf rrqBufSize stack' (datagram.take rrqBufSize))
          (datagram.take rrqBufSize).length sq
  rrq : datagram.take 2 = [0, UInt8.ofNat Op.rrq.code] → ∀ stack,
    ∃ x, rrqStrings (recvBuf rrqBufSize stack (datagram.take rrqBufSize))
      (datagram.take rrqBufSize).length = .ok x ∧
      x.Within (datagram.take rrqBufSize).length
  wrq : datagram.take 2 = [0, UInt8.ofNat Op.wrq.code] → ∀ stack,
    ∃ x, wrqStrings (recvBuf rrqBufSize stack (datagram.take rrqBufSize)) = .ok x ∧
      x.Within (datagram.take rrqBufSize).length

/-! ### Requests that are complete -/

/-- The file name and the mode are ended. -/
structure Headed (bytes filename mode rest : List UInt8) : Prop where
  filename_ne : ∀ b ∈ filename, b ≠ 0
  mode_ne : ∀ b ∈ mode, b ≠ 0
  bytes_eq : bytes.drop 2 = filename ++ 0 :: (mode ++ 0 :: rest)

/-- A write request that ends its strings. -/
def WrqFormed (bytes : List UInt8) : Prop := ∃ filename mode rest, Headed bytes filename mode rest

/-- A read request that ends its strings; in octet mode the rest are options with their values. -/
def RrqFormed (bytes : List UInt8) : Prop :=
  ∃ filename mode rest, Headed bytes filename mode rest ∧ (caseEq mode (ascii "octet") →
    ∃ pairs, (∀ o ∈ pairs, (∀ b ∈ o.1, b ≠ 0) ∧ ∀ b ∈ o.2, b ≠ 0) ∧ rest = optionBytes pairs)

section Formed

variable {bytes : List UInt8} {stack : ℕ → UInt8}

/-- Without a NUL in the leftover, a string that lies in what was received ends there too. -/
theorem stringAt_received {p : ℕ} {s : List UInt8} (hstack : ∀ p, stack p ≠ 0)
    (hsize : bytes.length ≤ rrqBufSize)
    (h : stringAt (recvBuf rrqBufSize stack bytes) p = .ok s) (hp : p + s.length ≤ bytes.length) :
    (∀ b ∈ s, b ≠ 0) ∧ bytes.drop p = s ++ 0 :: bytes.drop (p + s.length + 1) ∧
    p + s.length + 1 ≤ bytes.length := by
  have hstring : cString (recvBuf rrqBufSize stack bytes) (rrqBufSize - p) p = some s := by
    unfold stringAt at h
    split at h
    · cases h
    · next s' hs' =>
        cases h
        exact hs'
  obtain ⟨hne, -, hwindow⟩ := window_of_cString hstring
  have hend : p + s.length + 1 ≤ bytes.length := by
    by_contra hlong
    have hlast : recvBuf rrqBufSize stack bytes (p + s.length) = 0 := by
      have hparts := window_eq_append (s := s) (t := [0])
        (by rw [List.length_append]; exact hwindow)
      simpa [window] using hparts.2
    rw [recvBuf_of_le (by omega)] at hlast
    exact hstack _ hlast
  refine ⟨hne, ?_, hend⟩
  have htake : bytes.take rrqBufSize = bytes := List.take_of_length_le hsize
  have hslice := @window_recvBuf_take rrqBufSize stack bytes p (s.length + 1) (by rw [htake]; omega)
  rw [htake, hwindow] at hslice
  calc bytes.drop p = (bytes.drop p).take (s.length + 1) ++ (bytes.drop p).drop (s.length + 1) :=
        (List.take_append_drop _ _).symm
    _ = (s ++ [0]) ++ bytes.drop (p + s.length + 1) := by
      rw [← hslice, List.drop_drop, Nat.add_assoc]
    _ = s ++ 0 :: bytes.drop (p + s.length + 1) := by simp

theorem optionPairs_received (hstack : ∀ p, stack p ≠ 0) (hsize : bytes.length ≤ rrqBufSize)
    (rounds : ℕ) :
    ∀ {p : ℕ} {pairs : List (List UInt8 × List UInt8)}, bytes.length ≤ p + rounds →
      optionPairs (recvBuf rrqBufSize stack bytes) bytes.length rounds p = .ok pairs →
      (∀ s ∈ places p pairs, s.1 + s.2.length ≤ bytes.length) →
      (∀ o ∈ pairs, (∀ b ∈ o.1, b ≠ 0) ∧ ∀ b ∈ o.2, b ≠ 0) ∧ bytes.drop p = optionBytes pairs := by
  have hdone : ∀ {p : ℕ}, bytes.length ≤ p → bytes.drop p = optionBytes [] := by
    intro p hp
    rw [List.drop_eq_nil_of_le hp]
    rfl
  induction rounds with
  | zero =>
      intro p pairs hp hread _
      cases hread
      exact ⟨fun o ho => absurd ho List.not_mem_nil, hdone hp⟩
  | succ rounds ih =>
      intro p pairs hp hread hwithin
      rw [optionPairs] at hread
      split_ifs at hread with hlt
      · obtain ⟨name, hname, hread⟩ := exists_of_bind_eq_ok hread
        obtain ⟨value, hvalue, hread⟩ := exists_of_bind_eq_ok hread
        obtain ⟨rest, hrest, hread⟩ := exists_of_bind_eq_ok hread
        cases hread
        rw [places] at hwithin
        obtain ⟨hnameNe, hnameEq, -⟩ :=
          stringAt_received hstack hsize hname (hwithin _ (List.mem_cons_self ..))
        obtain ⟨hvalueNe, hvalueEq, -⟩ := stringAt_received hstack hsize hvalue
          (hwithin _ (List.mem_cons_of_mem _ (List.mem_cons_self ..)))
        obtain ⟨hrestNe, hrestEq⟩ := ih (by omega) hrest
          (fun s hs => hwithin s (List.mem_cons_of_mem _ (List.mem_cons_of_mem _ hs)))
        refine ⟨?_, ?_⟩
        · intro o ho
          rcases List.mem_cons.mp ho with rfl | ho
          · exact ⟨hnameNe, hvalueNe⟩
          · exact hrestNe o ho
        · rw [hnameEq, hvalueEq, hrestEq]
          simp [optionBytes]
      · cases hread
        exact ⟨fun o ho => absurd ho List.not_mem_nil, hdone (not_lt.mp hlt)⟩

theorem headed_of_received {filename mode : List UInt8} (hstack : ∀ p, stack p ≠ 0)
    (hsize : bytes.length ≤ rrqBufSize)
    (hfilename : stringAt (recvBuf rrqBufSize stack bytes) 2 = .ok filename)
    (hmode : stringAt (recvBuf rrqBufSize stack bytes) (2 + filename.length + 1) = .ok mode)
    {pairs : List (List UInt8 × List UInt8)}
    (hwithin : Strings.Within ⟨filename, mode, pairs⟩ bytes.length) :
    Headed bytes filename mode (bytes.drop (2 + filename.length + 1 + mode.length + 1)) := by
  obtain ⟨hfilenameNe, hfilenameEq, -⟩ :=
    stringAt_received hstack hsize hfilename (hwithin _ (List.mem_cons_self ..))
  obtain ⟨hmodeNe, hmodeEq, -⟩ := stringAt_received hstack hsize hmode
    (hwithin _ (List.mem_cons_of_mem _ (List.mem_cons_self ..)))
  exact ⟨hfilenameNe, hmodeNe, by rw [hfilenameEq, hmodeEq]⟩

theorem wrqFormed_of_received {x : Strings} (hstack : ∀ p, stack p ≠ 0)
    (hsize : bytes.length ≤ rrqBufSize)
    (h : wrqStrings (recvBuf rrqBufSize stack bytes) = .ok x) (hwithin : x.Within bytes.length) :
    WrqFormed bytes := by
  obtain ⟨filename, hfilename, h⟩ := exists_of_bind_eq_ok h
  obtain ⟨mode, hmode, h⟩ := exists_of_bind_eq_ok h
  cases h
  exact ⟨_, _, _, headed_of_received hstack hsize hfilename hmode hwithin⟩

theorem rrqFormed_of_received {x : Strings} (hstack : ∀ p, stack p ≠ 0)
    (hsize : bytes.length ≤ rrqBufSize)
    (h : rrqStrings (recvBuf rrqBufSize stack bytes) bytes.length = .ok x)
    (hwithin : x.Within bytes.length) :
    RrqFormed bytes := by
  obtain ⟨filename, hfilename, h⟩ := exists_of_bind_eq_ok h
  obtain ⟨mode, hmode, h⟩ := exists_of_bind_eq_ok h
  by_cases hoctet : caseEq mode (ascii "octet")
  · rw [if_neg (not_not.mpr hoctet)] at h
    obtain ⟨pairs, hpairs, h⟩ := exists_of_bind_eq_ok h
    cases h
    have hoptions := optionPairs_received hstack hsize bytes.length (by omega) hpairs
      (fun s hs => hwithin s (List.mem_cons_of_mem _ (List.mem_cons_of_mem _ hs)))
    exact ⟨_, _, _, headed_of_received hstack hsize hfilename hmode hwithin,
      fun _ => ⟨pairs, hoptions⟩⟩
  · rw [if_pos hoctet] at h
    cases h
    exact ⟨_, _, _, headed_of_received hstack hsize hfilename hmode hwithin,
      fun h => absurd h hoctet⟩

/-! ### Complete requests are read alike -/

theorem Headed.split {filename mode rest : List UInt8} (h : Headed bytes filename mode rest) :
    bytes = bytes.take 2 ++ (filename ++ 0 :: (mode ++ 0 :: rest)) ∧ (bytes.take 2).length = 2 := by
  refine ⟨by rw [← h.bytes_eq, List.take_append_drop], ?_⟩
  have hlen := congrArg List.length h.bytes_eq
  rw [List.length_drop, List.length_append, List.length_cons] at hlen
  rw [List.length_take]
  omega

theorem Headed.length {filename mode rest : List UInt8} (h : Headed bytes filename mode rest) :
    bytes.length = 2 + filename.length + 1 + mode.length + 1 + rest.length := by
  obtain ⟨hbytes, htwo⟩ := h.split
  have hlen := congrArg List.length hbytes
  simp only [List.length_append, List.length_cons, htwo] at hlen
  omega

theorem within_places (pairs : List (List UInt8 × List UInt8)) :
    ∀ p, ∀ s ∈ places p pairs, s.1 + s.2.length ≤ p + (optionBytes pairs).length := by
  induction pairs with
  | nil => exact fun p s hs => absurd hs List.not_mem_nil
  | cons kv pairs ih =>
      obtain ⟨name, value⟩ := kv
      intro p s hs
      have hlen : (optionBytes ((name, value) :: pairs)).length =
          name.length + 1 + value.length + 1 + (optionBytes pairs).length := by
        simp [optionBytes]
        omega
      rw [places] at hs
      rcases List.mem_cons.mp hs with rfl | hs
      · dsimp only
        omega
      rcases List.mem_cons.mp hs with rfl | hs
      · dsimp only
        omega
      · have := ih _ s hs
        omega

theorem Headed.within {filename mode rest : List UInt8} {pairs : List (List UInt8 × List UInt8)}
    (h : Headed bytes filename mode rest) (hpairs : (optionBytes pairs).length ≤ rest.length) :
    Strings.Within ⟨filename, mode, pairs⟩ bytes.length := by
  have hlen := h.length
  intro s hs
  rcases List.mem_cons.mp hs with rfl | hs
  · dsimp only
    omega
  rcases List.mem_cons.mp hs with rfl | hs
  · dsimp only
    omega
  · have := within_places pairs _ s hs
    dsimp only at this
    omega

/-- **A complete read request has the same strings for every leftover.** -/
theorem RrqFormed.strings (h : RrqFormed bytes) (hsize : bytes.length ≤ rrqBufSize) : ∃ x : Strings,
    x.Within bytes.length ∧ ∀ stack, rrqStrings (recvBuf rrqBufSize stack bytes)
      bytes.length = .ok x := by
  obtain ⟨filename, mode, rest, hhead, hoptions⟩ := h
  obtain ⟨hbytes, htwo⟩ := hhead.split
  by_cases hoctet : caseEq mode (ascii "octet")
  · obtain ⟨pairs, hne, rfl⟩ := hoptions hoctet
    refine ⟨⟨filename, mode, pairs⟩, hhead.within le_rfl, fun stack => ?_⟩
    rw [hbytes] at hsize ⊢
    apply rrqStrings_bytes htwo hhead.filename_ne hhead.mode_ne hne hsize
    rw [if_neg (not_not.mpr hoctet)]
  · refine ⟨⟨filename, mode, []⟩, hhead.within (Nat.zero_le _), fun stack => ?_⟩
    rw [hbytes] at hsize ⊢
    apply rrqStrings_bytes htwo hhead.filename_ne hhead.mode_ne
      (fun o ho => absurd ho List.not_mem_nil) hsize
    rw [if_pos hoctet]

/-- **So does a complete write request.** -/
theorem WrqFormed.strings (h : WrqFormed bytes) (hsize : bytes.length ≤ rrqBufSize) : ∃ x : Strings,
    x.Within bytes.length ∧ ∀ stack, wrqStrings (recvBuf rrqBufSize stack bytes) = .ok x := by
  obtain ⟨filename, mode, rest, hhead⟩ := h
  obtain ⟨hbytes, htwo⟩ := hhead.split
  refine ⟨⟨filename, mode, []⟩, hhead.within (Nat.zero_le _), fun stack => ?_⟩
  rw [hbytes] at hsize ⊢
  obtain ⟨hfilename, hmode⟩ :=
    @stringAt_header stack _ filename mode rest htwo hhead.filename_ne hhead.mode_ne hsize
  unfold wrqStrings
  rw [hfilename]
  show (stringAt _ _ >>= fun mode => _) = _
  rw [hmode]
  rfl

end Formed

/-! ### The service socket -/

section Service

variable {b : Build} {s : Tqftpserv} {io : ServiceIo} {buf buf' : ℕ → UInt8} {len : ℕ} {sq : Addr}
  {datagram : List UInt8}

theorem serveRrq_congr (h : parseRrq buf len = parseRrq buf' len) (stack : ℕ → UInt8) :
    serveRrq b { io with stack := stack } s buf len sq = serveRrq b io s buf' len sq := by
  unfold serveRrq
  rw [h]
  rfl

theorem serveWrq_congr (h : parseWrq buf = parseWrq buf') (stack : ℕ → UInt8) :
    serveWrq b { io with stack := stack } s buf sq = serveWrq b io s buf' sq := by
  unfold serveWrq
  rw [h]
  rfl

/-- The outcome depends on how a request is read, and on nothing else in the buffer. -/
theorem serve_congr (hrecv : io.recv = .datagram sq datagram) (stack : ℕ → UInt8)
    (hrrq : datagram.take 2 = [0, UInt8.ofNat Op.rrq.code] → ∀ stack stack',
      parseRrq (recvBuf rrqBufSize stack (datagram.take rrqBufSize))
        (datagram.take rrqBufSize).length =
        parseRrq (recvBuf rrqBufSize stack' (datagram.take rrqBufSize))
          (datagram.take rrqBufSize).length)
    (hwrq : datagram.take 2 = [0, UInt8.ofNat Op.wrq.code] → ∀ stack stack',
      parseWrq (recvBuf rrqBufSize stack (datagram.take rrqBufSize)) =
        parseWrq (recvBuf rrqBufSize stack' (datagram.take rrqBufSize))) :
    serve b s { io with stack := stack } = serve b s io := by
  have htake : (datagram.take rrqBufSize).take 2 = datagram.take 2 := by
    rw [List.take_take]
    rfl
  unfold serve
  simp only [hrecv]
  by_cases hctrl : sq.port = portCtrl
  · rw [if_pos hctrl, if_pos hctrl]
  rw [if_neg hctrl, if_neg hctrl]
  by_cases hshort : (datagram.take rrqBufSize).length < 2
  · rw [if_pos hshort, if_pos hshort]
  rw [if_neg hshort, if_neg hshort]
  have hop : ∀ (op : Op) (stack : ℕ → UInt8),
      be16 (recvBuf rrqBufSize stack (datagram.take rrqBufSize)) 0 = op.code ↔
      datagram.take 2 = [0, UInt8.ofNat op.code] := by
    intro op stack
    rw [be16_iff_mayBe (by decide) (not_lt.mp hshort), mayBe_iff_take (not_lt.mp hshort), htake]
  simp only [hop]
  by_cases hread : datagram.take 2 = [0, UInt8.ofNat Op.rrq.code]
  · rw [if_pos hread, if_pos hread]
    exact serveRrq_congr (hrrq hread stack io.stack) stack
  rw [if_neg hread, if_neg hread]
  by_cases hwrite : datagram.take 2 = [0, UInt8.ofNat Op.wrq.code]
  · rw [if_pos hwrite, if_pos hwrite]
    exact serveWrq_congr (hwrq hwrite stack io.stack) stack
  · rw [if_neg hwrite, if_neg hwrite]

/-- **When the service socket uses only what it received.** -/
theorem serviceUses_iff : ServiceUses datagram ↔
    (datagram.take 2 = [0, UInt8.ofNat Op.rrq.code] → RrqFormed (datagram.take rrqBufSize)) ∧
    (datagram.take 2 = [0, UInt8.ofNat Op.wrq.code] → WrqFormed (datagram.take rrqBufSize)) := by
  have hsize : (datagram.take rrqBufSize).length ≤ rrqBufSize := by
    rw [List.length_take]
    exact min_le_left _ _
  constructor
  · intro h
    refine ⟨fun hop => ?_, fun hop => ?_⟩
    · obtain ⟨x, hx, hwithin⟩ := h.rrq hop fun _ => 1
      exact rrqFormed_of_received (fun _ => by decide) hsize hx hwithin
    · obtain ⟨x, hx, hwithin⟩ := h.wrq hop fun _ => 1
      exact wrqFormed_of_received (fun _ => by decide) hsize hx hwithin
  · rintro ⟨hrrq, hwrq⟩
    have hparseRrq : datagram.take 2 = [0, UInt8.ofNat Op.rrq.code] → ∀ stack stack',
        parseRrq (recvBuf rrqBufSize stack (datagram.take rrqBufSize))
          (datagram.take rrqBufSize).length =
          parseRrq (recvBuf rrqBufSize stack' (datagram.take rrqBufSize))
            (datagram.take rrqBufSize).length := by
      intro hop stack stack'
      obtain ⟨x, -, hx⟩ := (hrrq hop).strings hsize
      rw [parseRrq_eq_map, parseRrq_eq_map, hx, hx]
    have hparseWrq : datagram.take 2 = [0, UInt8.ofNat Op.wrq.code] → ∀ stack stack',
        parseWrq (recvBuf rrqBufSize stack (datagram.take rrqBufSize)) =
          parseWrq (recvBuf rrqBufSize stack' (datagram.take rrqBufSize)) := by
      intro hop stack stack'
      obtain ⟨x, -, hx⟩ := (hwrq hop).strings hsize
      rw [parseWrq_eq_map, parseWrq_eq_map, hx, hx]
    constructor
    · intro b s io sq stack hrecv
      exact serve_congr hrecv stack hparseRrq hparseWrq
    · intro hop f io sq stack stack'
      unfold handleRrq
      rw [hparseRrq hop stack stack']
    · intro hop stack
      obtain ⟨x, hwithin, hx⟩ := (hrrq hop).strings hsize
      exact ⟨x, hx stack, hwithin⟩
    · intro hop stack
      obtain ⟨x, hwithin, hx⟩ := (hwrq hop).strings hsize
      exact ⟨x, hx stack, hwithin⟩

end Service

/-- **The handlers use only received bytes** of a packet exactly when a reader gets no short
acknowledgement and no error that fills its array, a writer no packet that ends inside the opcode of
data, and the service socket no request with a string that does not end in it. -/
theorem usesReceived_iff (bytes : List UInt8) :
    (ReaderUses bytes ↔ (4 ≤ bytes.length ∨ ¬ MayBe .ack bytes) ∧
      ¬ (128 ≤ bytes.length ∧ MayBe .error bytes)) ∧
    (WriterUses bytes ↔ 2 ≤ bytes.length ∨ ¬ MayBe .data bytes) ∧
    (ServiceUses bytes ↔
      (bytes.take 2 = [0, UInt8.ofNat Op.rrq.code] → RrqFormed (bytes.take rrqBufSize)) ∧
      (bytes.take 2 = [0, UInt8.ofNat Op.wrq.code] → WrqFormed (bytes.take rrqBufSize))) :=
  ⟨readerUses_iff, writerUses_iff, serviceUses_iff⟩

/-- A read request whose last option has no value. -/
def oddRequest : List UInt8 :=
  rrqBytes (ascii "f") (ascii "octet") [] ++ (ascii "blksize" ++ [0])

theorem not_usesReceived : ¬ ReaderUses (0 :: 5 :: List.replicate 126 65) ∧ ¬ WriterUses [0] ∧
    ¬ ServiceUses oddRequest := by
  refine ⟨?_, ?_, ?_⟩
  · rw [readerUses_iff]
    rintro ⟨-, h⟩
    exact h (by decide +kernel)
  · rw [writerUses_iff]
    decide
  · intro h
    have hread : rrqStrings (recvBuf rrqBufSize (fun p => if p = 24 then 0 else 49)
      (oddRequest.take rrqBufSize))
        (oddRequest.take rrqBufSize).length =
        .ok ⟨ascii "f", ascii "octet", [(ascii "blksize", ascii "111111")]⟩ := by decide +kernel
    obtain ⟨x, hx, hwithin⟩ := h.rrq (by decide +kernel) fun p => if p = 24 then 0 else 49
    obtain rfl := Except.ok.inj (hread.symm.trans hx)
    have hlong := hwithin (18, ascii "111111") (by decide +kernel)
    exact absurd hlong (by decide +kernel)

end Imola.Tqftp
