import Imola.TqftpServer

/-! # Read requests on the wire

A read request is the opcode, the file name, the mode and any number of options with their values,
each ended by a NUL.  `handle_rrq` reads them from its receive buffer with `strlen`; a request that
fits the buffer is read as it was meant (`parseRrq_bytes`), whatever the buffer held before.  Of
several values for one option the last counts. -/

namespace Imola.Tqftp

open Imola.Splice Imola.CInts Imola.CStrings

/-- The options of a request on the wire. -/
def optionBytes (options : List (List UInt8 × List UInt8)) : List UInt8 :=
  options.flatMap fun o => o.1 ++ 0 :: (o.2 ++ [0])

/-- A request on the wire. -/
def rrqBytes (filename mode : List UInt8) (options : List (List UInt8 × List UInt8)) : List UInt8 :=
  [0, UInt8.ofNat Op.rrq.code] ++ (filename ++ 0 :: (mode ++ 0 :: optionBytes options))

/-- A read request in octet mode that fits the receive buffer. -/
structure ReadRequest where
  filename : List UInt8
  mode : List UInt8
  options : List (List UInt8 × List UInt8)
  filename_ne : ∀ b ∈ filename, b ≠ 0
  mode_octet : caseEq mode (ascii "octet")
  options_ne : ∀ o ∈ options, (∀ b ∈ o.1, b ≠ 0) ∧ ∀ b ∈ o.2, b ≠ 0
  fits : (rrqBytes filename mode options).length ≤ rrqBufSize

namespace ReadRequest

def bytes (r : ReadRequest) : List UInt8 := rrqBytes r.filename r.mode r.options

/-- The last value given for an option. -/
def value (r : ReadRequest) (name : String) : Option (List UInt8) :=
  (r.options.reverse.find? fun o => o.1 = ascii name).map Prod.snd

/-- The block size asked for, as an `int`. -/
def blksize (r : ReadRequest) : ℤ := ((r.value "blksize").map atoi).getD 512

/-- The window asked for, as an `int`. -/
def wsize (r : ReadRequest) : ℤ := ((r.value "wsize").map atoi).getD 0

/-- What `handle_rrq` takes from the request. -/
def rrq (r : ReadRequest) : Rrq :=
  ⟨r.filename, r.options ≠ [], r.options.foldl (fun o kv => rrqOption o kv.1 kv.2) {}⟩

end ReadRequest

/-! ### Reading the strings -/

theorem exists_of_bind_eq_ok {ε α β : Type} {x : Except ε α} {g : α → Except ε β} {b : β}
    (h : x >>= g = .ok b) :
    ∃ a, x = .ok a ∧ g a = .ok b := by
  cases x with
  | error e => cases h
  | ok a => exact ⟨a, rfl, h⟩

section Strings

variable {stack : ℕ → UInt8}

theorem window_recvBuf {size : ℕ} {pre s post : List UInt8}
    (h : (pre ++ (s ++ post)).length ≤ size) :
    window (recvBuf size stack (pre ++ (s ++ post))) pre.length s.length = s := by
  apply List.ext_getElem
  · exact window_length _ _ _
  · intro i h₁ h₂
    have hi : pre.length + i < (pre ++ (s ++ post)).length := by
      simp only [List.length_append]
      omega
    simp only [window, List.getElem_map, List.getElem_range, recvBuf]
    rw [List.take_of_length_le h, List.getD_eq_getElem _ _ hi, List.getElem_append_right (by omega)]
    simp only [Nat.add_sub_cancel_left]
    exact List.getElem_append_left h₂

theorem stringAt_recvBuf {pre s post : List UInt8} (hs : ∀ b ∈ s, b ≠ 0)
    (h : (pre ++ (s ++ 0 :: post)).length ≤ rrqBufSize) :
    stringAt (recvBuf rrqBufSize stack (pre ++ (s ++ 0 :: post))) pre.length = .ok s := by
  have hsplit : s ++ 0 :: post = (s ++ [0]) ++ post := by simp
  have hw : window (recvBuf rrqBufSize stack (pre ++ (s ++ 0 :: post))) pre.length (s.length + 1) =
      s ++ [0] := by
    have hw' := @window_recvBuf stack rrqBufSize pre (s ++ [0]) post (by rw [← hsplit]; exact h)
    rwa [← hsplit, List.length_append, List.length_singleton] at hw'
  have hroom : s.length < rrqBufSize - pre.length := by
    simp only [List.length_append, List.length_cons] at h
    omega
  rw [stringAt, cString_of_window hs hroom hw]

/-- The names and values that the loop over the options reads. -/
def optionPairs (buf : ℕ → UInt8) (len : ℕ) :
    (rounds p : ℕ) → Except Fault (List (List UInt8 × List UInt8))
  | 0, _ => .ok []
  | rounds + 1, p =>
      if p < len then do
        let opt ← stringAt buf p
        let value ← stringAt buf (p + opt.length + 1)
        let rest ← optionPairs buf len rounds (p + opt.length + 1 + value.length + 1)
        pure ((opt, value) :: rest)
      else .ok []

/-- The loop is a fold over the pairs it reads. -/
theorem rrqOptions_eq_map (buf : ℕ → UInt8) (len rounds : ℕ) : ∀ (p : ℕ) (o : RrqOptions),
    rrqOptions buf len rounds p o =
      (optionPairs buf len rounds p).map fun options =>
      options.foldl (fun o kv => rrqOption o kv.1 kv.2) o := by
  induction rounds with
  | zero => exact fun p o => rfl
  | succ rounds ih =>
      intro p o
      rw [rrqOptions, optionPairs]
      by_cases hp : p < len
      · rw [if_pos hp, if_pos hp]
        cases hopt : stringAt buf p with
        | error e => rfl
        | ok opt =>
            cases hvalue : stringAt buf (p + opt.length + 1) with
            | error e =>
                simp only [bind, Except.bind, hvalue]
                rfl
            | ok value =>
                simp only [bind, Except.bind, hvalue, ih]
                cases optionPairs buf len rounds (p + opt.length + 1 + value.length + 1) with
                | error e => rfl
                | ok rest => rfl
      · rw [if_neg hp, if_neg hp]
        rfl

theorem optionPairs_bytes {options : List (List UInt8 × List UInt8)}
    (hne : ∀ o ∈ options, (∀ b ∈ o.1, b ≠ 0) ∧ ∀ b ∈ o.2, b ≠ 0) :
    ∀ {pre : List UInt8} {rounds : ℕ},
      (pre ++ optionBytes options).length ≤ rrqBufSize → options.length ≤ rounds →
      optionPairs (recvBuf rrqBufSize stack (pre ++ optionBytes options))
        (pre ++ optionBytes options).length rounds
        pre.length = .ok options := by
  induction options with
  | nil =>
      intro pre rounds _ _
      cases rounds with
      | zero => rfl
      | succ rounds => rw [optionPairs, if_neg (by simp [optionBytes])]
  | cons kv options ih =>
      intro pre rounds hlen hrounds
      obtain ⟨rounds, rfl⟩ : ∃ n, rounds = n + 1 :=
        ⟨rounds - 1, by rw [List.length_cons] at hrounds; omega⟩
      obtain ⟨hname, hvalue⟩ := hne kv (List.mem_cons_self ..)
      have hcons : optionBytes (kv :: options) = kv.1 ++ 0 ::
          (kv.2 ++ 0 :: optionBytes options) := by
        simp [optionBytes]
      rw [hcons] at hlen ⊢
      have h₁ := @stringAt_recvBuf stack pre kv.1 _ hname hlen
      have hsplit : pre ++ (kv.1 ++ 0 :: (kv.2 ++ 0 :: optionBytes options)) =
          (pre ++ kv.1 ++ [0]) ++ (kv.2 ++ 0 :: optionBytes options) := by simp
      have h₂ := @stringAt_recvBuf stack (pre ++ kv.1 ++ [0]) kv.2 (optionBytes options) hvalue
        (by rw [← hsplit]; exact hlen)
      have hsplit' : pre ++ (kv.1 ++ 0 :: (kv.2 ++ 0 :: optionBytes options)) =
          (pre ++ kv.1 ++ [0] ++ kv.2 ++ [0]) ++ optionBytes options := by simp
      have hrest := @ih (fun o ho => hne o (List.mem_cons_of_mem _ ho))
        (pre ++ kv.1 ++ [0] ++ kv.2 ++ [0]) rounds
        (by rw [← hsplit']; exact hlen) (by rw [List.length_cons] at hrounds; omega)
      rw [← hsplit'] at hrest
      rw [← hsplit] at h₂
      have hp₁ : (pre ++ kv.1 ++ [0]).length = pre.length + kv.1.length + 1 := by
        simp only [List.length_append, List.length_cons, List.length_nil]
      have hp₂ : (pre ++ kv.1 ++ [0] ++ kv.2 ++ [0]).length =
          pre.length + kv.1.length + 1 + kv.2.length + 1 := by
        simp only [List.length_append, List.length_cons, List.length_nil]
      rw [hp₁] at h₂
      rw [hp₂] at hrest
      have hlt :
          pre.length < (pre ++ (kv.1 ++ 0 :: (kv.2 ++ 0 :: optionBytes options))).length := by
        simp only [List.length_append, List.length_cons]
        omega
      rw [optionPairs, if_pos hlt, h₁]
      show (stringAt _ _ >>= fun value => optionPairs _ _ _ _ >>= _) = _
      rw [h₂]
      show (optionPairs _ _ _ _ >>= _) = _
      rw [hrest]
      rfl

theorem ne_zero_of_octet {mode : List UInt8} (h : caseEq mode (ascii "octet")) :
    ∀ b ∈ mode, b ≠ 0 := by
  rintro b hb rfl
  have hmem : toLower 0 ∈ mode.map toLower := List.mem_map_of_mem hb
  rw [h] at hmem
  exact absurd hmem (by decide)

theorem length_le_optionBytes (options : List (List UInt8 × List UInt8)) :
    options.length ≤ (optionBytes options).length := by
  induction options with
  | nil => exact le_rfl
  | cons kv options ih =>
      simp only [optionBytes, List.flatMap_cons, List.length_append, List.length_cons] at ih ⊢
      omega

/-- The strings of a request. -/
structure Strings where
  filename : List UInt8
  mode : List UInt8
  pairs : List (List UInt8 × List UInt8)
deriving DecidableEq, Repr

/-- The strings that `handle_rrq` reads; it looks at the options in octet mode only. -/
def rrqStrings (buf : ℕ → UInt8) (len : ℕ) : Except Fault Strings := do
  let filename ← stringAt buf 2
  let mode ← stringAt buf (2 + filename.length + 1)
  if ¬ caseEq mode (ascii "octet") then pure ⟨filename, mode, []⟩
  else do
    let pairs ← optionPairs buf len len (2 + filename.length + 1 + mode.length + 1)
    pure ⟨filename, mode, pairs⟩

/-- What `handle_rrq` takes from the strings. -/
def Strings.rrq (len : ℕ) (x : Strings) : Option Rrq :=
  if ¬ caseEq x.mode (ascii "octet") then none
  else
    some ⟨x.filename, 2 + x.filename.length + 1 + x.mode.length + 1 < len,
      x.pairs.foldl (fun o kv => rrqOption o kv.1 kv.2) {}⟩

theorem parseRrq_eq_map (buf : ℕ → UInt8) (len : ℕ) :
    parseRrq buf len = (rrqStrings buf len).map (Strings.rrq len) := by
  unfold parseRrq rrqStrings
  cases hname : stringAt buf 2 with
  | error e => rfl
  | ok filename =>
      cases hmode : stringAt buf (2 + filename.length + 1) with
      | error e =>
          simp only [bind, Except.bind, hmode]
          rfl
      | ok mode =>
          simp only [bind, Except.bind, hmode]
          by_cases hoctet : caseEq mode (ascii "octet")
          · rw [if_neg (not_not.mpr hoctet), if_neg (not_not.mpr hoctet), rrqOptions_eq_map]
            cases optionPairs buf len len (2 + filename.length + 1 + mode.length + 1) with
            | error e => rfl
            | ok pairs =>
                show Except.ok _ = Except.ok (Strings.rrq len ⟨filename, mode, pairs⟩)
                rw [Strings.rrq, if_neg (not_not.mpr hoctet)]
          · rw [if_pos hoctet, if_pos hoctet]
            show Except.ok _ = Except.ok (Strings.rrq len ⟨filename, mode, []⟩)
            rw [Strings.rrq, if_pos hoctet]

theorem stringAt_header {pre filename mode rest : List UInt8} (hpre : pre.length = 2)
    (hfilename : ∀ b ∈ filename, b ≠ 0) (hmode : ∀ b ∈ mode, b ≠ 0)
    (hlen : (pre ++ (filename ++ 0 :: (mode ++ 0 :: rest))).length ≤ rrqBufSize) :
    stringAt (recvBuf rrqBufSize stack (pre ++ (filename ++ 0 :: (mode ++ 0 :: rest)))) 2 =
      .ok filename ∧
    stringAt (recvBuf rrqBufSize stack (pre ++ (filename ++ 0 :: (mode ++ 0 :: rest))))
      (2 + filename.length + 1) =
      .ok mode := by
  have h₁ := @stringAt_recvBuf stack pre filename (mode ++ 0 :: rest) hfilename hlen
  have hsplit : pre ++ (filename ++ 0 :: (mode ++ 0 :: rest)) =
      (pre ++ filename ++ [0]) ++ (mode ++ 0 :: rest) := by
    simp
  have h₂ := @stringAt_recvBuf stack (pre ++ filename ++ [0]) mode rest hmode
    (by rw [← hsplit]; exact hlen)
  have hp : (pre ++ filename ++ [0]).length = 2 + filename.length + 1 := by
    simp only [List.length_append, List.length_cons, List.length_nil, hpre]
  rw [← hsplit, hp] at h₂
  rw [hpre] at h₁
  exact ⟨h₁, h₂⟩

theorem rrqStrings_bytes {pre filename mode rest : List UInt8}
    {pairs : List (List UInt8 × List UInt8)}
    (hpre : pre.length = 2) (hfilename : ∀ b ∈ filename, b ≠ 0) (hmode : ∀ b ∈ mode, b ≠ 0)
    (hpairs : ∀ o ∈ pairs, (∀ b ∈ o.1, b ≠ 0) ∧ ∀ b ∈ o.2, b ≠ 0)
    (hlen : (pre ++ (filename ++ 0 :: (mode ++ 0 :: rest))).length ≤ rrqBufSize)
    (hrest : if ¬ caseEq mode (ascii "octet") then pairs = [] else rest = optionBytes pairs) :
    rrqStrings (recvBuf rrqBufSize stack (pre ++ (filename ++ 0 :: (mode ++ 0 :: rest))))
      (pre ++ (filename ++ 0 :: (mode ++ 0 :: rest))).length = .ok ⟨filename, mode, pairs⟩ := by
  obtain ⟨h₁, h₂⟩ := @stringAt_header stack pre filename mode rest hpre hfilename hmode hlen
  unfold rrqStrings
  rw [h₁]
  show (stringAt _ _ >>= fun mode => _) = _
  rw [h₂]
  show (if ¬ caseEq mode (ascii "octet") then _ else _) = _
  by_cases hoctet : caseEq mode (ascii "octet")
  · rw [if_neg (not_not.mpr hoctet)] at hrest ⊢
    obtain rfl := hrest
    have hsplit' : pre ++ (filename ++ 0 :: (mode ++ 0 :: optionBytes pairs)) =
        (pre ++ filename ++ [0] ++ mode ++ [0]) ++ optionBytes pairs := by simp
    have hp₂ : (pre ++ filename ++ [0] ++ mode ++ [0]).length =
        2 + filename.length + 1 + mode.length + 1 := by
      simp only [List.length_append, List.length_cons, List.length_nil, hpre]
    have hcount := length_le_optionBytes pairs
    have h₃ := @optionPairs_bytes stack pairs hpairs (pre ++ filename ++ [0] ++ mode ++ [0])
      (pre ++ (filename ++ 0 ::
        (mode ++ 0 :: optionBytes pairs))).length (by rw [← hsplit']; exact hlen)
      (by rw [hsplit', List.length_append]; omega)
    rw [← hsplit', hp₂] at h₃
    rw [h₃]
    rfl
  · rw [if_pos hoctet] at hrest ⊢
    rw [hrest]
    rfl

/-- **A request is read as it was sent.** -/
theorem parseRrq_bytes (r : ReadRequest) (stack : ℕ → UInt8) :
    parseRrq (recvBuf rrqBufSize stack r.bytes) r.bytes.length = .ok (some r.rrq) := by
  have hstrings : rrqStrings (recvBuf rrqBufSize stack r.bytes) r.bytes.length =
      .ok ⟨r.filename, r.mode, r.options⟩ := by
    apply rrqStrings_bytes rfl r.filename_ne (ne_zero_of_octet r.mode_octet) r.options_ne r.fits
    rw [if_neg (not_not.mpr r.mode_octet)]
  have hoack : 2 + r.filename.length + 1 + r.mode.length + 1 < r.bytes.length ↔ r.options ≠ [] := by
    have hlen : r.bytes.length = 2 + r.filename.length + 1 + r.mode.length + 1 +
        (optionBytes r.options).length := by
      simp only [ReadRequest.bytes, rrqBytes, List.length_append, List.length_cons, List.length_nil]
      omega
    rw [hlen]
    constructor
    · rintro h hnil
      rw [hnil] at h
      simp [optionBytes] at h
    · intro hne
      have hpos := List.length_pos_iff.mpr hne
      have hcount := length_le_optionBytes r.options
      omega
  rw [parseRrq_eq_map, hstrings]
  show Except.ok (Strings.rrq _ ⟨r.filename, r.mode, r.options⟩) = _
  rw [Strings.rrq, if_neg (not_not.mpr r.mode_octet), ReadRequest.rrq, decide_eq_decide.mpr hoack]

end Strings

/-! ### The values taken -/

/-- A variable that one option sets has the last value given for it, converted to its type. -/
theorem foldl_rrqOption {γ : Type} (g : RrqOptions → γ) (conv : ℤ → γ) (name : String)
    {o : RrqOptions} {d : ℤ}
    (hset : ∀ o v, g (rrqOption o (ascii name) v) = conv (atoi v))
    (hkeep : ∀ o n v, ¬ n = ascii name → g (rrqOption o n v) = g o) (hd : g o = conv d)
    (options : List (List UInt8 × List UInt8)) :
    g (options.foldl (fun o kv => rrqOption o kv.1 kv.2) o) =
      conv ((((options.reverse.find? fun kv =>
        kv.1 = ascii name).map Prod.snd).map atoi).getD d) := by
  induction options using List.reverseRecOn with
  | nil => exact hd
  | append_singleton options kv ih =>
      rw [List.foldl_append, List.foldl_cons, List.foldl_nil, List.reverse_append,
        List.reverse_singleton,
        List.singleton_append]
      by_cases hname : kv.1 = ascii name
      · rw [hname, hset, List.find?_cons_of_pos (by simpa using hname)]
        rfl
      · rw [hkeep _ _ _ hname, List.find?_cons_of_neg (by simpa using hname)]
        exact ih

/-- The value asked for, as an `int`. -/
def ReadRequest.asked (r : ReadRequest) (name : String) (default : ℤ) : ℤ :=
  ((r.value name).map atoi).getD default

theorem ReadRequest.asked_range (r : ReadRequest) (name : String) {d : ℤ}
    (hd : -2 ^ 31 ≤ d ∧ d < 2 ^ 31) :
    -2 ^ 31 ≤ r.asked name d ∧ r.asked name d < 2 ^ 31 := by
  unfold ReadRequest.asked
  cases r.value name with
  | none => exact hd
  | some v => exact ⟨le_atoi v, atoi_lt v⟩

theorem ReadRequest.blksize_range (r : ReadRequest) : -2 ^ 31 ≤ r.blksize ∧ r.blksize < 2 ^ 31 :=
  r.asked_range "blksize" (by norm_num)

theorem ReadRequest.wsize_range (r : ReadRequest) : -2 ^ 31 ≤ r.wsize ∧ r.wsize < 2 ^ 31 :=
  r.asked_range "wsize" (by norm_num)

theorem ReadRequest.rrq_blksize (r : ReadRequest) : r.rrq.options.blksize = toSize r.blksize := by
  apply foldl_rrqOption RrqOptions.blksize toSize "blksize" (fun o v => rfl) ?_ rfl r.options
  intro o n v hn
  unfold rrqOption
  split_ifs
  all_goals rfl

theorem ReadRequest.rrq_timeoutms (r : ReadRequest) :
    r.rrq.options.timeoutms = (r.asked "timeoutms" 1000 % 2 ^ 32).toNat := by
  have hkeep : ∀ (o : RrqOptions) (n v : List UInt8), ¬ n = ascii "timeoutms" →
      (rrqOption o n v).timeoutms = o.timeoutms := by
    intro o n v hn
    unfold rrqOption
    split_ifs
    all_goals rfl
  have hdefault : RrqOptions.timeoutms {} = (1000 % 2 ^ 32 : ℤ).toNat := rfl
  exact foldl_rrqOption RrqOptions.timeoutms (fun v : ℤ => (v % 2 ^ 32).toNat)
    "timeoutms" (fun o v => rfl) hkeep
    hdefault r.options

theorem ReadRequest.rrq_tsize (r : ReadRequest) : r.rrq.options.tsize = r.asked "tsize" (-1) := by
  apply foldl_rrqOption RrqOptions.tsize id "tsize" (fun o v => rfl) ?_ rfl r.options
  intro o n v hn
  unfold rrqOption
  split_ifs
  all_goals rfl

theorem ReadRequest.rrq_rsize (r : ReadRequest) :
    r.rrq.options.rsize = toSize (r.asked "rsize" 0) := by
  apply foldl_rrqOption RrqOptions.rsize toSize "rsize" (fun o v => rfl) ?_ rfl r.options
  intro o n v hn
  unfold rrqOption
  split_ifs
  all_goals rfl

theorem ReadRequest.rrq_wsize (r : ReadRequest) : r.rrq.options.wsize = toSize r.wsize := by
  apply foldl_rrqOption RrqOptions.wsize toSize "wsize" (fun o v => rfl) ?_ rfl r.options
  intro o n v hn
  unfold rrqOption
  split_ifs
  all_goals rfl

/-! ### Accepted requests -/

/-- The client that is made for an accepted request. -/
def ReadRequest.client (r : ReadRequest) (io : RrqIo) (sq : Addr) : TftpClient where
  sq := sq
  sock := io.qrtrOpen
  fd := io.translateOpen r.filename
  blksize := r.rrq.options.blksize
  rsize := r.rrq.options.rsize
  wsize := r.rrq.options.wsize
  timeoutms := r.rrq.options.timeoutms

/-- The answer to an accepted request: the OACK, or the first block when there are no options. -/
def ReadRequest.answer (r : ReadRequest) (f : File) (io : RrqIo) (sq : Addr) : List (List UInt8) :=
  if r.options = [] then
    match tftpSendData f (r.client io sq).blksize io.sendOk 1 0 with
    | .error _ => []
    | .ok (_, sent) => sent
  else if io.sendOk
    then [oackPacket (r.client io sq) (if r.rrq.options.tsize ≠ -1 then f.size else -1)]
  else []

section Accepted

variable {r : ReadRequest} {f : File} {io : RrqIo} {stack : ℕ → UInt8} {sq : Addr} {c : TftpClient}

/-- **What an accepted request leaves.** -/
theorem handleRrq_request
    (haccept : (handleRrq f io (recvBuf rrqBufSize stack r.bytes) r.bytes.length sq).1 = some c) :
    c = r.client io sq ∧
    (handleRrq f io (recvBuf rrqBufSize stack r.bytes) r.bytes.length sq).2.sent =
      r.answer f io sq := by
  unfold handleRrq at haccept ⊢
  rw [parseRrq_bytes] at haccept ⊢
  dsimp only at haccept ⊢
  by_cases h₁ : io.qrtrOpen < 0
  · rw [if_pos h₁] at haccept
    cases haccept
  by_cases h₂ : io.connect < 0
  · rw [if_neg h₁, if_pos h₂] at haccept
    cases haccept
  by_cases h₃ : io.translateOpen r.rrq.filename < 0
  · rw [if_neg h₁, if_neg h₂, if_pos h₃] at haccept
    cases haccept
  rw [if_neg h₁, if_neg h₂, if_neg h₃] at haccept ⊢
  have hoack : r.rrq.doOack = decide (r.options ≠ []) := rfl
  by_cases h₄ : r.options = []
  · rw [hoack, decide_eq_false (not_not.mpr h₄), if_neg Bool.false_ne_true] at haccept ⊢
    rw [ReadRequest.answer, if_pos h₄, ReadRequest.client]
    cases hdata : tftpSendData f r.rrq.options.blksize io.sendOk 1 0 with
    | error e =>
        rw [hdata] at haccept
        cases haccept
        exact ⟨rfl, rfl⟩
    | ok v =>
        rw [hdata] at haccept
        cases haccept
        exact ⟨rfl, rfl⟩
  · rw [hoack, decide_eq_true h₄, if_pos rfl] at haccept ⊢
    rw [ReadRequest.answer, if_neg h₄]
    cases haccept
    exact ⟨rfl, rfl⟩

/-- A request is accepted when the socket and the file are there. -/
theorem handleRrq_of_opens (hsock : 0 ≤ io.qrtrOpen) (hconnect : 0 ≤ io.connect)
    (hfile : 0 ≤ io.translateOpen r.filename) :
    (handleRrq f io (recvBuf rrqBufSize stack r.bytes) r.bytes.length sq).1 =
      some (r.client io sq) := by
  unfold handleRrq
  rw [parseRrq_bytes]
  dsimp only
  rw [if_neg (not_lt.mpr hsock), if_neg (not_lt.mpr hconnect),
    if_neg (show ¬ io.translateOpen r.rrq.filename < 0 from
    not_lt.mpr hfile)]
  cases hoack : r.rrq.doOack with
  | true =>
      rw [if_pos rfl]
      rfl
  | false =>
      rw [if_neg Bool.false_ne_true]
      cases tftpSendData f r.rrq.options.blksize io.sendOk 1 0 with
      | error e => rfl
      | ok v => rfl

theorem handleRrq_accepted
    (haccept : (handleRrq f io (recvBuf rrqBufSize stack r.bytes) r.bytes.length sq).1 = some c)
    (hsend : io.sendOk = true) :
    c.sq = sq ∧ c.blksize = toSize r.blksize ∧ c.wsize = toSize r.wsize ∧
    (r.options ≠ [] → ∃ tsize,
      (handleRrq f io (recvBuf rrqBufSize stack r.bytes) r.bytes.length sq).2.sent =
      [oackPacket c tsize]) ∧
    (r.options = [] → ∀ n sent, tftpSendData f c.blksize true 1 0 = .ok (n, sent) →
      (handleRrq f io (recvBuf rrqBufSize stack r.bytes) r.bytes.length sq).2.sent = sent) := by
  obtain ⟨rfl, hsent⟩ := handleRrq_request haccept
  refine ⟨rfl, r.rrq_blksize, r.rrq_wsize, fun hne => ?_, fun hnil n sent hdata => ?_⟩
  · rw [ReadRequest.answer, if_neg hne, if_pos hsend] at hsent
    exact ⟨_, hsent⟩
  · rw [ReadRequest.answer, if_pos hnil, hsend, hdata] at hsent
    exact hsent

end Accepted

end Imola.Tqftp
