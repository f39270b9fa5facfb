import Imola.Splice
import Imola.Runs
import Imola.BridgeLoop

/-! # The receive buffer of `imola-bridge`

`BridgeLoop.lean` models the buffer as a list.  Here it is what the C code has: an array of which
the first `buf_pos` bytes are pending, a parser that counts positions in it, and `size_t`
differences that wrap.  `message` is one round of the inner loop and `readStep` one pass through the
head of the outer one.

* **Bounds.**  `Within len pos lo hi r` says that a part of the parser that starts at `pos` reads
  between `lo` and `hi` bytes, none of them behind `len`, and waits for no more than `hi`.  It is
  kept by sequencing, so `parse_rpc_request` waits for at most `longestRequest` bytes
  (`parseAt_within`), and no difference in the loop wraps (`bridge_progress`).
* **Refinement.**  `Agrees` compares a part of the parser with the parser on lists, so a round of
  the inner loop does what `processBuffer` does (`message_process`) and a run what the bytes ask for
  (`replies_of_fed`). -/

namespace Imola.Bridge

open Imola.Streams Imola.Bytes Imola.Splice Imola.Runs

/-! ### The parser on positions -/

/-- The difference of two `size_t`. -/
def subSize (x y : ℕ) : ℕ := (x + (2 ^ 64 - y % 2 ^ 64)) % 2 ^ 64

theorem subSize_of_le {x y : ℕ} (hx : x < 2 ^ 64) (h : y ≤ x) : subSize x y = x - y := by
  unfold subSize
  omega

/-- The returns before the end of the parser: `0` and `-1`. -/
inductive Stop where
  | incomplete
  | syncError
deriving DecidableEq, Repr

section Positions

variable (buf : ℕ → UInt8) (len : ℕ)

/-- `if (len < n) return 0;` -/
def need (n : ℕ) : Except Stop Unit := if len < n then throw .incomplete else pure ()

/-- `if (!c) return -1;` -/
def expect (c : Bool) : Except Stop Unit := if c then pure () else throw .syncError

/-- `msg_id`, and the position behind it. -/
def msgIdAt (pos : ℕ) : Except Stop (ℕ × ℕ) :=
  if buf pos ≤ 0x7f then pure ((buf pos).toNat, pos + 1)
  else if buf pos = 0xcc then do
    need len (pos + 2)
    pure ((buf (pos + 1)).toNat, pos + 2)
  else if buf pos = 0xcd then do
    need len (pos + 3)
    pure ((buf (pos + 1)).toNat <<< 8 ||| (buf (pos + 2)).toNat, pos + 3)
  else if buf pos = 0xce then do
    need len (pos + 5)
    pure ((buf (pos + 1)).toNat <<< 24 ||| (buf (pos + 2)).toNat <<< 16 |||
      (buf (pos + 3)).toNat <<< 8 ||| (buf (pos + 4)).toNat, pos + 5)
  else throw .syncError

/-- A fixstr: the bytes copied into an array of `max` bytes. -/
def fixstrAt (max pos : ℕ) : Except Stop (List UInt8 × ℕ) := do
  need len (pos + 1)
  expect (buf pos &&& 0xe0 = 0xa0)
  let n := (buf pos &&& 0x1f).toNat
  need len (pos + 1 + n)
  pure (window buf (pos + 1) (if n < max - 1 then n else max - 1), pos + 1 + n)

/-- The header of the parameters: `param_count`. -/
def fixarrayAt (pos : ℕ) : Except Stop (ℕ × ℕ) := do
  need len (pos + 1)
  expect (buf pos &&& 0xf0 = 0x90)
  pure ((buf pos &&& 0x0f).toNat, pos + 1)

/-- Parameter 0. -/
def pinAt (pinMax paramCount pos : ℕ) : Except Stop (List UInt8 × ℕ) :=
  if paramCount ≥ 1 then fixstrAt buf len pinMax pos else pure ([], pos)

/-- Parameter 1. -/
def valAt (paramCount pos : ℕ) : Except Stop (ℕ × ℕ) :=
  if paramCount ≥ 2 then do
    need len (pos + 1)
    let v := buf pos
    if v = 0xc3 ∨ v = 0x01 then pure (1, pos + 1)
    else if v = 0xc2 ∨ v = 0x00 then pure (0, pos + 1)
    else if v = 0xcc then do
      need len (pos + 2)
      pure (if buf (pos + 1) ≠ 0 then 1 else 0, pos + 2)
    else pure (0, pos + 1)
  else pure (0, pos)

/-- `parse_rpc_request` on the first `len` bytes of `buf`: the output arguments and the number of
bytes consumed. -/
def parseAt (methodMax pinMax : ℕ) : Except Stop (Request × ℕ) := do
  need len 4
  expect (buf 0 = 0x94)
  expect (buf 1 = 0x00)
  let (msgId, pos) ← msgIdAt buf len 2
  let (method, pos) ← fixstrAt buf len methodMax pos
  let (paramCount, pos) ← fixarrayAt buf len pos
  let (pin, pos) ← pinAt buf len pinMax paramCount pos
  let (val, pos) ← valAt buf len paramCount pos
  pure (⟨msgId, method, pin, val⟩, pos)

end Positions

/-! ### The loop -/

/-- Where the loop stands: at the head of the outer loop, or at that of the inner one. -/
inductive Loc where
  | read
  | messages
deriving DecidableEq, Repr

/-- The state of the loop. -/
structure BridgeState where
  loc : Loc
  buf : ℕ → UInt8
  bufPos : ℕ
  log : List Event

/-- The search for the next `0x94 0x00`, for at most `rounds` rounds. -/
def skipLoop (buf : ℕ → UInt8) (bufPos : ℕ) : ℕ → ℕ → ℕ
  | 0, skip => skip
  | rounds + 1, skip =>
      if skip + 1 < bufPos ∧ ¬ (buf skip = 0x94 ∧ buf (skip + 1) = 0x00) then
        skipLoop buf bufPos rounds (skip + 1)
      else skip

/-- The bytes skipped after a protocol error. -/
def skipOf (buf : ℕ → UInt8) (bufPos : ℕ) : ℕ := skipLoop buf bufPos bufPos 1

/-- `memmove(buf, buf + n, buf_pos - n); buf_pos -= n;` -/
def BridgeState.consume (s : BridgeState) (n : ℕ) : BridgeState :=
  { s with
    buf := overlay s.buf 0 (window s.buf n (subSize s.bufPos n))
    bufPos := subSize s.bufPos n }

/-- One round of the inner loop. -/
def BridgeState.message (s : BridgeState) : BridgeState :=
  if s.bufPos > 0 then
    match parseAt s.buf s.bufPos 32 32 with
    | .error .incomplete => { s with loc := .read }
    | .error .syncError => s.consume (skipOf s.buf s.bufPos)
    | .ok (q, consumed) => { s with log := s.log ++ handle q }.consume consumed
  else { s with loc := .read }

/-- The head of the outer loop, where `read` returns the bytes `c`. -/
def BridgeState.readStep (s : BridgeState) (c : List UInt8) : BridgeState :=
  if subSize bufSize s.bufPos > 0 then
    { s with
      loc := .messages
      buf := overlay s.buf s.bufPos c
      bufPos := (s.bufPos + c.length) % 2 ^ 64 }
  else { s with loc := .messages }

/-- A step of the loop; `c` is what `read` returns if it is called. -/
def BridgeState.next (s : BridgeState) (c : List UInt8) : Except Empty (Unit × BridgeState) :=
  match s.loc with
  | .read => .ok ((), s.readStep c)
  | .messages => .ok ((), s.message)

/-- `read` returns something, and no more than it was asked for. -/
def BridgeState.Allows (s : BridgeState) (c : List UInt8) : Prop :=
  s.loc = .read → subSize bufSize s.bufPos > 0 → c ≠ [] ∧ c.length ≤ subSize bufSize s.bufPos

/-- The state in which the loop is entered; the buffer holds what the registration left there. -/
def BridgeState.start (buf : ℕ → UInt8) : BridgeState := ⟨.read, buf, 0, []⟩

/-! ### Bounds -/

/-- A part of the parser that starts at `pos` reads between `lo` and `hi` bytes, none of them behind
`len`, and it waits only for bytes in front of `pos + hi`. -/
structure Within {α : Type} (len pos lo hi : ℕ) (r : Except Stop (α × ℕ)) : Prop where
  incomplete : r = .error .incomplete → len < pos + hi
  ok : ∀ {a pos'}, r = .ok (a, pos') → pos + lo ≤ pos' ∧ pos' ≤ pos + hi ∧ pos' ≤ len

section Bounds

variable {α β : Type} {len pos lo hi : ℕ}

theorem Within.pure {n : ℕ} (a : α) (hlo : lo ≤ n) (hhi : n ≤ hi) (h : pos + n ≤ len) :
    Within len pos lo hi (.ok (a, pos + n)) where
  incomplete := fun h => nomatch h
  ok := by
    intro a' pos' h
    cases h
    omega

theorem Within.fail : Within len pos lo hi (.error .syncError : Except Stop (α × ℕ)) where
  incomplete := fun h => nomatch h
  ok := fun h => nomatch h

theorem Within.bind {lo' hi' : ℕ} {r : Except Stop (α × ℕ)} {f : α × ℕ → Except Stop (β × ℕ)}
    (hr : Within len pos lo hi r)
    (hf : ∀ a pos', pos' ≤ len → Within len pos' lo' hi' (f (a, pos'))) :
    Within len pos (lo + lo') (hi + hi') (r >>= f) := by
  cases r with
  | error e =>
      refine ⟨fun h => ?_, fun h => nomatch h⟩
      cases h
      have hlt := hr.incomplete rfl
      omega
  | ok p =>
      obtain ⟨a, pos'⟩ := p
      obtain ⟨hle, hge, hlen⟩ := hr.ok rfl
      have hnext := hf a pos' hlen
      refine ⟨fun h => ?_, fun {b pos''} h => ?_⟩
      · have hlt := hnext.incomplete h
        omega
      · obtain ⟨hle', hge', hlen'⟩ := hnext.ok h
        omega

theorem Within.need {n : ℕ} {f : Unit → Except Stop (α × ℕ)} (hn : n ≤ pos + hi)
    (hf : n ≤ len → Within len pos lo hi (f ())) : Within len pos lo hi (need len n >>= f) := by
  unfold Bridge.need
  by_cases h : len < n
  · rw [if_pos h]
    exact ⟨fun _ => by omega, fun h => nomatch h⟩
  · rw [if_neg h]
    exact hf (by omega)

theorem Within.expect {c : Bool} {f : Unit → Except Stop (α × ℕ)}
    (hf : Within len pos lo hi (f ())) :
    Within len pos lo hi (expect c >>= f) := by
  cases c with
  | true => exact hf
  | false => exact .fail

theorem Within.shift {n lo' hi' : ℕ} {r : Except Stop (α × ℕ)} (h : Within len (pos + n) lo hi r)
    (hlo : lo' ≤ n + lo) (hhi : n + hi ≤ hi') : Within len pos lo' hi' r where
  incomplete := fun hr => by
    have hlt := h.incomplete hr
    omega
  ok := fun hr => by
    obtain ⟨hle, hge, hlen⟩ := h.ok hr
    omega

variable {buf : ℕ → UInt8}

theorem msgIdAt_within (h : pos < len) : Within len pos 1 5 (msgIdAt buf len pos) := by
  unfold msgIdAt
  split_ifs
  · exact .pure _ (by omega) (by omega) (by omega)
  · exact .need (by omega) fun hlen => .pure _ (by omega) (by omega) hlen
  · exact .need (by omega) fun hlen => .pure _ (by omega) (by omega) hlen
  · exact .need (by omega) fun hlen => .pure _ (by omega) (by omega) hlen
  · exact .fail

theorem fixstrAt_within (max : ℕ) : Within len pos 1 32 (fixstrAt buf len max pos) := by
  have hn : (buf pos &&& 0x1f).toNat ≤ 31 := by
    rw [UInt8.toNat_and]
    exact Nat.and_le_right
  unfold fixstrAt
  refine .need (by omega) fun _ => .expect (.need (by omega) fun hlen => ?_)
  rw [Nat.add_assoc pos 1] at hlen ⊢
  exact .pure _ (by omega) (by omega) hlen

theorem fixarrayAt_within : Within len pos 1 1 (fixarrayAt buf len pos) := by
  unfold fixarrayAt
  exact .need (by omega) fun hlen => .expect (.pure _ le_rfl le_rfl hlen)

theorem pinAt_within (pinMax paramCount : ℕ) (h : pos ≤ len) :
    Within len pos 0 32 (pinAt buf len pinMax paramCount pos) := by
  unfold pinAt
  split_ifs
  · exact Within.shift (n := 0) (fixstrAt_within pinMax) (by omega) (by omega)
  · exact @Within.pure _ len pos 0 32 0 [] le_rfl (by omega) h

theorem valAt_within (paramCount : ℕ) (h : pos ≤ len) :
    Within len pos 0 2 (valAt buf len paramCount pos) := by
  unfold valAt
  by_cases hcount : paramCount ≥ 2
  · rw [if_pos hcount]
    refine .need (by omega) fun hlen => ?_
    by_cases hone : buf pos = 0xc3 ∨ buf pos = 0x01
    · rw [if_pos hone]
      exact .pure _ (by omega) (by omega) hlen
    by_cases hzero : buf pos = 0xc2 ∨ buf pos = 0x00
    · rw [if_neg hone, if_pos hzero]
      exact .pure _ (by omega) (by omega) hlen
    by_cases hbyte : buf pos = 0xcc
    · rw [if_neg hone, if_neg hzero, if_pos hbyte]
      exact .need (by omega) fun hlen => .pure _ (by omega) le_rfl hlen
    · rw [if_neg hone, if_neg hzero, if_neg hbyte]
      exact .pure _ (by omega) (by omega) hlen
  · rw [if_neg hcount]
    exact @Within.pure _ len pos 0 2 0 0 le_rfl (by omega) h

/-- The longest request: the two bytes in front, an id of five bytes, two strings of up to 31 bytes
with their headers, the header of the parameters and a value of two bytes. -/
def longestRequest : ℕ := 2 + 5 + 32 + 1 + 32 + 2

/-- **The parser** reads at least a byte and at most `len` bytes, and waits for no more than the
longest request. -/
theorem parseAt_within (methodMax pinMax : ℕ) :
    Within len 0 1 longestRequest (parseAt buf len methodMax pinMax) := by
  refine .need (by decide) fun hlen => .expect (.expect ?_)
  have hid := @msgIdAt_within len (0 + 2) buf (by omega)
  refine Within.shift (hid.bind fun _ _ _ => (fixstrAt_within _).bind fun _ _ _ =>
    fixarrayAt_within.bind fun _ _ hpos => (pinAt_within _ _ hpos).bind fun _ _ hpos =>
    (valAt_within _ hpos).bind fun _ pos' hpos =>
      @Within.pure _ len pos' 0 0 0 _ le_rfl le_rfl hpos) ?_ ?_
  · omega
  · rw [longestRequest]

/-- A protocol error is found in at least four bytes. -/
theorem four_le_of_syncError {methodMax pinMax : ℕ}
    (h : parseAt buf len methodMax pinMax = .error .syncError) :
    4 ≤ len := by
  by_contra hlt
  have hmore : parseAt buf len methodMax pinMax = .error .incomplete := by
    rw [parseAt, need, if_pos (by omega)]
    rfl
  rw [hmore] at h
  cases h

theorem skipLoop_bounds (rounds : ℕ) : ∀ {skip : ℕ}, skip < len →
    skip ≤ skipLoop buf len rounds skip ∧ skipLoop buf len rounds skip < len := by
  induction rounds with
  | zero => exact fun h => ⟨le_rfl, h⟩
  | succ rounds ih =>
      intro skip h
      rw [skipLoop]
      split_ifs with hnext
      · obtain ⟨hle, hlt⟩ := ih hnext.1
        exact ⟨by omega, hlt⟩
      · exact ⟨le_rfl, h⟩

/-- A search after a protocol error drops at least a byte, and never all. -/
theorem skipOf_bounds {methodMax pinMax : ℕ}
    (h : parseAt buf len methodMax pinMax = .error .syncError) :
    1 ≤ skipOf buf len ∧ skipOf buf len < len := by
  have hfour := four_le_of_syncError h
  exact skipLoop_bounds len (by omega)

end Bounds

/-! ### Progress -/

section Progress

variable {s : BridgeState}

/-- **What a round of the inner loop does**: it leaves the loop with fewer bytes pending than a
request may have, or it takes at least one byte from the front and none that is not there. -/
theorem BridgeState.message_cases (hpos : s.bufPos ≤ bufSize) :
    (s.message = { s with loc := .read } ∧ s.bufPos < longestRequest) ∨
      ∃ n, (parseAt s.buf s.bufPos 32 32 = .error .syncError ∧ n = skipOf s.buf s.bufPos ∨
          ∃ q, parseAt s.buf s.bufPos 32 32 = .ok (q, n)) ∧
        1 ≤ n ∧ n ≤ s.bufPos ∧ s.message.loc = s.loc ∧ s.message.bufPos + n = s.bufPos := by
  have hsize : s.bufPos < 2 ^ 64 := lt_of_le_of_lt hpos (by decide)
  have hwithin := @parseAt_within s.bufPos s.buf 32 32
  by_cases hzero : s.bufPos > 0
  · cases hparse : parseAt s.buf s.bufPos 32 32 with
    | error e =>
        cases e with
        | incomplete =>
            refine Or.inl ⟨by rw [message, if_pos hzero, hparse], ?_⟩
            have hlt := hwithin.incomplete hparse
            omega
        | syncError =>
            obtain ⟨hle, hlt⟩ := skipOf_bounds hparse
            have hmessage : s.message = s.consume (skipOf s.buf s.bufPos) := by
              rw [message, if_pos hzero, hparse]
            refine Or.inr ⟨_, Or.inl ⟨rfl, rfl⟩, hle, hlt.le, by rw [hmessage]; rfl, ?_⟩
            have hsub : s.message.bufPos = s.bufPos - skipOf s.buf s.bufPos := by
              rw [hmessage]
              exact subSize_of_le hsize hlt.le
            rw [hsub]
            exact Nat.sub_add_cancel hlt.le
    | ok p =>
        obtain ⟨q, n⟩ := p
        obtain ⟨hle, -, hlen⟩ := hwithin.ok hparse
        have hmessage : s.message = { s with log := s.log ++ handle q }.consume n := by
          rw [message, if_pos hzero, hparse]
        refine Or.inr ⟨n, Or.inr ⟨q, rfl⟩, by omega, hlen, by rw [hmessage]; rfl, ?_⟩
        have hsub : s.message.bufPos = s.bufPos - n := by
          rw [hmessage]
          exact subSize_of_le hsize hlen
        rw [hsub]
        exact Nat.sub_add_cancel hlen
  · refine Or.inl ⟨by rw [message, if_neg hzero], ?_⟩
    rw [longestRequest]
    omega

/-- The pending bytes fit the buffer, and when the loop comes to `read` they are fewer than those of
the longest request. -/
structure BridgeState.Bounded (s : BridgeState) : Prop where
  fits : s.bufPos ≤ bufSize
  pending : s.loc = .read → s.bufPos < longestRequest

theorem BridgeState.Bounded.room (h : s.Bounded) (hloc : s.loc = .read) :
    subSize bufSize s.bufPos = bufSize - s.bufPos ∧ 0 < subSize bufSize s.bufPos := by
  have hlt := h.pending hloc
  have hsub := subSize_of_le (by decide : bufSize < 2 ^ 64) h.fits
  refine ⟨hsub, ?_⟩
  rw [hsub, bufSize]
  rw [longestRequest] at hlt
  omega

theorem BridgeState.Bounded.message (h : s.Bounded) : s.message.Bounded := by
  cases message_cases h.fits with
  | inl hread =>
      rw [hread.1]
      exact ⟨h.fits, fun _ => hread.2⟩
  | inr hround =>
      obtain ⟨n, -, hn, -, hloc, hpos⟩ := hround
      refine ⟨?_, fun hread => ?_⟩
      · have hfits := h.fits
        omega
      · have hlt := h.pending (hloc.symm.trans hread)
        omega

theorem BridgeState.Bounded.readStep (h : s.Bounded)
    (hloc : s.loc = .read) {c : List UInt8} (hc : s.Allows c) :
    (s.readStep c).Bounded := by
  obtain ⟨hsub, hroom⟩ := h.room hloc
  obtain ⟨-, hlen⟩ := hc hloc hroom
  have hfits := h.fits
  have hend : s.bufPos + c.length ≤ bufSize := by omega
  have hsize : bufSize < 2 ^ 64 := by decide
  rw [BridgeState.readStep, if_pos hroom]
  refine ⟨?_, fun hread => nomatch hread⟩
  show (s.bufPos + c.length) % 2 ^ 64 ≤ bufSize
  rw [Nat.mod_eq_of_lt (by omega)]
  exact hend

theorem BridgeState.start_bounded (buf : ℕ → UInt8) : (BridgeState.start buf).Bounded :=
  ⟨Nat.zero_le _, fun _ => (by decide : 0 < longestRequest)⟩

theorem BridgeState.bounded_of_run {buf : ℕ → UInt8} {h : List (List UInt8 × Unit)}
    (hrun : Run BridgeState.next BridgeState.Allows (.start buf) h s) : s.Bounded := by
  refine @Run.invariant _ _ _ _ _ _ _ (fun _ s => s.Bounded)
    (BridgeState.start_bounded buf) ?_ _ _ hrun
  intro h s c o s' hs hc hnext
  unfold BridgeState.next at hnext
  cases hloc : s.loc with
  | read =>
      rw [hloc] at hnext
      cases hnext
      exact hs.readStep hloc hc
  | messages =>
      rw [hloc] at hnext
      cases hnext
      exact hs.message

/-- What is asked of the loop in a state: at `read` few bytes are pending, so the buffer has room
and `read` is called; a round of the inner loop that does not leave it takes between 1 and `buf_pos`
bytes, and every difference is what it is among the natural numbers. -/
structure BridgeState.Progress (s : BridgeState) : Prop where
  fits : s.bufPos ≤ bufSize
  pending : s.loc = .read → s.bufPos < longestRequest
  room : s.loc = .read → 0 < subSize bufSize s.bufPos
  free : subSize bufSize s.bufPos = bufSize - s.bufPos
  consumed : ∀ {q n}, parseAt s.buf s.bufPos 32 32 = .ok (q, n) →
    1 ≤ n ∧ n ≤ s.bufPos ∧ subSize s.bufPos n = s.bufPos - n
  skipped : parseAt s.buf s.bufPos 32 32 = .error .syncError →
    1 ≤ skipOf s.buf s.bufPos ∧ skipOf s.buf s.bufPos ≤ s.bufPos ∧
      subSize s.bufPos (skipOf s.buf s.bufPos) = s.bufPos - skipOf s.buf s.bufPos
  shrinks : s.loc = .messages → s.message.loc = .messages → s.message.bufPos < s.bufPos

/-- **The loop makes progress**, whatever the buffer holds at first and whatever is read. -/
theorem bridge_progress {buf : ℕ → UInt8} {h : List (List UInt8 × Unit)}
    (hrun : Run BridgeState.next BridgeState.Allows (.start buf) h s) :
    s.Progress ∧ longestRequest < 80 := by
  have hs := BridgeState.bounded_of_run hrun
  have hsize : s.bufPos < 2 ^ 64 := lt_of_le_of_lt hs.fits (by decide)
  refine ⟨⟨hs.fits, hs.pending, fun hloc => (hs.room hloc).2, subSize_of_le (by decide) hs.fits,
    ?_, ?_, ?_⟩,
    by decide⟩
  · intro q n hparse
    obtain ⟨hle, -, hlen⟩ := (parseAt_within 32 32).ok hparse
    exact ⟨by omega, hlen, subSize_of_le hsize hlen⟩
  · intro hparse
    obtain ⟨hle, hlt⟩ := skipOf_bounds hparse
    exact ⟨hle, hlt.le, subSize_of_le hsize hlt.le⟩
  · intro hloc hloc'
    cases BridgeState.message_cases hs.fits with
    | inl hread =>
        rw [hread.1] at hloc'
        cases hloc'
    | inr hround =>
        obtain ⟨n, -, hn, -, -, hpos⟩ := hround
        omega

/-- Two bytes are read. -/
theorem bridge_progress_read :
    ((BridgeState.start fun _ => 0).readStep [0x94, 0x00]).Progress ∧ longestRequest < 80 :=
  bridge_progress (Run.nil.snoc (i := [0x94, 0x00]) (fun _ _ => ⟨by decide, by decide⟩) rfl)

end Progress

/-! ### Refinement -/

/-- A part of the parser on positions ends as the parser on lists does, and what is left is what
stands behind the position. -/
def Agrees {α : Type} (buf : ℕ → UInt8) (len : ℕ) : Except Stop (α × ℕ) → Verdict UInt8 α → Prop
  | .error .incomplete, v => v = .more
  | .error .syncError, v => v = .reject
  | .ok (a, pos), v => pos ≤ len ∧ v = .done a (window buf pos (len - pos))

section Refinement

variable {α β : Type} {buf : ℕ → UInt8} {len pos : ℕ}

theorem Agrees.bind {r : Except Stop (α × ℕ)} {f : α × ℕ → Except Stop (β × ℕ)} {p : Parser UInt8 α}
    {g : α → Parser UInt8 β} {x : List UInt8} (hr : Agrees buf len r (p x))
    (hf : ∀ a pos, pos ≤ len → Agrees buf len (f (a, pos)) (g a (window buf pos (len - pos)))) :
    Agrees buf len (r >>= f) ((p >>= g) x) := by
  cases r with
  | error e =>
      cases e with
      | incomplete => exact bind_of_more hr
      | syncError => exact bind_of_reject hr
  | ok p =>
      obtain ⟨hpos, hdone⟩ := hr
      rw [bind_of_done hdone]
      exact hf _ _ hpos

theorem Agrees.pure (a : α) (h : pos ≤ len) :
    Agrees buf len (.ok (a, pos)) ((Pure.pure a : Parser UInt8 α) (window buf pos (len - pos))) :=
  ⟨h, rfl⟩

theorem window_cons (h : pos < len) :
    window buf pos (len - pos) = buf pos :: window buf (pos + 1) (len - (pos + 1)) := by
  obtain ⟨n, hn⟩ : ∃ n, len - pos = n + 1 := ⟨len - pos - 1, by omega⟩
  rw [hn, window_succ]
  congr 2
  omega

theorem Agrees.item {r : Except Stop (β × ℕ)} {g : UInt8 → Parser UInt8 β} (h : pos < len)
    (hr : Agrees buf len r (g (buf pos) (window buf (pos + 1) (len - (pos + 1))))) :
    Agrees buf len r ((Parser.item >>= g) (window buf pos (len - pos))) := by
  rw [window_cons h, bind_of_done (rfl : Parser.item (buf pos :: _) = _)]
  exact hr

theorem Agrees.need_item {f : Unit → Except Stop (β × ℕ)} {g : UInt8 → Parser UInt8 β}
    (hf : pos < len → Agrees buf len (f ())
      (g (buf pos) (window buf (pos + 1) (len - (pos + 1))))) :
    Agrees buf len (need len (pos + 1) >>= f)
      ((Parser.item >>= g) (window buf pos (len - pos))) := by
  unfold need
  by_cases h : len < pos + 1
  · rw [if_pos h]
    refine bind_of_more ?_
    have hnil : len - pos = 0 := by omega
    rw [hnil]
    rfl
  · rw [if_neg h]
    exact Agrees.item (by omega) (hf (by omega))

theorem Agrees.need_takeN {n : ℕ} {f : Unit → Except Stop (β × ℕ)} {g : List UInt8 → Parser UInt8 β}
    (hpos : pos ≤ len)
    (hf : pos + n ≤ len → Agrees buf len (f ())
      (g (window buf pos n) (window buf (pos + n) (len - (pos + n))))) :
    Agrees buf len (need len (pos + n) >>= f)
      ((Parser.takeN n >>= g) (window buf pos (len - pos))) := by
  unfold need
  by_cases h : len < pos + n
  · rw [if_pos h]
    refine bind_of_more ?_
    rw [Parser.takeN, if_pos (by rw [window_length]; omega)]
  · rw [if_neg h]
    have hsplit : window buf pos (len - pos) = window buf pos n ++ window buf (pos + n)
        (len - (pos + n)) := by
      rw [← window_add]
      congr 1
      omega
    have htake : Parser.takeN n (window buf pos (len - pos)) =
        .done (window buf pos n) (window buf (pos + n) (len - (pos + n))) := by
      rw [Parser.takeN, if_neg (by rw [window_length]; omega), hsplit,
        List.take_left' (window_length _ _ _), List.drop_left' (window_length _ _ _)]
    rw [bind_of_done htake]
    exact hf (by omega)

theorem Agrees.expect {c : Bool} {f : Unit → Except Stop (β × ℕ)} {g : Unit → Parser UInt8 β}
    {x : List UInt8}
    (hf : Agrees buf len (f ()) (g () x)) :
    Agrees buf len (expect c >>= f) ((Parser.guard c >>= g) x) := by
  cases c with
  | true =>
      rw [bind_of_done (rfl : Parser.guard true x = .done () x)]
      exact hf
  | false => exact bind_of_reject rfl

theorem shiftLeft_or_byte (x k : ℕ) (c : UInt8) :
    x <<< (k + 8) ||| c.toNat <<< k = (x * 256 + c.toNat) <<< k := by
  have hc : c.toNat < 2 ^ 8 := c.toNat_lt
  have hlt : c.toNat <<< k < 2 ^ (k + 8) := by
    rw [Nat.shiftLeft_eq, pow_add, mul_comm (2 ^ k)]
    exact Nat.mul_lt_mul_of_pos_right hc (by positivity)
  rw [← Nat.shiftLeft_add_eq_or_of_lt hlt, Nat.shiftLeft_eq, Nat.shiftLeft_eq,
    Nat.shiftLeft_eq, pow_add]
  ring

theorem ofBE_pair (a b : UInt8) : a.toNat <<< 8 ||| b.toNat = ofBE [a, b] := by
  have hb := shiftLeft_or_byte a.toNat 0 b
  rw [Nat.shiftLeft_zero, Nat.shiftLeft_zero] at hb
  rw [hb]
  simp only [ofBE, ofLE, List.reverse_cons, List.reverse_nil, List.nil_append, List.cons_append]
  omega

theorem ofBE_quad (a b c d : UInt8) :
    a.toNat <<< 24 ||| b.toNat <<< 16 ||| c.toNat <<< 8 ||| d.toNat = ofBE [a, b, c, d] := by
  have hd := shiftLeft_or_byte ((a.toNat * 256 + b.toNat) * 256 + c.toNat) 0 d
  rw [Nat.shiftLeft_zero, Nat.shiftLeft_zero] at hd
  rw [shiftLeft_or_byte a.toNat 16 b, shiftLeft_or_byte _ 8 c, hd]
  simp only [ofBE, ofLE, List.reverse_cons, List.reverse_nil, List.nil_append, List.cons_append]
  omega

theorem msgIdAt_agrees (h : pos < len) :
    Agrees buf len (msgIdAt buf len pos) (decodeMsgId (window buf pos (len - pos))) := by
  refine Agrees.item h ?_
  unfold msgIdAt
  split_ifs
  · exact Agrees.pure _ h
  · exact Agrees.need_takeN (n := 1) h fun hlen => by
      exact Agrees.pure _ hlen
  · refine Agrees.need_takeN (n := 2) h fun hlen => ?_
    rw [ofBE_pair]
    exact Agrees.pure _ hlen
  · refine Agrees.need_takeN (n := 4) h fun hlen => ?_
    rw [ofBE_quad]
    exact Agrees.pure _ hlen
  · exact rfl

theorem fixstrAt_agrees (max : ℕ) :
    Agrees buf len (fixstrAt buf len max pos) (decodeFixstr max (window buf pos (len - pos))) := by
  refine Agrees.need_item fun hlt => Agrees.expect (Agrees.need_takeN hlt fun hlen => ?_)
  have hcopy : ∀ n, (window buf (pos + 1) n).take (min (window buf (pos + 1) n).length (max - 1)) =
      window buf (pos + 1) (if n < max - 1 then n else max - 1) := by
    intro n
    rw [window_length, take_window]
    congr 1
    split_ifs
    all_goals omega
  rw [hcopy]
  exact Agrees.pure _ hlen

theorem fixarrayAt_agrees :
    Agrees buf len (fixarrayAt buf len pos) (decodeFixarray (window buf pos (len - pos))) :=
  Agrees.need_item fun hlt => Agrees.expect (Agrees.pure _ hlt)

theorem pinAt_agrees (pinMax paramCount : ℕ) (h : pos ≤ len) :
    Agrees buf len (pinAt buf len pinMax paramCount pos)
      (decodePin pinMax paramCount (window buf pos (len - pos))) := by
  unfold pinAt decodePin
  split_ifs
  · exact fixstrAt_agrees pinMax
  · exact Agrees.pure _ h

theorem valAt_agrees (paramCount : ℕ) (h : pos ≤ len) :
    Agrees buf len (valAt buf len paramCount pos)
      (decodeParamVal paramCount (window buf pos (len - pos))) := by
  unfold valAt decodeParamVal
  by_cases hcount : paramCount ≥ 2
  · rw [if_pos hcount, if_pos hcount]
    refine Agrees.need_item fun hlt => ?_
    by_cases hone : buf pos = 0xc3 ∨ buf pos = 0x01
    · rw [if_pos hone, if_pos hone]
      exact Agrees.pure _ hlt
    by_cases hzero : buf pos = 0xc2 ∨ buf pos = 0x00
    · rw [if_neg hone, if_neg hone, if_pos hzero, if_pos hzero]
      exact Agrees.pure _ hlt
    by_cases hbyte : buf pos = 0xcc
    · rw [if_neg hone, if_neg hone, if_neg hzero, if_neg hzero, if_pos hbyte, if_pos hbyte]
      exact Agrees.need_item fun hlt' => Agrees.pure _ hlt'
    · rw [if_neg hone, if_neg hone, if_neg hzero, if_neg hzero, if_neg hbyte, if_neg hbyte]
      exact Agrees.pure _ hlt
  · rw [if_neg hcount, if_neg hcount]
    exact Agrees.pure _ h

/-- **The parser on positions is the parser on lists**, on the first `len` bytes of the buffer. -/
theorem parseAt_agrees (buf : ℕ → UInt8) (len methodMax pinMax : ℕ) :
    Agrees buf len (parseAt buf len methodMax pinMax)
      (parseRpcRequest methodMax pinMax (window buf 0 len)) := by
  unfold parseAt need
  by_cases hlen : len < 4
  · rw [if_pos hlen]
    exact parseRpcRequest_short (by rw [window_length]; exact hlen)
  · rw [if_neg hlen]
    have hfour : Parser.atLeast 4 (window buf 0 len) = .done () (window buf 0 (len - 0)) := by
      rw [Parser.atLeast, if_neg (by rw [window_length]; exact hlen)]
      rfl
    rw [parseRpcRequest, bind_of_done hfour]
    refine Agrees.item (by omega) (Agrees.expect (Agrees.item (by omega) (Agrees.expect ?_)))
    exact (msgIdAt_agrees (by omega)).bind fun _ _ _ => (fixstrAt_agrees _).bind fun _ _ _ =>
      fixarrayAt_agrees.bind fun _ _ hpos => (pinAt_agrees _ _ hpos).bind fun _ _ hpos =>
      (valAt_agrees _ hpos).bind fun _ _ hpos => Agrees.pure _ hpos

/-- The search on positions is the search on lists. -/
theorem skipLoop_eq (rounds : ℕ) : ∀ {skip : ℕ}, len ≤ skip + rounds →
    skipLoop buf len rounds skip = skip + scan syncMark (window buf skip (len - skip)) := by
  induction rounds with
  | zero =>
      intro skip h
      have hnil : len - skip = 0 := by omega
      rw [hnil]
      rfl
  | succ rounds ih =>
      intro skip h
      rw [skipLoop]
      by_cases hin : skip + 1 < len
      · have hwindow : window buf skip (len - skip) =
            buf skip :: buf (skip + 1) :: window buf (skip + 1 + 1) (len - (skip + 1 + 1)) := by
          rw [window_cons (by omega), window_cons hin]
        have htail := @window_cons buf _ _ hin
        rw [hwindow, scan, ← htail]
        by_cases hmark : buf skip = 0x94 ∧ buf (skip + 1) = 0x00
        · rw [if_neg (by simp [hmark]), if_pos (by simp [syncMark, hmark])]
          rfl
        · rw [if_pos ⟨hin, hmark⟩, if_neg (by simpa [syncMark] using hmark), ih (by omega)]
          omega
      · rw [if_neg (fun h => hin h.1)]
        have hshort : scan syncMark (window buf skip (len - skip)) = 0 := by
          obtain hzero | hone : len - skip = 0 ∨ len - skip = 1 := by omega
          · rw [hzero]
            rfl
          · rw [hone]
            rfl
        rw [hshort]
        rfl

theorem skipOf_eq (h : 0 < len) : skipOf buf len = resync syncMark (window buf 0 len) := by
  have htail : (window buf 0 len).tail = window buf 1 (len - 1) := by
    have hcons := @window_cons buf _ _ h
    rw [Nat.sub_zero] at hcons
    rw [hcons]
    rfl
  rw [skipOf, skipLoop_eq len (by omega), resync, htail, Nat.add_comm]

end Refinement

/-- The pending bytes. -/
def BridgeState.pending (s : BridgeState) : List UInt8 := window s.buf 0 s.bufPos

theorem BridgeState.pending_consume {s : BridgeState} (hsize : s.bufPos < 2 ^ 64)
    {n : ℕ} (hn : n ≤ s.bufPos) :
    (s.consume n).pending = window s.buf n (s.bufPos - n) := by
  have hwindow := window_overlay s.buf 0 (window s.buf n (s.bufPos - n))
  rw [window_length] at hwindow
  rw [pending, consume, subSize_of_le hsize hn]
  exact hwindow

theorem BridgeState.drop_pending {s : BridgeState} {n : ℕ} (hn : n ≤ s.bufPos) :
    s.pending.drop n = window s.buf n (s.bufPos - n) := by
  have hsplit := window_add s.buf 0 n (s.bufPos - n)
  rw [Nat.zero_add, Nat.add_sub_cancel' hn] at hsplit
  rw [pending, hsplit, List.drop_left' (window_length _ _ _)]

theorem BridgeState.pending_length (s : BridgeState) : s.pending.length = s.bufPos :=
  window_length _ _ _

/-- One round against `processBuffer`: it leaves the loop, or what is left to do is what
`processBuffer` does with the bytes left. -/
theorem BridgeState.message_process {s : BridgeState} (hfits : s.bufPos ≤ bufSize) :
    (s.message = { s with loc := .read } ∧ processBuffer s.pending = ([], s.pending)) ∨
      (s.message.loc = s.loc ∧ s.message.bufPos < s.bufPos ∧
        (processBuffer s.message.pending).2 = (processBuffer s.pending).2 ∧
        s.message.log ++ (processBuffer s.message.pending).1.flatMap handle =
          s.log ++ (processBuffer s.pending).1.flatMap handle) := by
  have hsize : s.bufPos < 2 ^ 64 := lt_of_le_of_lt hfits (by decide)
  have hagrees := parseAt_agrees s.buf s.bufPos 32 32
  by_cases hzero : s.bufPos > 0
  · cases hparse : parseAt s.buf s.bufPos 32 32 with
    | error e =>
        rw [hparse] at hagrees
        cases e with
        | incomplete => exact Or.inl ⟨by rw [message, if_pos hzero, hparse], drain_more hagrees⟩
        | syncError =>
            obtain ⟨hle, hlt⟩ := skipOf_bounds hparse
            have hmessage : s.message = s.consume (skipOf s.buf s.bufPos) := by
              rw [message, if_pos hzero, hparse]
            have hpos : (s.consume (skipOf s.buf
                s.bufPos)).bufPos = s.bufPos - skipOf s.buf s.bufPos :=
              subSize_of_le hsize hlt.le
            have hdrain : processBuffer s.pending =
                processBuffer (s.consume (skipOf s.buf s.bufPos)).pending := by
              rw [pending_consume hsize hlt.le, ← drop_pending hlt.le, skipOf_eq hzero]
              exact parseRpcRequest_framed.drain_reject hagrees
            rw [hmessage, hdrain, hpos]
            exact Or.inr ⟨rfl, by omega, rfl, rfl⟩
    | ok p =>
        obtain ⟨q, n⟩ := p
        rw [hparse] at hagrees
        obtain ⟨hn, hdone⟩ := hagrees
        obtain ⟨hle, -, -⟩ := (parseAt_within 32 32).ok hparse
        have hmessage : s.message = { s with log := s.log ++ handle q }.consume n := by
          rw [message, if_pos hzero, hparse]
        have hpos : ({ s
            with log := s.log ++ handle q }.consume n).bufPos =
            s.bufPos - n := subSize_of_le hsize hn
        have hpending := @pending_consume { s with log := s.log ++ handle q } hsize n hn
        have hdrain : processBuffer s.pending =
            (q :: (processBuffer (window s.buf n (s.bufPos - n))).1,
              (processBuffer (window s.buf n (s.bufPos - n))).2) :=
          parseRpcRequest_framed.drain_done hdone
        rw [hmessage, hpending, hdrain, hpos]
        refine Or.inr ⟨rfl, by omega, rfl, ?_⟩
        rw [List.flatMap_cons, ← List.append_assoc]
        rfl
  · have hnil : s.pending = [] := List.eq_nil_of_length_eq_zero (by rw [pending_length]; omega)
    refine Or.inl ⟨by rw [message, if_neg hzero], ?_⟩
    rw [hnil]
    rfl

theorem BridgeState.pending_readStep {s : BridgeState}
    (hs : s.Bounded) (hloc : s.loc = .read) {c : List UInt8}
    (hc : s.Allows c) : (s.readStep c).pending = s.pending ++ c ∧ (s.readStep c).log = s.log := by
  obtain ⟨hsub, hroom⟩ := hs.room hloc
  obtain ⟨-, hlen⟩ := hc hloc hroom
  have hfits := hs.fits
  have hsize : bufSize < 2 ^ 64 := by decide
  have hback := window_overlay s.buf s.bufPos c
  rw [readStep, if_pos hroom, Nat.mod_eq_of_lt (by omega), pending, window_add, Nat.zero_add, hback]
  refine ⟨congrArg (· ++ c) (List.map_congr_left fun i hi => ?_), rfl⟩
  exact overlay_of_lt _ _ (by rw [List.mem_range] at hi; omega)

/-- The states of the loop after the bytes `x` were read, in whatever pieces. -/
inductive BridgeState.Fed (buf : ℕ → UInt8) : List UInt8 → BridgeState → Prop
  | start : Fed buf [] (.start buf)
  | read {x c : List UInt8} {s : BridgeState} : Fed buf x s → s.loc = .read → s.Allows c →
      Fed buf (x ++ c) (s.readStep c)
  | message {x : List UInt8} {s : BridgeState} : Fed buf x s → s.loc = .messages →
      Fed buf x s.message

/-- What was done, with what is still to be done, is what the bytes ask for. -/
structure BridgeState.Follows (x : List UInt8) (s : BridgeState) : Prop where
  bounded : s.Bounded
  log : ∀ y, s.log ++ (processBuffer (s.pending ++ y)).1.flatMap handle =
    (processBuffer (x ++ y)).1.flatMap handle
  idle : s.loc = .read → (processBuffer s.pending).1 = []

theorem BridgeState.Follows.message {x : List UInt8} {s : BridgeState} (h : s.Follows x)
    (hloc : s.loc = .messages) :
    s.message.Follows x := by
  have happend : ∀ a y, (processBuffer (a ++ y)).1 =
      (processBuffer a).1 ++ (processBuffer ((processBuffer a).2 ++ y)).1 :=
    parseRpcRequest_framed.drain_append
  rcases message_process h.bounded.fits with ⟨hread, hnone⟩ | ⟨hsame, -, hrest, hlog⟩
  · refine ⟨h.bounded.message, ?_, fun _ => ?_⟩
    · rw [hread]
      exact h.log
    · rw [hread]
      exact congrArg Prod.fst hnone
  · refine ⟨h.bounded.message, fun y => ?_, fun hread => ?_⟩
    · rw [← h.log y, happend, happend s.pending, hrest, List.flatMap_append, List.flatMap_append,
        ← List.append_assoc, hlog,
        List.append_assoc]
    · rw [hsame, hloc] at hread
      cases hread

theorem BridgeState.Fed.follows {buf : ℕ → UInt8} {x : List UInt8} {s : BridgeState}
    (h : Fed buf x s) : s.Follows x := by
  induction h with
  | start => exact ⟨start_bounded buf, fun y => rfl, fun _ => rfl⟩
  | read _ hloc hc ih =>
      obtain ⟨hpending, hlog⟩ := pending_readStep ih.bounded hloc hc
      refine ⟨ih.bounded.readStep hloc hc, fun y => ?_, fun hread => ?_⟩
      · rw [hpending, hlog, List.append_assoc, List.append_assoc]
        exact ih.log _
      · rw [readStep, if_pos (ih.bounded.room hloc).2] at hread
        cases hread
  | message _ hloc ih => exact ih.message hloc

/-- **The buffer does not show**: whatever it held at first and however the bytes `x` were cut, what
is done is the beginning of what `x` asks for as a whole, and all of it when more is read. -/
theorem replies_of_fed {buf : ℕ → UInt8} {x : List UInt8} {s : BridgeState}
    (h : BridgeState.Fed buf x s) :
    s.log <+: (processBuffer x).1.flatMap handle ∧
    (s.loc = .read → s.log = (processBuffer x).1.flatMap handle) := by
  have hfollows := h.follows
  have hlog := hfollows.log []
  rw [List.append_nil, List.append_nil] at hlog
  refine ⟨⟨_, hlog⟩, fun hloc => ?_⟩
  rw [← hlog, hfollows.idle hloc, List.flatMap_nil, List.append_nil]

/-- `[0, 7, "", ["A", true]]`, read in two pieces. -/
def halfRead : BridgeState := ((BridgeState.start fun _ => 0).readStep [0x94, 0x00, 0x07]).message

def requestRead : BridgeState := (halfRead.readStep [0xa0, 0x92, 0xa1, 0x41, 0xc3]).message.message

theorem replies_of_fed_request :
    requestRead.log =
      (processBuffer [0x94, 0x00, 0x07, 0xa0, 0x92, 0xa1, 0x41, 0xc3]).1.flatMap handle := by
  have hfirst : BridgeState.Allows (.start fun _ => 0) [0x94, 0x00, 0x07] :=
    fun _ _ => ⟨by decide, by decide⟩
  have hsecond : halfRead.Allows [0xa0, 0x92, 0xa1,
      0x41, 0xc3] := fun _ _ => ⟨by decide, by decide +kernel⟩
  have hhalf : BridgeState.Fed _ _ halfRead := (BridgeState.Fed.start.read rfl hfirst).message rfl
  have hall : BridgeState.Fed _ _ requestRead :=
    ((hhalf.read (by decide +kernel) hsecond).message (by decide +kernel)).message (by decide +kernel)
  exact (replies_of_fed hall).2 (by decide +kernel)

end Imola.Bridge
