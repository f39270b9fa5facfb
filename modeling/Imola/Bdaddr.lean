import Imola.Bytes
import Imola.CStrings

/-! # `bdaddr`

`bdaddr` waits on the Bluetooth management socket until a controller reports that it has no public
address, and then gives it the one from the command line.  Every event is read into the same buffer,
so behind the bytes of a read those of earlier reads are still there; `btmgmtStep` is the answer to
one read, on the buffer after it.

The test of the length of an event subtracts the size of a pointer where that of the header is
meant, and lets events pass that end in front of the status.  No address is set because of bytes of
another read all the same (`setPublicAddr_answers`): the last test asks for the whole event. -/

namespace Imola.Bdaddr

open Imola.Bytes Imola.Splice Imola.CStrings

/-! ### The command line -/

/-- `%02hhx` of `sscanf`: white space, then at most two characters that make a number in base 16;
the value and what is left. -/
def scanOctet (s : List UInt8) : Option (UInt8 × List UInt8) :=
  match s.dropWhile isSpace with
  | [] => none
  | a :: r =>
      if a = 43 ∨ a = 45 then
        -- a sign counts as one of the two characters
        match r with
        | [] => none
        | b :: r' => (hexVal b).map fun d => (if a = 45 then -UInt8.ofNat d else UInt8.ofNat d, r')
      else
        match hexVal a with
        | none => none
        | some d =>
            match r with
            | [] => some (UInt8.ofNat d, [])
            | b :: r' =>
                -- `0x` begins a number, and its digits would be behind the two characters
                if a = 48 ∧ (b = 120 ∨ b = 88) then none
                else
                  match hexVal b with
                  | none => some (UInt8.ofNat d, b :: r')
                  | some e => some (UInt8.ofNat (16 * d + e), r')

/-- `k` more octets, each behind a colon. -/
def scanOctets : (k : ℕ) → List UInt8 → Option (List UInt8)
  | 0, _ => some []
  | _ + 1, [] => none
  | k + 1, c :: s =>
      if c = 58 then do
        let (o, r) ← scanOctet s
        return o :: (← scanOctets k r)
      else none

/-- The octets in the argument, in the order of the text: its length is `MAC_ADDRESS_LENGTH`, and
`sscanf` converts all of them. -/
def parseAddr (arg : List UInt8) : Option (List UInt8) :=
  if arg.length ≠ 17 then none
  else do
    let (o, r) ← scanOctet arg
    return o :: (← scanOctets 5 r)

/-- `%02hhx` of `printf`. -/
def hexOctet (o : UInt8) : List UInt8 := [hexDigit (o.toNat / 16), hexDigit (o.toNat % 16)]

/-- `MAC_ADDRESS_FORMAT` as `printf` takes it, for octets in the order of the text. -/
def formatAddr : List UInt8 → List UInt8
  | [] => []
  | o :: os => hexOctet o ++ os.flatMap fun o => 58 :: hexOctet o

theorem hexDigit_plain :
    ∀ d < 16, isSpace (hexDigit d) = false ∧ hexDigit d ≠ 43 ∧ hexDigit d ≠ 45 ∧
    hexDigit d ≠ 120 ∧ hexDigit d ≠ 88 := by
  decide

theorem scanOctet_hexOctet (o : UInt8) (rest : List UInt8) :
    scanOctet (hexOctet o ++ rest) = some (o, rest) := by
  have hlt := o.toNat_lt
  have hhigh : o.toNat / 16 < 16 := by omega
  have hlow : o.toNat % 16 < 16 := by omega
  obtain ⟨hspace, hplus, hminus, -⟩ := hexDigit_plain _ hhigh
  obtain ⟨-, -, -, hx, hX⟩ := hexDigit_plain _ hlow
  have hsum : 16 * (o.toNat / 16) + o.toNat % 16 = o.toNat := Nat.div_add_mod _ _
  simp [scanOctet, hexOctet, hspace, hplus, hminus, hx, hX, hexVal_hexDigit _ hhigh,
    hexVal_hexDigit _ hlow, hsum]

theorem scanOctets_hexOctets (os : List UInt8) :
    scanOctets os.length (os.flatMap fun o => 58 :: hexOctet o) = some os := by
  induction os with
  | nil => rfl
  | cons o os ih =>
      rw [List.flatMap_cons, List.length_cons, List.cons_append, scanOctets, if_pos rfl,
        scanOctet_hexOctet]
      simp [ih]

/-- An address in the usual form is read as it is written. -/
theorem parseAddr_formatAddr {octets : List UInt8} (h : octets.length = 6) :
    parseAddr (formatAddr octets) = some octets := by
  cases octets with
  | nil => cases h
  | cons o os =>
      have hos : os.length = 5 := by simpa using h
      have hlen : (formatAddr (o :: os)).length = 17 := by
        simp [formatAddr, hexOctet, List.length_flatMap, hos]
      rw [parseAddr, if_neg (not_not.mpr hlen), formatAddr, scanOctet_hexOctet, ← hos]
      simp [scanOctets_hexOctets]

/-! ### Commands and events -/

/-- `btmgmt_request_config_info`. -/
def requestConfigInfo : List UInt8 := toLE 2 0x0037 ++ (toLE 2 0 ++ toLE 2 0)

/-- `btmgmt_set_public_addr`. -/
def setPublicAddr (bdaddr : List UInt8) : List UInt8 :=
  toLE 2 0x0039 ++ (toLE 2 0 ++ (toLE 2 6 ++ bdaddr))

section Buffer

variable (buf : ℕ → UInt8)

/-- `hdr->cmd`. -/
def hdrCmd : ℕ := ofLE (window buf 0 2)

/-- `hdr->id`. -/
def hdrId : ℕ := ofLE (window buf 2 2)

/-- `hdr->len`. -/
def hdrLen : ℕ := ofLE (window buf 4 2)

/-- `ev->cmd`. -/
def evCmd : ℕ := ofLE (window buf 6 2)

/-- `ev->status`. -/
def evStatus : ℕ := ofLE (window buf 8 1)

/-- `info->missing_options`. -/
def missingOptions : ℕ := ofLE (window buf 15 4)

/-- `btmgmt_config_needs_public_addr`; `sizeof(*info) - sizeof(info->ev.hdr)` is `19 - 6`. -/
def configNeedsPublicAddr : Bool :=
  if evStatus buf ≠ 0 then false
  else if hdrCmd buf ≠ 0x0001 ∨ hdrLen buf < 19 - 6 then false
  else missingOptions buf &&& (1 <<< 1) ≠ 0

/-- The body of the loop after a `read` that returned `len`: the commands written.  `sizeof(hdr)` is
the size of a pointer, so the length is compared with `9 - 8`. -/
def btmgmtStep (bdaddr : List UInt8) (len : ℤ) : List (List UInt8) :=
  if len < 6 then []
  else if len < 6 + hdrLen buf then []
  else if hdrId buf ≠ 0 then []
  else if hdrCmd buf = 0x0001 ∨ hdrCmd buf = 0x0002 then
    if hdrLen buf < 9 - 8 then []
    else if evCmd buf = 0x0037 then
      if configNeedsPublicAddr buf then [setPublicAddr bdaddr] else []
    else []
  else if hdrCmd buf = 0x001d then [requestConfigInfo]
  else []

end Buffer

/-- The loop: for each `read`, which fails or stores bytes at the start of the buffer, the commands
written before the next one. -/
def eventLoop (bdaddr : List UInt8) :
    (buf : ℕ → UInt8) → List (Option (List UInt8)) → List (List (List UInt8))
  | _, [] => []
  | buf, none :: reads => btmgmtStep buf bdaddr (-1) :: eventLoop bdaddr buf reads
  | buf, some r :: reads =>
      btmgmtStep (overlay buf 0 r) bdaddr r.length :: eventLoop bdaddr (overlay buf 0 r) reads

/-- `main`: the commands written before the first `read`, and after each.  The octets of the
argument are stored from the last element of the array on. -/
def bdaddrMain (arg : List UInt8) (buf : ℕ → UInt8) (reads : List (Option (List UInt8))) :
    List (List UInt8) × List (List (List UInt8)) :=
  match parseAddr arg with
  | none => ([], [])
  | some octets => ([requestConfigInfo], eventLoop octets.reverse buf reads)

/-! ### When an address is set -/

/-- The bytes of a read hold a complete event that reports the configuration of controller 0 and
says that the public address is missing. -/
def Unconfigured (r : List UInt8) : Prop :=
  6 + ofLE (slice r 4 2) ≤ r.length ∧ 13 ≤ ofLE (slice r 4 2) ∧ ofLE (slice r 0 2) = 0x0001 ∧
    ofLE (slice r 2 2) = 0 ∧ ofLE (slice r 6 2) = 0x0037 ∧ ofLE (slice r 8 1) = 0 ∧
      ofLE (slice r 15 4) &&& (1 <<< 1) ≠ 0

instance (r : List UInt8) : Decidable (Unconfigured r) := inferInstanceAs (Decidable (_ ∧ _))

/-- The command is `SET_PUBLIC_ADDR`. -/
def isSetPublicAddr (cmd : List UInt8) : Bool := ofLE (slice cmd 0 2) = 0x0039

/-- The answer to a read that is expected. -/
def expectedAnswer (bdaddr : List UInt8) : Option (List UInt8) → List (List UInt8)
  | none => []
  | some r => if Unconfigured r then [setPublicAddr bdaddr] else []

theorem isSetPublicAddr_setPublicAddr (bdaddr : List UInt8) :
    isSetPublicAddr (setPublicAddr bdaddr) = true := rfl

theorem isSetPublicAddr_requestConfigInfo : isSetPublicAddr requestConfigInfo = false := rfl

/-- An event that ends in front of the missing options never asks for an address. -/
theorem configNeedsPublicAddr_short {buf : ℕ → UInt8} (h : hdrLen buf < 13) :
    configNeedsPublicAddr buf = false := by
  unfold configNeedsPublicAddr
  split_ifs with hstatus hlen
  · rfl
  · rfl
  · omega

section Step

variable (bdaddr : List UInt8) (buf : ℕ → UInt8)

theorem hdr_overlay {r : List UInt8} (h : 6 ≤ r.length) :
    hdrCmd (overlay buf 0 r) = ofLE (slice r 0 2) ∧ hdrId (overlay buf 0 r) = ofLE (slice r 2 2) ∧
      hdrLen (overlay buf 0 r) = ofLE (slice r 4 2) := by
  refine ⟨?_, ?_, ?_⟩
  · rw [hdrCmd, window_overlay_slice buf (by omega)]
  · rw [hdrId, window_overlay_slice buf (by omega)]
  · rw [hdrLen, window_overlay_slice buf (by omega)]

theorem ev_overlay {r : List UInt8} (h : 19 ≤ r.length) :
    evCmd (overlay buf 0 r) = ofLE (slice r 6 2) ∧ evStatus (overlay buf 0 r) = ofLE (slice r 8 1) ∧
      missingOptions (overlay buf 0 r) = ofLE (slice r 15 4) := by
  refine ⟨?_, ?_, ?_⟩
  · rw [evCmd, window_overlay_slice buf (by omega)]
  · rw [evStatus, window_overlay_slice buf (by omega)]
  · rw [missingOptions, window_overlay_slice buf (by omega)]

/-- Without the whole event no address is set. -/
theorem btmgmtStep_short {len : ℤ} (h : hdrLen buf < 13) :
    (btmgmtStep buf bdaddr len).filter isSetPublicAddr = [] := by
  unfold btmgmtStep
  simp only [configNeedsPublicAddr_short h, Bool.false_eq_true, if_false]
  split_ifs <;> rfl

theorem btmgmtStep_complete {r : List UInt8} (hlen : 13 ≤ ofLE (slice r 4 2))
    (hcomplete : 6 + ofLE (slice r 4 2) ≤ r.length) :
    (btmgmtStep (overlay buf 0 r) bdaddr r.length).filter isSetPublicAddr =
      if Unconfigured r then [setPublicAddr bdaddr] else [] := by
  obtain ⟨hcmd, hid, hhdr⟩ := hdr_overlay buf (by omega : 6 ≤ r.length)
  obtain ⟨hev, hstatus, hmissing⟩ := ev_overlay buf (by omega : 19 ≤ r.length)
  unfold btmgmtStep configNeedsPublicAddr Unconfigured
  rw [hcmd, hid, hhdr, hev, hstatus, hmissing, if_neg (by omega), if_neg (by omega)]
  have hpointer : ¬ ofLE (slice r 4 2) < 9 - 8 := by omega
  have hinfo : ¬ ofLE (slice r 4 2) < 19 - 6 := by omega
  by_cases hid₀ : ofLE (slice r 2 2) = 0
  · by_cases hcc : ofLE (slice r 0 2) = 0x0001
    · by_cases hconfig : ofLE (slice r 6 2) = 0x0037
      · by_cases hok : ofLE (slice r 8 1) = 0
        · simp [hid₀, hcc, hconfig, hok, hpointer, hinfo, hlen, hcomplete,
            isSetPublicAddr_setPublicAddr]
        · simp [hid₀, hcc, hconfig, hok, hpointer]
      · simp [hid₀, hcc, hconfig, hpointer]
    · by_cases hcs : ofLE (slice r 0 2) = 0x0002
      · simp [hid₀, hcs]
      · by_cases hadded : ofLE (slice r 0 2) = 0x001d <;>
          simp [hid₀, hcc, hcs, hadded, isSetPublicAddr_requestConfigInfo]
  · simp [hid₀]

theorem btmgmtStep_sets (r : List UInt8) :
    (btmgmtStep (overlay buf 0 r) bdaddr r.length).filter isSetPublicAddr = expectedAnswer bdaddr
      (some r) := by
  rw [expectedAnswer]
  by_cases h₆ : r.length < 6
  · rw [btmgmtStep, if_pos (by exact_mod_cast h₆), if_neg fun hu => by have := hu.1; omega]
    rfl
  · obtain ⟨-, -, hhdr⟩ := hdr_overlay buf (by omega : 6 ≤ r.length)
    by_cases hlen : 13 ≤ ofLE (slice r 4 2)
    · by_cases hcomplete : 6 + ofLE (slice r 4 2) ≤ r.length
      · exact btmgmtStep_complete bdaddr buf hlen hcomplete
      · rw [btmgmtStep, if_neg (by omega), if_pos (by rw [hhdr]; omega),
          if_neg fun hu => hcomplete hu.1]
        rfl
    · rw [btmgmtStep_short bdaddr _ (by omega), if_neg fun hu => hlen hu.2.1]

end Step

/-- The answers to all reads. -/
theorem eventLoop_sets (bdaddr : List UInt8) (buf : ℕ → UInt8)
    (reads : List (Option (List UInt8))) :
    (eventLoop bdaddr buf reads).map (·.filter isSetPublicAddr) =
      reads.map (expectedAnswer bdaddr) := by
  induction reads generalizing buf with
  | nil => rfl
  | cons read reads ih =>
      cases read with
      | none =>
          rw [eventLoop, List.map_cons, List.map_cons, ih]
          rfl
      | some r => rw [eventLoop, List.map_cons, List.map_cons, ih, btmgmtStep_sets]

/-- **Setting the address**: whatever is read, a `SET_PUBLIC_ADDR` is written right after a read
that holds a complete event of an unconfigured controller, once and with the octets of the command
line in reversed order, and at no other time. -/
theorem setPublicAddr_answers (arg : List UInt8) (buf : ℕ → UInt8)
    (reads : List (Option (List UInt8))) :
    (bdaddrMain arg buf reads).1.filter isSetPublicAddr = [] ∧
      (bdaddrMain arg buf reads).2.map (·.filter isSetPublicAddr) =
        (parseAddr arg).elim [] (fun octets => reads.map (expectedAnswer octets.reverse)) ∧
      ∀ octets : List UInt8, octets.length = 6 → parseAddr (formatAddr octets) = some octets := by
  refine ⟨?_, ?_, fun octets => parseAddr_formatAddr⟩
  · unfold bdaddrMain
    split <;> rfl
  · unfold bdaddrMain
    cases parseAddr arg with
    | none => rfl
    | some octets => exact eventLoop_sets octets.reverse buf reads

end Imola.Bdaddr
