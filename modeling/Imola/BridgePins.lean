import Imola.CStrings
import Imola.BridgeRequests

/-! # The pins behind `imola-bridge`

`execute_pin_action` switches a pin by `mww` commands to OpenOCD, which write the bit set/reset
registers of the GPIO ports B and H.  `pinCommands` are the commands an action sends, as text.

* **The board.**  `Board` has the output bits of the two ports and executes the commands.  After any
  actions every pin has the level of the last action on it, and no other bit has ever changed
  (`pins_after`).
* **The connection.**  `sendOpenocd` writes a command to the connection that is there, and makes a
  new one where it can; `serve` handles requests with it.  A reply is sent whether or not the
  commands got through, so the replies are true exactly when they did (`truthful_iff`). -/

namespace Imola.Bridge

open Imola.CStrings

/-! ### Commands -/

/-- `%08x`, for a number of 32 bits. -/
def hex8 (v : ℕ) : List UInt8 :=
  [hexDigit (v / 16 ^ 7 % 16), hexDigit (v / 16 ^ 6 % 16), hexDigit (v / 16 ^ 5 % 16),
    hexDigit (v / 16 ^ 4 % 16), hexDigit (v / 16 ^ 3 % 16), hexDigit (v / 16 ^ 2 % 16),
    hexDigit (v / 16 % 16), hexDigit (v % 16)]

/-- The commands of `init_stm32_hw`. -/
def initCommands : List (List UInt8) :=
  [ascii "mww 0x46020c8c 0x000001ff", ascii "mww 0x42020400 0x04000000",
    ascii "mww 0x42021c00 0x55500000", ascii "mww 0x42021c18 0x0000fc00",
    ascii "mww 0x42020418 0x20000000"]

/-- The command for a LED, with the masks for low and high. -/
def ledCommands (low high : ℕ) (val : ℤ) : List (List UInt8) :=
  [ascii "mww 0x42021c18 0x" ++ hex8 (if val = 0 then low else high)]

/-- The commands of `execute_pin_action`. -/
def pinCommands (pin : List UInt8) (val : ℤ) : List (List UInt8) :=
  if pin = ascii "D13" then
    if val ≠ 0 then [ascii "mww 0x42020418 0x00002000", ascii "mww 0x42021c18 0x10000000"]
    else [ascii "mww 0x42020418 0x20000000", ascii "mww 0x42021c18 0x00001000"]
  else if pin = ascii "LED3_R" then ledCommands 0x04000000 0x00000400 val
  else if pin = ascii "LED3_G" then ledCommands 0x08000000 0x00000800 val
  else if pin = ascii "LED3_B" then ledCommands 0x10000000 0x00001000 val
  else if pin = ascii "LED4_R" then ledCommands 0x20000000 0x00002000 val
  else if pin = ascii "LED4_G" then ledCommands 0x40000000 0x00004000 val
  else if pin = ascii "LED4_B" then ledCommands 0x80000000 0x00008000 val
  else []

/-! ### The board -/

/-- A number `0x...`. -/
def hexNumber : List UInt8 → Option ℕ
  | 48 :: 120 :: ds => ds.foldlM (fun n d => (16 * n + ·) <$> hexVal d) 0
  | _ => none

/-- A command `mww address value`, as OpenOCD reads it. -/
def readMww (line : List UInt8) : Option (ℕ × ℕ) :=
  match line.splitOn 32 with
  | [name, addr, val] =>
      if name = ascii "mww" then do return (← hexNumber addr, ← hexNumber val) else none
  | _ => none

/-- The output bits of a port. -/
abbrev Port := Fin 16 → Bool

/-- A write to the bit set/reset register: the low half sets, the high half clears. -/
def bsrr (p : Port) (v : ℕ) : Port := fun i =>
  if v.testBit i then true else if v.testBit (i + 16) then false else p i

/-- The ports B and H. -/
structure Board where
  gpiob : Port
  gpioh : Port

/-- A word written to the board; the other registers hold no output bits. -/
def Board.write (s : Board) (addr v : ℕ) : Board :=
  if addr = 0x42020418 then { s with gpiob := bsrr s.gpiob v }
  else if addr = 0x42021c18 then { s with gpioh := bsrr s.gpioh v }
  else s

/-- A command executed. -/
def Board.exec (s : Board) (line : List UInt8) : Board :=
  match readMww line with
  | some (addr, v) => s.write addr v
  | none => s

/-- Commands executed in order. -/
def Board.run (s : Board) (lines : List (List UInt8)) : Board := lines.foldl Board.exec s

/-- An action: the name of a pin and its value. -/
abbrev Action := List UInt8 × ℤ

/-- The level an action asks for at a bit of port B: that of D13 at PB13. -/
def levelPB (i : Fin 16) (a : Action) : Option Bool :=
  if i = 13 ∧ a.1 = ascii "D13" then some (a.2 ≠ 0) else none

/-- The LED at a bit of port H. -/
def ledName (i : Fin 16) : Option (List UInt8) :=
  match i with
  | 10 => some (ascii "LED3_R")
  | 11 => some (ascii "LED3_G")
  | 12 => some (ascii "LED3_B")
  | 13 => some (ascii "LED4_R")
  | 14 => some (ascii "LED4_G")
  | 15 => some (ascii "LED4_B")
  | _ => none

/-- The level an action asks for at a bit of port H: that of its LED, or the complement of D13 at
PH12. -/
def levelPH (i : Fin 16) (a : Action) : Option Bool :=
  if ledName i = some a.1 then some (a.2 ≠ 0)
  else if i = 12 ∧ a.1 = ascii "D13" then some (a.2 = 0)
  else none

/-- The level of the last action that asks for one. -/
def lastLevel (level : Action → Option Bool) (default : Bool) (as : List Action) : Bool :=
  (as.filterMap level).getLast?.getD default

/-! #### What a command does -/

theorem bsrr_set (p : Port) (i : Fin 16) : bsrr p (2 ^ i.val) = Function.update p i true := by
  funext j
  by_cases hij : j = i
  · simp [bsrr, hij]
  · have hne : i.val ≠ j.val := fun h => hij (Fin.ext h.symm)
    have hhigh : i.val ≠ j.val + 16 := by omega
    simp [bsrr, hij, hne, hhigh]

theorem bsrr_clear (p : Port) (i : Fin 16) :
    bsrr p (2 ^ (i.val + 16)) = Function.update p i false := by
  funext j
  have hlow : i.val + 16 ≠ j.val := by omega
  by_cases hij : j = i
  · simp [bsrr, hij]
  · have hne : i.val ≠ j.val := fun h => hij (Fin.ext h.symm)
    simp [bsrr, hij, hlow, hne]

theorem readMww_two_pow : ∀ i < 32,
    readMww (ascii "mww 0x42020418 0x" ++ hex8 (2 ^ i)) = some (0x42020418, 2 ^ i) ∧
      readMww (ascii "mww 0x42021c18 0x" ++ hex8 (2 ^ i)) = some (0x42021c18, 2 ^ i) := by
  decide +kernel

/-- The command that sets or clears a bit of port B. -/
def switchB (i : Fin 16) (level : Bool) : List UInt8 :=
  ascii "mww 0x42020418 0x" ++ hex8 (if level then 2 ^ i.val else 2 ^ (i.val + 16))

/-- The command that sets or clears a bit of port H. -/
def switchH (i : Fin 16) (level : Bool) : List UInt8 :=
  ascii "mww 0x42021c18 0x" ++ hex8 (if level then 2 ^ i.val else 2 ^ (i.val + 16))

theorem exec_switchB (s : Board) (i : Fin 16) (level : Bool) :
    s.exec (switchB i level) = { s with gpiob := Function.update s.gpiob i level } := by
  cases level with
  | true =>
      have hread := (readMww_two_pow i.val (by omega)).1
      simp [Board.exec, switchB, hread, Board.write, bsrr_set]
  | false =>
      have hread := (readMww_two_pow (i.val + 16) (by omega)).1
      simp [Board.exec, switchB, hread, Board.write, bsrr_clear]

theorem exec_switchH (s : Board) (i : Fin 16) (level : Bool) :
    s.exec (switchH i level) = { s with gpioh := Function.update s.gpioh i level } := by
  cases level with
  | true =>
      have hread := (readMww_two_pow i.val (by omega)).2
      simp [Board.exec, switchH, hread, Board.write, bsrr_set]
  | false =>
      have hread := (readMww_two_pow (i.val + 16) (by omega)).2
      simp [Board.exec, switchH, hread, Board.write, bsrr_clear]

theorem ledCommands_eq (i : Fin 16) (val : ℤ) :
    ledCommands (2 ^ (i.val + 16)) (2 ^ i.val) val = [switchH i (val ≠ 0)] := by
  by_cases hval : val = 0 <;> simp [ledCommands, switchH, hval]

theorem pinCommands_d13 (val : ℤ) :
    pinCommands (ascii "D13") val = [switchB 13 (val ≠ 0), switchH 12 (val = 0)] := by
  have hhigh : [ascii "mww 0x42020418 0x00002000", ascii "mww 0x42021c18 0x10000000"] =
      [switchB 13 true, switchH 12 false] := by decide +kernel
  have hlow : [ascii "mww 0x42020418 0x20000000", ascii "mww 0x42021c18 0x00001000"] =
      [switchB 13 false, switchH 12 true] := by decide +kernel
  rw [pinCommands, if_pos rfl, hhigh, hlow]
  by_cases hval : val = 0 <;> simp [hval]

theorem pinCommands_led {i : Fin 16} {pin : List UInt8} (h : ledName i = some pin) (val : ℤ) :
    10 ≤ i ∧ pinCommands pin val = [switchH i (val ≠ 0)] := by
  unfold ledName at h
  split at h
  · cases h
    exact ⟨by decide, ledCommands_eq 10 val⟩
  · cases h
    exact ⟨by decide, ledCommands_eq 11 val⟩
  · cases h
    exact ⟨by decide, ledCommands_eq 12 val⟩
  · cases h
    exact ⟨by decide, ledCommands_eq 13 val⟩
  · cases h
    exact ⟨by decide, ledCommands_eq 14 val⟩
  · cases h
    exact ⟨by decide, ledCommands_eq 15 val⟩
  · cases h

theorem pinCommands_other {pin : List UInt8} (hd : pin ≠ ascii "D13")
    (h : ∀ i, ledName i ≠ some pin)
    (val : ℤ) : pinCommands pin val = [] := by
  have hled : ∀ {i : Fin 16} {name : List UInt8}, ledName i = some name → pin ≠ name := by
    rintro i name hname rfl
    exact h i hname
  rw [pinCommands, if_neg hd, if_neg (hled (i := 10) rfl), if_neg (hled (i := 11) rfl),
    if_neg (hled (i := 12) rfl), if_neg (hled (i := 13) rfl), if_neg (hled (i := 14) rfl),
    if_neg (hled (i := 15) rfl)]

/-! #### What an action does -/

theorem ledName_ne_d13 : ∀ i, ledName i ≠ some (ascii "D13") := by decide +kernel

theorem ledName_inj :
    ∀ {i j : Fin 16} {pin : List UInt8}, ledName i = some pin → ledName j = some pin →
    i = j := by
  have h : ∀ i j : Fin 16, ledName i = ledName j → (ledName i).isSome → i = j := by decide +kernel
  intro i j pin hi hj
  exact h i j (hi.trans hj.symm) (by rw [hi]; rfl)

/-- An action sets D13 and the complement at PH12, or the LED it names, or nothing. -/
theorem run_pinCommands (s : Board) (a : Action) (i : Fin 16) :
    (s.run (pinCommands a.1 a.2)).gpiob i = (levelPB i a).getD (s.gpiob i) ∧
      (s.run (pinCommands a.1 a.2)).gpioh i = (levelPH i a).getD (s.gpioh i) := by
  obtain ⟨pin, val⟩ := a
  by_cases hd : pin = ascii "D13"
  · subst hd
    rw [pinCommands_d13]
    by_cases hb : i = 13 <;> by_cases hh : i = 12 <;>
      simp_all [Board.run, exec_switchB, exec_switchH, levelPB, levelPH, ledName_ne_d13]
  · by_cases hled : ∃ j, ledName j = some pin
    · obtain ⟨j, hj⟩ := hled
      rw [(pinCommands_led hj val).2]
      by_cases hij : i = j
      · simp [hij, hj, Board.run, exec_switchH, levelPB, levelPH, hd]
      · have hne : ledName i ≠ some pin := fun hi => hij (ledName_inj hi hj)
        simp [hij, hne, Board.run, exec_switchH, levelPB, levelPH, hd]
    · have hne : ∀ j, ledName j ≠ some pin := fun j hj => hled ⟨j, hj⟩
      simp [pinCommands_other hd hne, Board.run, levelPB, levelPH, hd, hne]

theorem lastLevel_cons (level : Action → Option Bool) (default : Bool) (a : Action)
    (as : List Action) :
    lastLevel level default (a :: as) = lastLevel level ((level a).getD default) as := by
  unfold lastLevel
  cases h : level a with
  | none => simp [h]
  | some b =>
      rw [List.filterMap_cons_some h, List.getLast?_cons]
      simp

theorem run_append (s : Board) (l₁ l₂ : List (List UInt8)) : s.run (l₁ ++ l₂) = (s.run l₁).run l₂ :=
  List.foldl_append

/-- After actions, every bit has the level of the last of them on it. -/
theorem run_actions (s : Board) (as : List Action) (i : Fin 16) :
    (s.run (as.flatMap fun a => pinCommands a.1 a.2)).gpiob i = lastLevel (levelPB i)
    (s.gpiob i) as ∧
      (s.run (as.flatMap fun a => pinCommands a.1 a.2)).gpioh i =
        lastLevel (levelPH i) (s.gpioh i) as := by
  induction as generalizing s with
  | nil => exact ⟨rfl, rfl⟩
  | cons a as ih =>
      obtain ⟨hb, hh⟩ := run_pinCommands s a i
      rw [List.flatMap_cons, run_append, lastLevel_cons, lastLevel_cons, ← hb, ← hh]
      exact ih _

/-! #### The bits no command touches -/

/-- The command leaves alone all bits but PB13 and PH10 to PH15. -/
def Spares (line : List UInt8) : Prop :=
  ∀ s : Board, (∀ i, i ≠ 13 → (s.exec line).gpiob i = s.gpiob i) ∧
  ∀ i < 10, (s.exec line).gpioh i = s.gpioh i

theorem spares_switchB (level : Bool) : Spares (switchB 13 level) := by
  intro s
  rw [exec_switchB]
  exact ⟨fun i hi => Function.update_of_ne hi _ _, fun _ _ => rfl⟩

theorem spares_switchH {i : Fin 16} (hi : 10 ≤ i) (level : Bool) : Spares (switchH i level) := by
  intro s
  rw [exec_switchH]
  exact ⟨fun _ _ => rfl, fun j hj => Function.update_of_ne (by omega) _ _⟩

theorem spares_pinCommands {a : Action} {line : List UInt8} (h : line ∈ pinCommands a.1 a.2) :
    Spares line := by
  obtain ⟨pin, val⟩ := a
  by_cases hd : pin = ascii "D13"
  · subst hd
    rw [pinCommands_d13] at h
    obtain rfl | rfl : line = _ ∨ line = _ := by simpa using h
    · exact spares_switchB _
    · exact spares_switchH (by decide) _
  · by_cases hled : ∃ j, ledName j = some pin
    · obtain ⟨j, hj⟩ := hled
      obtain ⟨hle, hcmd⟩ := pinCommands_led hj val
      rw [hcmd] at h
      obtain rfl : line = _ := by simpa using h
      exact spares_switchH hle _
    · rw [pinCommands_other hd fun j hj => hled ⟨j, hj⟩] at h
      cases h

theorem readMww_initCommands : initCommands.map readMww =
    [some (0x46020c8c, 0x000001ff), some (0x42020400, 0x04000000), some (0x42021c00, 0x55500000),
      some (0x42021c18, 0x0000fc00), some (0x42020418, 0x20000000)] := by
  decide +kernel

theorem run_initCommands (s : Board) :
    s.run initCommands = ⟨bsrr s.gpiob 0x20000000, bsrr s.gpioh 0x0000fc00⟩ := by
  have hread := readMww_initCommands
  simp only [initCommands, List.map_cons, List.map_nil, List.cons.injEq, and_true] at hread
  obtain ⟨h₁, h₂, h₃, h₄, h₅⟩ := hread
  simp [Board.run, initCommands, Board.exec, h₁, h₂, h₃, h₄, h₅, Board.write]

theorem initMask_h (i : Fin 16) : (10 ≤ i → Nat.testBit 0x0000fc00 i = true) ∧
    (i < 10 → Nat.testBit 0x0000fc00 i = false ∧ Nat.testBit 0x0000fc00 (i + 16) = false) := by
  revert i
  decide +kernel

theorem initMask_b (i : Fin 16) (hi : i ≠ 13) :
    Nat.testBit 0x20000000 i = false ∧ Nat.testBit 0x20000000 (i + 16) = false := by
  revert i
  decide +kernel

theorem bsrr_of_unmasked {p : Port} {v : ℕ} {i : Fin 16}
    (h : v.testBit i = false ∧ v.testBit (i + 16) = false) : bsrr p v i = p i := by
  simp [bsrr, h.1, h.2]

theorem spares_initCommands {line : List UInt8} (h : line ∈ initCommands) : Spares line := by
  intro s
  have hmem : readMww line ∈ initCommands.map readMww := List.mem_map_of_mem h
  rw [readMww_initCommands] at hmem
  simp only [List.mem_cons, List.not_mem_nil, or_false] at hmem
  unfold Board.exec
  rcases hmem with hread | hread | hread | hread | hread <;> rw [hread]
  · exact ⟨fun _ _ => rfl, fun _ _ => rfl⟩
  · exact ⟨fun _ _ => rfl, fun _ _ => rfl⟩
  · exact ⟨fun _ _ => rfl, fun _ _ => rfl⟩
  · exact ⟨fun _ _ => rfl, fun i hi => bsrr_of_unmasked ((initMask_h i).2 hi)⟩
  · exact ⟨fun i hi => bsrr_of_unmasked (initMask_b i hi), fun _ _ => rfl⟩

theorem run_spares {lines : List (List UInt8)} (h : ∀ line ∈ lines, Spares line) (s : Board) :
    (∀ i, i ≠ 13 → (s.run lines).gpiob i = s.gpiob i) ∧
    ∀ i < 10, (s.run lines).gpioh i = s.gpioh i := by
  induction lines generalizing s with
  | nil => exact ⟨fun _ _ => rfl, fun _ _ => rfl⟩
  | cons line lines ih =>
      obtain ⟨hb, hh⟩ := h line List.mem_cons_self s
      obtain ⟨hb', hh'⟩ := ih (fun l hl => h l (List.mem_cons_of_mem _ hl)) (s.exec line)
      exact ⟨fun i hi => (hb' i hi).trans (hb i hi), fun i hi => (hh' i hi).trans (hh i hi)⟩

/-- **The pins**: after the initialisation and any actions PB13 has the last value given for D13, or
is low, and PH10 to PH15 have the level the last action on them asked for, or are high; and no other
bit of the two ports has ever changed. -/
theorem pins_after (s : Board) (as : List Action) :
    (s.run (initCommands ++ as.flatMap fun a => pinCommands a.1 a.2)).gpiob 13 =
        lastLevel (levelPB 13) false as ∧
      (∀ i, 10 ≤ i → (s.run (initCommands ++ as.flatMap fun a => pinCommands a.1 a.2)).gpioh i =
        lastLevel (levelPH i) true as) ∧
      ∀ lines, lines <+: initCommands ++ as.flatMap (fun a => pinCommands a.1 a.2) →
        (∀ i, i ≠ 13 → (s.run lines).gpiob i = s.gpiob i) ∧
        ∀ i < 10, (s.run lines).gpioh i = s.gpioh i := by
  refine ⟨?_, ?_, ?_⟩
  · have hlow : (s.run initCommands).gpiob 13 = false := by
      rw [run_initCommands]
      exact congrFun (bsrr_clear s.gpiob 13) 13
    rw [run_append, (run_actions _ as 13).1, hlow]
  · intro i hi
    have hhigh : (s.run initCommands).gpioh i = true := by
      rw [run_initCommands]
      simp [bsrr, (initMask_h i).1 hi]
    rw [run_append, (run_actions _ as i).2, hhigh]
  · intro lines hpre
    refine run_spares (fun line hline => ?_) s
    rcases List.mem_append.mp (hpre.subset hline) with hinit | haction
    · exact spares_initCommands hinit
    · obtain ⟨a, -, ha⟩ := List.mem_flatMap.mp haction
      exact spares_pinCommands ha

/-! ### The connection -/

/-- The results of the calls `send_openocd` can make: whether `connect_openocd` gives a connection,
and what `write` returns, first and again after a failure. -/
structure OcdIo where
  connect : Bool
  write : ℤ
  reconnect : Bool
  rewrite : ℤ

/-- `send_openocd`, with `g_openocd_fd` connected or not: whether it is so afterwards, and the bytes
a connection took. -/
def sendOpenocd (io : OcdIo) (connected : Bool) (cmd : List UInt8) : Bool × List UInt8 :=
  if ¬ connected ∧ ¬ io.connect then (false, [])
  else
    let buf := cmd ++ [10]
    if io.write < 0 then
      -- the result of the second `write` is not looked at
      if io.reconnect then (true, buf.take io.rewrite.toNat) else (false, [])
    else (true, buf.take io.write.toNat)

/-- The calls of `send_openocd` of one action, the `k`-th with the results `io k`. -/
def sendAll (io : ℕ → OcdIo) : (k : ℕ) → (connected : Bool) → List (List UInt8) →
    Bool × List (List UInt8)
  | _, connected, [] => (connected, [])
  | k, connected, cmd :: cmds =>
      let s := sendOpenocd (io k) connected cmd
      let rest := sendAll io (k + 1) s.1 cmds
      (rest.1, s.2 :: rest.2)

/-- The commands of a request. -/
def Request.commands (q : Request) : List (List UInt8) :=
  if upToNul q.method = setPinByName then pinCommands (upToNul q.pin) q.val else []

/-- A request and what it meets: the results of the calls, and whether the router takes the
reply. -/
structure Turn where
  q : Request
  io : ℕ → OcdIo
  routerOk : Bool

/-- A request that was handled: what OpenOCD took of each command, and the reply. -/
structure Handled where
  q : Request
  took : List (List UInt8)
  reply : Option (List UInt8)
deriving DecidableEq, Repr

/-- The inner loop of `main` on requests; a reply that cannot be written ends it. -/
def serve : (connected : Bool) → List Turn → List Handled
  | _, [] => []
  | connected, t :: ts =>
      let s := sendAll t.io 0 connected t.q.commands
      if t.routerOk then ⟨t.q, s.2, some (encodeResponse t.q.msgId)⟩ :: serve s.1 ts
      else [⟨t.q, s.2, none⟩]

/-- Success is reported only for requests all of whose commands were written. -/
def Truthful (hs : List Handled) : Prop :=
  ∀ h ∈ hs, h.reply = some (encodeResponse h.q.msgId) → h.took = h.q.commands.map (· ++ [10])

instance (hs : List Handled) : Decidable (Truthful hs) :=
  inferInstanceAs (Decidable (∀ h ∈ hs, _ → _))

/-- There is a connection or one is made, and it takes the command, or fails and a new one does. -/
def OcdIo.Sends (io : OcdIo) (connected : Bool) (cmd : List UInt8) : Prop :=
  (connected ∨ io.connect) ∧ ((cmd.length : ℤ) < io.write ∨
    io.write < 0 ∧ io.reconnect ∧ (cmd.length : ℤ) < io.rewrite)

/-- All commands of an action are sent; after each of them there is a connection. -/
def SendsAll (io : ℕ → OcdIo) : (k : ℕ) → (connected : Bool) → List (List UInt8) → Prop
  | _, _, [] => True
  | k, connected, cmd :: cmds => (io k).Sends connected cmd ∧ SendsAll io (k + 1) true cmds

/-- All commands of the requests that are answered are sent. -/
def Delivers : (connected : Bool) → List Turn → Prop
  | _, [] => True
  | connected, t :: ts => t.routerOk → SendsAll t.io 0 connected t.q.commands ∧
      Delivers (connected || !t.q.commands.isEmpty) ts

theorem sendOpenocd_iff {io : OcdIo} {connected : Bool} {cmd : List UInt8} :
    (sendOpenocd io connected cmd).2 = cmd ++ [10] ↔ io.Sends connected cmd := by
  have hne : ([] : List UInt8) ≠ cmd ++ [10] := by simp
  unfold sendOpenocd OcdIo.Sends
  by_cases hlink : connected ∨ io.connect
  · have hnot : ¬ (¬ connected ∧ ¬ io.connect) := fun h => hlink.elim h.1 h.2
    rw [if_neg hnot]
    by_cases hw : io.write < 0
    · have hlt : ¬ (cmd.length : ℤ) < io.write := by omega
      cases hre : io.reconnect <;> simp [hlink, hw, hlt]
    · simp [hlink, hw]
  · have hnone : ¬ connected ∧ ¬ io.connect := ⟨fun h => hlink (.inl h), fun h => hlink (.inr h)⟩
    simp [hnone]

theorem sendOpenocd_connected {io : OcdIo} {connected : Bool} {cmd : List UInt8}
    (h : io.Sends connected cmd) : (sendOpenocd io connected cmd).1 = true := by
  obtain ⟨hlink, hsent⟩ := h
  have hnot : ¬ (¬ connected ∧ ¬ io.connect) := fun h => hlink.elim h.1 h.2
  unfold sendOpenocd
  rw [if_neg hnot]
  obtain hw | ⟨hw, hre, -⟩ := hsent
  · have hok : ¬ io.write < 0 := by omega
    simp only [if_neg hok]
  · simp [hw, hre]

theorem sendAll_iff {io : ℕ → OcdIo} {k : ℕ} {connected : Bool} {cmds : List (List UInt8)} :
    (sendAll io k connected cmds).2 = cmds.map (· ++ [10]) ↔ SendsAll io k connected cmds := by
  induction cmds generalizing k connected with
  | nil => simp [sendAll, SendsAll]
  | cons cmd cmds ih =>
      rw [sendAll, SendsAll, List.map_cons, List.cons.injEq, sendOpenocd_iff]
      constructor
      · rintro ⟨hsent, hrest⟩
        rw [sendOpenocd_connected hsent] at hrest
        exact ⟨hsent, ih.mp hrest⟩
      · rintro ⟨hsent, hrest⟩
        rw [sendOpenocd_connected hsent]
        exact ⟨hsent, ih.mpr hrest⟩

theorem sendAll_connected {io : ℕ → OcdIo} {k : ℕ} {connected : Bool} {cmds : List (List UInt8)}
    (h : SendsAll io k connected cmds) :
    (sendAll io k connected cmds).1 = (connected || !cmds.isEmpty) := by
  induction cmds generalizing k connected with
  | nil => simp [sendAll]
  | cons cmd cmds ih =>
      rw [sendAll, sendOpenocd_connected h.1, ih h.2]
      simp

/-- **Replies**: success is reported only for requests whose commands were all written to OpenOCD
exactly when, for every request that is answered, a connection is there or is made and takes each
command. -/
theorem truthful_iff (connected : Bool) (ts : List Turn) :
    Truthful (serve connected ts) ↔ Delivers connected ts := by
  induction ts generalizing connected with
  | nil => simp [serve, Truthful, Delivers]
  | cons t ts ih =>
      set s := sendAll t.io 0 connected t.q.commands with hs
      cases hr : t.routerOk with
      | false => simp [serve, Truthful, Delivers, hr]
      | true =>
          have hserve : serve connected (t :: ts) =
              ⟨t.q, s.2, some (encodeResponse t.q.msgId)⟩ :: serve s.1 ts := by
            rw [serve, if_pos hr]
          have hhead : Truthful (serve connected (t :: ts)) ↔
              s.2 = t.q.commands.map (· ++ [10]) ∧ Truthful (serve s.1 ts) := by
            rw [hserve, Truthful, List.forall_mem_cons]
            simp [Truthful]
          rw [hhead, hs, sendAll_iff, Delivers]
          simp only [hr, forall_const]
          refine and_congr_right fun hsends => ?_
          rw [sendAll_connected hsends]
          exact ih _

/-- No connection can be made: the action on D13 does nothing, and success is reported. -/
theorem not_truthful_unconnected :
    ¬ Truthful
      (serve false [⟨⟨7, setPinByName, ascii "D13", 1⟩, fun _ => ⟨false, -1, false, -1⟩, true⟩]) ∧
      serve false [⟨⟨7, setPinByName, ascii "D13", 1⟩, fun _ => ⟨false, -1, false, -1⟩, true⟩] =
        [⟨⟨7, setPinByName, ascii "D13", 1⟩, [[], []], some [0x94, 0x01, 0x07, 0xc0, 0xc3]⟩] := by
  decide +kernel

end Imola.Bridge
