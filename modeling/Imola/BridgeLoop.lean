import Imola.CStrings
import Imola.Framing
import Imola.BridgeParser

/-! # The request loop of `imola-bridge`

`mainLoop` follows the loop of `main` in `imola-bridge.c`: each `read` appends to a buffer of
`bufSize` bytes, the inner loop (`processBuffer`) handles every complete request in it, and
after a protocol error it drops bytes up to the next `0x94 0x00`.  A handled request runs the
pin action if its method is `set_pin_by_name`, and is always answered.

The loop is the drain of `Framing.lean` for the parser of `BridgeParser.lean`, so the log of
a run depends on the bytes received and not on how `read` cut them (`mainLoop_log`,
`mainLoop_log_eq`).  Writes to the router socket are taken to be complete; the pin actions
are logged with their arguments. -/

namespace Imola.Bridge

open Imola.Streams Imola.Bytes Imola.CStrings

/-- `sizeof(buf)`. -/
def bufSize : ℕ := 4096

/-- The two bytes at which the stream is resynchronised. -/
def syncMark (a b : UInt8) : Bool := a == 0x94 && b == 0x00

/-- `"set_pin_by_name"`. -/
def setPinByName : List UInt8 :=
  [0x73, 0x65, 0x74, 0x5f, 0x70, 0x69, 0x6e, 0x5f, 0x62, 0x79, 0x5f, 0x6e, 0x61, 0x6d, 0x65]

/-- What the loop does to the outside. -/
inductive Event where
  /-- A request was parsed and printed. -/
  | request (q : Request)
  /-- `execute_pin_action(pin, val)` was called. -/
  | pinAction (pin : List UInt8) (val : ℕ)
  /-- A packet was written to the router socket. -/
  | reply (pkt : List UInt8)
deriving DecidableEq, Repr

/-- The message id as the reply carries it: the shortest of the four formats. -/
def encodeMsgId (msgId : ℕ) : List UInt8 :=
  if msgId ≤ 0x7f then [UInt8.ofNat msgId]
  else if msgId ≤ 0xff then [0xcc, UInt8.ofNat msgId]
  else if msgId ≤ 0xffff then 0xcd :: toBE 2 msgId
  else 0xce :: toBE 4 msgId

/-- The response `[1, msg_id, nil, true]`. -/
def encodeResponse (msgId : ℕ) : List UInt8 := [0x94, 0x01] ++ encodeMsgId msgId ++ [0xc0, 0xc3]

/-- The body of the inner loop for a complete request. -/
def handle (q : Request) : List Event :=
  [.request q] ++
    (if upToNul q.method = setPinByName then [.pinAction (upToNul q.pin) q.val] else []) ++
    [.reply (encodeResponse q.msgId)]

/-- The inner loop: the requests handled, and the bytes left at the front of the buffer. -/
def processBuffer (buf : List UInt8) : List Request × List UInt8 :=
  drain (parseRpcRequest 32 32) syncMark buf

/-- The state at the top of the outer loop: the first `buf_pos` bytes of the buffer, and
what has been done so far. -/
structure LoopState where
  buf : List UInt8
  log : List Event
deriving DecidableEq, Repr

/-- The state in which the loop is entered. -/
def LoopState.init : LoopState := ⟨[], []⟩

/-- One iteration of the outer loop in which `read` returned the bytes `c`. -/
def LoopState.step (s : LoopState) (c : List UInt8) : LoopState :=
  ⟨(processBuffer (s.buf ++ c)).2, s.log ++ (processBuffer (s.buf ++ c)).1.flatMap handle⟩

/-- The outer loop on the results of successive reads.  A full buffer would be processed
again and again without a read; the state is then final. -/
def mainLoop : LoopState → List (List UInt8) → LoopState
  | s, [] => s
  | s, c :: cs => if bufSize - s.buf.length > 0 then mainLoop (s.step c) cs else s

/-- `cs` can be returned by successive reads: each is non-empty and fits the free space. -/
def Reads : LoopState → List (List UInt8) → Prop
  | _, [] => True
  | s, c :: cs => c ≠ [] ∧ c.length ≤ bufSize - s.buf.length ∧ Reads (s.step c) cs

instance Reads.decidable : ∀ (s : LoopState) (cs : List (List UInt8)), Decidable (Reads s cs)
  | _, [] => .isTrue trivial
  | s, c :: cs =>
      have := Reads.decidable (s.step c) cs
      inferInstanceAs (Decidable (_ ∧ _ ∧ _))

/-! ### The parser frames the stream -/

theorem parseRpcRequest_short {m n : ℕ} {x : List UInt8} (h : x.length < 4) :
    parseRpcRequest m n x = .more := by
  apply bind_of_more
  simp [Parser.atLeast, h]

theorem parseRpcRequest_long {m n : ℕ} {a b : UInt8} {r : List UInt8}
    (h : 4 ≤ (a :: b :: r).length) : parseRpcRequest m n (a :: b :: r) =
      (do
        Parser.guard (a = 0x94)
        Parser.guard ((← Parser.item) = 0x00)
        let msgId ← decodeMsgId
        let method ← decodeFixstr m
        let paramCount ← decodeFixarray
        let pin ← decodePin n paramCount
        let val ← decodeParamVal paramCount
        return (⟨msgId, method, pin, val⟩ : Request) : Parser UInt8 Request) (b :: r) := by
  have hlen : Parser.atLeast 4 (a :: b :: r) = .done () (a :: b :: r) := by
    simp only [Parser.atLeast, if_neg (by omega : ¬ (a :: b :: r).length < 4)]
  unfold parseRpcRequest
  rw [bind_of_done hlen]
  exact bind_of_done rfl

theorem parseRpcRequest_marked {m n : ℕ} {x : List UInt8} (h : 2 ≤ x.length) :
    parseRpcRequest m n (0x94 :: 0x00 :: x) =
      (do
        let msgId ← decodeMsgId
        let method ← decodeFixstr m
        let paramCount ← decodeFixarray
        let pin ← decodePin n paramCount
        let val ← decodeParamVal paramCount
        return (⟨msgId, method, pin, val⟩ : Request) : Parser UInt8 Request) x := by
  have h₁ : Parser.guard ((0x94 : UInt8) = 0x94) (0x00 :: x) = .done () (0x00 :: x) := rfl
  have h₂ : Parser.item (0x00 :: x) = .done 0x00 x := rfl
  have h₃ : Parser.guard ((0x00 : UInt8) = 0x00) x = .done () x := rfl
  rw [parseRpcRequest_long (by simp only [List.length_cons]; omega), bind_of_done h₁,
    bind_of_done h₂,
    bind_of_done h₃]

theorem parseRpcRequest_unmarked {m n : ℕ} {a b : UInt8} {r : List UInt8}
    (hm : syncMark a b = false) (h : 4 ≤ (a :: b :: r).length) :
    parseRpcRequest m n (a :: b :: r) = .reject := by
  rw [parseRpcRequest_long h]
  by_cases ha : a = 0x94
  · have hb : b ≠ 0x00 := by
      intro hb
      simp [syncMark, ha, hb] at hm
    have h₁ : Parser.guard (a = 0x94) (b :: r) = .done () (b :: r) := by
      simp [Parser.guard, ha]
    have h₂ : Parser.item (b :: r) = .done b r := rfl
    rw [bind_of_done h₁, bind_of_done h₂]
    apply bind_of_reject
    simp [Parser.guard, hb]
  · apply bind_of_reject
    simp [Parser.guard, ha]

theorem parseRpcRequest_framed : Framed (parseRpcRequest 32 32) syncMark 4 where
  stable := parseRpcRequest_stable 32 32
  progress := by
    intro x r q h
    obtain ⟨u, s, h₁, h₂⟩ := bind_done.mp h
    have hs : s = x := by
      simp only [Parser.atLeast] at h₁
      split_ifs at h₁
      cases h₁
      rfl
    rw [hs] at h₂
    refine item_bind_length_lt (fun a => ?_) h₂
    exact (Stable.guard _).bind fun _ => Stable.item.bind fun _ => (Stable.guard _).bind fun _ =>
      decodeMsgId_stable.bind fun _ => (decodeFixstr_stable _).bind fun _ =>
      decodeFixarray_stable.bind fun _ => (decodePin_stable _ _).bind fun _ =>
      (decodeParamVal_stable _).bind fun _ => Stable.pure _
  short := parseRpcRequest_short
  unmarked := parseRpcRequest_unmarked
  two_le := by decide

/-! ### Independence of the read boundaries -/

/-- Nothing in the buffer is left to be handled, as at the top of every iteration. -/
def LoopState.Drained (s : LoopState) : Prop := (processBuffer s.buf).1 = []

theorem LoopState.init_drained : LoopState.init.Drained := rfl

theorem LoopState.step_drained (s : LoopState) (c : List UInt8) : (s.step c).Drained :=
  parseRpcRequest_framed.drain_rest (s.buf ++ c)

/-- An iteration that reads `c`, then one on the bytes `y`, does what one iteration on all of
them does. -/
theorem LoopState.step_append (s : LoopState) (c y : List UInt8) :
    ((s.step c).step y).log = (s.step (c ++ y)).log := by
  have h := parseRpcRequest_framed.drain_append (s.buf ++ c) y
  simp only [LoopState.step, processBuffer] at h ⊢
  rw [← List.append_assoc s.buf c y, h, List.flatMap_append, List.append_assoc]

/-- **The log of a run**: the requests of the whole byte stream, handled in order. -/
theorem mainLoop_log {s : LoopState} {cs : List (List UInt8)} (hs : s.Drained) (hr : Reads s cs) :
    (mainLoop s cs).log = (s.step cs.flatten).log := by
  induction cs generalizing s with
  | nil =>
      have hnil : (processBuffer s.buf).1 = [] := hs
      simp [mainLoop, LoopState.step, hnil]
  | cons c cs ih =>
      obtain ⟨hne, hfit, hrest⟩ := hr
      have hpos : 0 < c.length := List.length_pos_iff.mpr hne
      rw [mainLoop, if_pos (by omega), ih (s.step_drained c) hrest, s.step_append c cs.flatten,
        List.flatten_cons]

/-- **Stream independence**: two ways of cutting one byte stream into reads give the same
requests, pin actions and replies, in the same order. -/
theorem mainLoop_log_eq {cs ds : List (List UInt8)} (hc : Reads .init cs) (hd : Reads .init ds)
    (h : cs.flatten = ds.flatten) : (mainLoop .init cs).log = (mainLoop .init ds).log := by
  rw [mainLoop_log LoopState.init_drained hc, mainLoop_log LoopState.init_drained hd, h]

/-- Junk, then `[0, 7, "", ["A", true]]`, cut after the junk and a byte of the request, and read
at once. -/
theorem mainLoop_log_eq_cut :
    (mainLoop .init [[0x00, 0x13, 0x94, 0x94], [0x00, 0x07, 0xa0, 0x92, 0xa1], [0x41, 0xc3]]).log =
      (mainLoop .init [[0x00, 0x13, 0x94, 0x94, 0x00, 0x07, 0xa0, 0x92, 0xa1, 0x41, 0xc3]]).log :=
  mainLoop_log_eq (by decide) (by decide) rfl

end Imola.Bridge
