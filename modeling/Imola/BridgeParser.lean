import Imola.Bytes
import Imola.Incremental

/-! # The MessagePack-RPC request parser of `imola-bridge`

`parseRpcRequest` follows `parse_rpc_request` of `imola-bridge.c`: it reads
`[0, msg_id, method, params]` from the front of the receive buffer, with `msg_id` a positive
fixint or a `uint8`/`uint16`/`uint32`, `method` a fixstr and `params` a fixarray whose first
two elements are the pin name and the value.  Its three verdicts are the three kinds of
return value: `more` is `0`, `reject` is `-1`, and `done q r` is the number of bytes before
`r`, with the output arguments collected in `q`.

The parser is built from the primitives of `Incremental.lean`, hence stable
(`parseRpcRequest_stable`): no verdict it has given on a buffer is changed by bytes that
arrive later. -/

namespace Imola.Bridge

open Imola.Streams Imola.Bytes

/-- The output arguments of the parser: the C arrays hold `method` and `pin` followed by a NUL. -/
structure Request where
  msgId : ℕ
  method : List UInt8
  pin : List UInt8
  val : ℕ
deriving DecidableEq, Repr

/-- `msg_id`: positive fixint or `uint8`/`uint16`/`uint32`, big-endian. -/
def decodeMsgId : Parser UInt8 ℕ := do
  let b ← Parser.item
  if b ≤ 0x7f then return b.toNat
  else if b = 0xcc then return ofBE (← Parser.takeN 1)
  else if b = 0xcd then return ofBE (← Parser.takeN 2)
  else if b = 0xce then return ofBE (← Parser.takeN 4)
  else Parser.fail

/-- A fixstr, copied into an array of `max` bytes with room for the NUL. -/
def decodeFixstr (max : ℕ) : Parser UInt8 (List UInt8) := do
  let b ← Parser.item
  Parser.guard (b &&& 0xe0 = 0xa0)
  let s ← Parser.takeN (b &&& 0x1f).toNat
  return s.take (min s.length (max - 1))

/-- The header of the parameter array: its number of elements. -/
def decodeFixarray : Parser UInt8 ℕ := do
  let b ← Parser.item
  Parser.guard (b &&& 0xf0 = 0x90)
  return (b &&& 0x0f).toNat

/-- The value: a bool, a fixint or a `uint8`; any other byte counts as `0`. -/
def decodeVal : Parser UInt8 ℕ := do
  let v ← Parser.item
  if v = 0xc3 ∨ v = 0x01 then return 1
  else if v = 0xc2 ∨ v = 0x00 then return 0
  else if v = 0xcc then return if (← Parser.item) ≠ 0 then 1 else 0
  else return 0

/-- Parameter 0: the pin name, empty when the parameter is absent. -/
def decodePin (pinMax paramCount : ℕ) : Parser UInt8 (List UInt8) :=
  if paramCount ≥ 1 then decodeFixstr pinMax else pure []

/-- Parameter 1: the value, `0` when the parameter is absent. -/
def decodeParamVal (paramCount : ℕ) : Parser UInt8 ℕ :=
  if paramCount ≥ 2 then decodeVal else pure 0

/-- `parse_rpc_request`. -/
def parseRpcRequest (methodMax pinMax : ℕ) : Parser UInt8 Request := do
  Parser.atLeast 4
  Parser.guard ((← Parser.item) = 0x94)
  Parser.guard ((← Parser.item) = 0x00)
  let msgId ← decodeMsgId
  let method ← decodeFixstr methodMax
  let paramCount ← decodeFixarray
  let pin ← decodePin pinMax paramCount
  let val ← decodeParamVal paramCount
  return ⟨msgId, method, pin, val⟩

/-! ### Stability -/

theorem decodeMsgId_stable : Stable decodeMsgId := by
  refine Stable.item.bind fun b => ?_
  split_ifs
  · exact Stable.pure _
  · exact (Stable.takeN 1).bind fun _ => Stable.pure _
  · exact (Stable.takeN 2).bind fun _ => Stable.pure _
  · exact (Stable.takeN 4).bind fun _ => Stable.pure _
  · exact Stable.fail

theorem decodeFixstr_stable (max : ℕ) : Stable (decodeFixstr max) :=
  Stable.item.bind fun _ => (Stable.guard _).bind fun _ =>
    (Stable.takeN _).bind fun _ => Stable.pure _

theorem decodeFixarray_stable : Stable decodeFixarray :=
  Stable.item.bind fun _ => (Stable.guard _).bind fun _ => Stable.pure _

theorem decodeVal_stable : Stable decodeVal := by
  refine Stable.item.bind fun v => ?_
  split_ifs
  · exact Stable.pure _
  · exact Stable.pure _
  · exact Stable.item.bind fun _ => Stable.pure _
  · exact Stable.pure _

theorem decodePin_stable (pinMax n : ℕ) : Stable (decodePin pinMax n) := by
  unfold decodePin
  split_ifs
  · exact decodeFixstr_stable _
  · exact Stable.pure _

theorem decodeParamVal_stable (n : ℕ) : Stable (decodeParamVal n) := by
  unfold decodeParamVal
  split_ifs
  · exact decodeVal_stable
  · exact Stable.pure _

/-- **No verdict of the parser is changed by later bytes.** -/
theorem parseRpcRequest_stable (methodMax pinMax : ℕ) : Stable (parseRpcRequest methodMax pinMax) :=
  (Stable.atLeast 4).bind fun _ => Stable.item.bind fun _ => (Stable.guard _).bind fun _ =>
    Stable.item.bind fun _ => (Stable.guard _).bind fun _ => decodeMsgId_stable.bind fun _ =>
    (decodeFixstr_stable _).bind fun _ => decodeFixarray_stable.bind fun _ =>
    (decodePin_stable _ _).bind fun _ => (decodeParamVal_stable _).bind fun _ => Stable.pure _

end Imola.Bridge
