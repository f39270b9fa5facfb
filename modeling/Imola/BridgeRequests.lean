import Imola.BridgeLoop

/-! # Requests through the bridge, end to end

`WireRequest` is a request `[0, id, method, params]` as a client may send it: the id in any
of the four accepted formats, the method and the pin NUL-free strings of at most 31 bytes,
and the parameters `[]`, `[pin]` or `[pin, v]`.  Its bytes are parsed back to exactly these
values, whatever follows (`parseRpcRequest_encode`).

`Stream` puts junk without a `0x94 0x00` in front of every request.  `mainLoop_stream` says
what the loop does with such a stream, however the reads cut it: one reply for every request,
in order, under the request's own id, and the pin action of every `set_pin_by_name`. -/

namespace Imola.Bridge

open Imola.Streams Imola.Bytes Imola.CStrings

/-! ### Requests on the wire -/

/-- The accepted formats of a message id. -/
inductive IdFormat where
  | fixint
  | uint8
  | uint16
  | uint32
deriving DecidableEq, Repr

/-- The ids a format can hold lie below this bound. -/
def IdFormat.bound : IdFormat → ℕ
  | fixint => 2 ^ 7
  | uint8 => 2 ^ 8
  | uint16 => 2 ^ 16
  | uint32 => 2 ^ 32

def IdFormat.encode : IdFormat → ℕ → List UInt8
  | fixint, id => [UInt8.ofNat id]
  | uint8, id => 0xcc :: toBE 1 id
  | uint16, id => 0xcd :: toBE 2 id
  | uint32, id => 0xce :: toBE 4 id

/-- A NUL-free string that fits a fixstr. -/
structure FixStr where
  bytes : List UInt8
  length_le : bytes.length ≤ 31
  nul_free : 0 ∉ bytes
deriving DecidableEq, Repr

def FixStr.encode (s : FixStr) : List UInt8 := (0xa0 ||| UInt8.ofNat s.bytes.length) :: s.bytes

/-- The accepted values. -/
inductive WireVal where
  | false
  | true
  | zero
  | one
  | uint8 (x : UInt8)
deriving DecidableEq, Repr

def WireVal.encode : WireVal → List UInt8
  | false => [0xc2]
  | true => [0xc3]
  | zero => [0x00]
  | one => [0x01]
  | uint8 x => [0xcc, x]

/-- The 0/1 value a parameter stands for. -/
def WireVal.val : WireVal → ℕ
  | false => 0
  | true => 1
  | zero => 0
  | one => 1
  | uint8 x => if x ≠ 0 then 1 else 0

/-- The parameter list of a request. -/
inductive Params where
  | none
  | pin (p : FixStr)
  | pinVal (p : FixStr) (v : WireVal)
deriving DecidableEq, Repr

namespace Params

def encode : Params → List UInt8
  | none => [0x90]
  | pin p => 0x91 :: p.encode
  | pinVal p v => 0x92 :: (p.encode ++ v.encode)

/-- The pin name, empty if absent. -/
def pinName : Params → List UInt8
  | none => []
  | pin p => p.bytes
  | pinVal p _ => p.bytes

/-- The value, `0` if absent. -/
def val : Params → ℕ
  | none => 0
  | pin _ => 0
  | pinVal _ v => v.val

end Params

/-- A request `[0, id, method, params]`. -/
structure WireRequest where
  format : IdFormat
  id : ℕ
  id_lt : id < format.bound
  method : FixStr
  params : Params
deriving DecidableEq, Repr

namespace WireRequest

def encode (q : WireRequest) : List UInt8 :=
  [0x94, 0x00] ++ (q.format.encode q.id ++ (q.method.encode ++ q.params.encode))

/-- What the parser should make of the request. -/
def request (q : WireRequest) : Request :=
  ⟨q.id, q.method.bytes, q.params.pinName, q.params.val⟩

end WireRequest

/-! ### Decoding what was encoded -/

theorem decodeMsgId_encode (f : IdFormat) {id : ℕ} (h : id < f.bound) (rest : List UInt8) :
    decodeMsgId (f.encode id ++ rest) = .done id rest := by
  unfold decodeMsgId
  cases f with
  | fixint =>
      simp only [IdFormat.bound] at h
      have hle : UInt8.ofNat id ≤ 0x7f := by
        rw [UInt8.le_iff_toNat_le, UInt8.toNat_ofNat_of_lt' (by simp [UInt8.size]; omega)]
        exact Nat.le_of_lt_succ h
      have hitem : Parser.item (IdFormat.fixint.encode id ++ rest) = .done (UInt8.ofNat id) rest :=
        rfl
      rw [bind_of_done hitem, if_pos hle]
      show Verdict.done _ _ = _
      rw [UInt8.toNat_ofNat_of_lt' (by simp [UInt8.size]; omega)]
  | uint8 =>
      have hitem : Parser.item (IdFormat.uint8.encode id ++ rest) =
          .done 0xcc (toBE 1 id ++ rest) := rfl
      rw [bind_of_done hitem, if_neg (by decide), if_pos rfl,
        bind_of_done (takeN_append (toBE_length 1 id) rest)]
      show Verdict.done _ _ = _
      rw [ofBE_toBE (by simpa [IdFormat.bound] using h)]
  | uint16 =>
      have hitem : Parser.item (IdFormat.uint16.encode id ++ rest) =
          .done 0xcd (toBE 2 id ++ rest) := rfl
      rw [bind_of_done hitem, if_neg (by decide), if_neg (by decide), if_pos rfl,
        bind_of_done (takeN_append (toBE_length 2 id) rest)]
      show Verdict.done _ _ = _
      rw [ofBE_toBE (by simpa [IdFormat.bound] using h)]
  | uint32 =>
      have hitem : Parser.item (IdFormat.uint32.encode id ++ rest) =
          .done 0xce (toBE 4 id ++ rest) := rfl
      rw [bind_of_done hitem, if_neg (by decide), if_neg (by decide),
        if_neg (by decide), if_pos rfl,
        bind_of_done (takeN_append (toBE_length 4 id) rest)]
      show Verdict.done _ _ = _
      rw [ofBE_toBE (by simpa [IdFormat.bound] using h)]

theorem fixstr_header : ∀ n < 32, (0xa0 ||| UInt8.ofNat n) &&& 0xe0 = 0xa0 ∧
    ((0xa0 ||| UInt8.ofNat n) &&& 0x1f).toNat = n := by
  decide

theorem decodeFixstr_header {s : List UInt8} (hle : s.length ≤ 31) (rest : List UInt8) :
    decodeFixstr 32 ((0xa0 ||| UInt8.ofNat s.length) :: (s ++ rest)) = .done s rest := by
  obtain ⟨htag, hlen⟩ := fixstr_header s.length (by omega)
  have hitem : Parser.item ((0xa0 ||| UInt8.ofNat s.length) :: (s ++ rest)) =
      .done (0xa0 ||| UInt8.ofNat s.length) (s ++ rest) := rfl
  have hguard : Parser.guard ((0xa0 ||| UInt8.ofNat s.length) &&& 0xe0 = 0xa0) (s ++ rest) =
      .done () (s ++ rest) := by
    simp [Parser.guard, htag]
  unfold decodeFixstr
  rw [bind_of_done hitem, bind_of_done hguard, bind_of_done (takeN_append hlen.symm rest)]
  show Verdict.done _ _ = _
  rw [List.take_of_length_le (by simp; omega)]

theorem decodeFixstr_encode (s : FixStr) (rest : List UInt8) :
    decodeFixstr 32 (s.encode ++ rest) = .done s.bytes rest :=
  decodeFixstr_header s.length_le rest

theorem decodeVal_encode (v : WireVal) (rest : List UInt8) :
    decodeVal (v.encode ++ rest) = .done v.val rest := by
  cases v <;> rfl

theorem params_encode (ps : Params) (rest : List UInt8) : ∃ n s,
    decodeFixarray (ps.encode ++ rest) = .done n s ∧ ∃ t,
      decodePin 32 n s = .done ps.pinName t ∧ decodeParamVal n t = .done ps.val rest := by
  cases ps with
  | none => exact ⟨0, rest, rfl, rest, rfl, rfl⟩
  | pin p =>
      refine ⟨1, p.encode ++ rest, rfl, rest, ?_, rfl⟩
      exact decodeFixstr_encode p rest
  | pinVal p v =>
      refine ⟨2, p.encode ++ (v.encode ++ rest), ?_, v.encode ++ rest, ?_, ?_⟩
      · rw [← List.append_assoc]
        rfl
      · exact decodeFixstr_encode p (v.encode ++ rest)
      · exact decodeVal_encode v rest

theorem IdFormat.encode_length_pos (f : IdFormat) (id : ℕ) : 0 < (f.encode id).length := by
  cases f <;> simp [IdFormat.encode]

/-- **A request is parsed back**, whatever follows it in the buffer. -/
theorem parseRpcRequest_encode (q : WireRequest) (rest : List UInt8) :
    parseRpcRequest 32 32 (q.encode ++ rest) = .done q.request rest := by
  obtain ⟨n, s, hcount, t, hpin, hval⟩ := params_encode q.params rest
  set body := q.format.encode q.id ++ (q.method.encode ++ (q.params.encode ++ rest)) with hbody
  have hbytes : q.encode ++ rest = 0x94 :: 0x00 :: body := by
    simp [WireRequest.encode, hbody, List.append_assoc]
  have hlen : 2 ≤ body.length := by
    have := q.format.encode_length_pos q.id
    simp only [hbody, FixStr.encode, List.length_cons, List.length_append]
    omega
  have hid := decodeMsgId_encode q.format q.id_lt (q.method.encode ++ (q.params.encode ++ rest))
  have hmethod := decodeFixstr_encode q.method (q.params.encode ++ rest)
  rw [hbytes, parseRpcRequest_marked hlen, bind_of_done hid, bind_of_done hmethod,
    bind_of_done hcount,
    bind_of_done hpin, bind_of_done hval]
  rfl

/-! ### Streams of requests and junk -/

/-- Junk: bytes without a `0x94` immediately followed by `0x00`. -/
structure Junk where
  bytes : List UInt8
  unmarked : bytes.IsChain fun a b => ¬ (a = 0x94 ∧ b = 0x00)

/-- Requests with junk before each of them. -/
abbrev Stream := List (Junk × WireRequest)

def Stream.bytes (items : Stream) : List UInt8 :=
  items.flatMap fun it => it.1.bytes ++ it.2.encode

theorem processBuffer_junk (u : Junk) (q : WireRequest) (rest : List UInt8) :
    (processBuffer (u.bytes ++ (q.encode ++ rest))).1 = (processBuffer (q.encode ++ rest)).1 := by
  apply parseRpcRequest_framed.drain_junk
  have htake : (q.encode ++ rest).take 1 = [0x94] := rfl
  rw [htake, List.isChain_append]
  refine ⟨u.unmarked.imp ?_, by simp, ?_⟩
  · intro a b hab
    simpa [syncMark] using hab
  · intro a _ b hb
    obtain rfl : b = 0x94 := by simpa using hb.symm
    simp [syncMark]

theorem processBuffer_stream (items : Stream) :
    (processBuffer items.bytes).1 = items.map fun it => it.2.request := by
  induction items with
  | nil => rfl
  | cons it items ih =>
      have hbytes : Stream.bytes (it :: items) =
          it.1.bytes ++ (it.2.encode ++ Stream.bytes items) := by
        simp [Stream.bytes, List.append_assoc]
      rw [hbytes, processBuffer_junk]
      simp only [processBuffer] at ih ⊢
      rw [parseRpcRequest_framed.drain_done (parseRpcRequest_encode it.2 _), List.map_cons, ← ih]

/-! ### What the loop does with them -/

/-- The packets written. -/
def Event.reply? : Event → Option (List UInt8)
  | .reply pkt => some pkt
  | _ => none

/-- The pin actions executed. -/
def Event.pinAction? : Event → Option (List UInt8 × ℕ)
  | .pinAction pin val => some (pin, val)
  | _ => none

theorem Params.upToNul_pinName (ps : Params) : upToNul ps.pinName = ps.pinName := by
  cases ps with
  | none => rfl
  | pin p => exact upToNul_of_nul_free p.nul_free
  | pinVal p v => exact upToNul_of_nul_free p.nul_free

theorem handle_reply (q : Request) :
    (handle q).filterMap Event.reply? = [encodeResponse q.msgId] := by
  unfold handle
  split_ifs <;> rfl

/-- `set_pin_by_name` is the only method that acts on a pin. -/
def WireRequest.action (q : WireRequest) : Option (List UInt8 × ℕ) :=
  if q.method.bytes = setPinByName then some (q.params.pinName, q.params.val) else none

theorem handle_pinAction (q : WireRequest) :
    (handle q.request).filterMap Event.pinAction? = q.action.toList := by
  unfold handle WireRequest.action
  rw [WireRequest.request, upToNul_of_nul_free q.method.nul_free, q.params.upToNul_pinName]
  split_ifs <;> rfl

/-- The id in a reply decodes back under the parser's own rules. -/
theorem decodeMsgId_encodeMsgId {id : ℕ} (h : id < 2 ^ 32) :
    decodeMsgId (encodeMsgId id) = .done id [] := by
  unfold encodeMsgId
  split_ifs with h₁ h₂ h₃
  · simpa [IdFormat.encode] using decodeMsgId_encode .fixint (by simp [IdFormat.bound]; omega) []
  · simpa [IdFormat.encode, toBE, toLE] using
      decodeMsgId_encode .uint8 (by simp [IdFormat.bound]; omega) []
  · simpa [IdFormat.encode] using decodeMsgId_encode .uint16 (by simp [IdFormat.bound]; omega) []
  · simpa [IdFormat.encode] using decodeMsgId_encode .uint32 (by simp [IdFormat.bound]; omega) []

theorem WireRequest.id_lt_two_pow (q : WireRequest) : q.id < 2 ^ 32 := by
  have h := q.id_lt
  cases hf : q.format <;> simp only [hf, IdFormat.bound] at h <;> omega

/-- **Requests end to end**: for every stream of requests with junk between them and every
way of reading it, the loop answers each request once, in order, with a reply whose id bytes
decode to the request's id, and executes the pin action of every `set_pin_by_name`, in order. -/
theorem mainLoop_stream {cs : List (List UInt8)} (hr : Reads .init cs) (items : Stream)
    (h : cs.flatten = items.bytes) :
    (mainLoop .init cs).log.filterMap Event.reply? =
        items.map (fun it => [0x94, 0x01] ++ encodeMsgId it.2.id ++ [0xc0, 0xc3]) ∧
      (∀ it ∈ items, decodeMsgId (encodeMsgId it.2.id) = .done it.2.id []) ∧
      (mainLoop .init cs).log.filterMap Event.pinAction? =
        items.filterMap (fun it => it.2.action) := by
  have hlog : (mainLoop .init cs).log = items.flatMap fun it => handle it.2.request := by
    rw [mainLoop_log LoopState.init_drained hr, h]
    simp only [LoopState.step, LoopState.init, List.nil_append]
    rw [processBuffer_stream, List.flatMap_map]
  refine ⟨?_, ?_, ?_⟩
  · rw [hlog, List.filterMap_flatMap]
    simp only [handle_reply]
    rw [List.map_eq_flatMap]
    rfl
  · intro it _
    exact decodeMsgId_encodeMsgId it.2.id_lt_two_pow
  · rw [hlog, List.filterMap_flatMap]
    simp only [handle_pinAction]
    rw [List.filterMap_eq_flatMap_toList]

theorem setPinByName_length_le : setPinByName.length ≤ 31 := by decide

theorem setPinByName_nul_free : 0 ∉ setPinByName := by decide

/-- Two requests: `[0, 200, "set_pin_by_name", ["D13", true]]` after two bytes of junk, and
`[0, 5, "x", []]`. -/
def sampleStream : Stream :=
  [(⟨[0x13, 0x94], by decide⟩,
    ⟨.uint8, 200, by decide, ⟨setPinByName, by decide, by decide⟩,
      .pinVal ⟨[0x44, 0x31, 0x33], by decide, by decide⟩ .true⟩),
   (⟨[], by decide⟩, ⟨.fixint, 5, by decide, ⟨[0x78], by decide, by decide⟩, .none⟩)]

/-- The sample stream, cut inside the first id and inside the second header. -/
theorem mainLoop_sampleStream :
    let log := (mainLoop .init [sampleStream.bytes.take 5, (sampleStream.bytes.drop 5).take 24,
      sampleStream.bytes.drop 29]).log
    log.filterMap Event.reply? =
        [[0x94, 0x01, 0xcc, 200, 0xc0, 0xc3], [0x94, 0x01, 5, 0xc0, 0xc3]] ∧
      (∀ it ∈ sampleStream, decodeMsgId (encodeMsgId it.2.id) = .done it.2.id []) ∧
      log.filterMap Event.pinAction? = [([0x44, 0x31, 0x33], 1)] :=
  mainLoop_stream (by decide) sampleStream (by decide)

end Imola.Bridge
