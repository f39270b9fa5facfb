import Imola.MessagePack
import Imola.BridgeRequests

/-! # What `imola-bridge` takes for a request

`parse_rpc_request` reads the first two parameters of a request and no more, and of the second one
only the formats it knows.  Two consequences are measured against the MessagePack format.

* **Framing.**  What the parser takes off the stream is a complete MessagePack value exactly when
  the request has at most two parameters and the second is a single byte or a `uint8`
  (`consumed_value_iff`).
* **Widths.**  Two encodings of `[0, id, method, [pin, v]]` that differ in the formats of `id` and
  `v` are read alike exactly when `v` is written in formats the parser knows (`sameReading_iff`). -/

namespace Imola.Bridge

open Imola.Streams Imola.Bytes Imola.MessagePack

/-! ### The parts of a request are values -/

/-- The bytes in front of `r` in `x`. -/
def consumed (x r : List UInt8) : List UInt8 := x.take (x.length - r.length)

theorem consumed_append (u r : List UInt8) : consumed (u ++ r) r = u := by
  simp [consumed]

theorem takeN_done {n : ℕ} {x u s : List UInt8} (h : Parser.takeN n x = .done u s) :
    u.length = n ∧ x = u ++ s := by
  unfold Parser.takeN at h
  split_ifs at h with hn
  cases h
  refine ⟨?_, (List.take_append_drop n x).symm⟩
  rw [List.length_take]
  omega

theorem item_done {x s : List UInt8} {b : UInt8} (h : Parser.item x = .done b s) : x = b :: s := by
  cases x with
  | nil => cases h
  | cons a x =>
      cases h
      rfl

theorem guard_done {c : Bool} {x s : List UInt8} {u : Unit} (h : Parser.guard c x = .done u s) :
    c = true ∧ x = s := by
  unfold Parser.guard at h
  split_ifs at h with hc
  cases h
  exact ⟨hc, rfl⟩

theorem decodeMsgId_value {x s : List UInt8} {id : ℕ} (h : decodeMsgId x = .done id s) :
    ∃ u, Value u ∧ x = u ++ s := by
  obtain ⟨b, r, hb, hid⟩ := bind_done.mp h
  obtain rfl := item_done hb
  have htake : ∀ {n : ℕ}, shape b = some (.fixed n) →
      (do return ofBE (← Parser.takeN n) : Parser UInt8 ℕ) r = .done id s →
        ∃ u, Value u ∧ b :: r = u ++ s := by
    intro n hshape hn
    obtain ⟨u, s', hu, hret⟩ := bind_done.mp hn
    obtain ⟨rfl, rfl⟩ := takeN_done hu
    cases hret
    exact ⟨b :: u, value_of_fixed hshape, rfl⟩
  split_ifs at hid with h₁ h₂ h₃ h₄
  · cases hid
    exact ⟨[b], value_of_fixed (by simp [shape, h₁]), rfl⟩
  · exact htake (by rw [h₂]; rfl) hid
  · exact htake (by rw [h₃]; rfl) hid
  · exact htake (by rw [h₄]; rfl) hid
  · cases hid

theorem fixstr_range : ∀ b : UInt8, b &&& 0xe0 = 0xa0 →
    ¬ b ≤ 0x7f ∧ ¬ b ≤ 0x8f ∧ ¬ b ≤ 0x9f ∧ b ≤ 0xbf := by
  decide +kernel

theorem fixarray_range : ∀ b : UInt8, b &&& 0xf0 = 0x90 → ¬ b ≤ 0x7f ∧ ¬ b ≤ 0x8f ∧ b ≤ 0x9f := by
  decide +kernel

theorem decodeFixstr_value {max : ℕ} {x t s : List UInt8} (h : decodeFixstr max x = .done t s) :
    ∃ u, Value u ∧ x = u ++ s := by
  obtain ⟨b, r, hitem, h₁⟩ := bind_done.mp h
  obtain ⟨_, r', hguard, h₂⟩ := bind_done.mp h₁
  obtain ⟨u, s', htake, hret⟩ := bind_done.mp h₂
  obtain rfl := item_done hitem
  obtain ⟨hb, rfl⟩ := guard_done hguard
  obtain ⟨hlen, rfl⟩ := takeN_done htake
  cases hret
  obtain ⟨hb₁, hb₂, hb₃, hb₄⟩ := fixstr_range b (by simpa using hb)
  refine ⟨b :: u, value_of_fixed ?_, rfl⟩
  simp [shape, hb₁, hb₂, hb₃, hb₄, hlen]

theorem decodeFixarray_done {x s : List UInt8} {n : ℕ} (h : decodeFixarray x = .done n s) :
    ∃ b, shape b = some (.holding n) ∧ x = b :: s := by
  obtain ⟨b, r, hitem, h₁⟩ := bind_done.mp h
  obtain ⟨_, r', hguard, hret⟩ := bind_done.mp h₁
  obtain rfl := item_done hitem
  obtain ⟨hb, rfl⟩ := guard_done hguard
  cases hret
  obtain ⟨hb₁, hb₂, hb₃⟩ := fixarray_range b (by simpa using hb)
  refine ⟨b, ?_, rfl⟩
  simp [shape, hb₁, hb₂, hb₃]

/-! ### Framing -/

/-- `parse_rpc_request` up to parameter 1: `param_count`. -/
def decodeUpToVal (methodMax pinMax : ℕ) : Parser UInt8 ℕ := do
  Parser.atLeast 4
  Parser.guard ((← Parser.item) = 0x94)
  Parser.guard ((← Parser.item) = 0x00)
  let _ ← decodeMsgId
  let _ ← decodeFixstr methodMax
  let paramCount ← decodeFixarray
  let _ ← decodePin pinMax paramCount
  return paramCount

/-- The values of one byte: fixints, empty collections and strings, nil and the bools. -/
def OneByte (v : UInt8) : Prop :=
  v ≤ 0x80 ∨ v = 0x90 ∨ v = 0xa0 ∨ v = 0xc0 ∨ v = 0xc2 ∨ v = 0xc3 ∨ 0xe0 ≤ v

instance (v : UInt8) : Decidable (OneByte v) := inferInstanceAs (Decidable (_ ∨ _))

theorem value_singleton_iff : ∀ v : UInt8, Value [v] ↔ OneByte v := by decide +kernel

/-- The parser sees all of the parameters: there are at most two, and the second is one byte or a
`uint8`. -/
def SeesParams (methodMax pinMax : ℕ) (x : List UInt8) : Prop :=
  ∃ n s, decodeUpToVal methodMax pinMax x = .done n s ∧
    (n < 2 ∨ n = 2 ∧ ∃ v t, s = v :: t ∧ (OneByte v ∨ v = 0xcc))

variable {m p n val : ℕ} {x s r : List UInt8} {q : Request}

theorem atLeast_done {k : ℕ} {u : Unit} (h : Parser.atLeast k x = .done u s) : x = s := by
  unfold Parser.atLeast at h
  split_ifs at h
  cases h
  rfl

theorem parseRpcRequest_upToVal (h : parseRpcRequest m p x = .done q r) : ∃ n s,
    decodeUpToVal m p x = .done n s ∧ decodeParamVal n s = .done q.val r := by
  obtain ⟨u, s₁, h₁, h⟩ := bind_done.mp h
  obtain ⟨a, s₂, h₂, h⟩ := bind_done.mp h
  obtain ⟨u', s₃, h₃, h⟩ := bind_done.mp h
  obtain ⟨b, s₄, h₄, h⟩ := bind_done.mp h
  obtain ⟨u'', s₅, h₅, h⟩ := bind_done.mp h
  obtain ⟨id, s₆, h₆, h⟩ := bind_done.mp h
  obtain ⟨method, s₇, h₇, h⟩ := bind_done.mp h
  obtain ⟨n, s₈, h₈, h⟩ := bind_done.mp h
  obtain ⟨pin, s₉, h₉, h⟩ := bind_done.mp h
  obtain ⟨val, s₁₀, h₁₀, h⟩ := bind_done.mp h
  cases h
  refine ⟨n, s₉, ?_, h₁₀⟩
  unfold decodeUpToVal
  rw [bind_of_done h₁, bind_of_done h₂, bind_of_done h₃, bind_of_done h₄, bind_of_done h₅,
    bind_of_done h₆,
    bind_of_done h₇, bind_of_done h₈, bind_of_done h₉]
  rfl

theorem decodePin_values {pin : List UInt8} (h : decodePin p n x = .done pin s) : ∃ u, x = u ++ s ∧
    ∀ w, Values n (u ++ w) ↔ Values (n - 1) w := by
  unfold decodePin at h
  split_ifs at h with hn
  · obtain ⟨u, hu, rfl⟩ := decodeFixstr_value h
    obtain ⟨k, rfl⟩ : ∃ k, n = k + 1 := ⟨n - 1, by omega⟩
    exact ⟨u, rfl, fun w => value_append_iff hu⟩
  · cases h
    obtain rfl : n = 0 := by omega
    exact ⟨[], rfl, fun w => Iff.rfl⟩

theorem value_request_iff {id method w : List UInt8} {c : UInt8} (hid : Value id)
    (hmethod : Value method)
    (hc : shape c = some (.holding n)) :
    Value (0x94 :: 0x00 :: (id ++ (method ++ c :: w))) ↔ Values n w :=
  calc Value (0x94 :: 0x00 :: (id ++ (method ++ c :: w)))
      ↔ Values 4 ([0x00] ++ (id ++ (method ++ c :: w))) := values_holding_iff rfl
    _ ↔ Values 3 (id ++ (method ++ c :: w)) := value_append_iff (value_of_fixed rfl)
    _ ↔ Values 2 (method ++ c :: w) := value_append_iff hid
    _ ↔ Value (c :: w) := value_append_iff hmethod
    _ ↔ Values n w := values_holding_iff hc

/-- In front of parameter 1 the parser has taken values only: what is missing to a complete request
are the parameters behind the first. -/
theorem decodeUpToVal_values (h : decodeUpToVal m p x = .done n s) : ∃ u, x = u ++ s ∧
    ∀ w, Value (u ++ w) ↔ Values (n - 1) w := by
  obtain ⟨u, s₁, h₁, h⟩ := bind_done.mp h
  obtain ⟨a, s₂, h₂, h⟩ := bind_done.mp h
  obtain ⟨u', s₃, h₃, h⟩ := bind_done.mp h
  obtain ⟨b, s₄, h₄, h⟩ := bind_done.mp h
  obtain ⟨u'', s₅, h₅, h⟩ := bind_done.mp h
  obtain ⟨id, s₆, h₆, h⟩ := bind_done.mp h
  obtain ⟨method, s₇, h₇, h⟩ := bind_done.mp h
  obtain ⟨n, s₈, h₈, h⟩ := bind_done.mp h
  obtain ⟨pin, s₉, h₉, h⟩ := bind_done.mp h
  cases h
  obtain ⟨ha, rfl⟩ := guard_done h₃
  obtain ⟨hb, rfl⟩ := guard_done h₅
  obtain ⟨x₆, hx₆, rfl⟩ := decodeMsgId_value h₆
  obtain ⟨x₇, hx₇, rfl⟩ := decodeFixstr_value h₇
  obtain ⟨c, hc, rfl⟩ := decodeFixarray_done h₈
  obtain rfl : a = 0x94 := by simpa using ha
  obtain rfl : b = 0x00 := by simpa using hb
  obtain rfl := item_done h₄
  obtain rfl := item_done h₂
  obtain rfl := atLeast_done h₁
  obtain ⟨x₉, rfl, hx₉⟩ := decodePin_values h₉
  refine ⟨0x94 :: 0x00 :: (x₆ ++ (x₇ ++ c :: x₉)), by simp, fun w => ?_⟩
  rw [← hx₉ w, ← value_request_iff hx₆ hx₇ hc]
  simp

theorem decodeParamVal_took (h : decodeParamVal n s = .done val r) :
    (n < 2 ∧ s = r) ∨ (2 ≤ n ∧ ∃ v, v ≠ 0xcc ∧ s = v :: r) ∨ (2 ≤ n ∧ ∃ b, s = 0xcc :: b :: r) := by
  unfold decodeParamVal at h
  split_ifs at h with hn
  · obtain ⟨v, t, hitem, hval⟩ := bind_done.mp h
    obtain rfl := item_done hitem
    by_cases hcc : v = 0xcc
    · subst hcc
      obtain ⟨b, t', hitem', hret⟩ := bind_done.mp hval
      obtain rfl := item_done hitem'
      cases hret
      exact .inr (.inr ⟨hn, b, rfl⟩)
    · refine .inr (.inl ⟨hn, v, hcc, ?_⟩)
      split_ifs at hval <;> cases hval <;> rfl
  · cases h
    exact .inl ⟨by omega, rfl⟩

/-- Taken for the parameters behind the first, one byte is enough if it is a value and the last
one. -/
theorem values_val_iff {v : UInt8} (hn : 2 ≤ n) : Values (n - 1) [v] ↔ n = 2 ∧ OneByte v := by
  constructor
  · intro h
    have hle := h.le_length
    obtain rfl : n = 2 := by
      rw [List.length_singleton] at hle
      omega
    exact ⟨rfl, (value_singleton_iff v).mp h⟩
  · rintro ⟨rfl, hv⟩
    exact (value_singleton_iff v).mpr hv

theorem values_uint8_iff {b : UInt8} (hn : 2 ≤ n) : Values (n - 1) [0xcc, b] ↔ n = 2 := by
  obtain ⟨k, rfl⟩ : ∃ k, n = k + 2 := ⟨n - 2, by omega⟩
  have hval : Value [0xcc, b] := value_of_fixed rfl
  have hrest : Values (k + 1) ([0xcc, b] ++ []) ↔ Values k [] := value_append_iff hval
  constructor
  · intro h
    have hle := (hrest.mp h).le_length
    rw [List.length_nil] at hle
    omega
  · intro hk
    obtain rfl : k = 0 := by omega
    exact hval

/-- **Framing**: what the parser takes off the stream is a complete MessagePack value, with all of
its parameters, exactly when it sees all of the parameters. -/
theorem consumed_value_iff (h : parseRpcRequest m p x = .done q r) :
    Value (consumed x r) ↔ SeesParams m p x := by
  obtain ⟨n, s, hhead, hval⟩ := parseRpcRequest_upToVal h
  have hsees : SeesParams m p x ↔ n < 2 ∨ n = 2 ∧ ∃ v t, s = v :: t ∧ (OneByte v ∨ v = 0xcc) := by
    simp [SeesParams, hhead]
  obtain ⟨u, rfl, hu⟩ := decodeUpToVal_values hhead
  have hvalue : ∀ w, Value (consumed (u ++ (w ++ r)) r) ↔ Values (n - 1) w := by
    intro w
    rw [← List.append_assoc, consumed_append, hu]
  rw [hsees]
  obtain ⟨hn, rfl⟩ | ⟨hn, v, hv, rfl⟩ | ⟨hn, b, rfl⟩ := decodeParamVal_took hval
  · refine (hvalue []).trans ?_
    rw [show n - 1 = 0 by omega]
    exact ⟨fun _ => .inl hn, fun _ => .nil⟩
  · refine (hvalue [v]).trans ((values_val_iff hn).trans ?_)
    constructor
    · rintro ⟨rfl, hone⟩
      exact .inr ⟨rfl, v, r, rfl, .inl hone⟩
    · rintro (hlt | ⟨rfl, v', t, heq, hone | hcc⟩)
      · omega
      · cases heq
        exact ⟨rfl, hone⟩
      · cases heq
        exact absurd hcc hv
  · refine (hvalue [0xcc, b]).trans ((values_uint8_iff hn).trans ?_)
    constructor
    · rintro rfl
      exact .inr ⟨rfl, 0xcc, b :: r, rfl, .inr rfl⟩
    · rintro (hlt | ⟨rfl, -⟩)
      · omega
      · rfl

/-- `[0, 7, "x", ["A", 200]]`, with one byte behind it. -/
theorem consumed_value_uint8 :
    Value (consumed [0x94, 0x00, 0x07, 0xa1, 0x78, 0x92, 0xa1, 0x41, 0xcc, 0xc8, 0x94] [0x94]) :=
  (consumed_value_iff (m := 32) (p := 32) (q := ⟨7, [0x78], [0x41], 1⟩) (by decide)).mpr
    ⟨2, [0xcc, 0xc8, 0x94], by decide, .inr ⟨rfl, 0xcc, [0xc8, 0x94], rfl, .inr rfl⟩⟩

/-- `[0, 1, "x", ["A", true, data]]`, where the data are the bytes of
`[0, 2, "set_pin_by_name", ["D13", true]]`. -/
def forgedRequest : List UInt8 :=
  [0x94, 0x00, 0x01, 0xa1, 0x78, 0x93, 0xa1, 0x41, 0xc3, 0xc4, 0x19] ++
    ([0x94, 0x00, 0x02, 0xaf] ++ setPinByName ++ [0x92, 0xa3, 0x44, 0x31, 0x33, 0xc3])

/-- One complete value is taken for two requests: the parser stops in front of the third parameter,
and the loop finds the pin command in the data. -/
theorem not_consumed_value_forged : Value forgedRequest ∧
    parseRpcRequest 32 32 forgedRequest = .done ⟨1, [0x78], [0x41], 1⟩ (forgedRequest.drop 9) ∧
      ¬ Value (consumed forgedRequest (forgedRequest.drop 9)) ∧
        (processBuffer forgedRequest).1 =
          [⟨1, [0x78], [0x41], 1⟩, ⟨2, setPinByName, [0x44, 0x31, 0x33], 1⟩] := by
  decide +kernel

/-! ### Widths -/

/-- A request `[0, id, method, [pin, v]]`, with a format for everything but `id` and `v`. -/
structure PinCall where
  outer : ArrayFormat
  type : IdFormat
  id : ℕ
  methodFormat : StrFormat
  method : List UInt8
  method_lt : method.length < methodFormat.bound
  inner : ArrayFormat
  pinFormat : StrFormat
  pin : List UInt8
  pin_lt : pin.length < pinFormat.bound
  v : ℕ

namespace PinCall

/-- The bytes of a request with `id` in the format `f` and `v` in the format `g`. -/
def encode (c : PinCall) (f g : IdFormat) : List UInt8 :=
  c.outer.encode 4 ++ (c.type.encode 0 ++ (f.encode c.id ++ (c.methodFormat.encode c.method ++
    (c.inner.encode 2 ++ (c.pinFormat.encode c.pin ++ g.encode c.v)))))

/-- The formats `parse_rpc_request` asks for. -/
def Plain (c : PinCall) : Prop :=
  c.outer = .fixarray ∧ c.type = .fixint ∧ c.methodFormat = .fixstr ∧ c.inner = .fixarray ∧
    c.pinFormat = .fixstr

instance (c : PinCall) : Decidable c.Plain := inferInstanceAs (Decidable (_ ∧ _))

end PinCall

theorem IdFormat.bound_pos (f : IdFormat) : 0 < f.bound := by
  cases f <;> decide

theorem IdFormat.encode_value {f : IdFormat} {k : ℕ} (h : k < f.bound) : Value (f.encode k) := by
  cases f with
  | fixint =>
      have hle : UInt8.ofNat k ≤ 0x7f := by
        simp only [IdFormat.bound] at h
        rw [UInt8.le_iff_toNat_le, UInt8.toNat_ofNat_of_lt' (by simp [UInt8.size]; omega)]
        exact Nat.le_of_lt_succ h
      exact value_of_fixed (by simp [shape, hle])
  | uint8 => exact value_of_fixed (by rw [toBE_length]; rfl)
  | uint16 => exact value_of_fixed (by rw [toBE_length]; rfl)
  | uint32 => exact value_of_fixed (by rw [toBE_length]; rfl)

theorem PinCall.elements_values (c : PinCall) {f g : IdFormat} (hf : c.id < f.bound)
    (hg : c.v < g.bound) : Values 4 (c.type.encode 0 ++ (f.encode c.id ++
      (c.methodFormat.encode c.method ++
        (c.inner.encode 2 ++ (c.pinFormat.encode c.pin ++ g.encode c.v))))) := by
  have hparams : Values 2 (c.pinFormat.encode c.pin ++ g.encode c.v) :=
    (StrFormat.encode_value c.pin_lt).append (IdFormat.encode_value hg)
  have hinner := ArrayFormat.encode_value (by cases c.inner <;> decide : 2 < c.inner.bound) hparams
  exact (IdFormat.encode_value c.type.bound_pos).append ((IdFormat.encode_value hf).append
    ((StrFormat.encode_value c.method_lt).append hinner))

theorem PinCall.encode_value (c : PinCall) {f g : IdFormat} (hf : c.id < f.bound)
    (hg : c.v < g.bound) :
    Value (c.encode f g) :=
  ArrayFormat.encode_value (by cases c.outer <;> decide) (c.elements_values hf hg)

/-- What the parser reads for a number in a format. -/
def IdFormat.readVal : IdFormat → ℕ → ℕ
  | fixint, v => if v = 1 then 1 else 0
  | uint8, v => if v ≠ 0 then 1 else 0
  | uint16, _ => 0
  | uint32, _ => 0

/-- The bytes of a number in a format that the parser leaves in the stream. -/
def IdFormat.unread : IdFormat → ℕ → List UInt8
  | fixint, _ => []
  | uint8, _ => []
  | uint16, v => toBE 2 v
  | uint32, v => toBE 4 v

theorem decodeVal_fixint :
    ∀ v < 128, decodeVal [UInt8.ofNat v] = .done (if v = 1 then 1 else 0) [] := by
  decide +kernel

theorem decodeVal_uint8 :
    ∀ v < 256, decodeVal [0xcc, UInt8.ofNat v] = .done (if v ≠ 0 then 1 else 0) [] := by
  decide +kernel

theorem decodeVal_number {g : IdFormat} {v : ℕ} (h : v < g.bound) :
    decodeVal (g.encode v) = .done (g.readVal v) (g.unread v) := by
  cases g with
  | fixint => exact decodeVal_fixint v h
  | uint8 => exact decodeVal_uint8 v h
  | uint16 => rfl
  | uint32 => rfl

theorem decodeFixstr_format {f : StrFormat} {s : List UInt8} (h : s.length < f.bound)
    (rest : List UInt8) :
    decodeFixstr 32 (f.encode s ++ rest) = if f = .fixstr then .done s rest else .reject := by
  cases f with
  | fixstr => exact decodeFixstr_header (Nat.le_of_lt_succ h) rest
  | str8 => rfl
  | str16 => rfl
  | str32 => rfl

theorem decodeFixarray_format (f : ArrayFormat) (rest : List UInt8) :
    decodeFixarray (f.encode 2 ++ rest) = if f = .fixarray then .done 2 rest else .reject := by
  cases f <;> rfl

section Widths

variable {c : PinCall} {f g f' g' : IdFormat}

theorem PinCall.le_length_encode (hf : c.id < f.bound) (hg : c.v < g.bound) :
    4 ≤ (c.encode f g).length := by
  have h := (c.elements_values hf hg).le_length
  rw [PinCall.encode, List.length_append]
  omega

/-- A header or a type in another format is no `0x94 0x00`. -/
theorem PinCall.parse_unmarked (hf : c.id < f.bound) (hg : c.v < g.bound)
    (h : ¬ (c.outer = .fixarray ∧ c.type = .fixint)) :
    parseRpcRequest 32 32 (c.encode f g) = .reject := by
  obtain ⟨a, b, r, heq, hmark⟩ : ∃ a b r, c.encode f g = a :: b :: r ∧ syncMark a b = false := by
    unfold PinCall.encode
    cases houter : c.outer with
    | fixarray =>
        cases htype : c.type with
        | fixint => exact absurd ⟨houter, htype⟩ h
        | uint8 => exact ⟨_, _, _, rfl, rfl⟩
        | uint16 => exact ⟨_, _, _, rfl, rfl⟩
        | uint32 => exact ⟨_, _, _, rfl, rfl⟩
    | array16 => exact ⟨_, _, _, rfl, rfl⟩
    | array32 => exact ⟨_, _, _, rfl, rfl⟩
  have hlen := PinCall.le_length_encode hf hg
  rw [heq] at hlen ⊢
  exact parseRpcRequest_unmarked hmark hlen

/-- What the parser makes of a request. -/
theorem PinCall.parse_encode (hf : c.id < f.bound) (hg : c.v < g.bound) :
    parseRpcRequest 32 32 (c.encode f g) =
      if c.Plain then .done ⟨c.id, c.method, c.pin, g.readVal c.v⟩ (g.unread c.v) else .reject := by
  by_cases hmark : c.outer = .fixarray ∧ c.type = .fixint
  · set body := f.encode c.id ++ (c.methodFormat.encode c.method ++ (c.inner.encode 2 ++
      (c.pinFormat.encode c.pin ++ g.encode c.v))) with hbody
    have hbytes : c.encode f g = 0x94 :: 0x00 :: body := by
      rw [PinCall.encode, hmark.1, hmark.2]
      rfl
    have hlen : 2 ≤ body.length := by
      have h := PinCall.le_length_encode hf hg
      rw [hbytes, List.length_cons, List.length_cons] at h
      omega
    have hmethod := decodeFixstr_format c.method_lt
      (c.inner.encode 2 ++ (c.pinFormat.encode c.pin ++ g.encode c.v))
    have hcount := decodeFixarray_format c.inner (c.pinFormat.encode c.pin ++ g.encode c.v)
    have hpin := decodeFixstr_format c.pin_lt (g.encode c.v)
    rw [hbytes, parseRpcRequest_marked hlen, bind_of_done (decodeMsgId_encode f hf _)]
    by_cases hm : c.methodFormat = .fixstr
    · rw [if_pos hm] at hmethod
      rw [bind_of_done hmethod]
      by_cases hi : c.inner = .fixarray
      · rw [if_pos hi] at hcount
        rw [bind_of_done hcount]
        by_cases hp : c.pinFormat = .fixstr
        · rw [if_pos hp] at hpin
          have hval : decodeParamVal 2 (g.encode c.v) = _ := decodeVal_number hg
          rw [if_pos ⟨hmark.1, hmark.2, hm, hi, hp⟩, bind_of_done (p := decodePin 32 2) hpin,
            bind_of_done hval]
          rfl
        · rw [if_neg hp] at hpin
          rw [if_neg fun h => hp h.2.2.2.2]
          exact bind_of_reject (p := decodePin 32 2) hpin
      · rw [if_neg hi] at hcount
        rw [if_neg fun h => hi h.2.2.2.1]
        exact bind_of_reject hcount
    · rw [if_neg hm] at hmethod
      rw [if_neg fun h => hm h.2.2.1]
      exact bind_of_reject hmethod
  · rw [if_neg fun h => hmark ⟨h.1, h.2.1⟩]
    exact PinCall.parse_unmarked hf hg hmark

/-- The two verdicts agree: the same outputs, with the value of `v`, or none. -/
def SameReading (v : ℕ) : Verdict UInt8 Request → Verdict UInt8 Request → Prop
  | .done q _, .done q' _ => q = q' ∧ (q.val = 1 ↔ v ≠ 0)
  | .reject, .reject => True
  | .more, .more => True
  | _, _ => False

/-- A number in a format the parser reads. -/
def IdFormat.Reads (g : IdFormat) (v : ℕ) : Prop := v = 0 ∨ g = .uint8 ∨ g = .fixint ∧ v = 1

instance (g : IdFormat) (v : ℕ) : Decidable (g.Reads v) := inferInstanceAs (Decidable (_ ∨ _))

theorem IdFormat.readVal_iff {v : ℕ} : (g.readVal v = 1 ↔ v ≠ 0) ↔ g.Reads v := by
  cases g <;> by_cases h₀ : v = 0 <;> by_cases h₁ : v = 1 <;> simp_all [IdFormat.readVal,
    IdFormat.Reads]

theorem IdFormat.readVal_eq_zero_or (v : ℕ) : g.readVal v = 0 ∨ g.readVal v = 1 := by
  cases g <;> simp only [IdFormat.readVal] <;> (try split_ifs) <;> simp

/-- **Widths**: two encodings of a request that differ in the formats of the id and of the value are
read alike, with the value of `v`, exactly when the parser turns both down for the formats of the
rest, or reads both formats of the value. -/
theorem sameReading_iff (hf : c.id < f.bound) (hg : c.v < g.bound) (hf' : c.id < f'.bound)
    (hg' : c.v < g'.bound) :
    SameReading c.v (parseRpcRequest 32 32 (c.encode f g))
      (parseRpcRequest 32 32 (c.encode f' g')) ↔
      (c.Plain → g.Reads c.v ∧ g'.Reads c.v) := by
  rw [PinCall.parse_encode hf hg, PinCall.parse_encode hf' hg']
  by_cases hplain : c.Plain
  · simp only [hplain, if_true, forall_const, SameReading]
    rw [← IdFormat.readVal_iff, ← IdFormat.readVal_iff]
    rcases g.readVal_eq_zero_or c.v with h | h <;> rcases g'.readVal_eq_zero_or c.v with h' | h' <;>
      simp [h, h']
  · simp [hplain, SameReading]

end Widths

theorem setPinByName_length_lt : setPinByName.length < StrFormat.fixstr.bound := by decide

theorem d13_length_lt : ([0x44, 0x31, 0x33] : List UInt8).length < StrFormat.fixstr.bound := by
  decide

/-- `[0, 7, "set_pin_by_name", ["D13", v]]`. -/
def samplePinCall (v : ℕ) : PinCall :=
  ⟨.fixarray, .fixint, 7, .fixstr, setPinByName, setPinByName_length_lt, .fixarray, .fixstr,
    [0x44, 0x31, 0x33], d13_length_lt, v⟩

/-- The number 1 as a fixint and as a `uint8`, with the id in two formats as well. -/
theorem sameReading_one :
    SameReading 1 (parseRpcRequest 32 32 ((samplePinCall 1).encode .fixint .fixint))
      (parseRpcRequest 32 32 ((samplePinCall 1).encode .uint32 .uint8)) :=
  (sameReading_iff (c := samplePinCall 1) (by decide) (by decide) (by decide) (by decide)).mpr
    fun _ => ⟨.inr (.inr ⟨rfl, rfl⟩), .inr (.inl rfl)⟩

/-- The number 1 switches the pin on as a fixint and off as a `uint16`, and the number 2 does so as
a `uint8` and as a fixint. -/
theorem not_sameReading_uint16 :
    ¬ SameReading 1 (parseRpcRequest 32 32 ((samplePinCall 1).encode .fixint .fixint))
        (parseRpcRequest 32 32 ((samplePinCall 1).encode .fixint .uint16)) ∧
      parseRpcRequest 32 32 ((samplePinCall 1).encode .fixint .fixint) =
        .done ⟨7, setPinByName, [0x44, 0x31, 0x33], 1⟩ [] ∧
      parseRpcRequest 32 32 ((samplePinCall 1).encode .fixint .uint16) =
        .done ⟨7, setPinByName, [0x44, 0x31, 0x33], 0⟩ [0x00, 0x01] ∧
      parseRpcRequest 32 32 ((samplePinCall 2).encode .fixint .uint8) =
        .done ⟨7, setPinByName, [0x44, 0x31, 0x33], 1⟩ [] ∧
      parseRpcRequest 32 32 ((samplePinCall 2).encode .fixint .fixint) =
        .done ⟨7, setPinByName, [0x44, 0x31, 0x33], 0⟩ [] := by
  have hone : parseRpcRequest 32 32 ((samplePinCall 1).encode .fixint .fixint) =
      .done ⟨7, setPinByName, [0x44, 0x31, 0x33], 1⟩ [] := by decide
  have hwide : parseRpcRequest 32 32 ((samplePinCall 1).encode .fixint .uint16) =
      .done ⟨7, setPinByName, [0x44, 0x31, 0x33], 0⟩ [0x00, 0x01] := by decide
  refine ⟨?_, hone, hwide, by decide, by decide⟩
  rw [hone, hwide]
  simp [SameReading]

end Imola.Bridge
