import Imola.Bytes

/-! # MessagePack values

A MessagePack value is a byte that tells its format, a length field if the format has one, a
payload, and for arrays and maps the values they hold.  `Values n x` says that `x` is `n` complete
values one behind the other: reading the first byte of a collection adds what it holds to the values
still to come, so the grammar needs no nesting.

The format is prefix-free (`Values.append_inj`), so what is in front of a rest can be taken off
(`value_append_iff`, `values_holding_iff`).  `scan` decides the grammar. -/

namespace Imola.MessagePack

open Imola.Bytes

/-- What the first byte of a value announces: the size of its length field and, for the length found
there, the number of payload bytes and of values held. -/
structure Shape where
  lengthBytes : ℕ
  payload : ℕ → ℕ
  held : ℕ → ℕ

namespace Shape

/-- `n` bytes of payload. -/
def fixed (n : ℕ) : Shape := ⟨0, fun _ => n, fun _ => 0⟩

/-- `n` values. -/
def holding (n : ℕ) : Shape := ⟨0, fun _ => 0, fun _ => n⟩

/-- A length of `w` bytes, and as many bytes of payload after `k` bytes for the type. -/
def sized (w k : ℕ) : Shape := ⟨w, fun len => k + len, fun _ => 0⟩

/-- A length of `w` bytes, and `k` values for each of the elements it counts. -/
def counted (w k : ℕ) : Shape := ⟨w, fun _ => 0, fun len => k * len⟩

end Shape

/-- The formats by their first byte; `0xc1` is never used. -/
def shape (b : UInt8) : Option Shape :=
  if b ≤ 0x7f then some (.fixed 0) -- positive fixint
  else if b ≤ 0x8f then some (.holding (2 * (b &&& 0x0f).toNat)) -- fixmap
  else if b ≤ 0x9f then some (.holding (b &&& 0x0f).toNat) -- fixarray
  else if b ≤ 0xbf then some (.fixed (b &&& 0x1f).toNat) -- fixstr
  else if 0xe0 ≤ b then some (.fixed 0) -- negative fixint
  else match b with
    | 0xc0 | 0xc2 | 0xc3 => some (.fixed 0) -- nil, false, true
    | 0xc4 => some (.sized 1 0) -- bin
    | 0xc5 => some (.sized 2 0)
    | 0xc6 => some (.sized 4 0)
    | 0xc7 => some (.sized 1 1) -- ext
    | 0xc8 => some (.sized 2 1)
    | 0xc9 => some (.sized 4 1)
    | 0xca => some (.fixed 4) -- float
    | 0xcb => some (.fixed 8)
    | 0xcc | 0xd0 => some (.fixed 1) -- uint and int
    | 0xcd | 0xd1 => some (.fixed 2)
    | 0xce | 0xd2 => some (.fixed 4)
    | 0xcf | 0xd3 => some (.fixed 8)
    | 0xd4 => some (.fixed 2) -- fixext
    | 0xd5 => some (.fixed 3)
    | 0xd6 => some (.fixed 5)
    | 0xd7 => some (.fixed 9)
    | 0xd8 => some (.fixed 17)
    | 0xd9 => some (.sized 1 0) -- str
    | 0xda => some (.sized 2 0)
    | 0xdb => some (.sized 4 0)
    | 0xdc => some (.counted 2 1) -- array
    | 0xdd => some (.counted 4 1)
    | 0xde => some (.counted 2 2) -- map
    | 0xdf => some (.counted 4 2)
    | _ => none

/-- `n` complete values, one behind the other. -/
inductive Values : ℕ → List UInt8 → Prop where
  | nil : Values 0 []
  | cons {b : UInt8} {s : Shape} {len payload x : List UInt8} {n : ℕ} (hshape : shape b = some s)
      (hlen : len.length = s.lengthBytes) (hpayload : payload.length = s.payload (ofBE len))
      (h : Values (s.held (ofBE len) + n) x) : Values (n + 1) (b :: (len ++ (payload ++ x)))

/-- One complete value. -/
abbrev Value (x : List UInt8) : Prop := Values 1 x

/-! ### Values in a row -/

theorem values_zero_iff {x : List UInt8} : Values 0 x ↔ x = [] := by
  constructor
  · intro h
    cases h
    rfl
  · rintro rfl
    exact .nil

theorem Values.append {m n : ℕ} {x y : List UInt8} (hx : Values m x) (hy : Values n y) :
    Values (m + n) (x ++ y) := by
  induction hx with
  | nil => rwa [Nat.zero_add]
  | @cons b s len payload x m hshape hlen hpayload h ih =>
      have hrest : Values (s.held (ofBE len) + (m + n)) (x ++ y) := by rwa [← Nat.add_assoc]
      have hall := Values.cons hshape hlen hpayload hrest
      rwa [show m + 1 + n = m + n + 1 by omega, List.cons_append, List.append_assoc,
        List.append_assoc]

/-- A row of values can be cut behind any of them. -/
theorem Values.split {k : ℕ} {z : List UInt8} (h : Values k z) : ∀ {m n : ℕ}, k = m + n →
    ∃ x y, z = x ++ y ∧ Values m x ∧ Values n y := by
  induction h with
  | nil =>
      intro m n hk
      obtain ⟨rfl, rfl⟩ : m = 0 ∧ n = 0 := by omega
      exact ⟨[], [], rfl, .nil, .nil⟩
  | @cons b s len payload z k hshape hlen hpayload h ih =>
      intro m n hk
      cases m with
      | zero =>
          obtain rfl : n = k + 1 := by omega
          exact ⟨[], _, rfl, .nil, .cons hshape hlen hpayload h⟩
      | succ m =>
          obtain ⟨x, y, rfl, hx, hy⟩ := ih (m := s.held (ofBE len) + m) (n := n) (by omega)
          exact ⟨_, y, by simp, .cons hshape hlen hpayload hx, hy⟩

/-- **No row of values is a proper prefix of another of the same number.** -/
theorem Values.append_inj {n : ℕ} {x y a b : List UInt8} (hx : Values n x) (hy : Values n y)
    (h : x ++ a = y ++ b) : x = y ∧ a = b := by
  induction hx generalizing y with
  | nil =>
      cases hy
      exact ⟨rfl, h⟩
  | @cons c s len payload x n hshape hlen hpayload hrest ih =>
      cases hy with
      | @cons c' s' len' payload' y _ hshape' hlen' hpayload' hrest' =>
          simp only [List.cons_append, List.append_assoc, List.cons.injEq] at h
          obtain ⟨rfl, h₁⟩ := h
          obtain rfl : s = s' := by simpa [hshape] using hshape'
          obtain ⟨rfl, h₂⟩ := List.append_inj h₁ (hlen.trans hlen'.symm)
          obtain ⟨rfl, h₃⟩ := List.append_inj h₂ (hpayload.trans hpayload'.symm)
          obtain ⟨rfl, rfl⟩ := ih hrest' h₃
          exact ⟨rfl, rfl⟩

theorem Values.le_length {n : ℕ} {x : List UInt8} (h : Values n x) : n ≤ x.length := by
  induction h with
  | nil => exact le_rfl
  | cons hshape hlen hpayload h ih =>
      simp only [List.length_cons, List.length_append]
      omega

/-! ### Taking values off -/

theorem value_of_fixed {b : UInt8} {payload : List UInt8}
    (hshape : shape b = some (.fixed payload.length)) : Value (b :: payload) := by
  have h : Values 1 (b :: ([] ++ (payload ++ []))) := .cons hshape rfl rfl .nil
  rwa [List.nil_append, List.append_nil] at h

theorem value_append_iff {n : ℕ} {x y : List UInt8} (hx : Value x) :
    Values (n + 1) (x ++ y) ↔ Values n y := by
  rw [Nat.add_comm]
  constructor
  · intro h
    obtain ⟨x', y', heq, hx', hy'⟩ := h.split rfl
    obtain ⟨-, rfl⟩ := hx.append_inj hx' heq
    exact hy'
  · exact hx.append

theorem values_holding_iff {b : UInt8} {k n : ℕ} {x : List UInt8}
    (hshape : shape b = some (.holding k)) :
    Values (n + 1) (b :: x) ↔ Values (k + n) x := by
  constructor
  · intro h
    cases h with
    | @cons _ s len payload x _ hshape' hlen hpayload hrest =>
        obtain rfl : Shape.holding k = s := by simpa [hshape] using hshape'
        obtain rfl := List.length_eq_zero_iff.mp hlen
        obtain rfl := List.length_eq_zero_iff.mp hpayload
        exact hrest
  · intro h
    show Values (n + 1) (b :: ([] ++ ([] ++ x)))
    exact .cons hshape rfl rfl h

/-! ### Strings and arrays -/

/-- The formats of a string. -/
inductive StrFormat where
  | fixstr
  | str8
  | str16
  | str32
deriving DecidableEq, Repr

/-- The lengths a format can hold lie below this bound. -/
def StrFormat.bound : StrFormat → ℕ
  | fixstr => 2 ^ 5
  | str8 => 2 ^ 8
  | str16 => 2 ^ 16
  | str32 => 2 ^ 32

def StrFormat.encode : StrFormat → List UInt8 → List UInt8
  | fixstr, s => (0xa0 ||| UInt8.ofNat s.length) :: s
  | str8, s => 0xd9 :: (toBE 1 s.length ++ s)
  | str16, s => 0xda :: (toBE 2 s.length ++ s)
  | str32, s => 0xdb :: (toBE 4 s.length ++ s)

/-- The formats of an array. -/
inductive ArrayFormat where
  | fixarray
  | array16
  | array32
deriving DecidableEq, Repr

/-- The numbers of elements a format can hold lie below this bound. -/
def ArrayFormat.bound : ArrayFormat → ℕ
  | fixarray => 2 ^ 4
  | array16 => 2 ^ 16
  | array32 => 2 ^ 32

/-- The bytes in front of the `n` elements. -/
def ArrayFormat.encode : ArrayFormat → ℕ → List UInt8
  | fixarray, n => [0x90 ||| UInt8.ofNat n]
  | array16, n => 0xdc :: toBE 2 n
  | array32, n => 0xdd :: toBE 4 n

theorem value_of_sized {b : UInt8} {w : ℕ} {s : List UInt8} (hshape : shape b = some (.sized w 0))
    (h : s.length < 256 ^ w) : Value (b :: (toBE w s.length ++ s)) := by
  have hvalue : Values 1 (b :: (toBE w s.length ++ (s ++ []))) := by
    refine .cons hshape (toBE_length _ _) ?_ .nil
    rw [ofBE_toBE h]
    exact (Nat.zero_add _).symm
  rwa [List.append_nil] at hvalue

theorem shape_fixstr : ∀ n < 32, shape (0xa0 ||| UInt8.ofNat n) = some (.fixed n) := by
  intro n hn
  interval_cases n <;> rfl

theorem StrFormat.encode_value {f : StrFormat} {s : List UInt8} (h : s.length < f.bound) :
    Value (f.encode s) := by
  cases f with
  | fixstr => exact value_of_fixed (shape_fixstr _ h)
  | str8 => exact value_of_sized rfl h
  | str16 => exact value_of_sized rfl h
  | str32 => exact value_of_sized rfl h

theorem shape_fixarray : ∀ n < 16, shape (0x90 ||| UInt8.ofNat n) = some (.holding n) := by
  intro n hn
  interval_cases n <;> rfl

theorem value_of_counted {b : UInt8} {w n : ℕ} {x : List UInt8}
    (hshape : shape b = some (.counted w 1))
    (h : n < 256 ^ w) (hx : Values n x) : Value (b :: (toBE w n ++ x)) := by
  show Values 1 (b :: (toBE w n ++ ([] ++ x)))
  refine .cons hshape (toBE_length _ _) rfl ?_
  rw [ofBE_toBE h]
  show Values (1 * n + 0) x
  rwa [Nat.one_mul]

theorem ArrayFormat.encode_value {f : ArrayFormat} {n : ℕ} {x : List UInt8} (h : n < f.bound)
    (hx : Values n x) : Value (f.encode n ++ x) := by
  cases f with
  | fixarray => exact (values_holding_iff (shape_fixarray n h)).mpr hx
  | array16 => exact value_of_counted rfl h hx
  | array32 => exact value_of_counted rfl h hx

/-! ### Deciding the grammar -/

/-- The first byte of a value, its length field and its payload taken off: how many values it holds,
and what is behind them. -/
def cut : List UInt8 → Option (ℕ × List UInt8)
  | [] => none
  | b :: x =>
      match shape b with
      | none => none
      | some s =>
          let len := ofBE (x.take s.lengthBytes)
          if s.lengthBytes + s.payload len ≤ x.length then
            some (s.held len, x.drop (s.lengthBytes + s.payload len))
          else none

theorem cut_cons {b : UInt8} {s : Shape} {len payload x : List UInt8} (hshape : shape b = some s)
    (hlen : len.length = s.lengthBytes) (hpayload : payload.length = s.payload (ofBE len)) :
    cut (b :: (len ++ (payload ++ x))) = some (s.held (ofBE len), x) := by
  have htake : (len ++ (payload ++ x)).take s.lengthBytes = len := by
    rw [← hlen, List.take_left]
  have hdrop : (len ++ (payload ++ x)).drop (s.lengthBytes + s.payload (ofBE len)) = x := by
    rw [← hlen, ← hpayload, ← List.length_append, ← List.append_assoc, List.drop_left]
  simp only [cut, hshape, htake, hdrop]
  rw [if_pos (by simp only [List.length_append]; omega)]

theorem cut_eq_some {x r : List UInt8} {k : ℕ} (h : cut x = some (k, r)) : ∃ b s len payload,
    shape b = some s ∧ len.length = s.lengthBytes ∧ payload.length = s.payload (ofBE len) ∧
      k = s.held (ofBE len) ∧ x = b :: (len ++ (payload ++ r)) := by
  cases x with
  | nil => cases h
  | cons b x =>
      cases hshape : shape b with
      | none => simp [cut, hshape] at h
      | some s =>
          simp only [cut, hshape, Option.ite_none_right_eq_some, Option.some.injEq,
            Prod.mk.injEq] at h
          obtain ⟨hle, rfl, rfl⟩ := h
          refine ⟨b, s, x.take s.lengthBytes,
            (x.drop s.lengthBytes).take (s.payload (ofBE (x.take s.lengthBytes))), hshape, ?_,
            ?_, rfl, ?_⟩
          · rw [List.length_take]
            omega
          · rw [List.length_take, List.length_drop]
            omega
          · rw [← List.drop_drop, List.take_append_drop, List.take_append_drop]

theorem values_succ_iff {n : ℕ} {x : List UInt8} :
    Values (n + 1) x ↔ ∃ k r, cut x = some (k, r) ∧ Values (k + n) r := by
  constructor
  · intro h
    cases h with
    | cons hshape hlen hpayload h => exact ⟨_, _, cut_cons hshape hlen hpayload, h⟩
  · rintro ⟨k, r, hcut, h⟩
    obtain ⟨b, s, len, payload, hshape, hlen, hpayload, rfl, rfl⟩ := cut_eq_some hcut
    exact .cons hshape hlen hpayload h

theorem cut_length_lt {x r : List UInt8} {k : ℕ} (h : cut x = some (k, r)) :
    r.length < x.length := by
  obtain ⟨b, s, len, payload, -, -, -, -, rfl⟩ := cut_eq_some h
  simp only [List.length_cons, List.length_append]
  omega

/-- Whether `x` is `n` values; `fuel` bounds the number of values read. -/
def scan : (fuel n : ℕ) → List UInt8 → Bool
  | _, 0, x => x.isEmpty
  | 0, _ + 1, _ => false
  | fuel + 1, n + 1, x =>
      match cut x with
      | none => false
      | some (k, r) => scan fuel (k + n) r

/-- As much fuel as there are bytes is enough. -/
theorem scan_iff {fuel n : ℕ} {x : List UInt8} (hfuel : x.length ≤ fuel) :
    scan fuel n x = true ↔ Values n x := by
  induction fuel generalizing n x with
  | zero =>
      obtain rfl := List.length_eq_zero_iff.mp (Nat.le_zero.mp hfuel)
      cases n with
      | zero => simp [scan, values_zero_iff]
      | succ n => simp [scan, values_succ_iff, cut]
  | succ fuel ih =>
      cases n with
      | zero => simp [scan, values_zero_iff]
      | succ n =>
          rw [values_succ_iff, scan]
          cases hcut : cut x with
          | none => simp
          | some p =>
              obtain ⟨k, r⟩ := p
              have hlt := cut_length_lt hcut
              simp [ih (by omega : r.length ≤ fuel)]

instance (n : ℕ) (x : List UInt8) : Decidable (Values n x) :=
  decidable_of_iff _ (scan_iff (le_refl x.length))

/-- `[0, 1, "a", [true, 0x0100]]`, and the same with a byte too few. -/
example : Value [0x94, 0x00, 0x01, 0xa1, 0x61, 0x92, 0xc3, 0xcd, 0x01, 0x00] ∧
    ¬ Value [0x94, 0x00, 0x01, 0xa1, 0x61, 0x92, 0xc3, 0xcd, 0x01] := by decide

end Imola.MessagePack
