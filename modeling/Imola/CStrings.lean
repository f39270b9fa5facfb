import Imola.Splice

/-! # C strings

A C string in a byte memory ends at the first NUL; `cString` looks for it in the `room` bytes that
belong to the array the string is in.  The functions of the C library on strings are given on the
bytes in front of the NUL. -/

namespace Imola.CStrings

open Imola.Splice

/-- The bytes of an ASCII literal. -/
def ascii (s : String) : List UInt8 := s.toList.map fun c => UInt8.ofNat c.toNat

/-- The string at `p`; `none` when there is no NUL in the `room` bytes from there on. -/
def cString (buf : ℕ → UInt8) : (room p : ℕ) → Option (List UInt8)
  | 0, _ => none
  | room + 1, p => if buf p = 0 then some [] else (cString buf room (p + 1)).map (buf p :: ·)

theorem cString_of_window {buf : ℕ → UInt8} {s : List UInt8} (hs : ∀ b ∈ s, b ≠ 0) : ∀ {room p : ℕ},
    s.length < room → window buf p (s.length + 1) = s ++ [0] → cString buf room p = some s := by
  induction s with
  | nil =>
      intro room p hroom hw
      obtain ⟨room, rfl⟩ : ∃ n, room = n + 1 := ⟨room - 1, by rw [List.length_nil] at hroom; omega⟩
      rw [List.length_nil, Nat.zero_add, window_succ, List.nil_append, List.cons.injEq] at hw
      rw [cString, if_pos hw.1]
  | cons b s ih =>
      intro room p hroom hw
      obtain ⟨room, rfl⟩ : ∃ n, room = n + 1 := ⟨room - 1, by rw [List.length_cons] at hroom; omega⟩
      rw [List.length_cons, window_succ, List.cons_append, List.cons.injEq] at hw
      have hrest := ih (fun c hc => hs c (List.mem_cons_of_mem _ hc))
        (by rw [List.length_cons] at hroom; omega : s.length < room) hw.2
      rw [cString, hw.1, if_neg (hs b (List.mem_cons_self ..)), hrest]
      rfl

theorem window_of_cString {buf : ℕ → UInt8} :
    ∀ {room p : ℕ} {s : List UInt8}, cString buf room p = some s →
    (∀ b ∈ s, b ≠ 0) ∧ s.length < room ∧ window buf p (s.length + 1) = s ++ [0] := by
  intro room
  induction room with
  | zero => exact fun h => by cases h
  | succ room ih =>
      intro p s h
      rw [cString] at h
      split_ifs at h with hzero
      · obtain rfl := Option.some.inj h
        refine ⟨fun b hb => (by cases hb), Nat.succ_pos room, ?_⟩
        rw [List.length_nil, window_succ, hzero]
        rfl
      · obtain ⟨s, hrest, rfl⟩ := Option.map_eq_some_iff.mp h
        obtain ⟨hne, hlen, hw⟩ := ih hrest
        refine ⟨fun b hb => ?_, Nat.succ_lt_succ hlen, ?_⟩
        · rcases List.mem_cons.mp hb with rfl | hb
          · exact hzero
          · exact hne b hb
        · rw [List.length_cons, window_succ, hw, List.cons_append]

/-- The string in an array that starts with these bytes. -/
def upToNul (bs : List UInt8) : List UInt8 := bs.takeWhile (· ≠ 0)

theorem upToNul_of_nul_free {bs : List UInt8} (h : 0 ∉ bs) : upToNul bs = bs := by
  rw [upToNul, List.takeWhile_eq_self_iff]
  intro b hb
  have hne : b ≠ 0 := fun h0 => h (h0 ▸ hb)
  simpa using hne

/-- `isspace`. -/
def isSpace (b : UInt8) : Bool := b = 32 || (9 ≤ b && b ≤ 13)

/-- `isdigit`. -/
def isDigit (b : UInt8) : Bool := 48 ≤ b && b ≤ 57

theorem not_isSpace_of_isDigit {b : UInt8} (h : isDigit b) : ¬ isSpace b := by
  simp only [isDigit, isSpace, Bool.and_eq_true, Bool.or_eq_true, decide_eq_true_eq,
    UInt8.le_iff_toNat_le,
    ← UInt8.toNat_inj, UInt8.reduceToNat] at h ⊢
  omega

/-- The value of the digits in front. -/
def digits (s : List UInt8) : ℕ :=
  (s.takeWhile isDigit).foldl (fun v b => 10 * v + (b.toNat - 48)) 0

/-- `strtol` with base 10; a value out of range is replaced by the nearest `long`. -/
def strtol (s : List UInt8) : ℤ :=
  match s.dropWhile isSpace with
  | 45 :: r => max (-2 ^ 63) (-(digits r : ℤ))
  | 43 :: r => min (2 ^ 63 - 1) (digits r : ℤ)
  | r => min (2 ^ 63 - 1) (digits r : ℤ)

/-- `atoi`: `strtol`, converted to `int`. -/
def atoi (s : List UInt8) : ℤ := (strtol s).bmod (2 ^ 32)

theorem atoi_lt (s : List UInt8) : atoi s < 2 ^ 31 := by
  have h := Int.bmod_lt (x := strtol s) (m := 2 ^ 32) (by norm_num)
  unfold atoi
  omega

theorem le_atoi (s : List UInt8) : -2 ^ 31 ≤ atoi s := by
  have h := Int.le_bmod (x := strtol s) (m := 2 ^ 32) (by norm_num)
  unfold atoi
  omega

/-- `tolower`. -/
def toLower (b : UInt8) : UInt8 := if 65 ≤ b ∧ b ≤ 90 then b + 32 else b

/-- `strcasecmp(s, t) == 0`. -/
def caseEq (s t : List UInt8) : Prop := s.map toLower = t.map toLower

instance (s t : List UInt8) : Decidable (caseEq s t) := inferInstanceAs (Decidable (_ = _))

/-- `strstr(s, t) != NULL`. -/
def strstr (s t : List UInt8) : Bool := s.tails.any t.isPrefixOf

/-- `sprintf` of an integer in base 10. -/
def decimal (v : ℤ) : List UInt8 := ascii (toString v)

/-! ### Base 16 -/

/-- A digit in base 16, as `%x` prints it. -/
def hexDigit (d : ℕ) : UInt8 := if d < 10 then UInt8.ofNat (48 + d) else UInt8.ofNat (87 + d)

/-- The value of a digit in base 16, in either case. -/
def hexVal (b : UInt8) : Option ℕ :=
  if isDigit b then some (b.toNat - 48)
  else if 97 ≤ b ∧ b ≤ 102 then some (b.toNat - 87)
  else if 65 ≤ b ∧ b ≤ 70 then some (b.toNat - 55)
  else none

theorem hexVal_hexDigit : ∀ d < 16, hexVal (hexDigit d) = some d := by decide

end Imola.CStrings
