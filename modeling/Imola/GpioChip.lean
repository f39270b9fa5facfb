import Imola.CStrings

/-! # The chip that `imola-gpio` drives

`find_tlmm_gpiochip` goes through the devices `/dev/gpiochip0` to `/dev/gpiochip15` and takes the
first one whose label names the pin controller.  On the way it keeps the path of the chip with the
most lines, and takes that one, if it has 100 lines, when no label matches.

The number of lines is unsigned, and the maximum is kept in an `int`.  The comparison in the loop
converts it back, so the chip with the most lines is kept for all numbers; but the test behind the
loop does not, and a maximum of `2 ^ 31` or more fails it (`selects_iff`). -/

namespace Imola.Gpio

open Imola.CStrings

/-- A device: `open` fails, `GPIO_GET_CHIPINFO_IOCTL` fails, or the label and the number of
lines. -/
inductive Chip where
  | closed
  | silent
  | info (label : List UInt8) (lines : UInt32)
deriving DecidableEq, Repr

/-- `TLMM_CHIP_LABEL`. -/
def tlmmChipLabel : List UInt8 := ascii "500000.pinctrl"

/-- The path that `snprintf` makes. -/
def devPath (i : ℕ) : List UInt8 := ascii "/dev/gpiochip" ++ decimal i

/-- `strncpy` to an array of `size` bytes, whose last one is NUL. -/
def copyPath (size : ℕ) (path : List UInt8) : List UInt8 := path.take (size - 1)

/-- The size of `fallback_path`, and of the `chip_path` of `main`. -/
def pathSize : ℕ := 64

section Find

variable (chips : Fin 16 → Chip) (outPathSize : ℕ) (outPath : List UInt8)

/-- The rest of the loop of `find_tlmm_gpiochip`, and what is behind it: the result and
`out_path`. -/
def chipLoop : List (Fin 16) → Int32 → List UInt8 → ℤ × List UInt8
  | [], maxLines, fallbackPath =>
      if 100 ≤ maxLines ∧ fallbackPath ≠ [] then (0, copyPath outPathSize fallbackPath)
        else (-1, outPath)
  | i :: rest, maxLines, fallbackPath =>
      match chips i with
      | .closed => chipLoop rest maxLines fallbackPath
      | .silent => chipLoop rest maxLines fallbackPath
      | .info label lines =>
          if strstr label tlmmChipLabel then (0, copyPath outPathSize (devPath i))
          else if lines > maxLines.toUInt32 then
            chipLoop rest lines.toInt32 (copyPath pathSize (devPath i))
          else chipLoop rest maxLines fallbackPath

/-- `find_tlmm_gpiochip`. -/
def findTlmmGpiochip : ℤ × List UInt8 := chipLoop chips outPathSize outPath (List.finRange 16) 0 []

end Find

/-! ### The chip that is meant -/

/-- The label names the pin controller. -/
def Chip.labelled : Chip → Bool
  | .info label _ => strstr label tlmmChipLabel
  | _ => false

/-- The number of lines; a chip that tells nothing has none. -/
def Chip.lines : Chip → UInt32
  | .info _ lines => lines
  | _ => 0

/-- The result is the lowest chip with the label; without one, the lowest of those with the most
lines if these are at least 100; and otherwise a failure that leaves `out_path` alone. -/
structure Selects (chips : Fin 16 → Chip) (outPath : List UInt8) (result : ℤ × List UInt8) :
    Prop where
  labelled : ∀ i, (chips i).labelled = true → (∀ j < i, (chips j).labelled = false) →
    result = (0, devPath i)
  largest : (∀ j, (chips j).labelled = false) → ∀ i, 100 ≤ (chips i).lines →
    (∀ j, (chips j).lines ≤ (chips i).lines) → (∀ j < i, (chips j).lines < (chips i).lines) →
    result = (0, devPath i)
  absent : (∀ j, (chips j).labelled = false) → (∀ j, (chips j).lines < 100) → result = (-1, outPath)

section Loop

variable {chips : Fin 16 → Chip} {outPathSize : ℕ} {outPath : List UInt8}

theorem copyPath_devPath : ∀ i : Fin 16, copyPath pathSize (devPath i) = devPath i := by decide

theorem devPath_ne_nil : ∀ i : Fin 16, devPath i ≠ [] := by decide

/-- A round without the label: the chip is kept if it has more lines. -/
def offer (chips : Fin 16 → Chip) (kept : Int32 × List UInt8) (i : Fin 16) : Int32 × List UInt8 :=
  if (chips i).lines > kept.1.toUInt32 then ((chips i).lines.toInt32, devPath i) else kept

theorem chipLoop_cons_of_labelled {i : Fin 16} (h : (chips i).labelled = true)
    (rest : List (Fin 16))
    (maxLines : Int32) (fallbackPath : List UInt8) :
    chipLoop chips outPathSize outPath (i :: rest) maxLines fallbackPath =
      (0, copyPath outPathSize (devPath i)) := by
  rw [chipLoop]
  cases hchip : chips i with
  | info label lines =>
      rw [hchip] at h
      exact if_pos h
  | _ =>
      rw [hchip] at h
      cases h

theorem chipLoop_cons_of_not_labelled {i : Fin 16} (h : (chips i).labelled = false)
    (rest : List (Fin 16))
    (kept : Int32 × List UInt8) : chipLoop chips outPathSize outPath (i :: rest) kept.1 kept.2 =
      chipLoop chips outPathSize outPath rest (offer chips kept i).1 (offer chips kept i).2 := by
  rw [chipLoop]
  cases hchip : chips i with
  | info label lines =>
      have hlabel : ¬ strstr label tlmmChipLabel = true := by
        rw [hchip] at h
        simpa [Chip.labelled] using h
      have hlines : (chips i).lines = lines := congrArg Chip.lines hchip
      dsimp only
      rw [if_neg hlabel, copyPath_devPath, offer, hlines]
      by_cases hmore : lines > kept.1.toUInt32
      · rw [if_pos hmore, if_pos hmore]
      · rw [if_neg hmore, if_neg hmore]
  | _ =>
      have hlines : (chips i).lines = 0 := congrArg Chip.lines hchip
      simp [offer, hlines]

/-- The loop ends at the first label, or goes through all chips. -/
theorem chipLoop_eq (is : List (Fin 16)) : ∀ kept : Int32 × List UInt8,
    chipLoop chips outPathSize outPath is kept.1 kept.2 =
      match is.find? fun i => (chips i).labelled with
      | some i => (0, copyPath outPathSize (devPath i))
      | none =>
          let kept := is.foldl (offer chips) kept
          chipLoop chips outPathSize outPath [] kept.1 kept.2 := by
  induction is with
  | nil => exact fun _ => rfl
  | cons i is ih =>
      intro kept
      cases h : (chips i).labelled with
      | true => rw [chipLoop_cons_of_labelled h, List.find?_cons_of_pos (by exact h)]
      | false =>
          rw [chipLoop_cons_of_not_labelled h, List.find?_cons_of_neg (by simp [h]),
            List.foldl_cons]
          exact ih _

/-- Nothing is kept because no chip has lines, or the first of those with the most. -/
def Keeps (chips : Fin 16 → Chip) (is : List (Fin 16)) (kept : Int32 × List UInt8) : Prop :=
  (kept = (0, []) ∧ ∀ i ∈ is, (chips i).lines = 0) ∨
    ∃ i ∈ is.argmax fun i => (chips i).lines.toNat, 0 < (chips i).lines ∧
      kept = ((chips i).lines.toInt32, devPath i)

/-- The path that is kept is that of a chip with the most lines. -/
theorem keeps_foldl (chips : Fin 16 → Chip) (is : List (Fin 16)) :
    Keeps chips is (is.foldl (offer chips) (0, [])) := by
  induction is using List.reverseRecOn with
  | nil => exact Or.inl ⟨rfl, fun i hi => by cases hi⟩
  | append_singleton is k ih =>
      rw [List.foldl_append, List.foldl_cons, List.foldl_nil]
      generalize is.foldl (offer chips) (0, []) = kept at ih
      rcases ih with ⟨rfl, hzero⟩ | ⟨i, hi, hpos, rfl⟩
      · by_cases hk : (chips k).lines = 0
        · refine Or.inl ⟨by simp [offer, hk], fun i hi => ?_⟩
          rcases List.mem_append.mp hi with hi | hi
          · exact hzero i hi
          · rw [List.mem_singleton.mp hi, hk]
        · have hlt : 0 < (chips k).lines := UInt32.pos_iff_ne_zero.mpr hk
          refine Or.inr ⟨k, ?_, hlt, if_pos hlt⟩
          rw [Option.mem_def, List.argmax_concat]
          cases hmax : is.argmax fun i => (chips i).lines.toNat with
          | none => rfl
          | some i =>
              have hi : (chips i).lines = 0 := hzero i (List.argmax_mem hmax)
              exact if_pos (by rw [hi]; exact UInt32.lt_iff_toNat_lt.mp hlt)
      · have hconcat : (is ++ [k]).argmax (fun i => (chips i).lines.toNat) =
            if (chips i).lines < (chips k).lines then some k else some i := by
          rw [List.argmax_concat, Option.mem_def.mp hi]
          simp only [UInt32.lt_iff_toNat_lt]
        by_cases hlt : (chips i).lines < (chips k).lines
        · refine Or.inr ⟨k, ?_, UInt32.lt_trans hpos hlt, by simp [offer, hlt]⟩
          rw [Option.mem_def, hconcat, if_pos hlt]
        · refine Or.inr ⟨i, ?_, hpos, by simp [offer, hlt]⟩
          rw [Option.mem_def, hconcat, if_neg hlt]

theorem mem_argmax_lines {i : Fin 16} :
    i ∈ (List.finRange 16).argmax (fun i => (chips i).lines.toNat) ↔
    (∀ j, (chips j).lines ≤ (chips i).lines) ∧ ∀ j < i, (chips j).lines < (chips i).lines := by
  simp only [List.mem_argmax_iff, List.mem_finRange, true_and, true_imp_iff, List.idxOf_finRange,
    Fin.val_fin_le,
    UInt32.le_iff_toNat_le, UInt32.lt_iff_toNat_lt]
  refine and_congr_right fun _ => forall_congr' fun j => ?_
  rw [← not_lt, ← not_lt (a := j), not_imp_not]

end Loop

/-- A number of lines passes the test behind the loop if it is at least 100 and is no negative
`int`. -/
theorem le_toInt32_iff (n : UInt32) : 100 ≤ n.toInt32 ↔ 100 ≤ n ∧ n.toNat < 2 ^ 31 := by
  have hint : n.toInt32.toInt = (n.toNat : ℤ).bmod (2 ^ 32) := BitVec.toInt_eq_toNat_bmod n.toBitVec
  have hlt := n.toNat_lt
  rw [Int32.le_iff_toInt_le, UInt32.le_iff_toNat_le, hint, Int.bmod_def]
  show (100 : ℤ) ≤ _ ↔ 100 ≤ n.toNat ∧ _
  split_ifs
  · omega
  · omega

section Selection

variable {chips : Fin 16 → Chip} {outPath : List UInt8}

theorem findTlmmGpiochip_of_labelled {i : Fin 16} (hi : (chips i).labelled = true)
    (hbefore : ∀ j < i, (chips j).labelled = false) :
    findTlmmGpiochip chips pathSize outPath = (0, devPath i) := by
  have hfind : (List.finRange 16).find? (fun i => (chips i).labelled) = some i := by
    rw [← Fin.find?_eq_find?_finRange]
    exact Fin.find?_eq_some_iff.mpr ⟨hi, hbefore⟩
  rw [findTlmmGpiochip, chipLoop_eq (List.finRange 16) (0, []), hfind]
  exact congrArg (Prod.mk 0) (copyPath_devPath i)

theorem findTlmmGpiochip_of_unlabelled (hnone : ∀ j, (chips j).labelled = false) {i : Fin 16}
    (hmost : ∀ j, (chips j).lines ≤ (chips i).lines)
    (hfirst : ∀ j < i, (chips j).lines < (chips i).lines) :
    findTlmmGpiochip chips pathSize outPath =
      if 100 ≤ (chips i).lines ∧ (chips i).lines.toNat < 2 ^ 31 then (0, devPath i)
        else (-1, outPath) := by
  have hfind : (List.finRange 16).find? (fun i => (chips i).labelled) = none := by
    rw [← Fin.find?_eq_find?_finRange]
    exact Fin.find?_eq_none_iff.mpr hnone
  rw [findTlmmGpiochip, chipLoop_eq (List.finRange 16) (0, []), hfind]
  dsimp only
  rcases keeps_foldl chips (List.finRange 16) with ⟨hkept, hzero⟩ | ⟨k, hk, -, hkept⟩
  · rw [hkept, chipLoop, if_neg (by decide), hzero i (List.mem_finRange i), if_neg (by decide)]
  · obtain rfl : k = i := Option.mem_unique hk (mem_argmax_lines.mpr ⟨hmost, hfirst⟩)
    rw [hkept, chipLoop]
    refine if_congr ?_ (congrArg (Prod.mk 0) (copyPath_devPath k)) rfl
    rw [and_iff_left (devPath_ne_nil k), le_toInt32_iff]

theorem exists_most (chips : Fin 16 → Chip) : ∃ i, (∀ j, (chips j).lines ≤ (chips i).lines) ∧
    ∀ j < i, (chips j).lines < (chips i).lines := by
  cases hmax : (List.finRange 16).argmax fun i => (chips i).lines.toNat with
  | none => exact absurd (List.argmax_eq_none.mp hmax) (by decide)
  | some i => exact ⟨i, mem_argmax_lines.mp hmax⟩

end Selection

/-- **Which chip is found**: the right one, unless no label matches and a chip claims `2 ^ 31` lines
or more. -/
theorem selects_iff (chips : Fin 16 → Chip) (outPath : List UInt8) :
    Selects chips outPath (findTlmmGpiochip chips pathSize outPath) ↔
      (∃ i, (chips i).labelled = true) ∨ ∀ i, (chips i).lines.toNat < 2 ^ 31 := by
  constructor
  · intro h
    by_contra hnot
    obtain ⟨hnone, k, hk⟩ : (∀ j, (chips j).labelled = false) ∧
        ∃ k, 2 ^ 31 ≤ (chips k).lines.toNat := by
      simpa using hnot
    obtain ⟨i, hmost, hfirst⟩ := exists_most chips
    have hlarge := hk.trans (UInt32.le_iff_toNat_le.mp (hmost k))
    have h100 : 100 ≤ (chips i).lines := UInt32.le_iff_toNat_le.mpr (le_trans (by decide) hlarge)
    have hresult := h.largest hnone i h100 hmost hfirst
    rw [findTlmmGpiochip_of_unlabelled hnone hmost hfirst,
      if_neg fun hlt => absurd hlt.2 (not_lt.mpr hlarge)] at hresult
    cases hresult
  · intro h
    refine ⟨fun i => findTlmmGpiochip_of_labelled, fun hnone i h100 hmost hfirst => ?_,
      fun hnone hfew => ?_⟩
    · obtain ⟨k, hk⟩ | hlines := h
      · rw [hnone k] at hk
        cases hk
      · rw [findTlmmGpiochip_of_unlabelled hnone hmost hfirst, if_pos ⟨h100, hlines i⟩]
    · obtain ⟨i, hmost, hfirst⟩ := exists_most chips
      rw [findTlmmGpiochip_of_unlabelled hnone hmost hfirst, if_neg]
      exact fun h100 => UInt32.not_le.mpr (hfew i) h100.1

/-- A single chip that claims `2 ^ 31` lines is not taken. -/
theorem not_selects_negative :
    findTlmmGpiochip (fun _ => .info (ascii "pinctrl") (2 ^ 31)) pathSize [] = (-1, []) ∧
    ¬ Selects (fun _ => .info (ascii "pinctrl") (2 ^ 31)) [] (-1, []) := by
  refine ⟨by decide, fun h => ?_⟩
  have hresult := h.largest (by decide) 0 (by decide) (fun _ => UInt32.le_refl _)
    (fun j hj => absurd hj (Fin.not_lt_zero j))
  cases hresult

end Imola.Gpio
