import Imola.Marked
import Imola.QmiDecodeBounds
import Imola.QmiRoundTrip

/-! # Which fields the decoder stores to

`qmi_decode` computes its destinations from the offsets of the table, from the counts in the packet
and, in nested structures, from the number of the structure.  `decodeFields` is the decoder in which
every store is marked with the blocks it has to stay in: the C field of its element, and inside a
nested structure also the slot of the array and the field the array stands in.  What is decoded into
one field is the program of `QmiCodec.lean` with one mark (`Marked.ofProg`); the recursions over the
entries, structures and TLVs are written again, since they choose the marks.  `decodeFields` carries
the proof that it is the decoder without them.

A string is refused when it is longer than its field, and then gets a NUL behind it.  So a string
that fills its field is terminated behind the field.  With the tables of this tree this is the only
store that leaves its field, and it happens for strings of a message only: the length of a nested
one has a single byte (`inFields_iff`).  Which TLVs are reached is said of the bytes (`TlvAt`): a
TLV of a known type is passed by the elements that the grammar of the table reads (`IsElem`), one of
an unknown type from 0x10 on by its length. -/

namespace Imola.Qmi

open Imola.Bytes Imola.Splice Imola.Progs

/-! ### The decoder with its fields -/

/-- The address lies in the block. -/
def InBlock (b : ℕ × ℕ) (a : ℕ) : Prop := b.1 ≤ a ∧ a < b.1 + b.2

/-- The size of the C field of an element: a flag byte, a `uint32_t` length, or the data. -/
def ElemInfo.fieldSize (e : ElemInfo) : ℕ :=
  match e.dataType with
  | .optFlag => 1
  | .dataLen => 4
  | _ => e.elemLen * e.elemSize

/-- The C field of an element in the structure at `base`. -/
def ElemInfo.field (e : ElemInfo) (base : ℕ) : ℕ × ℕ := (base + e.offset, e.fieldSize)

/-- Programs whose stores are marked with the blocks they have to stay in. -/
abbrev FieldProg (α : Type) := Marked (List (ℕ × ℕ)) Errno α

/-- `qmi_decode_struct_elem`. -/
def structFields (dec : ℕ → ℕ → ℕ → FieldProg ℕ) (level elemSize tlvLen : ℕ) :
    ℕ → (dst src decoded : ℕ) → FieldProg ℕ
  | 0, _, _, decoded =>
      if (level ≤ 2 ∧ decoded ≠ tlvLen) ∨ (level > 2 ∧ decoded > tlvLen) then .fail .efault
      else pure decoded
  | n + 1, dst, src, decoded =>
      if decoded < tlvLen then do
        let rc ← dec dst src (tlvLen - decoded)
        structFields dec level elemSize tlvLen n (dst + elemSize) (src + rc) (decoded + rc)
      else if (level ≤ 2 ∧ decoded ≠ tlvLen) ∨ level > 2 then .fail .efault
      else pure decoded

/-- The `switch` of `qmi_decode`: the structures of an array have blocks of their own. -/
def valueFields (dec : ℕ → ℕ → ℕ → FieldProg ℕ) (blocks : List (ℕ × ℕ)) (level : ℕ) (e : ElemInfo)
    (count tlvLen dst src : ℕ) : FieldProg ℕ :=
  if e.dataType = .struct then structFields dec (level + 1) e.elemSize tlvLen count dst src 0
  else
    .ofProg blocks (decodeValue (fun _ _ _ => .fail .einval) level e count tlvLen dst src)

/-- The body of the loop of `qmi_decode`.  `outer` are the blocks around the structure at `base`. -/
def elemsFields : Table → (outer : List (ℕ × ℕ)) → (level base start inLen : ℕ) → Stage →
    (tlvLen decoded dataLen : ℕ) → FieldProg (ℕ × ℕ)
  | .nil, _, _, _, _, _, stage, _, decoded, dataLen =>
      if stage = .first then pure (decoded, dataLen) else .fail .einval
  | .cons e eiArray rest, outer, level, base, start, inLen, stage, tlvLen, decoded, dataLen =>
      if stage = .first ∧ level ≥ 2 ∧ inLen ≤ decoded then pure (decoded, dataLen)
      else
        let tlvLen := if stage = .first ∧ level ≥ 2 then inLen - decoded else tlvLen
        let dst := base + e.offset
        let src := start + decoded
        let blocks := e.field base :: outer
        if e.dataType = .optFlag ∧ stage = .first then do
          .ofProg blocks (.storeAll dst [1])
          elemsFields rest outer level base start inLen .flagged tlvLen decoded dataLen
        else if e.dataType = .dataLen ∧ stage ≠ .counted then do
          let bytes ← .ofProg blocks (.readN src e.dataLenSz)
          .ofProg blocks (.storeAll dst (toLE 4 (setLow dataLen bytes)))
          elemsFields rest outer level base start inLen .counted (sub32 tlvLen e.dataLenSz)
            (decoded + e.dataLenSz) (setLow dataLen bytes)
        else do
          let count ← .ofProg blocks (decodeCount e dataLen)
          let rc ← valueFields
            (fun dst src len => do
              let r ← elemsFields eiArray ((dst, e.elemSize) :: blocks) (level + 1) dst src len
                .first 0 0 0
              pure r.1)
            blocks level e count tlvLen dst src
          if level ≥ 2 then
            elemsFields rest outer level base start inLen .first 0 (decoded + rc) count
          else pure (decoded + rc, count)

/-- The loop of `qmi_decode` at level 1. -/
def tlvsFields (t : Table) (base start inLen : ℕ) : ℕ → (decoded dataLen : ℕ) → FieldProg ℕ
  | 0, decoded, _ => pure decoded
  | rounds + 1, decoded, dataLen =>
      if decoded < inLen then do
        let header ← .ofProg [] (.readN (start + decoded) 3)
        let tlvType := header.headD 0
        let tlvLen := ofLE (header.drop 1)
        match findEi t tlvType with
        | .nil =>
            if tlvType < 0x10 then .fail .einval
            else tlvsFields t base start inLen rounds (decoded + 3 + tlvLen) dataLen
        | .cons e eiArray rest => do
            let r ← elemsFields (.cons e eiArray rest) [] 1 base start inLen .first tlvLen
              (decoded + 3) dataLen
            tlvsFields t base start inLen rounds r.1 r.2
      else pure decoded

/-! ### Without the marks -/

section Erase

variable {dec : ℕ → ℕ → ℕ → FieldProg ℕ} {dec' : ℕ → ℕ → ℕ → Prog Errno ℕ}

theorem structFields_erase (h : ∀ dst src len, (dec dst src len).erase = dec' dst src len)
    (level elemSize tlvLen n : ℕ) :
    ∀ dst src decoded, (structFields dec level elemSize tlvLen n dst src decoded).erase =
      qmiDecodeStructElem dec' level elemSize tlvLen n dst src decoded := by
  induction n with
  | zero =>
      intro dst src decoded
      unfold structFields qmiDecodeStructElem
      split_ifs
      · rfl
      · rfl
  | succ n ih =>
      intro dst src decoded
      unfold structFields qmiDecodeStructElem
      split_ifs
      · simp only [Marked.erase_bind, h, ih]
      · rfl
      · rfl

theorem decodeValue_congr {e : ElemInfo} (h : e.dataType ≠ .struct)
    (dec dec' : ℕ → ℕ → ℕ → Prog Errno ℕ) (level count tlvLen dst src : ℕ) :
    decodeValue dec level e count tlvLen dst src =
      decodeValue dec' level e count tlvLen dst src := by
  unfold decodeValue
  cases htype : e.dataType with
  | struct => contradiction
  | _ => rfl

theorem valueFields_erase (h : ∀ dst src len, (dec dst src len).erase = dec' dst src len)
    (blocks : List (ℕ × ℕ)) (level : ℕ) (e : ElemInfo) (count tlvLen dst src : ℕ) :
    (valueFields dec blocks level e count tlvLen dst src).erase =
      decodeValue dec' level e count tlvLen dst src := by
  unfold valueFields
  split_ifs with htype
  · rw [structFields_erase h, decodeValue, htype]
  · rw [Marked.erase_ofProg]
    exact decodeValue_congr htype _ _ _ _ _ _ _

theorem elemsFields_erase (t : Table) : ∀ outer level base start inLen stage tlvLen decoded dataLen,
    (elemsFields t outer level base start inLen stage tlvLen decoded dataLen).erase =
      qmiDecodeElems t level base start inLen stage tlvLen decoded dataLen := by
  induction t with
  | nil =>
      intro outer level base start inLen stage tlvLen decoded dataLen
      unfold elemsFields qmiDecodeElems
      split_ifs
      · rfl
      · rfl
  | cons e eiArray rest ihsub ihrest =>
      intro outer level base start inLen stage tlvLen decoded dataLen
      unfold elemsFields qmiDecodeElems
      dsimp only
      generalize (if stage = .first ∧ level ≥ 2 then inLen - decoded else tlvLen) = len
      by_cases hstop : stage = .first ∧ level ≥ 2 ∧ inLen ≤ decoded
      · rw [if_pos hstop, if_pos hstop, Marked.erase_pure]
      rw [if_neg hstop, if_neg hstop]
      by_cases hflag : e.dataType = .optFlag ∧ stage = .first
      · rw [if_pos hflag, if_pos hflag, Marked.erase_bind, Marked.erase_ofProg]
        simp only [ihrest]
      rw [if_neg hflag, if_neg hflag]
      by_cases hcount : e.dataType = .dataLen ∧ stage ≠ .counted
      · rw [if_pos hcount, if_pos hcount]
        simp only [Marked.erase_bind, Marked.erase_ofProg, ihrest]
      rw [if_neg hcount, if_neg hcount]
      have hsub : ∀ dst src n, (elemsFields eiArray ((dst, e.elemSize) :: e.field base :: outer)
        (level + 1) dst src n
          .first 0 0 0 >>= fun r => pure r.1 : FieldProg ℕ).erase =
            qmiDecodeElems eiArray (level + 1) dst src n .first 0 0 0 >>= fun r => pure r.1 := by
        intro dst src n
        rw [Marked.erase_bind, ihsub]
        rfl
      rw [Marked.erase_bind, Marked.erase_ofProg]
      congr 1
      funext count
      rw [Marked.erase_bind, valueFields_erase hsub]
      congr 1
      funext rc
      split_ifs
      · exact ihrest _ _ _ _ _ _ _ _ _
      · rfl

theorem tlvsFields_erase (t : Table) (base start inLen rounds : ℕ) : ∀ decoded dataLen,
    (tlvsFields t base start inLen rounds decoded dataLen).erase =
      qmiDecodeTlvs t base start inLen rounds decoded dataLen := by
  induction rounds with
  | zero =>
      intro decoded dataLen
      rfl
  | succ rounds ih =>
      intro decoded dataLen
      unfold tlvsFields qmiDecodeTlvs
      by_cases hmore : decoded < inLen
      · rw [if_pos hmore, if_pos hmore, Marked.erase_bind, Marked.erase_ofProg]
        congr 1
        funext header
        dsimp only
        cases findEi t (header.headD 0) with
        | nil =>
            dsimp only
            split_ifs
            · rfl
            · exact ih _ _
        | cons e eiArray rest => simp only [Marked.erase_bind, elemsFields_erase, ih]
      · rw [if_neg hmore, if_neg hmore, Marked.erase_pure]

end Erase

/-- `qmi_decode` of the `inLen` bytes at `start`, into the structure at `base`, with the marks; it
is the decoder of `QmiCodec.lean` without them. -/
def decodeFields (t : Table) (base start inLen : ℕ) :
    { p : FieldProg ℕ // p.erase = qmiDecodeTlvs t base start inLen inLen 0 0 } :=
  ⟨tlvsFields t base start inLen inLen 0 0, tlvsFields_erase t base start inLen inLen 0 0⟩

/-! ### Tables whose elements fit -/

/-- The number of values that are decoded is at most that of the entry, and a string has bytes. -/
def ElemInfo.fits (e : ElemInfo) : Bool :=
  match e.dataType with
  | .optFlag | .dataLen => true
  | .string => decide (e.elemSize = 1)
  | _ => decide (1 ≤ e.elemLen)

/-- The entries of a structure of `size` bytes: fields inside it, strings of 256 bytes, and fitting
nested structures. -/
def Table.inSlot (size : ℕ) : Table → Bool
  | .nil => true
  | .cons e eiArray rest =>
      e.fits && decide (e.offset + e.fieldSize ≤ size) &&
        decide (e.dataType = .string → e.elemLen = 256) &&
        eiArray.inSlot e.elemSize && rest.inSlot size

/-- The table starts with a string. -/
def Table.startsWithString : Table → Bool
  | .nil => false
  | .cons e _ _ => decide (e.dataType = .string)

/-- The lengths that `data_len_value` can hold have a byte. -/
def ElemInfo.byteCounts (e : ElemInfo) : Bool :=
  decide (e.arrayType ≠ .staticArray) && decide (e.dataType = .dataLen → e.elemSize = 1) &&
    decide (e.dataType = .string → e.elemLen = 256)

/-- The entries of a message: fitting nested structures, and no string behind a flag or a length. -/
def Table.inMessage : Table → Bool
  | .nil => true
  | .cons e eiArray rest =>
      e.fits && e.byteCounts && eiArray.inSlot e.elemSize &&
        decide (e.dataType = .optFlag ∨ e.dataType = .dataLen → rest.startsWithString = false) &&
          rest.inMessage

theorem inMessage_tables : ∀ t ∈ tables, t.inMessage = true := by decide

theorem inMessage_findEi {t : Table} (h : t.inMessage = true) (tlvType : UInt8) :
    (findEi t tlvType).inMessage = true := by
  induction t with
  | nil => rfl
  | cons e eiArray rest _ ih =>
      unfold findEi
      split_ifs
      · exact h
      · exact ih (by simp only [Table.inMessage, Bool.and_eq_true] at h; exact h.2)

/-! ### The stores -/

/-- A store stays in its blocks. -/
def InBlocks (blocks : List (ℕ × ℕ)) (a : ℕ) : Prop := ∀ b ∈ blocks, InBlock b a

/-- The block lies in all the blocks. -/
def Covers (blocks : List (ℕ × ℕ)) (b : ℕ × ℕ) : Prop := ∀ a, InBlock b a → InBlocks blocks a

section Stores

variable {inp : ℕ → UInt8} {blocks : List (ℕ × ℕ)} {e : ElemInfo} {dst src tlvLen : ℕ}

theorem Covers.cons_self {b : ℕ × ℕ} (h : Covers blocks b) : Covers (b :: blocks) b := by
  intro a ha r hr
  rcases List.mem_cons.mp hr with rfl | hr
  · exact ha
  · exact h a ha r hr

theorem Covers.mono {b c : ℕ × ℕ} (h : Covers blocks c) (hlo : c.1 ≤ b.1)
    (hhi : b.1 + b.2 ≤ c.1 + c.2) : Covers blocks b := by
  intro a ha
  apply h
  exact ⟨hlo.trans ha.1, lt_of_lt_of_le ha.2 hhi⟩

theorem Covers.inBlocks {size i : ℕ} (h : Covers blocks (dst, size)) (hi : i < size) :
    InBlocks blocks (dst + i) := by
  apply h
  constructor
  · dsimp only
    omega
  · dsimp only
    omega

theorem decodeCount_inBlocks (e : ElemInfo) (dataLen : ℕ) :
    (Marked.ofProg blocks (decodeCount e dataLen)).AllWrites InBlocks inp := by
  unfold decodeCount
  split
  · exact Marked.allWrites_pure _
  · exact Marked.allWrites_pure _
  · split_ifs
    · exact Marked.allWrites_fail _
    · exact Marked.allWrites_pure _

theorem decodeCount_ok (hstatic : e.arrayType ≠ .staticArray) {dataLen : ℕ}
    (h : dataLen ≤ e.elemLen) : ∃ count, (decodeCount e dataLen).result inp = .ok count := by
  unfold decodeCount
  split
  · exact ⟨1, rfl⟩
  · contradiction
  · rw [if_neg (by omega)]
    exact ⟨dataLen, rfl⟩

theorem decodeCount_le {e : ElemInfo} (hfits : e.fits = true)
    (hdata : e.dataType ≠ .optFlag ∧ e.dataType ≠ .dataLen ∧ e.dataType ≠ .string)
    {dataLen count : ℕ} (h : (decodeCount e dataLen).result inp = .ok count) :
    count ≤ e.elemLen := by
  have hpos : 1 ≤ e.elemLen := by
    obtain ⟨h₁, h₂, h₃⟩ := hdata
    unfold ElemInfo.fits at hfits
    split at hfits
    · contradiction
    · contradiction
    · contradiction
    · exact of_decide_eq_true hfits
  unfold decodeCount at h
  split at h
  · cases h
    exact hpos
  · cases h
    exact le_rfl
  · split_ifs at h with hmax
    · cases h
    · cases h
      omega

theorem structFields_inBlocks {dec : ℕ → ℕ → ℕ → FieldProg ℕ} {elemSize elemLen : ℕ}
    (hdec : ∀ j < elemLen, ∀ src len, (dec (dst + j * elemSize) src len).AllWrites InBlocks inp)
    (level n : ℕ) :
    ∀ j src decoded, j + n ≤ elemLen →
      (structFields dec level elemSize tlvLen n (dst + j * elemSize) src decoded).AllWrites InBlocks
        inp := by
  induction n with
  | zero =>
      intro j src decoded _
      unfold structFields
      split_ifs
      · exact Marked.allWrites_fail _
      · exact Marked.allWrites_pure _
  | succ n ih =>
      intro j src decoded hj
      unfold structFields
      split_ifs
      · rw [Marked.allWrites_bind]
        refine ⟨hdec j (by omega) _ _, fun rc _ => ?_⟩
        have hnext := ih (j + 1) (src + rc) (decoded + rc) (by omega)
        rwa [Nat.succ_mul, ← Nat.add_assoc] at hnext
      · exact Marked.allWrites_fail _
      · exact Marked.allWrites_pure _

/-- A string of a message leaves its block exactly when it fills its field. -/
theorem decodeString_message (hsize : e.elemSize = 1) :
    (Marked.ofProg [(dst, e.elemLen)] (qmiDecodeStringElem 1 e dst src tlvLen)).AllWrites
      InBlocks inp ↔ tlvLen ≠ e.elemLen := by
  have hblock : ∀ a, InBlocks [(dst, e.elemLen)] a ↔ InBlock (dst, e.elemLen) a := by
    intro a
    exact List.forall_mem_singleton
  unfold qmiDecodeStringElem
  rw [Marked.ofProg_bind, Marked.allWrites_readN_bind]
  simp only [if_true]
  split_ifs with hmax hlen
  · exact iff_of_true (Marked.allWrites_fail _) (by omega)
  · omega
  · rw [Marked.ofProg_bind, Marked.allWrites_readN_bind, Marked.ofProg_bind,
      Marked.allWrites_storeAll_bind, Marked.ofProg_bind, Marked.allWrites_storeAll_bind]
    simp only [hblock, InBlock, window_length, hsize, Nat.mul_one, List.length_singleton]
    constructor
    · rintro ⟨-, hnul, -⟩ heq
      have hin := hnul 0 (by omega)
      omega
    · intro hne
      refine ⟨fun i hi => by omega, fun i hi => by omega, Marked.allWrites_pure _⟩

/-- A nested string is shorter than its field. -/
theorem decodeString_nested {level : ℕ} (hlevel : 2 ≤ level) (hsize : e.elemSize = 1)
    (hlen : e.elemLen = 256) (hcovers : Covers blocks (dst, e.elemLen)) :
    (Marked.ofProg blocks (qmiDecodeStringElem level e dst src tlvLen)).AllWrites InBlocks inp := by
  have hsz : e.stringLenSz = 1 := by rw [ElemInfo.stringLenSz, if_pos (by omega)]
  have hbyte := ofLE_lt (window inp src 1)
  rw [window_length] at hbyte
  have hne : level ≠ 1 := by omega
  unfold qmiDecodeStringElem
  rw [Marked.ofProg_bind, Marked.allWrites_readN_bind]
  simp only [hne, if_false, hsz]
  split_ifs with hmax hfar
  · exact Marked.allWrites_fail _
  · exact Marked.allWrites_fail _
  · rw [Marked.ofProg_bind, Marked.allWrites_readN_bind, Marked.ofProg_bind,
      Marked.allWrites_storeAll_bind, Marked.ofProg_bind, Marked.allWrites_storeAll_bind]
    refine ⟨fun i hi => hcovers.inBlocks ?_, fun i hi => ?_, Marked.allWrites_pure _⟩
    · rw [window_length, hsize] at hi
      omega
    · rw [List.length_singleton] at hi
      rw [Nat.add_assoc]
      exact hcovers.inBlocks (by omega)

theorem valueFields_inBlocks {dec : ℕ → ℕ → ℕ → FieldProg ℕ} {level count : ℕ}
    (hfits : e.fits = true)
    (hstring : e.dataType = .string → 2 ≤ level ∧ e.elemLen = 256)
    (hcovers : Covers blocks (dst, e.fieldSize))
    (hcount : e.dataType ≠ .optFlag ∧ e.dataType ≠ .dataLen ∧ e.dataType ≠ .string →
      count ≤ e.elemLen)
    (hdec : e.dataType = .struct → ∀ j < e.elemLen, ∀ src len,
      (dec (dst + j * e.elemSize) src len).AllWrites InBlocks inp) :
    (valueFields dec blocks level e count tlvLen dst src).AllWrites InBlocks inp := by
  unfold valueFields
  unfold ElemInfo.fits at hfits
  unfold ElemInfo.fieldSize at hcovers
  split_ifs with hstruct
  · have hle := hcount (by simp [hstruct])
    have hslots := @structFields_inBlocks inp dst tlvLen dec e.elemSize e.elemLen (hdec hstruct)
      (level + 1) count 0 src 0 (by omega)
    rwa [Nat.zero_mul, Nat.add_zero] at hslots
  unfold decodeValue
  cases htype : e.dataType with
  | optFlag => exact Marked.allWrites_fail _
  | dataLen => exact Marked.allWrites_fail _
  | struct => contradiction
  | string =>
      obtain ⟨hlevel, hlen⟩ := hstring htype
      simp only [htype] at hfits hcovers
      have hsize := of_decide_eq_true hfits
      rw [hsize, Nat.mul_one] at hcovers
      exact decodeString_nested hlevel hsize hlen hcovers
  | _ =>
      have hle := hcount (by simp [htype])
      simp only [htype] at hcovers
      dsimp only
      rw [Marked.ofProg_bind, Marked.allWrites_readN_bind, Marked.ofProg_bind,
        Marked.allWrites_storeAll_bind]
      refine ⟨fun i hi => hcovers.inBlocks ?_, Marked.allWrites_pure _⟩
      rw [window_length] at hi
      exact lt_of_lt_of_le hi (Nat.mul_le_mul_right _ hle)

theorem Covers.field (e : ElemInfo) (base : ℕ) :
    Covers [e.field base] (base + e.offset, e.fieldSize) :=
  Covers.cons_self fun a _ b hb => by cases hb

theorem valueFields_message {dec : ℕ → ℕ → ℕ → FieldProg ℕ} {count base : ℕ} (hfits : e.fits = true)
    (hcount : e.dataType ≠ .optFlag ∧ e.dataType ≠ .dataLen ∧ e.dataType ≠ .string →
      count ≤ e.elemLen)
    (hdec : e.dataType = .struct → ∀ j < e.elemLen, ∀ src len,
      (dec (base + e.offset + j * e.elemSize) src len).AllWrites InBlocks inp) :
    (valueFields dec [e.field base] 1 e count tlvLen (base + e.offset) src).AllWrites InBlocks inp ↔
      (e.dataType = .string → tlvLen ≠ e.elemLen) := by
  by_cases hstring : e.dataType = .string
  · have hsize : e.elemSize = 1 := by simpa [ElemInfo.fits, hstring] using hfits
    have hblock : e.field base = (base + e.offset, e.elemLen) := by
      simp [ElemInfo.field, ElemInfo.fieldSize, hstring, hsize]
    have hvalue : valueFields dec [e.field base] 1 e count tlvLen (base + e.offset) src =
        .ofProg [(base + e.offset, e.elemLen)]
          (qmiDecodeStringElem 1 e (base + e.offset) src tlvLen) := by
      simp [valueFields, decodeValue, hstring, hblock]
    rw [hvalue, decodeString_message hsize]
    exact ⟨fun hne _ => hne, fun hne => hne hstring⟩
  · refine iff_of_true ?_ fun h => absurd h hstring
    exact valueFields_inBlocks hfits (fun h => absurd h hstring) (Covers.field e base) hcount hdec

theorem Covers.slot {elemSize elemLen j : ℕ} (h : Covers blocks (dst, elemLen * elemSize))
    (hj : j < elemLen) :
    Covers ((dst + j * elemSize, elemSize) :: blocks) (dst + j * elemSize, elemSize) := by
  have hend : j * elemSize + elemSize ≤ elemLen * elemSize := by
    rw [← Nat.succ_mul]
    exact Nat.mul_le_mul_right _ hj
  apply Covers.cons_self
  refine h.mono ?_ ?_
  · dsimp only
    omega
  · dsimp only
    omega

end Stores

section Elements

variable {inp : ℕ → UInt8}

/-- A nested structure stays in its slot, and each of its elements in its field. -/
theorem elemsFields_nested (t : Table) : ∀ {outer : List (ℕ × ℕ)} {level size base : ℕ}, 2 ≤ level →
    t.inSlot size = true → Covers outer (base, size) → ∀ start inLen stage tlvLen decoded dataLen,
      (elemsFields t outer level base start inLen stage tlvLen decoded dataLen).AllWrites InBlocks
        inp := by
  induction t with
  | nil =>
      intro outer level size base _ _ _ start inLen stage tlvLen decoded dataLen
      unfold elemsFields
      split_ifs
      · exact Marked.allWrites_pure _
      · exact Marked.allWrites_fail _
  | cons e eiArray rest ihsub ihrest =>
      intro outer level size base hlevel hslot houter start inLen stage tlvLen decoded dataLen
      simp only [Table.inSlot, Bool.and_eq_true, decide_eq_true_eq] at hslot
      obtain ⟨⟨⟨⟨hfits, hin⟩, hstring⟩, hsub⟩, hrest⟩ := hslot
      have hfield : Covers (e.field base :: outer) (base + e.offset, e.fieldSize) := by
        apply Covers.cons_self
        refine houter.mono ?_ ?_
        · dsimp only [ElemInfo.field]
          omega
        · dsimp only [ElemInfo.field]
          omega
      have hnext := @ihrest outer level size base hlevel hrest houter
      unfold elemsFields
      dsimp only
      generalize (if stage = .first ∧ level ≥ 2 then inLen - decoded else tlvLen) = len
      split_ifs with hstop hflag hlen
      · exact Marked.allWrites_pure _
      · rw [Marked.allWrites_storeAll_bind]
        refine ⟨fun i hi => hfield.inBlocks ?_, hnext _ _ _ _ _ _⟩
        simpa [ElemInfo.fieldSize, hflag.1] using hi
      · rw [Marked.allWrites_readN_bind, Marked.allWrites_storeAll_bind]
        refine ⟨fun i hi => hfield.inBlocks ?_, hnext _ _ _ _ _ _⟩
        simpa [ElemInfo.fieldSize, hlen.1] using hi
      · rw [Marked.allWrites_bind]
        refine ⟨decodeCount_inBlocks e dataLen, fun count hcount => ?_⟩
        rw [Marked.allWrites_bind]
        refine ⟨?_, fun rc _ => hnext _ _ _ _ _ _⟩
        refine valueFields_inBlocks hfits (fun h => ⟨hlevel, hstring h⟩) hfield
          (fun hdata => decodeCount_le hfits hdata (Marked.erase_ofProg _ _ ▸ hcount)) ?_
        intro htype j hj src n
        rw [Marked.allWrites_bind]
        refine ⟨@ihsub _ (level + 1) e.elemSize _ (by omega) hsub ?_ _ _ _ _ _ _,
          fun r _ => Marked.allWrites_pure _⟩
        apply Covers.slot _ hj
        simpa [ElemInfo.fieldSize, htype] using hfield

theorem decodeElems_dataLen {base start inLen : ℕ} (t : Table) :
    ∀ {stage : Stage} {tlvLen decoded dataLen : ℕ} {r : ℕ × ℕ},
    t.inMessage = true → dataLen < 256 →
      (qmiDecodeElems t 1 base start inLen stage tlvLen decoded dataLen).result inp = .ok r →
      r.2 < 256 := by
  have hone : ¬ 1 ≥ 2 := by decide
  induction t with
  | nil =>
      intro stage tlvLen decoded dataLen r _ hdl h
      unfold qmiDecodeElems at h
      split_ifs at h
      · cases h
        exact hdl
      · cases h
  | cons e eiArray rest _ ihrest =>
      intro stage tlvLen decoded dataLen r hwf hdl h
      simp only [Table.inMessage, ElemInfo.byteCounts, Bool.and_eq_true, decide_eq_true_eq] at hwf
      obtain ⟨⟨⟨⟨-, ⟨hstatic, hbyte⟩, -⟩, -⟩, -⟩, hrest⟩ := hwf
      unfold qmiDecodeElems at h
      simp only [hone, false_and, and_false, if_false] at h
      by_cases hflag : e.dataType = .optFlag ∧ stage = .first
      · rw [if_pos hflag, Prog.result_bind_ok (Prog.result_storeAll _ _ _)] at h
        exact ihrest hrest hdl h
      rw [if_neg hflag] at h
      by_cases hlen : e.dataType = .dataLen ∧ stage ≠ .counted
      · have hsz : e.dataLenSz = 1 := by rw [ElemInfo.dataLenSz, if_pos (hbyte hlen.1)]
        have hwindow : window inp (start + decoded) 1 = [inp (start + decoded)] := rfl
        rw [if_pos hlen, hsz, Prog.result_bind_ok (Prog.result_readN _ _ _),
          Prog.result_bind_ok (Prog.result_storeAll _ _ _), hwindow, setLow_byte hdl] at h
        exact ihrest hrest (inp (start + decoded)).toNat_lt h
      rw [if_neg hlen] at h
      obtain ⟨count, hcount, h⟩ := Prog.ok_of_bind h
      obtain ⟨rc, -, h⟩ := Prog.ok_of_bind h
      cases h
      unfold decodeCount at hcount
      split at hcount
      · cases hcount
        exact (by norm_num : 1 < 256)
      · contradiction
      · split_ifs at hcount
        · cases hcount
        · cases hcount
          exact hdl

/-- An element of a message stays in its fields unless it is a string that fills its field. -/
theorem elemsFields_message (base start inLen : ℕ) (t : Table) :
    ∀ {e : ElemInfo} {eiArray rest : Table},
    t = .cons e eiArray rest → t.inMessage = true → ∀ stage tlvLen decoded dataLen, dataLen < 256 →
      ((elemsFields t [] 1 base start inLen stage tlvLen decoded dataLen).AllWrites InBlocks inp ↔
        (e.dataType = .string → tlvLen ≠ e.elemLen)) := by
  have hone : ¬ 1 ≥ 2 := by decide
  induction t with
  | nil =>
      intro e eiArray rest h
      cases h
  | cons e eiArray rest _ ihrest =>
      intro e' eiArray' rest' h hwf stage tlvLen decoded dataLen hdl
      cases h
      simp only [Table.inMessage, ElemInfo.byteCounts, Bool.and_eq_true, decide_eq_true_eq] at hwf
      obtain ⟨⟨⟨⟨hfits, ⟨hstatic, hbyte⟩, hlen256⟩, hsub⟩, hhead⟩, hrest⟩ := hwf
      have hfield := Covers.field e base
      have hnext : e.dataType = .optFlag ∨ e.dataType = .dataLen →
          ∀ stage tlvLen decoded dataLen, dataLen < 256 →
          (elemsFields rest [] 1 base start inLen stage tlvLen decoded dataLen).AllWrites InBlocks
            inp := by
        intro htype stage tlvLen decoded dataLen hdl
        have hno := hhead htype
        cases rest with
        | nil =>
            unfold elemsFields
            split_ifs
            · exact Marked.allWrites_pure _
            · exact Marked.allWrites_fail _
        | cons e₁ sub₁ rest₁ =>
            refine (ihrest rfl hrest stage tlvLen decoded dataLen hdl).mpr fun hstring => ?_
            rw [Table.startsWithString, decide_eq_false_iff_not] at hno
            exact absurd hstring hno
      unfold elemsFields
      simp only [hone, false_and, and_false, if_false]
      by_cases hflag : e.dataType = .optFlag ∧ stage = .first
      · rw [if_pos hflag, Marked.allWrites_storeAll_bind]
        refine iff_of_true ⟨fun i hi => hfield.inBlocks ?_, hnext (Or.inl hflag.1) _ _ _ _ hdl⟩ ?_
        · simpa [ElemInfo.fieldSize, hflag.1] using hi
        · rw [hflag.1]
          intro h
          cases h
      rw [if_neg hflag]
      by_cases hlen : e.dataType = .dataLen ∧ stage ≠ .counted
      · have hsz : e.dataLenSz = 1 := by rw [ElemInfo.dataLenSz, if_pos (hbyte hlen.1)]
        have hwindow : window inp (start + decoded) 1 = [inp (start + decoded)] := rfl
        rw [if_pos hlen, Marked.allWrites_readN_bind, Marked.allWrites_storeAll_bind, hsz, hwindow,
          setLow_byte hdl]
        refine iff_of_true ⟨fun i hi => hfield.inBlocks ?_,
          hnext (Or.inr hlen.1) _ _ _ _ (inp (start + decoded)).toNat_lt⟩ ?_
        · simpa [ElemInfo.fieldSize, hlen.1] using hi
        · rw [hlen.1]
          intro h
          cases h
      rw [if_neg hlen, Marked.allWrites_bind, Marked.erase_ofProg]
      have hstruct : e.dataType = .struct → ∀ j < e.elemLen, ∀ src len,
          (elemsFields eiArray [(base + e.offset + j * e.elemSize, e.elemSize), e.field base] 2
              (base + e.offset + j * e.elemSize) src len .first 0 0 0 >>=
            fun r => pure r.1 : FieldProg ℕ).AllWrites InBlocks inp := by
        intro htype j hj src len
        rw [Marked.allWrites_bind]
        refine ⟨elemsFields_nested eiArray (by decide) hsub ?_ _ _ _ _ _ _,
          fun r _ => Marked.allWrites_pure _⟩
        apply Covers.slot _ hj
        simpa [ElemInfo.fieldSize, htype] using hfield
      constructor
      · rintro ⟨-, hall⟩ hstring
        obtain ⟨count, hcount⟩ :=
          decodeCount_ok hstatic (by rw [hlen256 hstring]; omega : dataLen ≤ e.elemLen)
        have hin := (Marked.allWrites_bind _ _).mp (hall count hcount)
        exact (valueFields_message hfits (decodeCount_le hfits · hcount) hstruct).mp hin.1 hstring
      · intro hne
        refine ⟨decodeCount_inBlocks e dataLen, fun count hcount => ?_⟩
        rw [Marked.allWrites_bind]
        exact ⟨(valueFields_message hfits (decodeCount_le hfits · hcount) hstruct).mpr hne,
          fun rc _ => Marked.allWrites_pure _⟩

end Elements

/-! ### The TLVs of a message -/

/-- The length in the header of the TLV at `p`. -/
def tlvLenAt (inp : ℕ → UInt8) (p : ℕ) : ℕ := ofLE (window inp (p + 1) 2)

/-- By the grammar of the message, the bytes from `pos` on are an element of `n` bytes. -/
def IsElem (t : Table) (inp : ℕ → UInt8) (pos tlvLen dataLen n dataLen' : ℕ) : Prop :=
  ∃ room rest, wireElems t 1 0 .first tlvLen dataLen (window inp pos room) =
    .done (n, dataLen') rest

/-- There is a TLV at `pos`, when the TLVs of a body are read from `decoded` on. -/
inductive TlvAt (t : Table) (start inLen : ℕ) (inp : ℕ → UInt8) (pos : ℕ) :
    (decoded dataLen : ℕ) → Prop
  | here {dataLen : ℕ} : pos < inLen → TlvAt t start inLen inp pos pos dataLen
  | skipped {decoded dataLen : ℕ} : decoded < inLen → findEi t (inp (start + decoded)) = .nil →
      0x10 ≤ inp (start + decoded) →
      TlvAt t start inLen inp pos (decoded + 3 + tlvLenAt inp (start + decoded)) dataLen →
      TlvAt t start inLen inp pos decoded dataLen
  | taken {decoded dataLen n dataLen' : ℕ} {e : ElemInfo} {eiArray rest : Table} : decoded < inLen →
      findEi t (inp (start + decoded)) = .cons e eiArray rest →
      IsElem (.cons e eiArray rest) inp (start + (decoded + 3)) (tlvLenAt inp (start + decoded))
        dataLen n dataLen' →
      TlvAt t start inLen inp pos (decoded + 3 + n) dataLen' →
      TlvAt t start inLen inp pos decoded dataLen

/-- The decoder takes what the grammar takes. -/
theorem isElem_iff {t : Table} {inp : ℕ → UInt8} (base start inLen : ℕ)
    {decoded tlvLen dataLen n dataLen' : ℕ} :
    IsElem t inp (start + decoded) tlvLen dataLen n dataLen' ↔
      (qmiDecodeElems t 1 base start inLen .first tlvLen decoded dataLen).result inp =
        .ok (decoded + n, dataLen') := by
  have hsim : ∀ bound, Sim (qmiDecodeElems t 1 base start inLen .first tlvLen decoded dataLen)
      (wireElems t 1 0 .first tlvLen dataLen) inp bound (start + decoded)
      (fun r => (decoded + r.1, r.2)) fun r => start + decoded + r.1 :=
    fun bound => decodeElems_sim t (by omega) base start .first tlvLen dataLen
  constructor
  · rintro ⟨room, rest, hdone⟩
    have hroom := hsim (start + decoded + room)
    rw [Sim, Nat.add_sub_cancel_left, hdone] at hroom
    exact hroom.1
  · intro hresult
    obtain ⟨bound, hbound⟩ := Prog.exists_readsBelow
      (qmiDecodeElems t 1 base start inLen .first tlvLen decoded dataLen) inp
    have hroom := hsim bound
    rw [Sim] at hroom
    cases hverdict : wireElems t 1 0 .first tlvLen dataLen
        (window inp (start + decoded) (bound - (start + decoded))) with
    | more =>
        rw [hverdict] at hroom
        exact absurd hbound hroom
    | reject =>
        rw [hverdict] at hroom
        obtain ⟨⟨err, herr⟩, -⟩ := hroom
        rw [hresult] at herr
        cases herr
    | done r rest =>
        rw [hverdict] at hroom
        have heq := Except.ok.inj (hresult.symm.trans hroom.1)
        rw [Prod.mk.injEq] at heq
        obtain rfl : n = r.1 := by omega
        refine ⟨_, rest, hverdict.trans ?_⟩
        rw [heq.2]

/-- The stores of a message stay in the fields they are made for. -/
def InFields (t : Table) (base start inLen : ℕ) (inp : ℕ → UInt8) : Prop :=
  (decodeFields t base start inLen).1.AllWrites InBlocks inp

/-- No string fills its field, from `decoded` on. -/
def NoFull (t : Table) (start inLen : ℕ) (inp : ℕ → UInt8) (decoded dataLen : ℕ) : Prop :=
  ∀ pos e eiArray rest, TlvAt t start inLen inp pos decoded dataLen →
    findEi t (inp (start + pos)) = .cons e eiArray rest → e.dataType = .string →
    tlvLenAt inp (start + pos) ≠ e.elemLen

section NoFull

variable {t : Table} {start inLen decoded dataLen : ℕ} {inp : ℕ → UInt8}

theorem noFull_of_le (h : inLen ≤ decoded) : NoFull t start inLen inp decoded dataLen := by
  intro pos e eiArray rest hat
  cases hat with
  | here hlt => omega
  | skipped hlt _ _ _ => omega
  | taken hlt _ _ _ => omega

theorem noFull_of_refused (hei : findEi t (inp (start + decoded)) = .nil)
    (hlow : inp (start + decoded) < 0x10) : NoFull t start inLen inp decoded dataLen := by
  intro pos e eiArray rest hat hpos
  cases hat with
  | here _ =>
      rw [hei] at hpos
      cases hpos
  | skipped _ _ hhigh _ => exact absurd hlow (UInt8.not_lt.mpr hhigh)
  | taken _ hcons _ _ =>
      rw [hei] at hcons
      cases hcons

theorem noFull_skipped (hmore : decoded < inLen) (hei : findEi t (inp (start + decoded)) = .nil)
    (hhigh : 0x10 ≤ inp (start + decoded)) :
    NoFull t start inLen inp decoded dataLen ↔
      NoFull t start inLen inp (decoded + 3 + tlvLenAt inp (start + decoded)) dataLen := by
  constructor
  · intro hall pos e eiArray rest hat
    exact hall pos e eiArray rest (.skipped hmore hei hhigh hat)
  · intro hnext pos e eiArray rest hat hpos
    cases hat with
    | here _ =>
        rw [hei] at hpos
        cases hpos
    | skipped _ _ _ hat => exact hnext pos e eiArray rest hat hpos
    | taken _ hcons _ _ =>
        rw [hei] at hcons
        cases hcons

theorem noFull_taken {e : ElemInfo} {eiArray rest : Table} (hmore : decoded < inLen)
    (hei : findEi t (inp (start + decoded)) = .cons e eiArray rest) :
    NoFull t start inLen inp decoded dataLen ↔
      (e.dataType = .string → tlvLenAt inp (start + decoded) ≠ e.elemLen) ∧
      ∀ n dataLen', IsElem (.cons e eiArray rest) inp (start + (decoded + 3))
        (tlvLenAt inp (start + decoded)) dataLen n dataLen' →
          NoFull t start inLen inp (decoded + 3 + n) dataLen' := by
  constructor
  · intro hall
    refine ⟨hall decoded e eiArray rest (.here hmore) hei, fun n dataLen' helem => ?_⟩
    intro pos e' eiArray' rest' hat
    exact hall pos e' eiArray' rest' (.taken hmore hei helem hat)
  · rintro ⟨hfirst, hnext⟩ pos e' eiArray' rest' hat hpos
    cases hat with
    | here _ =>
        rw [hei] at hpos
        cases hpos
        exact hfirst
    | skipped _ hnil _ _ =>
        rw [hei] at hnil
        cases hnil
    | taken _ hcons helem hat =>
        rw [hei] at hcons
        cases hcons
        exact hnext _ _ helem pos e' eiArray' rest' hat hpos

end NoFull

theorem tlvsFields_inBlocks_iff {t : Table} (hwf : t.inMessage = true) (base start inLen : ℕ)
    (inp : ℕ → UInt8) (rounds : ℕ) :
    ∀ {decoded dataLen : ℕ}, inLen ≤ decoded + rounds → dataLen < 256 →
      ((tlvsFields t base start inLen rounds decoded dataLen).AllWrites InBlocks inp ↔
        NoFull t start inLen inp decoded dataLen) := by
  induction rounds with
  | zero =>
      intro decoded dataLen hle _
      exact iff_of_true (Marked.allWrites_pure _) (noFull_of_le hle)
  | succ rounds ih =>
      intro decoded dataLen hle hdl
      have hheader : window inp (start + decoded) 3 = inp (start + decoded) ::
          window inp (start + decoded + 1) 2 := window_succ _ _ _
      have hlen : ofLE ((inp (start + decoded) :: window inp (start + decoded + 1) 2).drop 1) =
          tlvLenAt inp (start + decoded) := rfl
      unfold tlvsFields
      by_cases hmore : decoded < inLen
      · rw [if_pos hmore, Marked.allWrites_readN_bind, hheader]
        dsimp only [List.headD_cons]
        rw [hlen]
        have hfound := inMessage_findEi hwf (inp (start + decoded))
        cases hei : findEi t (inp (start + decoded)) with
        | nil =>
            dsimp only
            split_ifs with hlow
            · exact iff_of_true (Marked.allWrites_fail _) (noFull_of_refused hei hlow)
            · rw [ih (by omega) hdl]
              exact (noFull_skipped hmore hei (UInt8.not_lt.mp hlow)).symm
        | cons e eiArray rest =>
            rw [hei] at hfound
            rw [Marked.allWrites_bind, elemsFields_erase, noFull_taken hmore hei,
              elemsFields_message base start inLen _ rfl hfound _ _ _ _ hdl]
            have hstep : ∀ {r : ℕ × ℕ}, (qmiDecodeElems (.cons e eiArray rest) 1 base start inLen
                .first (tlvLenAt inp (start + decoded)) (decoded + 3) dataLen).result inp = .ok r →
                decoded + 3 ≤ r.1 ∧ r.2 < 256 := by
              intro r hr
              have hreturns := decodeElems_returns (.cons e eiArray rest) 1 base start inLen .first
                (tlvLenAt inp (start + decoded)) (decoded + 3) dataLen
              exact ⟨hreturns.result hr, decodeElems_dataLen _ hfound hdl hr⟩
            refine and_congr_right fun _ => ⟨fun hnext n dataLen' helem => ?_, fun hnext r hr => ?_⟩
            · have hr := (isElem_iff base start inLen).mp helem
              obtain ⟨hle', hdl'⟩ := hstep hr
              exact (ih (by omega) hdl').mp (hnext _ hr)
            · obtain ⟨next, dataLen'⟩ := r
              obtain ⟨hle', hdl'⟩ := hstep hr
              obtain ⟨n, rfl⟩ := Nat.exists_eq_add_of_le hle'
              have helem := (isElem_iff base start inLen).mpr hr
              exact (ih (by omega) hdl').mpr (hnext n dataLen' helem)
      · rw [if_neg hmore]
        exact iff_of_true (Marked.allWrites_pure _) (noFull_of_le (not_lt.mp hmore))

/-- **Stores of the decoder**: for every table of the tree and every body, the stores stay in their
fields exactly when no string that is taken up fills its field. -/
theorem inFields_iff {t : Table} (ht : t ∈ tables) (base start inLen : ℕ) (inp : ℕ → UInt8) :
    InFields t base start inLen inp ↔ NoFull t start inLen inp 0 0 :=
  tlvsFields_inBlocks_iff (inMessage_tables t ht) base start inLen inp inLen (by omega)
    (by norm_num)

/-- The body of a request whose first TLV is a string of `n` bytes. -/
def stringBody (n p : ℕ) : UInt8 :=
  if p < 3 then [1, UInt8.ofNat n, UInt8.ofNat (n / 256)].getD p 0 else 97

/-- An OPEN request for a path of 5 bytes. -/
theorem inFields_shortPath : InFields rmtfsOpenReqEi 0 0 8 (stringBody 5) := by
  refine (@inFields_iff rmtfsOpenReqEi (by decide) 0 0 8 (stringBody 5)).mpr ?_
  have hresult : (qmiDecodeElems rmtfsOpenReqEi 1 0 0 8 .first 5 3 0).result (stringBody 5) =
      .ok (8, 0) := by decide +kernel
  refine (noFull_taken (by norm_num) rfl).mpr ⟨fun _ => by decide, fun n dataLen' helem => ?_⟩
  have hend := Except.ok.inj (((isElem_iff 0 0 8).mp helem).symm.trans hresult)
  rw [Prod.mk.injEq] at hend
  exact noFull_of_le (by omega)

/-- A path of 256 bytes is terminated behind the request; a service name of 256 bytes is terminated
on the flag behind it. -/
theorem not_inFields_longPath :
    Event.store 260 ∈ (qmiDecodeTlvs rmtfsOpenReqEi 0 0 259 259 0 0).events (stringBody 256) ∧
    ¬ InFields rmtfsOpenReqEi 0 0 259 (stringBody 256) ∧
    ¬ InFields servregLocGetDomainListReqEi 0 0 259 (stringBody 256) := by
  have hfull : ∀ t ∈ tables, ∀ rest, findEi t 1 =
      .cons ⟨.string, 256, 1, .varLenArray, 1, 4⟩ .nil rest →
      ¬ InFields t 0 0 259 (stringBody 256) := by
    intro t ht rest hei hin
    have hfields : NoFull t 0 259 (stringBody 256) 0 0 :=
      (tlvsFields_inBlocks_iff (inMessage_tables t ht) 0 0 259 _ 259 (by omega)
        (by norm_num)).mp hin
    exact hfields 0 _ _ _ (.here (by norm_num)) hei rfl rfl
  exact ⟨by decide +kernel, hfull _ (by decide) _ rfl, hfull _ (by decide) _ rfl⟩

end Imola.Qmi
