import Imola.RmtfsBackends
import Imola.RmtfsSlots

/-! # Which writes a shadow copy takes

In read-only mode `storage_pwrite` keeps the copy of a partition below `STORAGE_MAX_SIZE`.  A write
should be refused only if it makes the copy larger than that, or if there is no memory left
(`AcceptsWrite`).

The test is made on the end of the write, before it is compared with the length of the copy, and
refuses an end that equals the limit.  So a write up to the limit is refused, and of a partition
that was larger from the start nothing behind the limit can be written (`acceptsWrite_iff`). -/

namespace Imola.Rmtfs

open Imola.Splice

/-! ### The property -/

/-- A byte of the shadow copy. -/
def RmtFd.byte? (r : RmtFd) (p : ℕ) : Option UInt8 := (r.shadowBuf.getD [])[p]?

/-- A call of `storage_pwrite` is refused only if it must be, and else changes only the bytes it
writes. -/
structure AcceptsWrite (cfg : Config) (io : WriteIo) (r : RmtFd) (buf : List UInt8) (offset : ℕ) :
    Prop where
  refused : (storagePwrite cfg io r buf offset).1 = -1 → (storagePwrite cfg io r buf offset).2 = r ∧
    r.shadowLen < offset + buf.length ∧ (storageMaxSize < offset + buf.length ∨ io.realloc = none)
  accepted : offset + buf.length ≤ storageMaxSize ∨ offset + buf.length ≤ r.shadowLen →
    (r.shadowLen < offset + buf.length → io.realloc ≠ none) →
    (storagePwrite cfg io r buf offset).1 = buf.length ∧
      ∀ p < r.shadowLen, p < offset ∨ offset + buf.length ≤ p →
        (storagePwrite cfg io r buf offset).2.byte? p = r.byte? p

/-! ### Handles that are open -/

/-- `lseek` and `read` return an `ssize_t`, and `read` not more than it was asked for. -/
def FileSystem.Sized (fs : FileSystem) : Prop :=
  ∀ path len bs, fs.populate path = .contents len bs → bs.length ≤ len ∧ len < 2 ^ 63

/-- The calls that an `open` makes give such results. -/
def StorageOp.Sized : StorageOp → Prop
  | .open fs _ _ => fs.Sized
  | _ => True

/-- An open handle in read-only mode: a copy with at least as many bytes as its length says. -/
structure RmtFd.Shadowed (r : RmtFd) : Prop where
  buf : r.shadowBuf.isSome
  fits : r.ShadowFits
  len_lt : r.shadowLen < 2 ^ 63

/-- What is true of all slots in read-only mode. -/
structure ShadowInv (t : Table) : Prop where
  fits : Fits t
  fd : ∀ c, (t c).fd = -1
  len_lt : ∀ c, (t c).shadowLen < 2 ^ 63

section Invariant

variable {t : Table} {cfg : Config}

theorem ShadowInv.update (h : ShadowInv t) (c : Fin maxCallers) {r : RmtFd} (hfits : r.ShadowFits)
    (hfd : r.fd = -1)
    (hlen : r.shadowLen < 2 ^ 63) : ShadowInv (Function.update t c r) := by
  refine ⟨h.fits.update hfits c, ?_, ?_⟩
  · exact (Function.forall_update_iff t fun _ r => r.fd = -1).mpr ⟨hfd, fun k _ => h.fd k⟩
  · exact (Function.forall_update_iff t fun _ r => r.shadowLen < 2 ^ 63).mpr ⟨hlen,
      fun k _ => h.len_lt k⟩

theorem storagePwrite_len_lt {r : RmtFd} (h : r.shadowLen < 2 ^ 63) (io : WriteIo)
    (buf : List UInt8) (offset : ℕ) :
    (storagePwrite cfg io r buf offset).2.shadowLen < 2 ^ 63 := by
  unfold storagePwrite storageMaxSize
  dsimp only
  split_ifs
  · exact h
  · cases io.realloc with
    | none => exact h
    | some fresh =>
        dsimp only
        omega
  · exact h
  · exact h

theorem ShadowInv.open (h : ShadowInv t) (hro : cfg.readOnly = true) {fs : FileSystem}
    (hfs : fs.Sized) (node : ℕ)
    (path : String) : ShadowInv (storageOpen cfg fs t node path).2 := by
  rcases storageOpen_spec cfg fs t node path with
    ⟨hopen, -⟩ | ⟨part, -, ⟨c, hopen, -⟩ | ⟨c, r, hopen, -, -, hr⟩⟩
  · rw [hopen]
    exact h
  · rw [hopen]
    exact h
  · rw [hopen]
    cases hr with
    | @shadow r' _ hpop =>
        have hfits := storagePopulateShadowBuf_fits hpop
        have hlen : r'.shadowLen < 2 ^ 63 := by
          cases hp : fs.populate (fspath cfg part) with
          | contents len bs =>
              rw [hp] at hpop
              cases hpop
              have hsize := hfs _ _ _ hp
              dsimp only
              omega
          | _ =>
              rw [hp] at hpop
              cases hpop
        exact h.update c hfits ((storagePopulateShadowBuf_spec hpop).2.2.trans (h.fd c)) hlen
    | file hrw _ =>
        rw [hro] at hrw
        cases hrw

theorem ShadowInv.call (h : ShadowInv t) (hro : cfg.readOnly = true) {op : StorageOp}
    (hop : op.Sized) :
    ShadowInv (storageCallOp cfg t op) := by
  cases op with
  | «open» fs node path => exact h.open hro hop node path
  | close c =>
      exact h.update c (Nat.zero_le _) (by simp [storageClose, h.fd c]) (Nat.two_pow_pos 63)
  | pread c io buf nbyte offset => exact h
  | pwrite c io buf offset =>
      exact h.update c (storagePwrite_fits (h.fits c) io buf offset)
        ((storagePwrite_keeps cfg io (t c) buf offset).fd.trans (h.fd c))
        (storagePwrite_len_lt (h.len_lt c) io buf offset)

end Invariant

theorem shadowed_tableAfter {root : Option String} {parts : Bool} {ops : List StorageOp}
    (hops : ∀ op ∈ ops, op.Sized)
    {c : Fin maxCallers} (huse : (tableAfter root true parts ops c).InUse) :
    (tableAfter root true parts ops c).Shadowed := by
  have hinv : ShadowInv (tableAfter root true parts ops) :=
    tableAfter_invariant ⟨fun _ => Nat.zero_le _, fun _ => rfl, fun _ => Nat.two_pow_pos 63⟩
      fun t op hop h => h.call rfl (hops op hop)
  refine ⟨?_, hinv.fits c, hinv.len_lt c⟩
  exact huse.resolve_left fun hfd => hfd (hinv.fd c)

/-! ### Writes -/

section Write

variable {cfg : Config} {r : RmtFd} {buf : List UInt8} {offset : ℕ}

/-- A write whose end, as the code computes it, is at the limit or behind it. -/
theorem storagePwrite_refused (hro : cfg.readOnly = true) (io : WriteIo)
    (h : storageMaxSize ≤ (offset + buf.length) % 2 ^ 64) :
    storagePwrite cfg io r buf offset = (-1, r) := by
  simp only [storagePwrite, hro, not_true_eq_false, if_false, ge_iff_le, if_pos h]

theorem storagePwrite_eq_of_neg (hro : cfg.readOnly = true) {io : WriteIo}
    (h : (storagePwrite cfg io r buf offset).1 = -1) :
    (storagePwrite cfg io r buf offset).2 = r := by
  simp only [storagePwrite, hro, not_true_eq_false, if_false] at h ⊢
  split_ifs at h ⊢
  · rfl
  · cases hre : io.realloc with
    | none => rfl
    | some fresh =>
        rw [hre] at h
        dsimp only at h
        omega

/-- A write that ends below the limit is refused only for want of memory. -/
theorem storagePwrite_below (hro : cfg.readOnly = true) (hr : r.Shadowed) (io : WriteIo)
    (h : offset + buf.length < storageMaxSize) :
    (r.shadowLen < offset + buf.length ∧ io.realloc = none ∧
      storagePwrite cfg io r buf offset = (-1, r)) ∨
      ((storagePwrite cfg io r buf offset).1 = buf.length ∧ ∀ p < r.shadowLen,
        p < offset ∨ offset + buf.length ≤ p → (storagePwrite cfg io r buf offset).2.byte? p =
          r.byte? p) := by
  obtain ⟨block, hblock⟩ := Option.isSome_iff_exists.mp hr.buf
  have hfits : r.shadowLen ≤ block.length := by
    have hf := hr.fits
    rwa [RmtFd.ShadowFits, hblock] at hf
  have hmod : (offset + buf.length) % 2 ^ 64 = offset + buf.length := by
    unfold storageMaxSize at h
    omega
  simp only [storagePwrite, hro, not_true_eq_false, if_false, hmod, ge_iff_le,
    if_neg (Nat.not_le.mpr h), gt_iff_lt]
  by_cases hgrow : r.shadowLen < offset + buf.length
  · rw [if_pos hgrow]
    cases hre : io.realloc with
    | none => exact Or.inl ⟨hgrow, rfl, rfl⟩
    | some fresh =>
        refine Or.inr ⟨rfl, ?_⟩
        intro p hp hout
        have hroom : offset + buf.length ≤ (realloc block (offset + buf.length) fresh).length := by
          simp only [realloc, List.length_append, List.length_take, window_length]
          omega
        simp only [RmtFd.byte?, hblock, Option.getD_some]
        rw [getElem?_splice hroom, if_neg (by omega), realloc, List.getElem?_append_left,
          List.getElem?_take_of_lt]
        · omega
        · rw [List.length_take]
          omega
  · rw [if_neg hgrow]
    refine Or.inr ⟨rfl, ?_⟩
    intro p hp hout
    simp only [RmtFd.byte?, hblock, Option.map_some, Option.getD_some]
    rw [getElem?_splice (by omega), if_neg (by omega)]

theorem acceptsWrite_iff_of_shadowed (hro : cfg.readOnly = true) (hr : r.Shadowed) :
    (∀ io, AcceptsWrite cfg io r buf offset) ↔ offset + buf.length < storageMaxSize ∨
      (storageMaxSize < offset + buf.length ∧ r.shadowLen < offset + buf.length) := by
  constructor
  · intro h
    by_contra hcon
    have hlen := hr.len_lt
    have hend : storageMaxSize ≤ (offset + buf.length) % 2 ^ 64 := by
      unfold storageMaxSize at hcon ⊢
      omega
    obtain ⟨-, hgrow, hmax | hmem⟩ :=
      (h ⟨0, some fun _ => 0⟩).refused (by rw [storagePwrite_refused hro _ hend])
    · exact hcon (Or.inr ⟨hmax, hgrow⟩)
    · cases hmem
  · rintro (hlow | ⟨hmax, hgrow⟩) io
    · rcases storagePwrite_below hro hr io hlow with ⟨hgrow, hmem, hres⟩ | hok
      · exact ⟨fun _ => ⟨by rw [hres], hgrow, Or.inr hmem⟩, fun _ hre => absurd hmem (hre hgrow)⟩
      · refine ⟨fun hneg => ?_, fun _ _ => hok⟩
        rw [hok.1] at hneg
        omega
    · refine ⟨fun hneg => ⟨storagePwrite_eq_of_neg hro hneg, hgrow, Or.inl hmax⟩, fun h => ?_⟩
      omega

end Write

/-- **Which writes are accepted**: those of an open handle are handled as they should be exactly
when they end below the limit, or make the copy larger than it. -/
theorem acceptsWrite_iff {root : Option String} {parts : Bool} {ops : List StorageOp}
    (hops : ∀ op ∈ ops, op.Sized)
    {c : Fin maxCallers} (huse : (tableAfter root true parts ops c).InUse) (buf : List UInt8)
    (offset : ℕ) :
    (∀ io, AcceptsWrite (storageInit root true parts).1 io (tableAfter root true parts ops c)
      buf offset) ↔
      offset + buf.length < storageMaxSize ∨ (storageMaxSize < offset + buf.length ∧
        (tableAfter root true parts ops c).shadowLen < offset + buf.length) :=
  acceptsWrite_iff_of_shadowed rfl (shadowed_tableAfter hops huse)

/-- Node 1 opens a partition of a single byte. -/
def openOneByte : List StorageOp :=
  [.open ⟨fun _ => -1, fun _ => .contents 1 [7]⟩ 1 "/boot/modem_fs1"]

theorem sized_openOneByte : ∀ op ∈ openOneByte, op.Sized := by
  intro op hop
  obtain rfl := List.mem_singleton.mp hop
  intro path len bs h
  cases h
  decide

theorem inUse_openOneByte : (tableAfter none true false openOneByte 0).InUse := by decide

/-- A byte is appended. -/
theorem acceptsWrite_openOneByte : (tableAfter none true false openOneByte 0).InUse ∧
    ∀ io, AcceptsWrite (storageInit none true false).1 io
      (tableAfter none true false openOneByte 0) [9] 1 :=
  ⟨inUse_openOneByte, (acceptsWrite_iff sized_openOneByte inUse_openOneByte [9] 1).mpr (by decide)⟩

/-- A byte just below the limit is refused, though there is memory for it. -/
theorem not_acceptsWrite_limit : (tableAfter none true false openOneByte 0).InUse ∧
    (storagePwrite (storageInit none true false).1 ⟨0, some fun _ => 0⟩
      (tableAfter none true false openOneByte 0) [9]
      (storageMaxSize - 1)).1 = -1 ∧
    ¬ AcceptsWrite (storageInit none true false).1 ⟨0, some fun _ => 0⟩
      (tableAfter none true false openOneByte 0) [9]
      (storageMaxSize - 1) := by
  have hneg : (storagePwrite (storageInit none true false).1 ⟨0, some fun _ => 0⟩
      (tableAfter none true false openOneByte 0) [9] (storageMaxSize - 1)).1 = -1 := by decide
  refine ⟨inUse_openOneByte, hneg, fun h => ?_⟩
  obtain ⟨-, -, hmax | hmem⟩ := h.refused hneg
  · exact absurd hmax (by decide)
  · cases hmem

end Imola.Rmtfs
