import Imola.RmtfsStorage

/-! # The shadow copy as a file

In read-only mode a handle keeps a copy of its file in memory and serves reads and writes
from it.  The file it stands for is a function from positions to bytes, zero beyond the end
of what is known; a write overlays it.

`Refined` says that, after every one of a sequence of successful writes and whatever memory
`realloc` hands out, every `storage_pread` returns the bytes of that file.  It holds exactly
when the bytes that `read` left out at the start are zero, and no write that makes the copy longer
starts beyond the block that holds it (`refined_iff`): the bytes between the old block and such a
write are never set, while `storage_populate_shadow_buf` clears its block and `storage_pread`
zero-fills what it reads beyond the end. -/

namespace Imola.Rmtfs

open Imola.Splice

/-- A call of `storage_pwrite`: a non-negative `off_t` and a buffer that fits in memory. -/
structure Write where
  buf : List UInt8
  offset : ℕ
  offset_lt : offset < 2 ^ 63
  length_lt : buf.length < 2 ^ 63
deriving DecidableEq, Repr

/-- The end of the bytes written. -/
def Write.stop (w : Write) : ℕ := w.offset + w.buf.length

/-- Every `storage_pread` returns `nbyte` and the bytes of the file `a`. -/
def Sound (cfg : Config) (r : RmtFd) (a : ℕ → UInt8) : Prop :=
  ∀ (io : ℤ × List UInt8) (buf : List UInt8) (nbyte offset : ℕ),
    storagePread cfg io r buf nbyte offset = (nbyte, window a offset nbyte)

/-- Reads are sound now, and after each of the successful writes `ws`. -/
def Refined (cfg : Config) : RmtFd → (ℕ → UInt8) → List Write → Prop
  | r, a, [] => Sound cfg r a
  | r, a, w :: ws => Sound cfg r a ∧ ∀ io : WriteIo,
      (storagePwrite cfg io r w.buf w.offset).1 = w.buf.length →
        Refined cfg (storagePwrite cfg io r w.buf w.offset).2 (overlay a w.offset w.buf) ws

/-- No write behind the end `len` of the copy starts beyond the end `room` of its block at that
time; a write up to `STORAGE_MAX_SIZE` or beyond is refused and ends the sequence of successful
ones. -/
def NoGap : (room len : ℕ) → List Write → Prop
  | _, _, [] => True
  | room, len, w :: ws => w.stop < storageMaxSize →
      if w.stop ≤ len then NoGap room len ws else w.offset ≤ room ∧ NoGap w.stop w.stop ws

instance NoGap.decidable : ∀ (room len : ℕ) (ws : List Write), Decidable (NoGap room len ws)
  | _, _, [] => .isTrue trivial
  | room, len, w :: ws =>
      have := NoGap.decidable room len ws
      have := NoGap.decidable w.stop w.stop ws
      inferInstanceAs (Decidable (w.stop < storageMaxSize →
        if w.stop ≤ len then NoGap room len ws else w.offset ≤ room ∧ NoGap w.stop w.stop ws))

/-- The handle `r` was opened by `storage_open` on a file with bytes `f`, and `read` gave the first
`n` of them. -/
def OpenedOn (cfg : Config) (f : List UInt8) (n : ℕ) (r : RmtFd) : Prop :=
  ∃ (fs : FileSystem) (t : Table) (node : ℕ) (path : String) (c : Fin maxCallers),
    (∀ part : Partition, part.path = path →
      fs.populate (fspath cfg part) = .contents f.length (f.take n)) ∧
      ¬ (t c).InUse ∧ (storageOpen cfg fs t node path).1 = some c ∧
      r = (storageOpen cfg fs t node path).2 c

/-! ### The contents of the copy -/

/-- The copy, in a block of `room` bytes, holds the file `a`, which is zero behind its end. -/
structure Shadows (room : ℕ) (r : RmtFd) (a : ℕ → UInt8) : Prop where
  block : ∃ block, r.shadowBuf = some block ∧ block.length = room ∧ a = padded 0 block
  len_le : r.shadowLen ≤ room
  behind : ∀ p, r.shadowLen ≤ p → a p = 0

theorem openedOn_shadow {cfg : Config} {f : List UInt8} {n : ℕ} {r : RmtFd}
    (hro : cfg.readOnly = true) (h : OpenedOn cfg f n r) :
    r.shadowBuf = some (f.take n ++ List.replicate (f.length - (f.take n).length) 0) ∧
      r.shadowLen = (f.take n).length := by
  obtain ⟨fs, t, node, path, c, hpop, hfree, hc, rfl⟩ := h
  rcases storageOpen_spec cfg fs t node path with
    ⟨hopen, -⟩ | ⟨part, hpath, ⟨c', hopen, hheld⟩ | ⟨c', r, hopen, -, -, hr⟩⟩
  · rw [hopen] at hc
    cases hc
  · rw [hopen] at hc
    cases hc
    exact absurd hheld.1 hfree
  · rw [hopen] at hc ⊢
    cases hc
    dsimp only
    rw [Function.update_self]
    cases hr with
    | shadow _ hfill =>
        rw [hpop part hpath] at hfill
        cases hfill
        exact ⟨rfl, rfl⟩
    | file hrw _ =>
        rw [hro] at hrw
        cases hrw

theorem Shadows.sound {cfg : Config} (hro : cfg.readOnly = true) {room : ℕ} {r : RmtFd}
    {a : ℕ → UInt8} (h : Shadows room r a) : Sound cfg r a := by
  obtain ⟨⟨block, hbuf, hroom, ha⟩, hlen, hbehind⟩ := h
  intro io buf nbyte offset
  simp only [storagePread, hro, if_true, hbuf, Option.getD_some, Prod.mk.injEq, true_and]
  rcases Nat.le_total r.shadowLen offset with hge | hlt
  · have hn : (min (nbyte : ℤ) ((r.shadowLen : ℤ) - offset)).toNat = 0 := by omega
    rw [hn, window_of_ge nbyte fun p hp => hbehind p (hge.trans hp)]
    simp [slice]
  · set n := (min (nbyte : ℤ) ((r.shadowLen : ℤ) - offset)).toNat with hn
    have hle : n ≤ nbyte := by omega
    have hsplit : window a offset nbyte = window a offset n ++ window a (offset + n)
        (nbyte - n) := by
      rw [← window_add, Nat.add_sub_cancel' hle]
    rw [slice_eq_window 0 (by omega), hsplit, ha]
    rcases Nat.eq_or_lt_of_le hle with heq | hlt'
    · simp [heq, window]
    · rw [← ha, window_of_ge (nbyte - n) fun p hp => hbehind p (by omega)]

/-! ### One write -/

theorem Write.stop_mod (w : Write) : (w.offset + w.buf.length) % 2 ^ 64 = w.stop := by
  have h₁ := w.offset_lt
  have h₂ := w.length_lt
  rw [Write.stop, Nat.mod_eq_of_lt (by omega)]

theorem splice_realloc {block : List UInt8} {offset : ℕ} (buf : List UInt8) (fresh : ℕ → UInt8)
    (hoff : offset ≤ block.length) :
    splice (realloc block (offset + buf.length) fresh) offset buf = block.take offset ++ buf := by
  unfold splice realloc
  rw [List.take_append_of_le_length (by rw [List.length_take]; omega), List.take_take,
    min_eq_left (Nat.le_add_right _ _), List.drop_eq_nil_of_le, List.append_nil]
  simp only [List.length_append, List.length_take, window_length]
  omega

theorem padded_take_append {block buf : List UInt8} {offset : ℕ} (hoff : offset ≤ block.length)
    (hbehind : ∀ p, offset + buf.length ≤ p → padded 0 block p = 0) :
    padded 0 (block.take offset ++ buf) = overlay (padded 0 block) offset buf := by
  have hlen : (block.take offset).length = offset := by rw [List.length_take]; omega
  funext p
  rw [overlay]
  rcases Nat.lt_or_ge p offset with hp | hp
  · rw [if_neg (by omega), padded, padded, List.getD_append _ _ _ _ (by omega),
      List.getD_eq_getElem?_getD, List.getElem?_take_of_lt hp, List.getD_eq_getElem?_getD]
  · rw [if_pos hp, padded, List.getD_append_right _ _ _ _ (by omega), hlen]
    rcases Nat.lt_or_ge (p - offset) buf.length with hb | hb
    · rw [List.getD_eq_getElem _ _ hb, List.getD_eq_getElem _ _ hb]
    · rw [List.getD_eq_default _ _ hb, List.getD_eq_default _ _ hb, hbehind p (by omega)]

section Writes

variable {cfg : Config} {room : ℕ} {r : RmtFd} {a : ℕ → UInt8} {w : Write}

theorem Shadows.pwrite_inside (hro : cfg.readOnly = true) (h : Shadows room r a) (io : WriteIo)
    (hmax : w.stop < storageMaxSize) (hin : w.stop ≤ r.shadowLen) :
    Shadows room (storagePwrite cfg io r w.buf w.offset).2 (overlay a w.offset w.buf) ∧
      (storagePwrite cfg io r w.buf w.offset).2.shadowLen = r.shadowLen := by
  obtain ⟨⟨block, hbuf, hroom, rfl⟩, hlen, hbehind⟩ := h
  have hfit : w.offset + w.buf.length ≤ block.length := by
    unfold Write.stop at hin
    omega
  simp only [storagePwrite, hro, not_true_eq_false, if_false, w.stop_mod,
    if_neg (show ¬ w.stop ≥ storageMaxSize by omega), if_neg (show ¬ w.stop > r.shadowLen by omega),
    hbuf, Option.map_some, and_true]
  refine ⟨⟨_, rfl, (length_splice hfit).trans hroom, funext fun p => ?_⟩, hlen, fun p hp => ?_⟩
  · rw [padded_splice hfit]
  · have hstop : w.offset + w.buf.length ≤ p := hin.trans hp
    rw [overlay, if_pos (by omega), List.getD_eq_default _ _ (by omega)]
    exact hbehind p hp

/-- A successful write behind the copy that leaves no gap overlays the file. -/
theorem Shadows.pwrite_behind (hro : cfg.readOnly = true) (h : Shadows room r a) (io : WriteIo)
    (hout : r.shadowLen < w.stop) (hgap : w.offset ≤ room)
    (hok : (storagePwrite cfg io r w.buf w.offset).1 = w.buf.length) :
    Shadows w.stop (storagePwrite cfg io r w.buf w.offset).2 (overlay a w.offset w.buf) ∧
      (storagePwrite cfg io r w.buf w.offset).2.shadowLen = w.stop := by
  obtain ⟨⟨block, hbuf, hroom, rfl⟩, hlen, hbehind⟩ := h
  have hoff : w.offset ≤ block.length := hroom ▸ hgap
  have hnew : ∀ fresh, splice (realloc block w.stop fresh) w.offset w.buf =
      block.take w.offset ++ w.buf := fun fresh => splice_realloc w.buf fresh hoff
  simp only [storagePwrite, hro, not_true_eq_false, if_false, w.stop_mod, if_pos hout] at hok ⊢
  split_ifs at hok ⊢ with hmax
  · simp at hok
  · cases hre : io.realloc with
    | none =>
        simp only [hre] at hok
        omega
    | some fresh =>
        simp only [hbuf, Option.getD_some, hnew, and_true]
        refine ⟨⟨_, rfl, ?_, ?_⟩, le_rfl, fun p hp => ?_⟩
        · rw [List.length_append, List.length_take, min_eq_left hoff, Write.stop]
        · rw [padded_take_append hoff fun p hp => hbehind p ?_]
          unfold Write.stop at hout
          omega
        · have hstop : w.offset + w.buf.length ≤ p := hp
          rw [overlay, if_pos (by omega), List.getD_eq_default _ _ (by omega)]
          exact hbehind p (hout.le.trans hp)

/-- A write below `STORAGE_MAX_SIZE` succeeds when memory is not exhausted. -/
theorem pwrite_succeeds (hro : cfg.readOnly = true) (r : RmtFd) (hmax : w.stop < storageMaxSize)
    (fresh : ℕ → UInt8) : (storagePwrite cfg ⟨0, some fresh⟩ r w.buf w.offset).1 =
      w.buf.length := by
  simp only [storagePwrite, hro, not_true_eq_false, if_false, w.stop_mod,
    if_neg (show ¬ w.stop ≥ storageMaxSize by omega)]
  split_ifs <;> rfl

theorem stop_lt_of_succeeds (hro : cfg.readOnly = true) {io : WriteIo}
    (hok : (storagePwrite cfg io r w.buf w.offset).1 = w.buf.length) : w.stop < storageMaxSize := by
  by_contra hge
  simp only [storagePwrite, hro, not_true_eq_false, if_false, w.stop_mod,
    if_pos (show w.stop ≥ storageMaxSize by omega)] at hok
  omega

/-- After a write with a gap in front of it the first byte of the gap is whatever `realloc`
handed out. -/
theorem Shadows.gap_byte (hro : cfg.readOnly = true) (h : Shadows room r a) (hgap : room < w.offset)
    (hmax : w.stop < storageMaxSize) (io : ℤ × List UInt8) (buf : List UInt8) :
    storagePread cfg io (storagePwrite cfg ⟨0, some fun _ => 1⟩ r w.buf w.offset).2 buf 1 room =
      (1, [1]) := by
  obtain ⟨⟨block, hbuf, rfl, -⟩, hlen, -⟩ := h
  have hstop : block.length < w.stop := by unfold Write.stop; omega
  have hwrite : (storagePwrite cfg ⟨0, some fun _ => 1⟩ r w.buf w.offset).2 =
      { r with
        shadowBuf := some (splice (realloc block w.stop fun _ => 1) w.offset w.buf)
        shadowLen := w.stop } := by
    simp only [storagePwrite, hro, not_true_eq_false, if_false, w.stop_mod, hbuf,
      Option.getD_some, if_neg (show ¬ w.stop ≥ storageMaxSize by omega),
      if_pos (show w.stop > r.shadowLen by omega)]
  have hre : (realloc block w.stop fun _ => 1) = block ++ List.replicate
      (w.stop - block.length) 1 := by
    simp [realloc, List.take_of_length_le hstop.le, window]
  have hlen' : (realloc block w.stop fun _ => 1).length = w.stop := by
    rw [hre]
    simp
    omega
  have hbyte : (splice (realloc block w.stop fun _ => 1) w.offset w.buf)[block.length]? =
      some 1 := by
    rw [getElem?_splice (by rw [hlen']; exact le_rfl), if_neg (by omega), hre,
      List.getElem?_append_right le_rfl, Nat.sub_self, List.getElem?_replicate, if_pos (by omega)]
  have hone : (min (1 : ℤ) ((w.stop : ℤ) - (block.length : ℤ))).toNat = 1 := by omega
  simp only [hwrite, storagePread, hro, if_true, Option.getD_some, Nat.cast_one, hone, slice]
  rw [List.take_one, List.head?_drop, hbyte]
  rfl

end Writes

/-! ### All writes -/

theorem Refined.sound {cfg : Config} {r : RmtFd} {a : ℕ → UInt8} {ws : List Write}
    (h : Refined cfg r a ws) : Sound cfg r a := by
  cases ws with
  | nil => exact h
  | cons w ws => exact h.1

theorem refined_iff_of_shadows {cfg : Config} (hro : cfg.readOnly = true) (ws : List Write) :
    ∀ {room : ℕ} {r : RmtFd} {a : ℕ → UInt8}, Shadows room r a →
      (Refined cfg r a ws ↔ NoGap room r.shadowLen ws) := by
  induction ws with
  | nil =>
      intro room r a h
      exact ⟨fun _ => trivial, fun _ => h.sound hro⟩
  | cons w ws ih =>
      intro room r a h
      constructor
      · rintro ⟨_, hnext⟩ hmax
        have hok := pwrite_succeeds hro r hmax fun _ => 1
        split_ifs with hin
        · obtain ⟨hsh, hlen⟩ := h.pwrite_inside hro ⟨0, some fun _ => 1⟩ hmax hin
          rw [← hlen]
          exact (ih hsh).mp (hnext _ hok)
        · have hgap : w.offset ≤ room := by
            by_contra hlt
            have hzero : overlay a w.offset w.buf room = 0 := by
              rw [overlay, if_neg hlt]
              exact h.behind room h.len_le
            have hread := (hnext _ hok).sound (0, []) [] 1 room
            rw [h.gap_byte hro (by omega) hmax] at hread
            simp [window, hzero] at hread
          obtain ⟨hsh, hlen⟩ := h.pwrite_behind hro _ (not_le.mp hin) hgap hok
          refine ⟨hgap, ?_⟩
          have hrest := (ih hsh).mp (hnext _ hok)
          rwa [hlen] at hrest
      · intro hng
        refine ⟨h.sound hro, fun io hok => ?_⟩
        have hmax := stop_lt_of_succeeds hro hok
        have hrest := hng hmax
        split_ifs at hrest with hin
        · obtain ⟨hsh, hlen⟩ := h.pwrite_inside hro io hmax hin
          rw [← hlen] at hrest
          exact (ih hsh).mpr hrest
        · obtain ⟨hsh, hlen⟩ := h.pwrite_behind hro io (not_le.mp hin) hrest.1 hok
          refine (ih hsh).mpr ?_
          rw [hlen]
          exact hrest.2

theorem zero_of_sound {cfg : Config} {f : List UInt8} {n : ℕ} {r : RmtFd}
    (hro : cfg.readOnly = true)
    (hr : OpenedOn cfg f n r) (h : Sound cfg r (padded 0 f)) : ∀ b ∈ f.drop n, b = 0 := by
  intro b hb
  obtain ⟨i, hi, rfl⟩ := List.getElem_of_mem hb
  rw [List.length_drop] at hi
  have hread := h (0, []) [] 1 (n + i)
  have hnone : (min (1 : ℤ) ((r.shadowLen : ℤ) - (n + i : ℕ))).toNat = 0 := by
    rw [(openedOn_shadow hro hr).2, List.length_take]
    omega
  simp only [storagePread, hro, if_true, Nat.cast_one, hnone, Prod.mk.injEq, true_and] at hread
  have hbyte : 0 = padded 0 f (n + i) := by simpa [slice, window] using hread
  rw [padded, List.getD_eq_getElem _ _ (by omega)] at hbyte
  rw [List.getElem_drop]
  exact hbyte.symm

theorem OpenedOn.shadows {cfg : Config} {f : List UInt8} {n : ℕ} {r : RmtFd}
    (hro : cfg.readOnly = true) (hr : OpenedOn cfg f n r) (hzero : ∀ b ∈ f.drop n, b = 0) :
    Shadows f.length r (padded 0 f) := by
  obtain ⟨hbuf, hlen⟩ := openedOn_shadow hro hr
  have hf : f = f.take n ++ List.replicate (f.length - (f.take n).length) 0 := by
    conv_lhs => rw [← List.take_append_drop n f, List.eq_replicate_of_mem hzero]
    rw [List.length_drop, List.length_take]
    congr 2
    omega
  refine ⟨⟨_, hbuf, congrArg List.length hf.symm, congrArg (padded 0) hf⟩, ?_, fun p hp => ?_⟩
  · rw [hlen, List.length_take]
    exact min_le_right _ _
  · rw [hlen] at hp
    rw [hf, padded, List.getD_append_right _ _ _ _ hp]
    by_cases hin : p - (f.take n).length < f.length - (f.take n).length
    · rw [List.getD_replicate _ hin]
    · exact List.getD_eq_default _ _ (by rw [List.length_replicate]; omega)

/-- **The shadow copy refines a zero-extended file** exactly when what `read` left out is zero and
no write leaves a gap. -/
theorem refined_iff {cfg : Config} {f : List UInt8} {n : ℕ} {r : RmtFd} (hro : cfg.readOnly = true)
    (hr : OpenedOn cfg f n r) (ws : List Write) :
    Refined cfg r (padded 0 f) ws ↔
      (∀ b ∈ f.drop n, b = 0) ∧ NoGap f.length (min n f.length) ws := by
  have hlen := (openedOn_shadow hro hr).2
  rw [List.length_take] at hlen
  constructor
  · intro h
    have hzero := zero_of_sound hro hr h.sound
    refine ⟨hzero, ?_⟩
    rw [← hlen]
    exact (refined_iff_of_shadows hro ws (hr.shadows hro hzero)).mp h
  · rintro ⟨hzero, hgap⟩
    rw [← hlen] at hgap
    exact (refined_iff_of_shadows hro ws (hr.shadows hro hzero)).mpr hgap

/-- A handle on `/boot/modem_fs1`, opened by node 1 at start-up, when `lseek` gives `len` and `read`
gives `bs`. -/
def sampleHandle (len : ℕ) (bs : List UInt8) : RmtFd :=
  (storageOpen (storageInit none true false).1 ⟨fun _ => -1, fun _ => .contents len bs⟩
    (storageInit none true false).2 1 "/boot/modem_fs1").2 0

theorem sampleHandle_openedOn (f : List UInt8) (n : ℕ) :
    OpenedOn (storageInit none true false).1 f n (sampleHandle f.length (f.take n)) :=
  ⟨_, _, 1, "/boot/modem_fs1", 0, fun _ _ => rfl, by decide, rfl, rfl⟩

/-- Of three bytes the first was read; a write behind it in the cleared block is read back. -/
theorem refined_short :
    Refined (storageInit none true false).1 (sampleHandle 3 [7]) (padded 0 [7, 0, 0])
      [⟨[9, 9], 2, by decide, by decide⟩] :=
  (refined_iff rfl (sampleHandle_openedOn [7, 0, 0] 1) _).mpr ⟨by simp, by decide⟩

/-- A write at offset 3 leaves a gap behind the only byte: a read of the first four bytes then
gives what `realloc` handed out, here `7 1 1 9`, where the file holds `7 0 0 9`. -/
theorem not_refined_gap :
    OpenedOn (storageInit none true false).1 [7] 1 (sampleHandle 1 [7]) ∧
      ¬ Refined (storageInit none true false).1 (sampleHandle 1 [7]) (padded 0 [7])
        [⟨[9], 3, by decide, by decide⟩] := by
  refine ⟨sampleHandle_openedOn [7] 1, ?_⟩
  intro h
  have hread := h.2 ⟨0, some fun _ => 1⟩ (by decide) (0, []) [] 4 0
  have hbytes : (4, [(7 : UInt8), 1, 1, 9]) = (4, [7, 0, 0, 9]) := hread
  simp at hbytes

end Imola.Rmtfs
