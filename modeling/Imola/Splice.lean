import Mathlib

/-! # Overwriting parts of a list

`splice l off s` overwrites `l` from position `off` on by `s`, `slice l off n` is the block of
`n` elements at `off`.  The lemmas say what a block holds after an overwrite: the new elements
(`slice_splice_self`), or an overwrite of the block when it lies inside (`slice_splice_inside`);
element by element it is `getElem?_splice`.

A list is also read as a total function, with a default beyond its end (`padded`), and
`overlay` is the overwrite of such a function.  `copied` takes whole blocks of one function over
into another. -/

namespace Imola.Splice

variable {α : Type}

/-- `l` with the elements from `off` on overwritten by `s`. -/
def splice (l : List α) (off : ℕ) (s : List α) : List α :=
  l.take off ++ s ++ l.drop (off + s.length)

/-- The `n` elements of `l` from `off` on. -/
def slice (l : List α) (off n : ℕ) : List α := (l.drop off).take n

/-- The value of `l` at `p`, or `z` beyond its end. -/
def padded (z : α) (l : List α) (p : ℕ) : α := l.getD p z

/-- `a` with the values from `off` on overwritten by `s`. -/
def overlay (a : ℕ → α) (off : ℕ) (s : List α) (p : ℕ) : α :=
  if off ≤ p then s.getD (p - off) (a p) else a p

/-- The `n` values of `a` from `off` on. -/
def window (a : ℕ → α) (off n : ℕ) : List α := (List.range n).map fun i => a (off + i)

/-! ### Lists -/

theorem length_splice {l s : List α} {off : ℕ} (h : off + s.length ≤ l.length) :
    (splice l off s).length = l.length := by
  simp only [splice, List.length_append, List.length_take, List.length_drop]
  omega

theorem length_le_splice (l : List α) (off : ℕ) (s : List α) :
    l.length ≤ (splice l off s).length := by
  simp only [splice, List.length_append, List.length_take, List.length_drop]
  omega

theorem getElem?_splice {l s : List α} {off : ℕ} (h : off + s.length ≤ l.length) (p : ℕ) :
    (splice l off s)[p]? = if off ≤ p ∧ p < off + s.length then s[p - off]? else l[p]? := by
  have htake : (l.take off).length = off := by rw [List.length_take]; omega
  unfold splice
  rw [List.append_assoc]
  rcases Nat.lt_or_ge p off with hp | hp
  · rw [List.getElem?_append_left (by omega), List.getElem?_take_of_lt hp, if_neg (by omega)]
  · rw [List.getElem?_append_right (by omega), htake]
    rcases Nat.lt_or_ge (p - off) s.length with hs | hs
    · rw [List.getElem?_append_left hs, if_pos (by omega)]
    · rw [List.getElem?_append_right hs, List.getElem?_drop, if_neg (by omega)]
      congr 1
      omega

theorem getElem?_slice (l : List α) (off n p : ℕ) :
    (slice l off n)[p]? = if p < n then l[off + p]? else none := by
  unfold slice
  rw [List.getElem?_take, List.getElem?_drop]

theorem length_slice {l : List α} {off n : ℕ} (h : off + n ≤ l.length) :
    (slice l off n).length = n := by
  simp only [slice, List.length_take, List.length_drop]
  omega

theorem slice_splice_self {l s : List α} {off n : ℕ} (h : off + s.length ≤ l.length)
    (hn : s.length = n) : slice (splice l off s) off n = s := by
  apply List.ext_getElem?
  intro p
  rw [getElem?_slice, getElem?_splice h]
  by_cases hp : p < n
  · rw [if_pos hp, if_pos (by omega), Nat.add_sub_cancel_left]
  · rw [if_neg hp, List.getElem?_eq_none (by omega)]

theorem slice_splice_inside {l s : List α} {off k n : ℕ} (h : off + n ≤ l.length)
    (hk : k + s.length ≤ n) : slice (splice l (off + k) s) off n = splice (slice l off n) k s := by
  apply List.ext_getElem?
  intro p
  rw [getElem?_slice, getElem?_splice (by omega),
    getElem?_splice (by rw [length_slice h]; exact hk),
    getElem?_slice]
  by_cases hp : p < n
  · rw [if_pos hp, if_pos hp]
    by_cases hs : k ≤ p ∧ p < k + s.length
    · rw [if_pos (by omega), if_pos hs, Nat.add_sub_add_left]
    · rw [if_neg (by omega), if_neg hs]
  · rw [if_neg hp, if_neg (by omega), if_neg hp]

theorem splice_splice_self {l s t : List α} {off : ℕ} (h : off + s.length ≤ l.length)
    (hl : t.length = s.length) : splice (splice l off s) off t = splice l off t := by
  apply List.ext_getElem?
  intro p
  rw [getElem?_splice (by rw [length_splice h]; omega), getElem?_splice h,
    getElem?_splice (s := t) (by omega), hl]
  by_cases hp : off ≤ p ∧ p < off + s.length
  · rw [if_pos hp, if_pos hp]
  · rw [if_neg hp, if_neg hp, if_neg hp]

theorem splice_append {l s t : List α} {off : ℕ} (h : off ≤ l.length) :
    splice (splice l off s) (off + s.length) t = splice l off (s ++ t) := by
  have hlen : (l.take off ++ s).length = off + s.length := by
    rw [List.length_append, List.length_take]
    omega
  unfold splice
  rw [List.take_left' hlen, List.drop_append, List.drop_eq_nil_of_le (by omega), List.nil_append,
    List.drop_drop,
    hlen, Nat.add_sub_cancel_left, List.length_append, List.append_assoc (l.take off),
    Nat.add_assoc]

/-- A longer overwrite agrees with a shorter one if it finds in place what it writes. -/
theorem splice_middle {a b c s : List α} {off : ℕ} (ha : a.length = off) (h : s.length = b.length) :
    splice (a ++ (b ++ c)) off s = a ++ (s ++ c) := by
  subst ha
  simp [splice, h]

theorem splice_eq_splice_iff {l s t : List α} {off : ℕ} (h : t.length ≤ s.length) :
    splice l off s = splice l off t ↔ s <+: t ++ l.drop (off + t.length) := by
  unfold splice
  rw [List.append_assoc, List.append_assoc, List.append_cancel_left_eq]
  constructor
  · intro heq
    rw [← heq]
    exact List.prefix_append _ _
  · rintro ⟨rest, hrest⟩
    have hdrop := congrArg (List.drop s.length) hrest
    rw [List.drop_left, List.drop_append, List.drop_eq_nil_of_le h, List.nil_append,
      List.drop_drop] at hdrop
    rw [← hrest, hdrop]
    congr 2
    omega

theorem padded_splice {l s : List α} {off : ℕ} (h : off + s.length ≤ l.length) (z : α) (p : ℕ) :
    padded z (splice l off s) p = overlay (padded z l) off s p := by
  simp only [padded, overlay]
  rw [List.getD_eq_getElem?_getD, getElem?_splice h]
  rcases Nat.lt_or_ge p off with hp | hp
  · rw [if_neg (by omega), if_neg (by omega), List.getD_eq_getElem?_getD]
  · rw [if_pos hp]
    rcases Nat.lt_or_ge p (off + s.length) with hs | hs
    · have hlt : p - off < s.length := by omega
      rw [if_pos ⟨hp, hs⟩, List.getD_eq_getElem _ _ hlt, List.getElem?_eq_getElem hlt]
      rfl
    · rw [if_neg (by omega), List.getD_eq_default s _ (by omega), List.getD_eq_getElem?_getD]

theorem slice_append_right {l l' : List α} {off n : ℕ} (h : l.length ≤ off) :
    slice (l ++ l') off n = slice l' (off - l.length) n := by
  unfold slice
  rw [List.drop_append, List.drop_eq_nil_of_le h, List.nil_append]

theorem slice_append_of_le {l l' : List α} {off n : ℕ} (h : off + n ≤ l.length) :
    slice (l ++ l') off n = slice l off n := by
  rw [slice, slice, List.drop_append_of_le_length (by omega), List.take_append_of_le_length]
  rw [List.length_drop]
  omega

theorem slice_append_left {l l' : List α} {n : ℕ} (h : l.length = n) : slice (l ++ l') 0 n = l := by
  simp [slice, ← h]

/-! ### Frames -/

/-- `l'` has the length of `l` and differs from it only inside the blocks `W`, each given by its
offset and its length. -/
def Frame (W : List (ℕ × ℕ)) (l l' : List α) : Prop :=
  l'.length = l.length ∧ ∀ p, (∀ r ∈ W, p < r.1 ∨ r.1 + r.2 ≤ p) → l'[p]? = l[p]?

theorem Frame.splice {l s : List α} {off n : ℕ} (h : off + s.length ≤ l.length)
    (hn : s.length = n) :
    Frame [(off, n)] l (splice l off s) := by
  refine ⟨length_splice h, fun p hp => ?_⟩
  have hout := hp (off, n) (by simp)
  rw [getElem?_splice h, if_neg (by omega)]

theorem Frame.trans {W₁ W₂ : List (ℕ × ℕ)} {l₁ l₂ l₃ : List α} (h₁ : Frame W₁ l₁ l₂)
    (h₂ : Frame W₂ l₂ l₃) : Frame (W₁ ++ W₂) l₁ l₃ := by
  refine ⟨h₂.1.trans h₁.1, fun p hp => ?_⟩
  rw [h₂.2 p fun r hr => hp r (List.mem_append_right _ hr),
    h₁.2 p fun r hr => hp r (List.mem_append_left _ hr)]

theorem Frame.mono {W W' : List (ℕ × ℕ)} {l l' : List α} (h : Frame W l l')
    (hW : ∀ r ∈ W, ∃ r' ∈ W', r'.1 ≤ r.1 ∧ r.1 + r.2 ≤ r'.1 + r'.2) : Frame W' l l' := by
  refine ⟨h.1, fun p hp => h.2 p fun r hr => ?_⟩
  obtain ⟨r', hr', hle, hge⟩ := hW r hr
  have hout := hp r' hr'
  omega

theorem Frame.subset {W W' : List (ℕ × ℕ)} {l l' : List α} (h : Frame W l l') (hW : W ⊆ W') :
    Frame W' l l' :=
  h.mono fun r hr => ⟨r, hW hr, le_rfl, le_rfl⟩

/-- A block that meets none of the changed ones is unchanged. -/
theorem Frame.slice_eq {W : List (ℕ × ℕ)} {l l' : List α} (h : Frame W l l') {off n : ℕ}
    (hd : ∀ r ∈ W, off + n ≤ r.1 ∨ r.1 + r.2 ≤ off) : slice l' off n = slice l off n := by
  apply List.ext_getElem?
  intro p
  rw [getElem?_slice, getElem?_slice]
  by_cases hp : p < n
  · rw [if_pos hp, if_pos hp]
    refine h.2 _ fun r hr => ?_
    have hout := hd r hr
    omega
  · rw [if_neg hp, if_neg hp]

/-! ### Total functions -/

@[simp] theorem window_length (a : ℕ → α) (off n : ℕ) : (window a off n).length = n := by
  simp [window]

theorem window_add (a : ℕ → α) (off m n : ℕ) :
    window a off (m + n) = window a off m ++ window a (off + m) n := by
  simp only [window, List.range_add, List.map_append, List.map_map, List.append_cancel_left_eq]
  apply List.map_congr_left
  intro i _
  simp only [Function.comp, Nat.add_assoc]

theorem mem_window {a : ℕ → α} {off n : ℕ} {x : α} :
    x ∈ window a off n ↔ ∃ i < n, a (off + i) = x := by
  simp [window]

theorem window_succ (a : ℕ → α) (off n : ℕ) :
    window a off (n + 1) = a off :: window a (off + 1) n := by
  rw [Nat.add_comm n 1, window_add]
  rfl

theorem window_inside {a b : ℕ → α} {off n p k : ℕ} (h : window a off n = window b off n)
    (hp : off ≤ p)
    (hk : p + k ≤ off + n) : window a p k = window b p k := by
  have hpoint : ∀ i < n, a (off + i) = b (off + i) := by
    intro i hi
    have hget := congrArg (fun l => l[i]?) h
    simpa [window, hi] using hget
  refine List.map_congr_left fun i hi => ?_
  rw [List.mem_range] at hi
  have hcell := hpoint (p - off + i) (by omega)
  rwa [← Nat.add_assoc, Nat.add_sub_cancel' hp] at hcell

theorem take_window (a : ℕ → α) (off m n : ℕ) :
    (window a off n).take m = window a off (min m n) := by
  rw [window, window, ← List.map_take, List.take_range]

theorem slice_eq_window {l : List α} {off n : ℕ} (z : α) (h : off + n ≤ l.length) :
    slice l off n = window (padded z l) off n := by
  apply List.ext_getElem
  · simp only [slice, List.length_take, List.length_drop, window_length]
    omega
  · intro i h₁ h₂
    simp only [slice, window, padded, List.getElem_take, List.getElem_drop, List.getElem_map,
      List.getElem_range]
    rw [List.getD_eq_getElem]

theorem window_of_ge {a : ℕ → α} {z : α} {off : ℕ} (n : ℕ) (h : ∀ p, off ≤ p → a p = z) :
    window a off n = List.replicate n z := by
  apply List.ext_getElem
  · simp
  · intro i h₁ h₂
    simp only [window, List.getElem_map, List.getElem_range, List.getElem_replicate]
    exact h _ (Nat.le_add_right _ _)

theorem overlay_of_lt (a : ℕ → α) (s : List α) {off p : ℕ} (h : p < off) :
    overlay a off s p = a p := by
  rw [overlay, if_neg (by omega)]

theorem padded_eq_overlay (z : α) (s : List α) : padded z s = overlay (fun _ => z) 0 s := by
  funext p
  rw [overlay, if_pos (Nat.zero_le p), Nat.sub_zero, padded]

theorem overlay_append (a : ℕ → α) (off : ℕ) (s t : List α) :
    overlay (overlay a off s) (off + s.length) t = overlay a off (s ++ t) := by
  funext p
  simp only [overlay]
  rcases Nat.lt_or_ge p off with hp | hp
  · rw [if_neg (by omega), if_neg (by omega), if_neg (by omega)]
  · rcases Nat.lt_or_ge p (off + s.length) with hs | hs
    · have hlt : p - off < s.length := by omega
      rw [if_neg (by omega), if_pos hp, if_pos hp, List.getD_append _ _ _ _ hlt]
    · have hsub : p - (off + s.length) = p - off - s.length := by omega
      rw [if_pos hs, if_pos hp, if_pos hp, List.getD_append_right _ _ _ _ (by omega),
        List.getD_eq_default s _ (by omega), hsub]

theorem overlay_prepend (a : ℕ → α) (off : ℕ) (s t : List α) :
    overlay (overlay a (off + s.length) t) off s = overlay a off (s ++ t) := by
  funext p
  simp only [overlay]
  rcases Nat.lt_or_ge p off with hp | hp
  · rw [if_neg (by omega), if_neg (by omega), if_neg (by omega)]
  · rcases Nat.lt_or_ge p (off + s.length) with hs | hs
    · have hlt : p - off < s.length := by omega
      rw [if_pos hp, if_pos hp, List.getD_append _ _ _ _ hlt, List.getD_eq_getElem _ _ hlt,
        List.getD_eq_getElem _ _ hlt]
    · have hsub : p - (off + s.length) = p - off - s.length := by omega
      rw [if_pos hp, if_pos hs, if_pos hp, List.getD_append_right _ _ _ _ (by omega),
        List.getD_eq_default s _ (by omega), hsub]

@[simp] theorem overlay_nil (a : ℕ → α) (off : ℕ) : overlay a off [] = a := by
  funext p
  simp [overlay]

theorem window_overlay (a : ℕ → α) (off : ℕ) (s : List α) :
    window (overlay a off s) off s.length = s := by
  apply List.ext_getElem
  · simp
  · intro i h₁ h₂
    simp only [window, List.getElem_map, List.getElem_range, overlay]
    rw [if_pos (by omega), Nat.add_sub_cancel_left, List.getD_eq_getElem _ _ h₂]

theorem window_overlay_slice (a : ℕ → α) {s : List α} {off n : ℕ} (h : off + n ≤ s.length) :
    window (overlay a 0 s) off n = slice s off n := by
  apply List.ext_getElem
  · rw [window_length, length_slice h]
  · intro i h₁ h₂
    rw [window_length] at h₁
    simp only [window, slice, List.getElem_map, List.getElem_range, overlay, List.getElem_take,
      List.getElem_drop]
    rw [if_pos (Nat.zero_le _), Nat.sub_zero, List.getD_eq_getElem _ _ (by omega)]

theorem window_overlay_of_apart (a : ℕ → α) {off p n : ℕ} {s : List α}
    (h : off + s.length ≤ p ∨ p + n ≤ off) :
    window (overlay a off s) p n = window a p n := by
  refine List.map_congr_left fun i hi => ?_
  rw [List.mem_range] at hi
  rw [overlay]
  split_ifs
  · rw [List.getD_eq_default _ _ (by omega)]
  · rfl

/-- Blocks that are apart are all there after they have been written one after the other. -/
theorem window_foldr_overlay (a : ℕ → α) {ss : List (ℕ × List α)}
    (h : ss.Pairwise fun s t => s.1 + s.2.length ≤ t.1 ∨ t.1 + t.2.length ≤ s.1) :
    ∀ s ∈ ss, window (ss.foldr (fun t b => overlay b t.1 t.2) a) s.1 s.2.length = s.2 := by
  induction ss with
  | nil => exact fun s hs => by cases hs
  | cons t ss ih =>
      obtain ⟨hhead, htail⟩ := List.pairwise_cons.mp h
      intro s hs
      rw [List.foldr_cons]
      rcases List.mem_cons.mp hs with rfl | hs
      · exact window_overlay _ _ _
      · rw [window_overlay_of_apart _ (hhead s hs)]
        exact ih htail s hs

theorem window_eq_append {a : ℕ → α} {off : ℕ} {s t : List α}
    (h : window a off (s ++ t).length = s ++ t) :
    window a off s.length = s ∧ window a (off + s.length) t.length = t := by
  rw [List.length_append, window_add] at h
  exact List.append_inj h (window_length _ _ _)

/-! ### Copies -/

/-- `b` with the values of `a` in the blocks `B`, each given by its offset and its length. -/
def copied (B : List (ℕ × ℕ)) (a b : ℕ → α) (p : ℕ) : α :=
  if ∃ r ∈ B, r.1 ≤ p ∧ p < r.1 + r.2 then a p else b p

@[simp] theorem copied_nil (a b : ℕ → α) : copied [] a b = b := by
  funext p
  simp [copied]

theorem copied_append (B C : List (ℕ × ℕ)) (a b : ℕ → α) :
    copied C a (copied B a b) = copied (B ++ C) a b := by
  funext p
  simp only [copied, List.mem_append, or_and_right, exists_or]
  by_cases hC : ∃ r ∈ C, r.1 ≤ p ∧ p < r.1 + r.2
  · rw [if_pos hC, if_pos (Or.inr hC)]
  · rw [if_neg hC]
    by_cases hB : ∃ r ∈ B, r.1 ≤ p ∧ p < r.1 + r.2
    · rw [if_pos hB, if_pos (Or.inl hB)]
    · rw [if_neg hB, if_neg (not_or.mpr ⟨hB, hC⟩)]

theorem window_copied {B : List (ℕ × ℕ)} {off n : ℕ} (h : (off, n) ∈ B) (a b : ℕ → α) :
    window (copied B a b) off n = window a off n := by
  refine List.map_congr_left fun i hi => ?_
  rw [List.mem_range] at hi
  rw [copied, if_pos ⟨(off, n), h, Nat.le_add_right _ _, Nat.add_lt_add_left hi _⟩]

theorem copied_congr {B C : List (ℕ × ℕ)} (h : ∀ r, r ∈ B ↔ r ∈ C) (a b : ℕ → α) :
    copied B a b = copied C a b := by
  funext p
  simp only [copied, h]

theorem copied_adjacent (a b : ℕ → α) (off n k : ℕ) :
    copied [(off, n), (off + n, k)] a b = copied [(off, n + k)] a b := by
  funext p
  simp only [copied, List.mem_cons, List.not_mem_nil, or_false, exists_eq_or_imp, exists_eq_left]
  by_cases hp : off ≤ p ∧ p < off + (n + k)
  · rw [if_pos hp, if_pos (by omega)]
  · rw [if_neg hp, if_neg (by omega)]

theorem overlay_window (a b : ℕ → α) (off n : ℕ) :
    overlay b off (window a off n) = copied [(off, n)] a b := by
  funext p
  simp only [overlay, copied, List.mem_singleton, exists_eq_left]
  rcases Nat.lt_or_ge p off with hp | hp
  · rw [if_neg (by omega), if_neg (by omega)]
  · rw [if_pos hp]
    rcases Nat.lt_or_ge p (off + n) with hn | hn
    · rw [if_pos ⟨hp, hn⟩, List.getD_eq_getElem _ _ (by rw [window_length]; omega)]
      simp only [window, List.getElem_map, List.getElem_range]
      rw [Nat.add_sub_cancel' hp]
    · rw [if_neg (by omega), List.getD_eq_default _ _ (by rw [window_length]; omega)]

theorem overlay_self {a : ℕ → α} {off : ℕ} {s : List α} (h : window a off s.length = s) :
    overlay a off s = a := by
  calc overlay a off s = overlay a off (window a off s.length) := by rw [h]
    _ = copied [(off, s.length)] a a := overlay_window a a off s.length
    _ = a := by
      funext p
      rw [copied, ite_self]

end Imola.Splice
