import Mathlib

/-! # Doubly linked lists

Items carry a link to the next and to the previous item, and a list is given by its two ends.
`Links.Holds L xs` says that the links, followed from either end, run through the items `xs` in
order. It is stated at every way to split `xs` around an item, so that what an operation does to the
links of one item is used where that item stands.

`Holds.put` and `Holds.without` say which links have to change when an item is put between others
and when one is taken out.  A list looked at from its other end is a list again (`Holds.flip`). -/

namespace Imola.LinkedLists

/-- The ends of a list and the links of all items. -/
structure Links (α : Type) where
  head : Option α
  tail : Option α
  next : α → Option α
  prev : α → Option α

namespace Links

variable {α : Type}

/-- The list runs through `xs`. -/
structure Holds (L : Links α) (xs : List α) : Prop where
  nodup : xs.Nodup
  head : L.head = xs.head?
  tail : L.tail = xs.getLast?
  next : ∀ as x bs, xs = as ++ x :: bs → L.next x = bs.head?
  prev : ∀ as x bs, xs = as ++ x :: bs → L.prev x = as.getLast?

variable {L L' : Links α} {xs as bs : List α} {x : α}

theorem Holds.nil (hhead : L.head = none) (htail : L.tail = none) : L.Holds [] :=
  ⟨List.nodup_nil, hhead, htail, fun as x bs h => by simp at h, fun as x bs h => by simp at h⟩

/-- An item is the last one of a list exactly when nothing stands behind it. -/
theorem getLast?_eq_some_iff_of_nodup (h : (as ++ x :: bs).Nodup) :
    (as ++ x :: bs).getLast? = some x ↔ bs = [] := by
  constructor
  · intro hlast
    by_contra hne
    have hmem : x ∈ bs := by
      rw [List.getLast?_append_cons, List.getLast?_cons, Option.some.injEq] at hlast
      rw [List.getLast?_eq_some_getLast hne, Option.getD_some] at hlast
      exact hlast ▸ List.getLast_mem hne
    exact (List.nodup_cons.mp (List.nodup_append.mp h).2.1).1 hmem
  · rintro rfl
    simp

/-- The list from its other end. -/
def flip (L : Links α) : Links α := ⟨L.tail, L.head, L.prev, L.next⟩

theorem Holds.flip (h : L.Holds xs) : L.flip.Holds xs.reverse := by
  have hsplit : ∀ {as x bs}, xs.reverse = as ++ x :: bs → xs = bs.reverse ++ x :: as.reverse := by
    intro as x bs heq
    rw [← List.reverse_reverse xs, heq]
    simp
  refine ⟨List.nodup_reverse.mpr h.nodup, ?_, ?_, ?_, ?_⟩
  · rw [List.head?_reverse]
    exact h.tail
  · rw [List.getLast?_reverse]
    exact h.head
  · intro as x bs heq
    rw [← List.getLast?_reverse]
    exact h.prev _ _ _ (hsplit heq)
  · intro as x bs heq
    rw [← List.head?_reverse]
    exact h.next _ _ _ (hsplit heq)

/-- **An item between others**: its neighbours are linked to it. -/
theorem Holds.put [DecidableEq α] (h : L.Holds (as ++ bs)) (hx : x ∉ as ++ bs)
    (hhead : L'.head = (as ++ x :: bs).head?) (htail : L'.tail = (as ++ x :: bs).getLast?)
    (hnext : ∀ y, L'.next y = if y = x then bs.head? else if as.getLast? = some y then some x
      else L.next y)
    (hprev : ∀ y, L'.prev y = if y = x then as.getLast? else if bs.head? = some y then some x
      else L.prev y) :
    L'.Holds (as ++ x :: bs) := by
  have hdisjoint : ∀ y ∈ as, y ∉ bs :=
    fun y hy hy' => (List.nodup_append.mp h.nodup).2.2 y hy y hy' rfl
  have hsplit : ∀ cs y ds, as ++ x :: bs = cs ++ y :: ds →
      (∃ ds', as = cs ++ y :: ds' ∧ ds = ds' ++ x :: bs) ∨
      (cs = as ∧ y = x ∧ ds = bs) ∨ ∃ cs', bs = cs' ++ y :: ds ∧ cs = as ++ x :: cs' := by
    intro cs y ds heq
    rcases List.append_eq_append_iff.mp heq with ⟨cs', hcs, hbs⟩ | ⟨ds', has, hds⟩
    · cases cs' with
      | nil =>
          obtain ⟨hy, hds⟩ := List.cons.inj hbs
          exact Or.inr (Or.inl ⟨by simpa using hcs, hy.symm, hds.symm⟩)
      | cons c cs' =>
          obtain ⟨rfl, hrest⟩ := List.cons.inj hbs
          exact Or.inr (Or.inr ⟨cs', hrest, hcs⟩)
    · cases ds' with
      | nil =>
          obtain ⟨hy, hds⟩ := List.cons.inj hds
          exact Or.inr (Or.inl ⟨by simpa using has.symm, hy, hds⟩)
      | cons d ds' =>
          obtain ⟨rfl, hrest⟩ := List.cons.inj hds
          exact Or.inl ⟨ds', has, hrest⟩
  have hne : ∀ y ∈ as ++ bs, y ≠ x := fun y hy heq => hx (heq ▸ hy)
  refine ⟨List.nodup_middle.mpr (List.nodup_cons.mpr ⟨hx, h.nodup⟩), hhead, htail, ?_, ?_⟩
  · intro cs y ds heq
    rw [hnext]
    rcases hsplit cs y ds heq with ⟨ds', has, rfl⟩ | ⟨rfl, rfl, rfl⟩ | ⟨cs', hbs, rfl⟩
    · have hlast : as.getLast? = some y ↔ ds' = [] := by
        rw [has]
        exact getLast?_eq_some_iff_of_nodup (has ▸ (List.nodup_append.mp h.nodup).1)
      rw [if_neg (hne y (by simp [has]))]
      cases ds' with
      | nil => rw [if_pos (hlast.mpr rfl), List.nil_append, List.head?_cons]
      | cons d ds' =>
          rw [if_neg fun hl => List.cons_ne_nil _ _ (hlast.mp hl),
            h.next cs y (d :: ds' ++ bs) (by simp [has])]
          rfl
    · rw [if_pos rfl]
    · have hy : as.getLast? ≠ some y :=
        fun hl => hdisjoint y (List.mem_of_getLast? hl) (by simp [hbs])
      rw [if_neg (hne y (by simp [hbs])), if_neg hy, h.next (as ++ cs') y ds (by simp [hbs])]
  · intro cs y ds heq
    rw [hprev]
    rcases hsplit cs y ds heq with ⟨ds', has, rfl⟩ | ⟨rfl, rfl, rfl⟩ | ⟨cs', hbs, rfl⟩
    · have hy : bs.head? ≠ some y := fun hl => hdisjoint y (by simp [has]) (List.mem_of_head? hl)
      rw [if_neg (hne y (by simp [has])), if_neg hy, h.prev cs y (ds' ++ bs) (by simp [has])]
    · rw [if_pos rfl]
    · rw [if_neg (hne y (by simp [hbs]))]
      cases cs' with
      | nil => rw [if_pos (by simp [hbs]), List.getLast?_append_cons, List.getLast?_singleton]
      | cons c cs' =>
          have hy : bs.head? ≠ some y := by
            rw [hbs, List.cons_append, List.head?_cons]
            rintro hc
            have hnd := (List.nodup_append.mp h.nodup).2.1
            rw [hbs, List.cons_append, List.nodup_cons] at hnd
            exact hnd.1 (by simp [Option.some.inj hc])
          rw [if_neg hy, h.prev (as ++ c :: cs') y ds (by simp [hbs]), List.getLast?_append_cons,
            List.getLast?_append_cons, List.getLast?_cons_cons]

/-- **An item behind the others**: the old last item is linked to it. -/
theorem Holds.snoc [DecidableEq α] (h : L.Holds xs) (hx : x ∉ xs)
    (hhead : L'.head = (xs ++ [x]).head?)
    (htail : L'.tail = some x)
    (hnext : ∀ y, L'.next y = if y = x then none else if xs.getLast? = some y then some x
      else L.next y)
    (hprev : ∀ y, L'.prev y = if y = x then xs.getLast? else L.prev y) : L'.Holds (xs ++ [x]) := by
  refine @Holds.put α L L' xs [] x _ (by simpa using h) (by simpa using hx) hhead ?_ hnext ?_
  · rw [htail, List.getLast?_concat]
  · simpa using hprev

/-- **An item taken out**: its neighbours are linked to each other. -/
theorem Holds.without [DecidableEq α] (h : L.Holds (as ++ x :: bs))
    (hhead : L'.head = (as ++ bs).head?)
    (htail : L'.tail = (as ++ bs).getLast?)
    (hnext : ∀ y ≠ x, L'.next y = if as.getLast? = some y then bs.head? else L.next y)
    (hprev : ∀ y ≠ x, L'.prev y = if bs.head? = some y then as.getLast? else L.prev y) :
    L'.Holds (as ++ bs) := by
  obtain ⟨hnodup, hx⟩ : (as ++ bs).Nodup ∧ x ∉ as ++ bs := by
    have hmid := List.nodup_middle.mp h.nodup
    exact ⟨(List.nodup_cons.mp hmid).2, (List.nodup_cons.mp hmid).1⟩
  have hdisjoint : ∀ y ∈ as, y ∉ bs :=
    fun y hy hy' => (List.nodup_append.mp hnodup).2.2 y hy y hy' rfl
  have hsplit : ∀ cs y ds, as ++ bs = cs ++ y :: ds →
      (∃ ds', as = cs ++ y :: ds' ∧ ds = ds' ++ bs) ∨ ∃ cs', bs = cs' ++ y :: ds ∧
      cs = as ++ cs' := by
    intro cs y ds heq
    rcases List.append_eq_append_iff.mp heq with ⟨cs', hcs, hbs⟩ | ⟨ds', has, hds⟩
    · exact Or.inr ⟨cs', hbs, hcs⟩
    · cases ds' with
      | nil => exact Or.inr ⟨[], hds.symm, by simpa using has.symm⟩
      | cons z ds' =>
          rw [List.cons_append] at hds
          obtain ⟨rfl, hrest⟩ := List.cons.inj hds
          exact Or.inl ⟨ds', has, hrest⟩
  have hne : ∀ y ∈ as ++ bs, y ≠ x := fun y hy heq => hx (heq ▸ hy)
  refine ⟨hnodup, hhead, htail, ?_, ?_⟩
  · intro cs y ds heq
    rw [hnext y (hne y (by simp [heq]))]
    rcases hsplit cs y ds heq with ⟨ds', has, rfl⟩ | ⟨cs', hbs, rfl⟩
    · have hlast : as.getLast? = some y ↔ ds' = [] := by
        rw [has]
        exact getLast?_eq_some_iff_of_nodup (has ▸ (List.nodup_append.mp hnodup).1)
      cases ds' with
      | nil => rw [if_pos (hlast.mpr rfl), List.nil_append]
      | cons d ds' =>
          rw [if_neg fun hl => List.cons_ne_nil _ _ (hlast.mp hl),
            h.next cs y (d :: ds' ++ x :: bs) (by simp [has])]
          rfl
    · have hy : as.getLast? ≠ some y := by
        intro hl
        exact hdisjoint y (List.mem_of_getLast? hl) (by simp [hbs])
      rw [if_neg hy, h.next (as ++ x :: cs') y ds (by simp [hbs])]
  · intro cs y ds heq
    rw [hprev y (hne y (by simp [heq]))]
    rcases hsplit cs y ds heq with ⟨ds', has, rfl⟩ | ⟨cs', hbs, rfl⟩
    · have hy : bs.head? ≠ some y := by
        intro hl
        exact hdisjoint y (by simp [has]) (List.mem_of_head? hl)
      rw [if_neg hy, h.prev cs y (ds' ++ x :: bs) (by simp [has])]
    · cases cs' with
      | nil => rw [if_pos (by simp [hbs]), List.append_nil]
      | cons c cs' =>
          have hy : bs.head? ≠ some y := by
            rw [hbs, List.cons_append, List.head?_cons]
            rintro hc
            have hnd := (List.nodup_append.mp hnodup).2.1
            rw [hbs, List.cons_append, List.nodup_cons] at hnd
            exact hnd.1 (by simp [Option.some.inj hc])
          rw [if_neg hy, h.prev (as ++ x :: c :: cs') y ds (by simp [hbs]),
            List.getLast?_append_cons,
            List.getLast?_append_cons, List.getLast?_cons_cons]

end Links

end Imola.LinkedLists
