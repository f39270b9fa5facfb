import Imola.LinkedLists

/-! # The lists of `qrtr`

`list.h` has lists of items that carry their own links.  An item is named by its address; `0` is
`none`.  `list_remove` reads through the link to the previous item of an item that is not the first
one, so it fails (`none`) where that link is `0`.  `list_prepend` leaves such a link behind in the
old first item.

The loops take a bound on the number of rounds and fail when it is reached.  `list_for_each` reads
the link of an item after its round and `list_for_each_safe` before it; their rules ask for an
invariant of the items that are left and the state. -/

namespace Imola.Qrtr

open Imola.LinkedLists

variable {α σ : Type}

/-- `list_init`. -/
def listInit (L : Links α) : Links α := { L with head := none, tail := none }

section Operations

variable [DecidableEq α]

/-- `list_append`. -/
def listAppend (L : Links α) (item : α) : Links α :=
  let next := Function.update L.next item none
  let prev := Function.update L.prev item L.tail
  match L.tail with
  | some last => ⟨L.head, some item, Function.update next last (some item), prev⟩
  | none => ⟨some item, some item, next, prev⟩

/-- `list_prepend`.  The link of the old first item back to the new one is not set. -/
def listPrepend (L : Links α) (item : α) : Links α :=
  ⟨some item, if L.head = none then some item else L.tail, Function.update L.next item L.head,
    Function.update L.prev item none⟩

/-- `list_insert`. -/
def listInsert (L : Links α) (after : Option α) (item : α) : Links α :=
  match after with
  | none => listPrepend L item
  | some after =>
      let next := Function.update (Function.update L.next item (L.next after)) after (some item)
      let prev := Function.update L.prev item (some after)
      let prev := match next item with
        | some behind => Function.update prev behind (some item)
        | none => prev
      ⟨L.head, if L.tail = some after then some item else L.tail, next, prev⟩

/-- The last assignment of `list_remove`. -/
def clearLinks (L : Links α) (item : α) : Links α :=
  { L with next := Function.update L.next item none, prev := Function.update L.prev item none }

@[simp] theorem head_clearLinks (L : Links α) (item : α) : (clearLinks L item).head = L.head := rfl

@[simp] theorem tail_clearLinks (L : Links α) (item : α) : (clearLinks L item).tail = L.tail := rfl

/-- `list_remove`. -/
def listRemove (L : Links α) (item : α) : Option (Links α) :=
  let prev := match L.next item with
    | some behind => Function.update L.prev behind (L.prev item)
    | none => L.prev
  if L.head = some item then
    some (clearLinks ⟨L.next item, if L.next item = none then none else L.tail, L.next, prev⟩ item)
  else
    (prev item).map fun before =>
      clearLinks ⟨L.head, if L.tail = some item then some before else L.tail,
        Function.update L.next before (L.next item), prev⟩ item

/-- `list_pop`: the item, if there is one. -/
def listPop (L : Links α) : Option (Option α × Links α) :=
  match L.head with
  | none => some (none, L)
  | some item => (listRemove L item).map fun L' => (some item, L')

end Operations

/-- `list_for_each`, from the item `iter`. -/
def listForEach (next : σ → α → Option α) (body : α → σ → Option σ) : ℕ → Option α → σ → Option σ
  | _, none, s => some s
  | 0, some _, _ => none
  | fuel + 1, some iter, s =>
      (body iter s).bind fun s' => listForEach next body fuel (next s' iter) s'

/-- `list_for_each_safe`, from the item `iter`. -/
def listForEachSafe (next : σ → α → Option α) (body : α → σ → Option σ) :
    ℕ → Option α → σ → Option σ
  | _, none, s => some s
  | 0, some _, _ => none
  | fuel + 1, some iter, s =>
      (body iter s).bind fun s' => listForEachSafe next body fuel (next s iter) s'

/-! ### What they do -/

theorem holds_listInit (L : Links α) : (listInit L).Holds [] := Links.Holds.nil rfl rfl

section Specs

variable [DecidableEq α] {L : Links α} {xs as bs : List α} {x : α}

theorem holds_listAppend (h : L.Holds xs) (hx : x ∉ xs) : (listAppend L x).Holds (xs ++ [x]) := by
  unfold listAppend
  cases htail : L.tail with
  | none =>
      have hnil : xs = [] := List.getLast?_eq_none_iff.mp (h.tail.symm.trans htail)
      subst hnil
      refine h.snoc hx rfl rfl ?_ ?_
      · intro y
        simp only [Function.update_apply, List.getLast?_nil, reduceCtorEq, if_false]
      · intro y
        simp only [Function.update_apply, List.getLast?_nil]
  | some last =>
      have hlast : xs.getLast? = some last := h.tail.symm.trans htail
      have hmem : last ∈ xs := List.mem_of_getLast? hlast
      have hne : last ≠ x := fun heq => hx (heq ▸ hmem)
      refine h.snoc hx ?_ rfl ?_ ?_
      · rw [h.head, List.head?_append_of_ne_nil _ (List.ne_nil_of_mem hmem)]
      · intro y
        simp only [Function.update_apply, hlast, Option.some.injEq]
        by_cases hy : y = x
        · rw [if_pos hy, if_pos hy, if_neg fun hyl => hne (hyl.symm.trans hy)]
        · rw [if_neg hy, if_neg hy]
          exact if_congr eq_comm rfl rfl
      · intro y
        simp only [Function.update_apply, hlast]

/-- On an empty list `list_prepend` has nothing to link back. -/
theorem holds_listPrepend_nil (h : L.Holds []) (x : α) : (listPrepend L x).Holds [x] := by
  have hhead : L.head = none := h.head
  refine @Links.Holds.put α L _ [] [] x _ h (by simp) rfl ?_ ?_ ?_
  · rw [listPrepend, if_pos hhead]
    rfl
  · intro y
    simp only [listPrepend, Function.update_apply, hhead, List.head?_nil, List.getLast?_nil,
      reduceCtorEq, if_false]
  · intro y
    simp only [listPrepend, Function.update_apply, List.head?_nil, List.getLast?_nil,
      reduceCtorEq, if_false]

theorem holds_listInsert {a : α} (h : L.Holds (as ++ a :: bs)) (hx : x ∉ as ++ a :: bs) :
    (listInsert L (some a) x).Holds (as ++ a :: x :: bs) := by
  have hxa : x ≠ a := fun heq => hx (by simp [heq])
  have hnext : L.next a = bs.head? := h.next as a bs rfl
  have hbehind : ∀ y, bs.head? = some y → y ≠ x := by
    rintro y hy rfl
    exact hx (List.mem_append_right _ (List.mem_cons_of_mem _ (List.mem_of_head? hy)))
  have hput := @Links.Holds.put α L (listInsert L (some a) x) (as ++ [a]) bs x _
    (by rwa [List.append_assoc, List.singleton_append])
    (by rwa [List.append_assoc, List.singleton_append]) ?_ ?_ ?_ ?_
  · rwa [List.append_assoc, List.singleton_append] at hput
  · show L.head = _
    rw [h.head]
    cases as with
    | nil => rfl
    | cons b as => rfl
  · have htail : L.tail = some a ↔ bs = [] := by
      rw [h.tail]
      exact Links.getLast?_eq_some_iff_of_nodup h.nodup
    show (if L.tail = some a then some x else L.tail) = _
    rw [List.getLast?_append_cons]
    cases bs with
    | nil => rw [if_pos (htail.mpr rfl), List.getLast?_singleton]
    | cons b bs =>
        rw [if_neg fun ht => List.cons_ne_nil _ _ (htail.mp ht), h.tail, List.getLast?_append_cons,
          List.getLast?_cons_cons, List.getLast?_cons_cons]
  · intro y
    simp only [listInsert, Function.update_apply, hnext, List.getLast?_concat, Option.some.injEq]
    by_cases hya : y = a
    · rw [if_pos hya, if_neg fun hyx => hxa (hyx.symm.trans hya), if_pos hya.symm]
    · rw [if_neg hya, if_neg (Ne.symm hya)]
  · intro y
    have hitem : Function.update (Function.update L.next x (L.next a)) a (some x) x = bs.head? := by
      rw [Function.update_of_ne hxa, Function.update_self, hnext]
    simp only [listInsert, hitem, List.getLast?_concat]
    cases hb : bs.head? with
    | none => simp only [Function.update_apply, reduceCtorEq, if_false]
    | some behind =>
        simp only [Function.update_apply, Option.some.injEq]
        by_cases hy : y = behind
        · rw [if_pos hy, if_neg fun hyx => hbehind behind hb (hy.symm.trans hyx), if_pos hy.symm]
        · rw [if_neg hy, if_neg (Ne.symm hy)]

theorem holds_listRemove (h : L.Holds (as ++ x :: bs)) :
    ∃ L', listRemove L x = some L' ∧ L'.Holds (as ++ bs) := by
  have hmid := List.nodup_cons.mp (List.nodup_middle.mp h.nodup)
  have hnext := h.next as x bs rfl
  have hprev := h.prev as x bs rfl
  have hbehind : ∀ y, bs.head? = some y → y ≠ x := by
    rintro y hy rfl
    exact hmid.1 (List.mem_append_right _ (List.mem_of_head? hy))
  have hbefore : ∀ y, as.getLast? = some y → y ≠ x := by
    rintro y hy rfl
    exact hmid.1 (List.mem_append_left _ (List.mem_of_getLast? hy))
  set prev := match L.next x with
    | some behind => Function.update L.prev behind (L.prev x)
    | none => L.prev with hdef
  have hset : ∀ y, prev y = if bs.head? = some y then as.getLast? else L.prev y := by
    intro y
    rw [hdef, hnext]
    cases hb : bs.head? with
    | none => simp
    | some behind =>
        simp only [Function.update_apply, hprev, Option.some.injEq]
        exact if_congr eq_comm rfl rfl
  have hself : prev x = as.getLast? := by
    rw [hset, if_neg fun hx => hbehind x hx rfl, hprev]
  unfold listRemove
  simp only [← hdef]
  rcases List.eq_nil_or_concat as with rfl | ⟨as', before, rfl⟩
  · have hhead : L.head = some x := h.head
    rw [if_pos hhead]
    refine ⟨_, rfl, h.without ?_ ?_ ?_ ?_⟩
    · exact hnext
    · cases bs with
      | nil => simp [hnext]
      | cons b bs =>
          have htail := h.tail
          rw [List.getLast?_append_cons, List.getLast?_cons_cons] at htail
          simp [hnext, htail]
    · intro y hy
      simp only [clearLinks, Function.update_of_ne hy, List.getLast?_nil, reduceCtorEq, if_false]
    · intro y hy
      simp only [clearLinks, Function.update_of_ne hy, hset]
  · have hlast : (as'.concat before).getLast? = some before := by simp
    have hhead : L.head ≠ some x := by
      intro hx
      rw [h.head, List.head?_append_of_ne_nil _ (by simp)] at hx
      exact hmid.1 (List.mem_append_left _ (List.mem_of_head? hx))
    rw [if_neg hhead, hself, hlast, Option.map_some]
    refine ⟨_, rfl, h.without ?_ ?_ ?_ ?_⟩
    · rw [head_clearLinks, h.head, List.head?_append_of_ne_nil _ (by simp),
        List.head?_append_of_ne_nil _ (by simp)]
    · have htail : L.tail = some x ↔ bs = [] := by
        rw [h.tail]
        exact Links.getLast?_eq_some_iff_of_nodup h.nodup
      rw [tail_clearLinks]
      cases bs with
      | nil => rw [if_pos (htail.mpr rfl), List.append_nil, hlast]
      | cons b bs =>
          rw [if_neg fun ht => List.cons_ne_nil _ _ (htail.mp ht), h.tail,
            List.getLast?_append_cons,
            List.getLast?_append_cons, List.getLast?_cons_cons]
    · intro y hy
      simp only [clearLinks, Function.update_of_ne hy, Function.update_apply, hnext, hlast,
        Option.some.injEq]
      exact if_congr eq_comm rfl rfl
    · intro y hy
      simp only [clearLinks, Function.update_of_ne hy, hset]

end Specs

/-! ### The rules of the loops -/

section Loops

variable {next : σ → α → Option α} {body : α → σ → Option σ} {I : List α → σ → Prop}

/-- **The rule of `list_for_each`**: a round keeps the invariant, and leaves the link of its item to
the first one that is left. -/
theorem listForEach_rule (hround : ∀ x rest s, I (x :: rest) s →
      ∃ s', body x s = some s' ∧ next s' x = rest.head? ∧ I rest s') :
    ∀ (xs : List α) {fuel : ℕ} {s : σ}, xs.length ≤ fuel → I xs s →
      ∃ s', listForEach next body fuel xs.head? s = some s' ∧ I [] s' := by
  intro xs
  induction xs with
  | nil =>
      intro fuel s _ hI
      refine ⟨s, ?_, hI⟩
      rw [List.head?_nil, listForEach]
  | cons x rest ih =>
      intro fuel s hfuel hI
      obtain ⟨s', hbody, hnext, hI'⟩ := hround x rest s hI
      obtain ⟨fuel, rfl⟩ : ∃ n, fuel = n + 1 :=
        ⟨fuel - 1, by simp only [List.length_cons] at hfuel; omega⟩
      obtain ⟨t, hloop, ht⟩ := ih (Nat.le_of_succ_le_succ hfuel) hI'
      refine ⟨t, ?_, ht⟩
      rw [List.head?_cons, listForEach, hbody, Option.bind_some, hnext, hloop]

theorem listForEach_collects {β ω : Type} {L : Links α} {ps : List (α × β)}
    (hL : L.Holds (ps.map Prod.fst))
    {body : α → List ω → Option (List ω)} {f : β → List ω}
    (hbody : ∀ p ∈ ps, ∀ out, body p.1 out = some (out ++ f p.2)) {fuel : ℕ}
    (hfuel : ps.length ≤ fuel) :
    listForEach (fun _ x => L.next x) body fuel L.head [] = some (ps.flatMap fun p => f p.2) := by
  have hloop := @listForEach_rule α (List ω) (fun _ x => L.next x) body
    (fun rest out => ∃ done left, ps = done ++ left ∧ rest = left.map Prod.fst ∧
      out = done.flatMap fun p => f p.2)
    ?_ (ps.map Prod.fst) fuel [] (by rwa [List.length_map]) ⟨[], ps, rfl, rfl, rfl⟩
  · obtain ⟨out, hrun, done, left, hdone, hleft, rfl⟩ := hloop
    obtain rfl : left = [] := List.map_eq_nil_iff.mp hleft.symm
    rw [List.append_nil] at hdone
    rw [hL.head, hrun, hdone]
  · rintro x rest out ⟨done, left, hdone, hrest, rfl⟩
    cases left with
    | nil => cases hrest
    | cons p left =>
        rw [List.map_cons] at hrest
        obtain ⟨rfl, rfl⟩ := List.cons.inj hrest
        refine ⟨(done ++ [p]).flatMap fun p => f p.2, ?_, ?_, done ++ [p], left, ?_, rfl, rfl⟩
        · rw [hbody p (by simp [hdone]), List.flatMap_append, List.flatMap_singleton]
        · exact hL.next (done.map Prod.fst) p.1 (left.map Prod.fst) (by simp [hdone])
        · rw [hdone, List.append_assoc, List.singleton_append]

/-- **The rule of `list_for_each_safe`**: the link is read before the round, which may take its item
out. -/
theorem listForEachSafe_rule (hround : ∀ x rest s, I (x :: rest) s →
      next s x = rest.head? ∧ ∃ s', body x s = some s' ∧ I rest s') :
    ∀ (xs : List α) {fuel : ℕ} {s : σ}, xs.length ≤ fuel → I xs s →
      ∃ s', listForEachSafe next body fuel xs.head? s = some s' ∧ I [] s' := by
  intro xs
  induction xs with
  | nil =>
      intro fuel s _ hI
      refine ⟨s, ?_, hI⟩
      rw [List.head?_nil, listForEachSafe]
  | cons x rest ih =>
      intro fuel s hfuel hI
      obtain ⟨hnext, s', hbody, hI'⟩ := hround x rest s hI
      obtain ⟨fuel, rfl⟩ : ∃ n, fuel = n + 1 :=
        ⟨fuel - 1, by simp only [List.length_cons] at hfuel; omega⟩
      obtain ⟨t, hloop, ht⟩ := ih (Nat.le_of_succ_le_succ hfuel) hI'
      refine ⟨t, ?_, ht⟩
      rw [List.head?_cons, listForEachSafe, hbody, Option.bind_some, hnext, hloop]

end Loops

end Imola.Qrtr
