import Imola.QrtrList

/-! # Runs of the list operations of `qrtr`

A list of `list.h` is meant to be a sequence of items, and the links to run through it in both
directions.  A sequence of operations is compared with the operations on the items themselves
(`listContent`).

`list_prepend` does not link the old first item back to the new one, and neither does `list_insert`
at the front.  All other operations keep the links right, so they are right after every operation
exactly when nothing is put in front of an item (`staysLinked_iff`). -/

namespace Imola.Qrtr

open Imola.LinkedLists

variable {α : Type}

/-- The operations on a list. -/
inductive ListOp (α : Type) where
  | append (item : α)
  | prepend (item : α)
  | insert (after : Option α) (item : α)
  | remove (item : α)
  | pop
deriving DecidableEq, Repr

/-! ### The links that are meant -/

/-- The items of a walk along `link`, from `first` on. -/
def visited (link : α → Option α) (rounds : ℕ) (first : Option α) : Option (List α) :=
  listForEach (fun _ x => link x) (fun x seen => some (seen ++ [x])) rounds first []

/-- The links run through `xs` in both directions. -/
structure WellLinked (L : Links α) (xs : List α) : Prop where
  head_prev : ∀ x, L.head = some x → L.prev x = none
  tail_next : ∀ x, L.tail = some x → L.next x = none
  next_prev : ∀ x ∈ xs, ∀ y, L.next x = some y → L.prev y = some x
  forward : visited L.next xs.length L.head = some xs
  backward : visited L.prev xs.length L.tail = some xs.reverse

section Operations

variable [DecidableEq α]

/-- An operation on the links. -/
def listStep (L : Links α) : ListOp α → Option (Links α)
  | .append item => some (listAppend L item)
  | .prepend item => some (listPrepend L item)
  | .insert after item => some (listInsert L after item)
  | .remove item => listRemove L item
  | .pop => (listPop L).map Prod.snd

/-- `list_for_each_safe` with a body that removes the items chosen by `drop`: the links after it,
and the items it came to. -/
def removeLoop (drop : α → Bool) (rounds : ℕ) (L : Links α) : Option (Links α × List α) :=
  listForEachSafe (fun s x => s.1.next x)
    (fun x s =>
      if drop x then (listRemove s.1 x).map fun L' => (L', s.2 ++ [x])
      else some (s.1, s.2 ++ [x]))
    rounds L.head (L, [])

/-- Well linked, and a loop that removes items comes to each item once and leaves the others. -/
structure Linked (L : Links α) (xs : List α) : Prop extends WellLinked L xs where
  safe : ∀ drop, ∃ L', removeLoop drop xs.length L = some (L', xs) ∧
    WellLinked L' (xs.filter fun x => !drop x)

/-- An item behind another. -/
def insertAfter (a item : α) : List α → List α
  | [] => []
  | x :: xs => if x = a then x :: item :: xs else x :: insertAfter a item xs

/-- An operation on the items. -/
def ListOp.apply (xs : List α) : ListOp α → List α
  | .append item => xs ++ [item]
  | .prepend item => item :: xs
  | .insert none item => item :: xs
  | .insert (some a) item => insertAfter a item xs
  | .remove item => xs.erase item
  | .pop => xs.tail

/-- Items are put into the list while they are not in it, and taken out while they are. -/
def ListOp.Allowed (xs : List α) : ListOp α → Prop
  | .append item => item ∉ xs
  | .prepend item => item ∉ xs
  | .insert after item => item ∉ xs ∧ ∀ a ∈ after, a ∈ xs
  | .remove item => item ∈ xs
  | .pop => True

instance (xs : List α) (op : ListOp α) : Decidable (op.Allowed xs) :=
  match op with
  | .append item => inferInstanceAs (Decidable (item ∉ xs))
  | .prepend item => inferInstanceAs (Decidable (item ∉ xs))
  | .insert after item => inferInstanceAs (Decidable (item ∉ xs ∧ ∀ a ∈ after, a ∈ xs))
  | .remove item => inferInstanceAs (Decidable (item ∈ xs))
  | .pop => isTrue trivial

/-- An item is put in front of the list. -/
def ListOp.fronts : ListOp α → Bool
  | .prepend _ => true
  | .insert none _ => true
  | _ => false

/-- The items after some operations on an empty list. -/
def listContent (ops : List (ListOp α)) : List α := ops.foldl ListOp.apply []

/-- Every operation is allowed where it stands. -/
def AllowedOps (ops : List (ListOp α)) : Prop :=
  ∀ done op, done ++ [op] <+: ops → op.Allowed (listContent done)

/-- Nothing is put in front of an item. -/
def NothingInFront (ops : List (ListOp α)) : Prop :=
  ∀ done op, done ++ [op] <+: ops → op.fronts = true → listContent done = []

/-- From `list_init` on, the links are right after every operation. -/
def StaysLinked (L₀ : Links α) (ops : List (ListOp α)) : Prop :=
  ∀ done, done <+: ops → ∃ L, done.foldlM listStep (listInit L₀) = some L ∧
    Linked L (listContent done)

end Operations

/-! ### Links that hold a list -/

section Holds

variable {L : Links α} {xs : List α}

theorem visited_of_holds (h : L.Holds xs) : visited L.next xs.length L.head = some xs := by
  have hfst : (xs.map fun x => (x, x)).map Prod.fst = xs := by
    rw [List.map_map]
    exact List.map_id xs
  have hcollect := @listForEach_collects α α α L (xs.map fun x => (x, x)) (by rwa [hfst])
    (fun x seen => some (seen ++ [x])) (fun x => [x]) (fun p hp out => by
      obtain ⟨x, -, rfl⟩ := List.mem_map.mp hp
      rfl) xs.length (by simp)
  rw [visited, hcollect, List.flatMap_map]
  simp

theorem wellLinked_of_holds (h : L.Holds xs) : WellLinked L xs := by
  refine ⟨fun x hx => ?_, fun x hx => ?_, fun x hx y hy => ?_, visited_of_holds h, ?_⟩
  · rw [h.head] at hx
    obtain ⟨rest, rfl⟩ := List.head?_eq_some_iff.mp hx
    exact h.prev [] x rest rfl
  · rw [h.tail] at hx
    obtain ⟨front, rfl⟩ := List.getLast?_eq_some_iff.mp hx
    exact h.next front x [] rfl
  · obtain ⟨as, bs, rfl⟩ := List.append_of_mem hx
    rw [h.next as x bs rfl] at hy
    obtain ⟨rest, rfl⟩ := List.head?_eq_some_iff.mp hy
    rw [h.prev (as ++ [x]) y rest (by simp), List.getLast?_concat]
  · have hback := visited_of_holds h.flip
    rwa [List.length_reverse] at hback

variable [DecidableEq α]

theorem removeLoop_of_holds (h : L.Holds xs) (drop : α → Bool) :
    ∃ L', removeLoop drop xs.length L = some (L', xs) ∧ L'.Holds (xs.filter fun x => !drop x) := by
  have hloop := @listForEachSafe_rule α (Links α × List α) (fun s x => s.1.next x)
    (fun x s =>
      if drop x then (listRemove s.1 x).map fun L' => (L', s.2 ++ [x])
      else some (s.1, s.2 ++ [x]))
    (fun rest s => xs = s.2 ++ rest ∧ s.1.Holds (s.2.filter (fun x => !drop x) ++ rest)) ?_ xs
      xs.length (L, []) le_rfl
    ⟨rfl, h⟩
  · obtain ⟨⟨L', seen⟩, hrun, hseen, hholds⟩ := hloop
    simp only [List.append_nil] at hseen hholds
    subst hseen
    refine ⟨L', ?_, hholds⟩
    rw [removeLoop, h.head, hrun]
  · rintro x rest ⟨L, seen⟩ ⟨hseen, hholds⟩
    refine ⟨hholds.next _ x rest rfl, ?_⟩
    cases hdrop : drop x with
    | true =>
        obtain ⟨L', hremove, hholds'⟩ := holds_listRemove hholds
        refine ⟨(L', seen ++ [x]), by simp [hremove], by simp [hseen], ?_⟩
        simpa [List.filter_append, hdrop] using hholds'
    | false =>
        refine ⟨(L, seen ++ [x]), by simp, by simp [hseen], ?_⟩
        simpa [List.filter_append, hdrop] using hholds

theorem linked_of_holds (h : L.Holds xs) : Linked L xs := by
  refine ⟨wellLinked_of_holds h, fun drop => ?_⟩
  obtain ⟨L', hrun, hholds⟩ := removeLoop_of_holds h drop
  exact ⟨L', hrun, wellLinked_of_holds hholds⟩

/-! ### One operation -/

theorem insertAfter_append {a x : α} {as bs : List α} (ha : a ∉ as) :
    insertAfter a x (as ++ a :: bs) = as ++ a :: x :: bs := by
  induction as with
  | nil => rw [List.nil_append, insertAfter, if_pos rfl, List.nil_append]
  | cons b as ih =>
      rw [List.mem_cons, not_or] at ha
      rw [List.cons_append, insertAfter, if_neg (Ne.symm ha.1), ih ha.2, List.cons_append]

/-- **An operation that puts nothing in front of an item** keeps the links. -/
theorem holds_listStep (h : L.Holds xs) {op : ListOp α} (hallowed : op.Allowed xs)
    (hfront : op.fronts = true → xs = []) :
    ∃ L', listStep L op = some L' ∧ L'.Holds (op.apply xs) := by
  cases op with
  | append x => exact ⟨_, rfl, holds_listAppend h hallowed⟩
  | prepend x =>
      obtain rfl := hfront rfl
      exact ⟨_, rfl, holds_listPrepend_nil h x⟩
  | insert after x =>
      cases after with
      | none =>
          obtain rfl := hfront rfl
          exact ⟨_, rfl, holds_listPrepend_nil h x⟩
      | some a =>
          obtain ⟨as, bs, rfl⟩ := List.append_of_mem (hallowed.2 a rfl)
          have ha : a ∉ as := fun hmem => (List.nodup_append.mp h.nodup).2.2 a hmem a
            List.mem_cons_self rfl
          refine ⟨_, rfl, ?_⟩
          rw [ListOp.apply, insertAfter_append ha]
          exact holds_listInsert h hallowed.1
  | remove x =>
      obtain ⟨as, bs, rfl⟩ := List.append_of_mem hallowed
      have hx : x ∉ as := fun hmem => (List.nodup_append.mp h.nodup).2.2 x hmem x
        List.mem_cons_self rfl
      obtain ⟨L', hremove, hholds⟩ := holds_listRemove h
      refine ⟨L', hremove, ?_⟩
      rwa [ListOp.apply, List.erase_append_right _ hx, List.erase_cons_head]
  | pop =>
      have hhead := h.head
      cases xs with
      | nil => exact ⟨L, by simp [listStep, listPop, hhead], h⟩
      | cons x xs =>
          obtain ⟨L', hremove, hholds⟩ := @holds_listRemove α _ L [] xs x h
          refine ⟨L', ?_, hholds⟩
          rw [List.head?_cons] at hhead
          simp [listStep, listPop, hhead, hremove]

/-- An item that is put in front of others is not linked from them. -/
theorem not_wellLinked_listPrepend (h : WellLinked L xs) (hne : xs ≠ []) (x : α) :
    ¬ WellLinked (listPrepend L x) (x :: xs) := by
  intro h'
  obtain ⟨y, hy⟩ : ∃ y, L.head = some y := by
    cases hhead : L.head with
    | none =>
        have hforward := h.forward
        rw [hhead, visited, listForEach] at hforward
        exact absurd (Option.some.inj hforward).symm hne
    | some y => exact ⟨y, rfl⟩
  have hback : (listPrepend L x).prev y = some x := by
    refine h'.next_prev x List.mem_cons_self y ?_
    rw [← hy]
    exact Function.update_self _ _ _
  have hnone : (listPrepend L x).prev y = none := by
    show Function.update L.prev x none y = none
    rw [Function.update_apply, h.head_prev y hy, ite_self]
  rw [hnone] at hback
  cases hback

end Holds

/-! ### Sequences of operations -/

section Runs

variable [DecidableEq α] {L₀ : Links α} {ops : List (ListOp α)}

theorem listContent_concat (done : List (ListOp α)) (op : ListOp α) :
    listContent (done ++ [op]) = op.apply (listContent done) := by
  rw [listContent, List.foldl_append]
  rfl

theorem foldlM_concat (done : List (ListOp α)) (op : ListOp α) (L : Links α) :
    (done ++ [op]).foldlM listStep L = (done.foldlM listStep L).bind fun L => listStep L op := by
  rw [List.foldlM_append]
  simp

theorem holds_of_ops (hallowed : AllowedOps ops) (hfront : NothingInFront ops)
    (done : List (ListOp α)) :
    done <+: ops → ∃ L, done.foldlM listStep (listInit L₀) = some L ∧
    L.Holds (listContent done) := by
  induction done using List.reverseRecOn with
  | nil => exact fun _ => ⟨_, rfl, holds_listInit L₀⟩
  | append_singleton done op ih =>
      intro hops
      obtain ⟨L, hrun, hholds⟩ := ih ((List.prefix_append done [op]).trans hops)
      obtain ⟨L', hstep, hholds'⟩ :=
        holds_listStep hholds (hallowed done op hops) (hfront done op hops)
      refine ⟨L', ?_, ?_⟩
      · rw [foldlM_concat, hrun, Option.bind_some, hstep]
      · rwa [listContent_concat]

/-- **Sequences of operations** keep the links right exactly when nothing is put in front of an
item. -/
theorem staysLinked_iff (L₀ : Links α) (ops : List (ListOp α)) (hallowed : AllowedOps ops) :
    StaysLinked L₀ ops ↔ NothingInFront ops := by
  constructor
  · intro h done op hops hfront
    by_contra hne
    obtain ⟨L, hrun, hlinked⟩ := h done ((List.prefix_append done [op]).trans hops)
    obtain ⟨L', hrun', hlinked'⟩ := h (done ++ [op]) hops
    rw [foldlM_concat, hrun, Option.bind_some] at hrun'
    rw [listContent_concat] at hlinked'
    obtain ⟨x, hstep, happly⟩ : ∃ x, listStep L op = some (listPrepend L x) ∧
        op.apply (listContent done) = x :: listContent done := by
      cases op with
      | prepend x => exact ⟨x, rfl, rfl⟩
      | insert after x =>
          cases after with
          | none => exact ⟨x, rfl, rfl⟩
          | some a => cases hfront
      | _ => cases hfront
    rw [hstep] at hrun'
    obtain rfl := Option.some.inj hrun'
    rw [happly] at hlinked'
    exact not_wellLinked_listPrepend hlinked.toWellLinked hne x hlinked'.toWellLinked
  · intro hfront done hdone
    obtain ⟨L, hrun, hholds⟩ := holds_of_ops hallowed hfront done hdone
    exact ⟨L, hrun, linked_of_holds hholds⟩

theorem allowedOps_concat {op : ListOp α} :
    AllowedOps (ops ++ [op]) ↔ AllowedOps ops ∧ op.Allowed (listContent ops) := by
  constructor
  · exact fun h => ⟨fun done op' hops => h done op' (hops.trans (List.prefix_append _ _)),
      h ops op List.prefix_rfl⟩
  · rintro ⟨h, hop⟩ done op' hops
    rcases List.prefix_concat_iff.mp hops with heq | hops
    · obtain ⟨rfl, hlast⟩ := List.append_inj' heq rfl
      obtain rfl := (List.cons.inj hlast).1
      exact hop
    · exact h done op' hops

theorem allowedOps_nil : AllowedOps ([] : List (ListOp α)) := by
  intro done op h
  simp at h

end Runs

/-- Two items, the second one put behind the first, and the first taken out. -/
theorem staysLinked_insert :
    StaysLinked (⟨none, none, fun _ => none, fun _ => none⟩ : Links ℕ)
      [.prepend 1, .insert (some 1) 2, .pop] := by
  have h₁ := @allowedOps_concat ℕ _ [] (.prepend 1) |>.mpr ⟨allowedOps_nil, by decide⟩
  have h₂ := @allowedOps_concat ℕ _ [.prepend 1] (.insert (some 1) 2) |>.mpr ⟨h₁, by decide⟩
  have h₃ := @allowedOps_concat ℕ _ [.prepend 1, .insert (some 1) 2] .pop |>.mpr ⟨h₂, by decide⟩
  refine (staysLinked_iff _ _ h₃).mpr fun done op hops hfront => ?_
  obtain ⟨rest, heq⟩ := hops
  match done, heq with
  | [], _ => rfl
  | [_], heq =>
      simp only [List.cons_append, List.nil_append, List.cons.injEq] at heq
      rw [heq.2.1] at hfront
      cases hfront
  | [_, _], heq =>
      simp only [List.cons_append, List.nil_append, List.cons.injEq] at heq
      rw [heq.2.2.1] at hfront
      cases hfront
  | _ :: _ :: _ :: _, heq => simp at heq

/-- An item with another one put in front of it cannot be taken out: there is no link back to
follow. -/
theorem not_staysLinked_prepend :
    AllowedOps [.append 1, .prepend 2, ListOp.remove 1] ∧
    [.append 1, .prepend 2, ListOp.remove 1].foldlM listStep
      (listInit (⟨none, none, fun _ => none, fun _ => none⟩ : Links ℕ)) = none ∧
    ¬ StaysLinked (⟨none, none, fun _ => none, fun _ => none⟩ : Links ℕ)
      [.append 1, .prepend 2, ListOp.remove 1] := by
  have h₁ := @allowedOps_concat ℕ _ [] (.append 1) |>.mpr ⟨allowedOps_nil, by decide⟩
  have h₂ := @allowedOps_concat ℕ _ [.append 1] (.prepend 2) |>.mpr ⟨h₁, by decide⟩
  have h₃ := @allowedOps_concat ℕ _ [.append 1, .prepend 2] (.remove 1) |>.mpr ⟨h₂, by decide⟩
  refine ⟨h₃, rfl, fun h => ?_⟩
  obtain ⟨L, hrun, -⟩ := h _ List.prefix_rfl
  cases hrun

end Imola.Qrtr
