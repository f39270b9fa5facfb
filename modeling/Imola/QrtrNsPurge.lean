import Imola.QrtrNsIsolation

/-! # BYE

`ctrl_cmd_bye` goes through the slots of the table of a node and, at a slot with a server, calls
`server_del` for its port.  That removes the first server a search for the port comes to, which need
not be the one in the slot when there are several.

`sweep` is the loop on the table alone.  It empties a table in which the search for a key comes to
the items with the key in the order of the slots, and it leaves an item in every other
(`sweep_inOrder`, `inOrder_of_sweep`).  So a BYE purges the node exactly then (`bye_purges_iff`). -/

namespace Imola.Qrtr

open Imola.Probing Imola.Runs

section Sweep

variable {ι : Type} {key : ι → UInt32} {m : Map ι} {k : UInt32}

/-- At every slot with an item, remove the item that `map_get` finds under its key; the items that
were removed, in order, and the table after it. -/
def sweep (key : ι → UInt32) : List ℕ → Map ι → List ι × Map ι
  | [], m => ([], m)
  | j :: js, m =>
      match (m.data j).item? with
      | none => sweep key js m
      | some v =>
          match mapGet key m (key v) with
          | none => sweep key js m
          | some u =>
              let rest := sweep key js (mapRemove key m (key u)).2
              (u :: rest.1, rest.2)

/-- The search for a key comes to the items with the key in the order of the slots. -/
def Map.InOrder (key : ι → UInt32) (m : Map ι) : Prop :=
  ∀ i j v w, i < j → j < m.size → m.data i = .item v → m.data j = .item w → key v = key w →
    dist m.size (key v).toNat i < dist m.size (key v).toNat j

theorem sweep_of_not_item {j : ℕ} (h : ∀ v, m.data j ≠ .item v) (js : List ℕ) :
    sweep key (j :: js) m = sweep key js m := by
  have hnone : (m.data j).item? = none := Option.isNone_iff_eq_none.mp (item?_isNone.mpr h)
  rw [sweep, hnone]

/-- One round of the loop removes the first item with the key. -/
theorem sweep_of_item (hwf : m.Wf key) {j : ℕ} {v : ι} (hj : j < m.size) (hv : m.data j = .item v)
    (js : List ℕ) :
    ∃ f u, f ∈ m.live ∧ m.data f = .item u ∧ key u = key v ∧
      (∀ i < m.size, ∀ w, m.data i = .item w → key w = key v →
        dist m.size (key v).toNat f ≤ dist m.size (key v).toNat i) ∧
      sweep key (j :: js) m = (u :: (sweep key js (m.erase f)).1,
        (sweep key js (m.erase f)).2) := by
  have hmem : v ∈ mapItems m := mem_mapItems.mpr ⟨j, hj, hv⟩
  rcases mapRemove_spec hwf (key v) with ⟨habsent, -⟩ | ⟨f, hfind, hlive, hremove⟩
  · exact absurd rfl (habsent v hmem)
  obtain ⟨-, ⟨u, hu, huk⟩, hmin⟩ := (mapFind_eq_some_iff hwf).mp hfind
  have hget : mapGet key m (key v) = some u := by
    rw [mapGet, hfind]
    exact item?_eq_some.mpr hu
  refine ⟨f, u, hlive, hu, huk, hmin, ?_⟩
  rw [sweep, item?_eq_some.mpr hv]
  simp only [hget, huk, hremove]

theorem Map.InOrder.erase (h : m.InOrder key) (f : ℕ) : (m.erase f).InOrder key := by
  intro i j v w hij hj hv hw hkey
  rw [data_erase] at hv hw
  by_cases hif : i = f
  · simp [hif] at hv
  by_cases hjf : j = f
  · simp [hjf] at hw
  rw [if_neg hif] at hv
  rw [if_neg hjf] at hw
  exact h i j v w hij hj hv hw hkey

/-- **A table in order is emptied**, from slot `i` on when the slots before it are. -/
theorem sweep_inOrder (c : ℕ) : ∀ (i : ℕ) (m : Map ι), m.Wf key → m.InOrder key → i + c = m.size →
    (∀ j < i, ∀ v, m.data j ≠ .item v) →
    (sweep key (List.range' i c) m).1 = (List.range' i c).filterMap (fun j => (m.data j).item?) ∧
      mapItems (sweep key (List.range' i c) m).2 = [] := by
  induction c with
  | zero =>
      intro i m _ _ hsize hbefore
      refine ⟨rfl, List.eq_nil_iff_forall_not_mem.mpr fun v hv => ?_⟩
      obtain ⟨j, hj, hdata⟩ := mem_mapItems.mp hv
      have hj' : j < m.size := hj
      exact hbefore j (by omega) v hdata
  | succ c ih =>
      intro i m hwf hord hsize hbefore
      rw [List.range'_succ]
      by_cases hitem : ∃ v, m.data i = .item v
      · obtain ⟨v, hv⟩ := hitem
        obtain ⟨f, u, hlive, hu, huk, hmin, hsweep⟩ :=
          sweep_of_item hwf (by omega) hv (List.range' (i + 1) c)
        obtain ⟨hf, -⟩ := mem_live.mp hlive
        have hfi : f = i := by
          have hle := hmin i (by omega) v hv rfl
          rcases lt_trichotomy f i with hlt | heq | hgt
          · exact absurd hu (hbefore f hlt u)
          · exact heq
          · have := hord i f v u hgt hf hv hu huk.symm
            omega
        subst hfi
        rw [hv, Entry.item.injEq] at hu
        subst hu
        obtain ⟨hout, hempty⟩ := ih (f + 1) (m.erase f) (hwf.erase hlive) (hord.erase f)
          (by have : (m.erase f).size = m.size := rfl
              omega)
          (by intro j hj w hw
              rw [data_erase] at hw
              by_cases hjf : j = f
              · simp [hjf] at hw
              · rw [if_neg hjf] at hw
                exact hbefore j (by omega) w hw)
        rw [hsweep]
        refine ⟨?_, hempty⟩
        rw [List.filterMap_cons, item?_eq_some.mpr hv, hout]
        refine congrArg (v :: ·) ?_
        refine List.filterMap_congr fun j hj => ?_
        have hne : j ≠ f := by
          have := (List.mem_range'_1.mp hj).1
          omega
        rw [data_erase, if_neg hne]
      · have hnot : ∀ v, m.data i ≠ .item v := fun v hv => hitem ⟨v, hv⟩
        have hnone : (m.data i).item? = none := Option.isNone_iff_eq_none.mp (item?_isNone.mpr hnot)
        rw [sweep_of_not_item hnot, List.filterMap_cons, hnone]
        refine ih (i + 1) m hwf hord (by omega) fun j hj => ?_
        rcases Nat.lt_succ_iff_lt_or_eq.mp hj with hlt | rfl
        · exact hbefore j hlt
        · exact hnot

/-- The slots with an item of the key `k`. -/
def Map.slotsOf (key : ι → UInt32) (k : UInt32) (m : Map ι) : Finset ℕ :=
  (Finset.range m.size).filter fun j => (m.data j).hasKey key k

theorem mem_slotsOf {j : ℕ} :
    j ∈ m.slotsOf key k ↔ j < m.size ∧ ∃ v, m.data j = .item v ∧ key v = k := by
  rw [Map.slotsOf, Finset.mem_filter, Finset.mem_range, hasKey_iff]

theorem slotsOf_erase (f : ℕ) : (m.erase f).slotsOf key k = (m.slotsOf key k).erase f := by
  ext i
  rw [Finset.mem_erase, mem_slotsOf, mem_slotsOf, data_erase]
  by_cases hif : i = f
  · simp [hif]
  · simp [Map.erase, hif]

theorem slotsOf_erase_of_ne {f : ℕ} {u : ι} (hu : m.data f = .item u) (hne : key u ≠ k) :
    (m.erase f).slotsOf key k = m.slotsOf key k := by
  rw [slotsOf_erase, Finset.erase_eq_of_notMem]
  intro hf
  obtain ⟨-, x, hx, hxk⟩ := mem_slotsOf.mp hf
  rw [hu, Entry.item.injEq] at hx
  exact hne (hx ▸ hxk)

/-- The state of a sweep that has come to slot `a` of the table `m₀`, in which a search for `k`
comes to the slot `w` last: more items with the key are left than there are slots of the key up to
`w`. -/
structure Outlives (key : ι → UInt32) (k : UInt32) (m₀ : Map ι) (w a : ℕ) (m : Map ι) : Prop where
  size : m.size = m₀.size
  sub : m.slotsOf key k ⊆ m₀.slotsOf key k
  mem : w ∈ m.slotsOf key k
  more : a ≤ w → ((m₀.slotsOf key k).filter fun j => a ≤ j ∧ j ≤ w).card < (m.slotsOf key k).card

section Outlives

variable {m₀ : Map ι} {w a : ℕ}

theorem filter_succ_subset (S : Finset ℕ) :
    S.filter (fun j => a + 1 ≤ j ∧ j ≤ w) ⊆ S.filter fun j => a ≤ j ∧ j ≤ w := by
  intro j hj
  obtain ⟨hmem, haj, hjw⟩ := Finset.mem_filter.mp hj
  exact Finset.mem_filter.mpr ⟨hmem, by omega, hjw⟩

theorem Outlives.pass (h : Outlives key k m₀ w a m) {m' : Map ι} (hsize : m'.size = m.size)
    (hsame : m'.slotsOf key k = m.slotsOf key k) : Outlives key k m₀ w (a + 1) m' := by
  refine ⟨hsize.trans h.size, by rw [hsame]; exact h.sub, by rw [hsame]; exact h.mem, fun haw => ?_⟩
  rw [hsame]
  exact lt_of_le_of_lt (Finset.card_le_card (filter_succ_subset _)) (h.more (by omega))

/-- A slot of the key that is passed is one less up to `w`. -/
theorem Outlives.card_succ (h : Outlives key k m₀ w a m) (ha : a ∈ m.slotsOf key k) (haw : a ≤ w) :
    ((m₀.slotsOf key k).filter fun j => a + 1 ≤ j ∧ j ≤ w).card + 1 < (m.slotsOf key k).card := by
  refine lt_of_le_of_lt (Finset.card_lt_card ⟨filter_succ_subset _, fun hback => ?_⟩) (h.more haw)
  have hmem : a ∈ (m₀.slotsOf key k).filter (fun j => a ≤ j ∧ j ≤ w) :=
    Finset.mem_filter.mpr ⟨h.sub ha, le_rfl, haw⟩
  have := (Finset.mem_filter.mp (hback hmem)).2.1
  omega

theorem Outlives.remove
    (hlast : ∀ i ∈ m₀.slotsOf key k, i ≠ w → dist m₀.size k.toNat i < dist m₀.size k.toNat w)
    (h : Outlives key k m₀ w a m) (ha : a ∈ m.slotsOf key k) {f : ℕ} (hf : f ∈ m.slotsOf key k)
    (hfirst : ∀ i ∈ m.slotsOf key k, dist m.size k.toNat f ≤ dist m.size k.toNat i) :
    Outlives key k m₀ w (a + 1) (m.erase f) := by
  have hother : ∃ x ∈ m.slotsOf key k, x ≠ w := by
    by_cases haw : a = w
    · have htwo : 1 < (m.slotsOf key k).card :=
        lt_of_le_of_lt (Nat.le_add_left 1 _) (h.card_succ ha haw.le)
      exact Finset.exists_mem_ne htwo w
    · exact ⟨a, ha, haw⟩
  obtain ⟨x, hx, hxw⟩ := hother
  have hfw : w ≠ f := by
    rintro rfl
    have hlt := hlast x (h.sub hx) hxw
    have hle := hfirst x hx
    rw [h.size] at hle
    omega
  refine ⟨h.size, ?_, ?_, fun haw => ?_⟩
  · rw [slotsOf_erase]
    exact (Finset.erase_subset _ _).trans h.sub
  · rw [slotsOf_erase]
    exact Finset.mem_erase.mpr ⟨hfw, h.mem⟩
  · have hcard := h.card_succ ha (by omega)
    rw [slotsOf_erase, Finset.card_erase_of_mem hf]
    omega

/-- **The last item outlives the sweep.** -/
theorem sweep_outlives
    (hlast : ∀ i ∈ m₀.slotsOf key k, i ≠ w → dist m₀.size k.toNat i < dist m₀.size k.toNat w)
    (c : ℕ) :
    ∀ (a : ℕ) (m : Map ι), m.Wf key → a + c = m.size → Outlives key k m₀ w a m →
      w ∈ (sweep key (List.range' a c) m).2.slotsOf key k := by
  induction c with
  | zero => exact fun a m _ _ h => h.mem
  | succ c ih =>
      intro a m hwf hsize h
      rw [List.range'_succ]
      by_cases hitem : ∃ v, m.data a = .item v
      · obtain ⟨v, hv⟩ := hitem
        obtain ⟨f, u, hlive, hu, huk, hmin, hsweep⟩ :=
          sweep_of_item hwf (by omega) hv (List.range' (a + 1) c)
        have hsize' : (m.erase f).size = m.size := rfl
        rw [hsweep]
        refine ih (a + 1) (m.erase f) (hwf.erase hlive) (by omega) ?_
        by_cases hkey : key v = k
        · refine h.remove hlast (mem_slotsOf.mpr ⟨by omega, v, hv, hkey⟩)
            (mem_slotsOf.mpr ⟨(mem_live.mp hlive).1, u, hu, huk.trans hkey⟩) fun i hi => ?_
          obtain ⟨hi, x, hx, hxk⟩ := mem_slotsOf.mp hi
          rw [← hkey]
          exact hmin i hi x hx (hxk.trans hkey.symm)
        · exact h.pass hsize' (slotsOf_erase_of_ne hu fun huk' => hkey (huk.symm.trans huk'))
      · rw [sweep_of_not_item fun v hv => hitem ⟨v, hv⟩]
        exact ih (a + 1) m hwf (by omega) (h.pass rfl rfl)

end Outlives

/-- **A table that is emptied is in order.** -/
theorem inOrder_of_sweep (hwf : m.Wf key)
    (hempty : mapItems (sweep key (List.range' 0 m.size) m).2 = []) :
    m.InOrder key := by
  intro i j v w hij hj hv hw hkey
  by_contra hnot
  have hi : i ∈ m.slotsOf key (key v) := mem_slotsOf.mpr ⟨by omega, v, hv, rfl⟩
  have hjk : j ∈ m.slotsOf key (key v) := mem_slotsOf.mpr ⟨hj, w, hw, hkey.symm⟩
  obtain ⟨l, hl, hmax⟩ := Finset.exists_max_image (m.slotsOf key (key v))
    (dist m.size (key v).toNat) ⟨i, hi⟩
  have hlj : l < j := by
    have hle := hmax i hi
    have hlm := (mem_slotsOf.mp hl).1
    have hhome : (key v).toNat % m.size < m.size := Nat.mod_lt _ (by omega)
    unfold Probing.dist at hnot hle
    split_ifs at hnot hle
    all_goals omega
  have hlast : ∀ x ∈ m.slotsOf key (key v), x ≠ l → dist m.size (key v).toNat x <
      dist m.size (key v).toNat l := by
    intro x hx hxl
    refine lt_of_le_of_ne (hmax x hx) fun heq => hxl ?_
    exact dist_inj (mem_slotsOf.mp hx).1 (mem_slotsOf.mp hl).1 heq
  have hsurvives := sweep_outlives hlast m.size 0 m hwf (by omega)
    ⟨rfl, fun _ hx => hx, hl, fun _ => by
    refine Finset.card_lt_card ⟨Finset.filter_subset _ _, fun hback => ?_⟩
    have := (Finset.mem_filter.mp (hback hjk)).2.2
    omega⟩
  obtain ⟨hlt, x, hx, -⟩ := mem_slotsOf.mp hsurvives
  have hmem := mem_mapItems.mpr ⟨l, hlt, hx⟩
  rw [hempty] at hmem
  cases hmem

end Sweep

/-! ### The loop of `ctrl_cmd_bye` -/

section Bye

variable {s : Ns} {n : UInt32} {p : ℕ}

/-- The packets for the removal of servers. -/
def byePackets (s : Ns) (removed : List Server) : List Sent :=
  removed.flatMap fun q => announceLocal s false q ++ notifyObservers s.lookups false q

/-- **The loop sweeps the table of the node.** -/
theorem byeLoop_sweep (js : List ℕ) : ∀ s : Ns, s.Inv → s.Has n p →
    (byeLoop p js s).1 = byePackets s (sweep Server.key js (s.table n)).1 ∧ (byeLoop p js s).2.Inv ∧
      (byeLoop p js s).2.view = s.view.setTable n (sweep Server.key js (s.table n)).2 := by
  induction js with
  | nil =>
      intro s h _
      refine ⟨rfl, h, ?_⟩
      simp only [sweep, View.setTable, byeLoop]
      exact congrArg (fun t => (⟨t, s.lookups, s.registered⟩ : View))
        (Function.update_eq_self n s.table).symm
  | cons j js ih =>
      intro s h hp
      have htable := table_of_has h hp
      rw [byeLoop, sweep, htable]
      cases hitem : ((s.services p).data j).item? with
      | none =>
          simp only
          rw [← htable]
          exact ih s h hp
      | some v =>
          have hkey : hashU32 v.port = v.key := rfl
          simp only [serverDel, hkey]
          cases hget : mapGet Server.key (s.services p) v.key with
          | none =>
              simp only [List.nil_append]
              rw [← htable]
              exact ih s h hp
          | some u =>
              simp only
              obtain ⟨hinv, hhas, hview⟩ :=
                setServices_spec h hp (mapRemove Server.key (s.services p) u.key).2
              obtain ⟨hout, hinv', hview'⟩ := ih _ hinv hhas
              have hnew : (s.setServices p (mapRemove Server.key (s.services p) u.key).2).table n =
                  (mapRemove Server.key (s.services p) u.key).2 := by
                have := congrArg (fun v : View => v.table n) hview
                rwa [View.table_setTable] at this
              rw [hnew] at hout hview'
              refine ⟨?_, hinv', ?_⟩
              · rw [hout]
                rfl
              · rw [hview', hview]
                simp only [View.setTable, Function.update_idem]

theorem flatMap_eq_of_nodup {α β : Type} [DecidableEq α] {x : α} {f : α → List β} :
    ∀ {l : List α}, l.Nodup → x ∈ l →
    (∀ y ∈ l, y ≠ x → f y = []) → l.flatMap f = f x := by
  intro l
  induction l with
  | nil =>
      intro _ hx
      cases hx
  | cons y l ih =>
      intro hnodup hx hother
      obtain ⟨hy, hl⟩ := List.nodup_cons.mp hnodup
      rw [List.flatMap_cons]
      by_cases hyx : y = x
      · subst hyx
        have hrest : l.flatMap f = [] := by
          rw [List.flatMap_eq_nil_iff]
          intro z hz
          refine hother z (List.mem_cons_of_mem _ hz) ?_
          rintro rfl
          exact hy hz
        rw [hrest, List.append_nil]
      · rw [hother y List.mem_cons_self hyx, List.nil_append]
        refine ih hl ((List.mem_cons.mp hx).resolve_left (Ne.symm hyx)) fun z hz => ?_
        exact hother z (List.mem_cons_of_mem _ hz)

theorem serverQuery_filter_node (h : s.Inv) (hv : s.view.Inv) (n : UInt32) :
    (serverQuery matchAll s).filter (fun q => q.node = n) = mapItems (s.table n) := by
  have hmatch : ∀ p, (mapItems (s.services p)).filter (fun srv => serverMatch srv matchAll) =
      mapItems (s.services p) :=
    fun p => List.filter_eq_self.mpr fun q _ => serverMatch_matchAll q
  have howned : ∀ p ∈ mapItems s.nodes, ∀ q ∈ mapItems (s.services p), q.node =
      (nodeAt s.heap p).id := by
    intro p hp q hq
    rw [← table_of_has h ⟨hp, rfl⟩] at hq
    exact hv.owned _ q hq
  simp only [serverQuery, hmatch, List.filter_flatMap]
  by_cases hex : ∃ p, s.Has n p
  · obtain ⟨p, hp⟩ := hex
    rw [flatMap_eq_of_nodup (nodup_keys h.unique).of_map hp.1, table_of_has h hp]
    · refine List.filter_eq_self.mpr fun q hq => ?_
      rw [howned p hp.1 q hq, hp.2]
      exact decide_eq_true rfl
    · intro p' hp' hne
      refine List.filter_eq_nil_iff.mpr fun q hq hqn => hne ?_
      have hid : s.Has n p' := ⟨hp', (howned p' hp' q hq).symm.trans (of_decide_eq_true hqn)⟩
      exact Option.some.inj (((mapGet_nodes h).mpr hid).symm.trans ((mapGet_nodes h).mpr hp))
  · rw [table_of_not_has h fun p hp => hex ⟨p, hp⟩]
    refine List.flatMap_eq_nil_iff.mpr fun p hp => ?_
    refine List.filter_eq_nil_iff.mpr fun q hq hqn => hex ⟨p, hp, ?_⟩
    exact (howned p hp q hq).symm.trans (of_decide_eq_true hqn)

/-- The servers whose removal a lookup is told of. -/
def dels (l : Lookup) (out : List Sent) : List Server :=
  out.filterMap fun
    | .notify id dest false (some q) => if id = l.id ∧ dest = l.sq then some q else none
    | _ => none

theorem dels_append (l : Lookup) (a b : List Sent) : dels l (a ++ b) = dels l a ++ dels l b :=
  List.filterMap_append

theorem dels_propagate (l : Lookup) (s : Ns) (a : NodeAllocs) (pkt : Packet) :
    dels l (propagate s a pkt).1 = [] := by
  unfold propagate
  rcases nodeGet s a s.localNode with ⟨_ | p, s'⟩
  · rfl
  · simp [dels, List.filterMap_map]

theorem dels_notifyObservers (l : Lookup) (q : Server) (ls : List Lookup) :
    dels l (notifyObservers ls false q) =
    ls.flatMap fun l' => if l'.observes q = true ∧ l'.id = l.id ∧
    l'.sq = l.sq then [q] else [] := by
  induction ls with
  | nil => rfl
  | cons l' ls ih =>
      rw [List.flatMap_cons, ← ih, notifyObservers, List.filter_cons]
      cases hobs : l'.observes q with
      | false => simp [notifyObservers]
      | true =>
          simp only [if_true, List.map_cons, true_and]
          rw [dels, List.filterMap_cons]
          by_cases hsame : l'.id = l.id ∧ l'.sq = l.sq
          · simp only [if_pos hsame, List.singleton_append]
            rfl
          · simp only [if_neg hsame, List.nil_append]
            rfl

/-- A lookup is told once of a server that it observes. -/
theorem dels_removal (hids : (s.lookups.map Lookup.id).Nodup) {l : Lookup} (hl : l ∈ s.lookups)
    (q : Server) :
    dels l (announceLocal s false q ++ notifyObservers s.lookups false q) = if l.observes q then [q]
      else [] := by
  have hlocal : dels l (announceLocal s false q) = [] := by
    unfold announceLocal
    split_ifs
    · rfl
    · rfl
  rw [dels_append, hlocal, List.nil_append, dels_notifyObservers,
    flatMap_eq_of_nodup hids.of_map hl]
  · simp
  · intro l' hl' hne
    have hid : l'.id ≠ l.id := fun hid => hne (List.inj_on_of_nodup_map hids hl' hl hid)
    rw [if_neg fun h => hid h.2.1]

theorem dels_byePackets (hids : (s.lookups.map Lookup.id).Nodup) {l : Lookup} (hl : l ∈ s.lookups)
    (removed : List Server) : dels l (byePackets s removed) = removed.filter fun q =>
    l.observes q := by
  induction removed with
  | nil => rfl
  | cons q removed ih =>
      rw [byePackets, List.flatMap_cons, dels_append, dels_removal hids hl, ← byePackets, ih,
        List.filter_cons]
      split_ifs
      · rfl
      · rfl

theorem propagate_view (h : s.Inv) (a : NodeAllocs) (pkt : Packet) :
    (propagate s a pkt).2.view = s.view := by
  have hgot := nodeGet_spec h a s.localNode
  unfold propagate
  rcases hnode : nodeGet s a s.localNode with ⟨_ | p, s'⟩
  · rw [hnode] at hgot
    exact hgot.view
  · rw [hnode] at hgot
    exact hgot.view

/-- **`ctrl_cmd_bye`** sweeps the table of the sender. -/
theorem ctrlCmdBye_sweep (h : s.Inv) (a : Allocs) (sq : SockAddr) :
    ∃ removed m, sweep Server.key (List.range' 0 (s.table sq.node).size) (s.table sq.node) =
      (removed, m) ∧
      (ctrlCmdBye s a sq).2.table sq.node = m ∧ ∀ l ∈ s.lookups, (s.lookups.map Lookup.id).Nodup →
        dels l (ctrlCmdBye s a sq).1 = removed.filter fun q => l.observes q := by
  have hgot := nodeGet_spec h a.sender sq.node
  unfold ctrlCmdBye
  rcases hnode : nodeGet s a.sender sq.node with ⟨_ | p, s'⟩
  · rw [hnode] at hgot
    have hempty : s.table sq.node = mapCreate := table_of_nodeGet_none (by rw [hnode])
    have hsame : s'.table sq.node = s.table sq.node :=
      congrArg (fun v : View => v.table sq.node) hgot.view
    refine ⟨[], mapCreate, by rw [hempty]; rfl, hsame.trans hempty, fun l _ _ => rfl⟩
  · rw [hnode] at hgot
    have hp := hgot.has p rfl
    have htable : s'.table sq.node = s.table sq.node :=
      congrArg (fun v : View => v.table sq.node) hgot.view
    have hlookups : s'.lookups = s.lookups := congrArg View.lookups hgot.view
    obtain ⟨hout, hinv, hview⟩ := byeLoop_sweep (List.range (s'.services p).size) s' hgot.inv hp
    refine ⟨_, _, rfl, ?_, fun l hl hids => ?_⟩
    · have hfinal := (propagate_view hinv a.localNode (.bye sq.node)).trans hview
      refine (congrArg (fun v : View => v.table sq.node) hfinal).trans ?_
      rw [View.table_setTable, ← table_of_has hgot.inv hp, htable, List.range_eq_range']
    · rw [← hlookups] at hl hids
      rw [dels_append, dels_propagate, List.append_nil, hout, dels_byePackets hids hl,
        ← table_of_has hgot.inv hp, htable,
        List.range_eq_range']

theorem table_wf {localNode : UInt32} {P : Ns → Input → Prop} {h : List (Input × List Sent)}
    (hrun : Run ctrlPortFn P (nsInit localNode) h s) (n : UInt32) : (s.table n).Wf Server.key :=
      (inv_of_run hrun).2.wf n

/-- What BYE from the node `n` is for. -/
structure Purged (n : UInt32) (s : Ns) (out : List Sent) (s' : Ns) : Prop where
  gone : ∀ q ∈ serverQuery matchAll s', q.node ≠ n
  told : ∀ l ∈ s.lookups, (dels l out).Perm ((serverQuery matchAll s).filter fun q => q.node = n ∧
    l.observes q = true)
  others : ∀ q, q.node ≠ n → (q ∈ serverQuery matchAll s' ↔ q ∈ serverQuery matchAll s)

/-- **BYE purges a node exactly when its table is in order**: for no port does the search come to a
server at a lower slot after one at a higher slot. -/
theorem bye_purges_iff {localNode : UInt32} {h : List (Input × List Sent)}
    (hrun : Run ctrlPortFn (fun _ _ => True) (nsInit localNode) h s) (a : Allocs) (sq : SockAddr) :
    Purged sq.node s (ctrlCmdBye s a sq).1 (ctrlCmdBye s a sq).2 ↔
    (s.table sq.node).InOrder Server.key := by
  obtain ⟨hinv, hview⟩ := inv_of_run hrun
  have hhandles := @ctrlCmdBye_handles (fun _ _ => True) s hinv a sq
  have hview' := hhandles.change.inv hview
  obtain ⟨removed, m, hsweep, htable, hdels⟩ := ctrlCmdBye_sweep hinv a sq
  constructor
  · intro hpurged
    refine inOrder_of_sweep (table_wf hrun sq.node) ?_
    rw [hsweep, List.eq_nil_iff_forall_not_mem]
    intro q hq
    rw [← htable] at hq
    have hnode := hview'.owned sq.node q hq
    refine hpurged.gone q ((mem_serverQuery_matchAll hhandles.inv hview').mpr ?_) hnode
    rwa [hnode]
  · intro hord
    obtain ⟨hremoved, hempty⟩ :=
      sweep_inOrder (s.table sq.node).size 0 (s.table sq.node) (table_wf hrun sq.node) hord
      (by omega) (fun j hj => absurd hj (Nat.not_lt_zero j))
    rw [hsweep] at hremoved hempty
    refine ⟨?_, ?_, ?_⟩
    · intro q hq hnode
      rw [mem_serverQuery_matchAll hhandles.inv hview', hnode, htable, hempty] at hq
      cases hq
    · intro l hl
      have hlisted : (serverQuery matchAll s).filter (fun q => q.node = sq.node ∧
          l.observes q = true) =
          (mapItems (s.table sq.node)).filter fun q => l.observes q := by
        rw [← serverQuery_filter_node hinv hview, List.filter_filter]
        refine List.filter_congr fun q _ => ?_
        rw [Bool.decide_and, Bool.decide_eq_true, Bool.and_comm]
      rw [hlisted, hdels l hl hview.ids, mapItems, List.range_eq_range', ← hremoved]
    · intro q hq
      rw [mem_serverQuery_matchAll hhandles.inv hview', mem_serverQuery_matchAll hinv hview]
      have hsame := (hhandles.change.others hq).1
      rw [show (ctrlCmdBye s a sq).2.table q.node = s.table q.node from hsame]

/-- The node 2 says BYE after it has registered a server at the port 7. -/
theorem bye_purges_one : ∃ h s, Run ctrlPortFn (fun _ _ => True) (nsInit 1) h s ∧
    serverQuery matchAll s = [⟨1, 0, 2, 7⟩] ∧
    ∀ a sq, sq.node = 2 → Purged 2 s (ctrlCmdBye s a sq).1 (ctrlCmdBye s a sq).2 := by
  have hrun : Run ctrlPortFn (fun _ _ => True) (nsInit 1) [(packet ⟨2, 7⟩ [4, 1, 0, 2, 7], [])] _ :=
    Run.nil.snoc trivial rfl
  have hord := inOrder_of_sweep (table_wf hrun 2) (by decide +kernel)
  refine ⟨_, _, hrun, by decide, ?_⟩
  rintro a ⟨_, port⟩ rfl
  exact (bye_purges_iff hrun a ⟨2, port⟩).mpr hord

/-- The ports 175 and 431 have the home slot 255.  The second registration of 431 goes to the slot
that 175 left, in front of the first in the order of the search and behind it in the order of the
slots, so the loop removes the one and leaves the other. -/
theorem bye_leaves_server : ∃ h s, Run ctrlPortFn (fun _ _ => True) (nsInit 1) h s ∧
    ¬ Purged 2 s (ctrlCmdBye s ⟨true, ⟨true, true⟩, true, ⟨true, true⟩, true⟩ ⟨2, 1⟩).1
      (ctrlCmdBye s ⟨true, ⟨true, true⟩, true, ⟨true, true⟩, true⟩ ⟨2, 1⟩).2 := by
  have h₁ : Run ctrlPortFn (fun _ _ => True) (nsInit 1) [(packet ⟨2, 1⟩ [4, 1, 0, 2, 175], [])] _ :=
    Run.nil.snoc trivial rfl
  have h₂ := h₁.snoc (i := packet ⟨2, 1⟩ [4, 1, 0, 2, 431]) (o := []) trivial rfl
  have h₃ := h₂.snoc (i := packet ⟨2, 1⟩ [5, 0, 0, 2, 175]) (o := []) trivial rfl
  have h₄ := h₃.snoc (i := packet ⟨2, 1⟩ [4, 1, 0, 2, 431]) (o := []) trivial rfl
  refine ⟨_, _, h₄, fun hpurged => ?_⟩
  exact hpurged.gone ⟨1, 0, 2, 431⟩ (by decide) rfl

end Bye

end Imola.Qrtr
