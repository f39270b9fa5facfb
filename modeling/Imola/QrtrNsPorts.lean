import Imola.QrtrNsPurge

/-! # Ports of the local node

A packet from a port of the local node is meant to touch the registrations of that port only.  Two
commands do more.  BYE is about a node, and `ctrl_cmd_bye` takes it from any port: the servers of
all local ports go.  And when NEW_SERVER comes to a full table, `map_rehash` keeps one server for a
port that has several.

`Kept` says of two views that the registrations of the other ports are the same.  Every other
command keeps them, and these two exactly in the states that `Input.Spares` describes
(`ports_isolated_iff`). -/

namespace Imola.Qrtr

open Imola.Runs

/-! ### The items of a key -/

section ItemsOf

variable {ι : Type} {key : ι → UInt32} {m : Map ι} {k : UInt32} {j : ℕ} {v : ι}

/-- The items with the key `k`, in the order of the slots. -/
def Map.itemsOf (key : ι → UInt32) (k : UInt32) (m : Map ι) : List ι :=
  (mapItems m).filter fun v => key v = k

theorem mem_itemsOf : v ∈ m.itemsOf key k ↔ v ∈ mapItems m ∧ key v = k := by
  simp [Map.itemsOf]

theorem itemsOf_congr {m' : Map ι} (hsize : m'.size = m.size)
    (h : ∀ j < m.size, ∀ v, key v = k → (m'.data j = .item v ↔ m.data j = .item v)) :
    m'.itemsOf key k = m.itemsOf key k := by
  simp only [Map.itemsOf, mapItems, List.filter_filterMap, hsize]
  refine List.filterMap_congr fun j hj => ?_
  apply Option.ext
  intro v
  simp only [Option.filter_eq_some_iff, item?_eq_some, decide_eq_true_eq]
  exact and_congr_left fun hk => h j (List.mem_range.mp hj) v hk

theorem itemsOf_erase {u : ι} (hu : m.data j = .item u) (hne : key u ≠ k) :
    (m.erase j).itemsOf key k = m.itemsOf key k := by
  refine itemsOf_congr rfl fun i _ w hk => ?_
  rw [data_erase]
  by_cases hij : i = j
  · subst hij
    rw [if_pos rfl, hu, Entry.item.injEq]
    refine iff_of_false (by simp) ?_
    rintro rfl
    exact hne hk
  · rw [if_neg hij]

theorem itemsOf_store {k' : UInt32} (hp : m.Picks key k' j) (hv : key v = k') (hne : k' ≠ k) :
    (m.store j v).itemsOf key k = m.itemsOf key k := by
  refine itemsOf_congr rfl fun i _ w hk => ?_
  rw [data_store]
  by_cases hij : i = j
  · subst hij
    rw [if_pos rfl, Entry.item.injEq]
    refine iff_of_false ?_ ?_
    · rintro rfl
      exact hne (hv.symm.trans hk)
    · intro hw
      obtain hnone | ⟨u, hu, huk⟩ := hp.stop
      · exact hnone w hw
      · rw [hw, Entry.item.injEq] at hu
        exact hne (huk.symm.trans (hu ▸ hk))
  · rw [if_neg hij]

theorem length_itemsOf (m : Map ι) : (m.itemsOf key k).length = (m.slotsOf key k).card := by
  rw [Map.slotsOf, ← List.toFinset_range, ← List.toFinset_filter,
    List.toFinset_card_of_nodup (List.nodup_range.filter _), Map.itemsOf, mapItems,
    List.filter_filterMap,
    List.length_filterMap_eq_countP, List.countP_eq_length_filter]
  refine congrArg List.length (List.filter_congr fun j _ => ?_)
  cases hdata : m.data j with
  | item u => by_cases hk : key u = k <;> simp [Entry.item?, Entry.hasKey, hk]
  | _ => rfl

theorem length_itemsOf_le_one (hu : m.Unique key) : (m.itemsOf key k).length ≤ 1 := by
  rw [length_itemsOf, Finset.card_le_one]
  intro i hi j hj
  obtain ⟨hi, v, hv, hvk⟩ := mem_slotsOf.mp hi
  obtain ⟨hj, w, hw, hwk⟩ := mem_slotsOf.mp hj
  exact hu hi hj hv hw (hvk.trans hwk.symm)

/-- **`map_rehash` keeps the items of a key exactly when there is at most one.** -/
theorem itemsOf_mapRehash {n : Map ι} (h : mapRehash key m = some n) :
    n.itemsOf key k = m.itemsOf key k ↔ (m.itemsOf key k).length ≤ 1 := by
  obtain ⟨n', hn', -, -, -, hu, hsub, hkeys⟩ := @mapRehash_items ι key m
  obtain rfl := Option.some.inj (h.symm.trans hn')
  have hle : (n.itemsOf key k).length ≤ 1 := length_itemsOf_le_one hu
  have hsub' : ∀ w ∈ n.itemsOf key k, w ∈ m.itemsOf key k := fun w hw =>
    mem_itemsOf.mpr ⟨hsub w (mem_itemsOf.mp hw).1, (mem_itemsOf.mp hw).2⟩
  constructor
  · intro heq
    rw [← heq]
    exact hle
  · intro hone
    cases hm : m.itemsOf key k with
    | nil =>
        refine List.eq_nil_iff_forall_not_mem.mpr fun w hw => ?_
        have hw' := hsub' w hw
        rw [hm] at hw'
        cases hw'
    | cons w rest =>
        obtain rfl : rest = [] := by
          rw [hm] at hone
          exact List.eq_nil_of_length_eq_zero (Nat.le_zero.mp (Nat.le_of_succ_le_succ hone))
        obtain ⟨hw, hwk⟩ := mem_itemsOf.mp (hm ▸ List.mem_singleton_self w)
        obtain ⟨u, hu', huw⟩ := hkeys w hw
        have hmem : u ∈ n.itemsOf key k := mem_itemsOf.mpr ⟨hu', huw.trans hwk⟩
        obtain rfl : u = w := by
          have := hsub' u hmem
          rwa [hm, List.mem_singleton] at this
        obtain ⟨x, hx⟩ := List.length_eq_one_iff.mp (le_antisymm hle (List.length_pos_of_mem hmem))
        rw [hx, List.mem_singleton] at hmem
        rw [hx, hmem]

/-- A sweep only removes. -/
theorem slotsOf_sweep (js : List ℕ) : ∀ m : Map ι, m.Wf key → (∀ j ∈ js, j < m.size) →
    (sweep key js m).2.slotsOf key k ⊆ m.slotsOf key k := by
  induction js with
  | nil => exact fun m _ _ => subset_rfl
  | cons j js ih =>
      intro m hwf hjs
      have hjs' : ∀ j ∈ js, j < m.size := fun j hj => hjs j (List.mem_cons_of_mem _ hj)
      by_cases hitem : ∃ v, m.data j = .item v
      · obtain ⟨v, hv⟩ := hitem
        obtain ⟨f, u, hlive, -, -, -, hsweep⟩ := sweep_of_item hwf (hjs j List.mem_cons_self) hv js
        rw [hsweep]
        refine (ih (m.erase f) (hwf.erase hlive) hjs').trans ?_
        rw [slotsOf_erase]
        exact Finset.erase_subset _ _
      · rw [sweep_of_not_item fun v hv => hitem ⟨v, hv⟩]
        exact ih m hwf hjs'

/-- **A sweep removes an item of every key it meets.** -/
theorem card_slotsOf_sweep {a : ℕ} (js : List ℕ) : ∀ m : Map ι, m.Wf key → (∀ j ∈ js, j < m.size) →
    a ∈ js → a ∈ m.slotsOf key k → ((sweep key js m).2.slotsOf key k).card <
      (m.slotsOf key k).card := by
  induction js with
  | nil => exact fun m _ _ ha => absurd ha List.not_mem_nil
  | cons j js ih =>
      intro m hwf hjs ha hak
      have hjs' : ∀ j ∈ js, j < m.size := fun j hj => hjs j (List.mem_cons_of_mem _ hj)
      obtain ⟨-, w, hw, hwk⟩ := mem_slotsOf.mp hak
      by_cases hitem : ∃ v, m.data j = .item v
      · obtain ⟨v, hv⟩ := hitem
        obtain ⟨f, u, hlive, hu, huk, -, hsweep⟩ :=
          sweep_of_item hwf (hjs j List.mem_cons_self) hv js
        rw [hsweep]
        by_cases hkey : key v = k
        · have hf : f ∈ m.slotsOf key k :=
            mem_slotsOf.mpr ⟨(mem_live.mp hlive).1, u, hu, huk.trans hkey⟩
          have hsub := slotsOf_sweep (k := k) js (m.erase f) (hwf.erase hlive) hjs'
          rw [slotsOf_erase] at hsub
          exact lt_of_le_of_lt (Finset.card_le_card hsub) (Finset.card_erase_lt_of_mem hf)
        · have hsame : (m.erase f).slotsOf key k = m.slotsOf key k :=
            slotsOf_erase_of_ne hu fun huk' => hkey (huk.symm.trans huk')
          have haj : a ≠ j := by
            rintro rfl
            rw [hv, Entry.item.injEq] at hw
            exact hkey (hw ▸ hwk)
          rw [← hsame]
          exact ih (m.erase f) (hwf.erase hlive) hjs' ((List.mem_cons.mp ha).resolve_left haj)
            (by rwa [hsame])
      · rw [sweep_of_not_item fun v hv => hitem ⟨v, hv⟩]
        refine ih m hwf hjs' ((List.mem_cons.mp ha).resolve_left ?_) hak
        rintro rfl
        exact hitem ⟨w, hw⟩

/-- A sweep of the table keeps the items of a key exactly when there is none. -/
theorem itemsOf_sweep (hwf : m.Wf key) :
    (sweep key (List.range' 0 m.size) m).2.itemsOf key k = m.itemsOf key k ↔
    m.itemsOf key k = [] := by
  have hjs : ∀ j ∈ List.range' 0 m.size, j < m.size :=
    fun j hj => by simpa using List.mem_range'_1.mp hj
  constructor
  · intro heq
    have hcard := congrArg List.length heq
    rw [length_itemsOf, length_itemsOf] at hcard
    refine List.eq_nil_of_length_eq_zero ?_
    rw [length_itemsOf, Finset.card_eq_zero, Finset.eq_empty_iff_forall_notMem]
    intro a ha
    have hlt := card_slotsOf_sweep (List.range' 0 m.size) m hwf hjs
      (List.mem_range'_1.mpr ⟨Nat.zero_le _, by have := (mem_slotsOf.mp ha).1; omega⟩) ha
    omega
  · intro hnil
    rw [hnil]
    refine List.eq_nil_of_length_eq_zero ?_
    have hle := Finset.card_le_card (slotsOf_sweep (k := k) (List.range' 0 m.size) m hwf hjs)
    rw [← length_itemsOf, ← length_itemsOf, hnil] at hle
    exact Nat.le_zero.mp hle

end ItemsOf

/-! ### What the commands keep -/

/-- The servers that a port of a node has registered. -/
def serversOf (s : Ns) (n port : UInt32) : List Server :=
  (serverQuery matchAll s).filter fun q => q.node = n ∧ q.port = port

/-- The registrations of the other ports of the node are the same in two states. -/
structure PortsKept (sq : SockAddr) (s s' : Ns) : Prop where
  servers : ∀ port ≠ sq.port, serversOf s' sq.node port = serversOf s sq.node port
  lookups : ∀ port ≠ sq.port, s'.lookups.filter (fun l => l.sq = ⟨sq.node, port⟩) =
    s.lookups.filter (fun l => l.sq = ⟨sq.node, port⟩)

/-- The same for views. -/
structure Kept (sq : SockAddr) (v v' : View) : Prop where
  servers : ∀ port ≠ sq.port, (v'.table sq.node).itemsOf Server.key (hashU32 port) =
    (v.table sq.node).itemsOf Server.key (hashU32 port)
  lookups : ∀ port ≠ sq.port, v'.lookups.filter (fun l => l.sq = ⟨sq.node, port⟩) =
    v.lookups.filter (fun l => l.sq = ⟨sq.node, port⟩)

section Commands

variable {s : Ns} {sq : SockAddr} {v v' w : View}

theorem serversOf_eq (h : s.Inv) (hv : s.view.Inv) (n port : UInt32) :
    serversOf s n port = (s.table n).itemsOf Server.key (hashU32 port) := by
  rw [Map.itemsOf, ← serverQuery_filter_node h hv, List.filter_filter, serversOf]
  refine List.filter_congr fun q _ => ?_
  simp only [Server.key, hashU32_injective.eq_iff, Bool.decide_and, Bool.and_comm]

theorem portsKept_iff {s' : Ns} (h : s.Inv) (hv : s.view.Inv) (h' : s'.Inv) (hv' : s'.view.Inv) :
    PortsKept sq s s' ↔ Kept sq s.view s'.view := by
  constructor
  · rintro ⟨hservers, hlookups⟩
    refine ⟨fun port hport => ?_, hlookups⟩
    have := hservers port hport
    rwa [serversOf_eq h hv, serversOf_eq h' hv'] at this
  · rintro ⟨hservers, hlookups⟩
    refine ⟨fun port hport => ?_, hlookups⟩
    rw [serversOf_eq h hv, serversOf_eq h' hv']
    exact hservers port hport

theorem Kept.refl (sq : SockAddr) (v : View) : Kept sq v v := ⟨fun _ _ => rfl, fun _ _ => rfl⟩

theorem Kept.trans (h : Kept sq v v') (h' : Kept sq v' w) : Kept sq v w :=
  ⟨fun port hport => (h'.servers port hport).trans (h.servers port hport),
    fun port hport => (h'.lookups port hport).trans (h.lookups port hport)⟩

theorem Kept.of_eq (h : v' = v) : Kept sq v v' := h ▸ Kept.refl sq v

theorem kept_setTable_iff {m : Map Server} : Kept sq v (v.setTable sq.node m) ↔
    ∀ port ≠ sq.port, m.itemsOf Server.key (hashU32 port) = (v.table sq.node).itemsOf Server.key
      (hashU32 port) := by
  constructor
  · intro h port hport
    have := h.servers port hport
    rwa [View.table_setTable] at this
  · intro h
    refine ⟨fun port hport => ?_, fun _ _ => rfl⟩
    rw [View.table_setTable]
    exact h port hport

theorem kept_filter {keep : Lookup → Bool} (hkeep : ∀ l ∈ v.lookups, keep l = false → l.sq = sq) :
    Kept sq v { v with lookups := v.lookups.filter keep } := by
  refine ⟨fun _ _ => rfl, fun port hport => ?_⟩
  simp only [List.filter_filter]
  refine List.filter_congr fun l hl => ?_
  cases hk : keep l with
  | true => simp
  | false =>
      have hne : l.sq ≠ ⟨sq.node, port⟩ := by
        rw [hkeep l hl hk]
        intro heq
        exact hport (congrArg SockAddr.port heq).symm
      simp [hne]

theorem serverDel_kept (h : s.Inv) (hv : s.view.Inv) {p : ℕ} (hp : s.Has sq.node p) :
    Kept sq s.view (serverDel s p sq.port).2.view := by
  have htable := table_of_has h hp
  unfold serverDel
  cases hget : mapGet Server.key (s.services p) (hashU32 sq.port) with
  | none => exact Kept.refl sq _
  | some srv =>
      obtain ⟨-, -, hview⟩ := setServices_spec h hp (mapRemove Server.key (s.services p) srv.key).2
      rw [hview, kept_setTable_iff]
      intro port hport
      rw [← htable] at hget ⊢
      have hwf : (s.table sq.node).Wf Server.key := hv.wf sq.node
      have hkey : srv.key = hashU32 sq.port := (mem_of_mapGet hwf hget).2
      obtain ⟨-, hremove⟩ | ⟨f, hfind, -, hremove⟩ := mapRemove_spec hwf srv.key
      · rw [hremove]
        rfl
      · obtain ⟨-, ⟨u, hu, huk⟩, -⟩ := (mapFind_eq_some_iff hwf).mp hfind
        rw [hremove]
        refine itemsOf_erase hu ?_
        rw [huk, hkey, hashU32_injective.ne_iff]
        exact hport.symm

theorem delServer_kept (h : s.Inv) (hv : s.view.Inv) (a : NodeAllocs) :
    Kept sq s.view (match nodeGet s a sq.node with
      | (none, s) => (([], s) : List Sent × Ns)
      | (some p, s) => serverDel s p sq.port).2.view := by
  have hgot := nodeGet_spec h a sq.node
  rcases hnode : nodeGet s a sq.node with ⟨_ | p, s'⟩
  · rw [hnode] at hgot
    exact Kept.of_eq hgot.view
  · rw [hnode] at hgot
    have hv' : s'.view.Inv := by
      rw [hgot.view]
      exact hv
    exact (Kept.of_eq hgot.view).trans (serverDel_kept hgot.inv hv' (hgot.has p rfl))

theorem ctrlCmdDelServer_kept (h : s.Inv) (hv : s.view.Inv) (hlocal : sq.node = s.localNode)
    (a : Allocs)
    (node port : UInt32) : Kept sq s.view (ctrlCmdDelServer s a sq node port).2.view := by
  have hclaimed : claimed s sq node port = sq := if_pos hlocal
  rw [ctrlCmdDelServer, hclaimed]
  simp only [ne_eq, not_true_eq_false, if_false, and_false]
  exact delServer_kept h hv a.sender

theorem ctrlCmdDelClient_kept (h : s.Inv) (hv : s.view.Inv) (hlocal : sq.node = s.localNode)
    (a : Allocs)
    (node port : UInt32) : Kept sq s.view (ctrlCmdDelClient s a sq node port).2.view := by
  unfold ctrlCmdDelClient
  split_ifs with hnode hport
  · exact Kept.refl sq _
  · exact Kept.refl sq _
  · obtain rfl : sq.node = node := not_not.mp hnode
    obtain rfl : sq.port = port := not_not.mp fun hne => hport ⟨hlocal, hne⟩
    have hforget : Handles (fun _ _ => True) sq.node s
        ([], { s with lookups := s.lookups.filter fun l =>
        ¬(l.sq.node = sq.node ∧ l.sq.port = sq.port) }) := by
      refine forget_handles h fun l _ hl => ?_
      simp only [decide_not, Bool.not_eq_false', decide_eq_true_eq] at hl
      exact hl.1
    have hdel := delServer_handles (G := fun _ _ => True) (n := sq.node) hforget.inv
      a.sender sq.port
    refine Kept.trans ?_ (Kept.trans (delServer_kept hforget.inv (hforget.change.inv hv) a.sender)
      (Kept.of_eq (propagate_view hdel.inv a.localNode _)))
    refine kept_filter fun l _ hl => ?_
    simp only [decide_not, Bool.not_eq_false', decide_eq_true_eq] at hl
    cases hlsq : l.sq with
    | mk node port =>
        rw [hlsq] at hl
        cases sq
        simp_all

theorem ctrlCmdNewLookup_kept (a : Allocs) (service inst : UInt32) :
    Kept sq s.view (ctrlCmdNewLookup s a sq service inst).2.view := by
  unfold ctrlCmdNewLookup
  split_ifs
  · exact Kept.refl sq _
  · refine ⟨fun _ _ => rfl, fun port hport => ?_⟩
    have hne : sq ≠ ⟨sq.node, port⟩ := fun heq => hport (congrArg SockAddr.port heq).symm
    simp [Ns.view, List.filter_append, hne]
  · exact Kept.refl sq _

theorem ctrlCmdDelLookup_kept (service inst : UInt32) :
    Kept sq s.view (ctrlCmdDelLookup s sq service inst).2.view := by
  refine kept_filter fun l _ hl => ?_
  simp only [decide_not, Bool.not_eq_false', decide_eq_true_eq] at hl
  exact hl.1

theorem serverDel_lookups (s : Ns) (p : ℕ) (port : UInt32) :
    (serverDel s p port).2.lookups = s.lookups := by
  unfold serverDel
  split <;> rfl

theorem byeLoop_lookups {p : ℕ} (js : List ℕ) :
    ∀ s : Ns, (byeLoop p js s).2.lookups = s.lookups := by
  induction js with
  | nil => exact fun _ => rfl
  | cons j js ih =>
      intro s
      rw [byeLoop]
      cases hitem : ((s.services p).data j).item? with
      | none => exact ih s
      | some srv =>
          exact (ih _).trans (serverDel_lookups s p srv.port)

theorem ctrlCmdBye_lookups (h : s.Inv) (a : Allocs) :
    (ctrlCmdBye s a sq).2.lookups = s.lookups := by
  have hgot := nodeGet_spec h a.sender sq.node
  unfold ctrlCmdBye
  rcases hnode : nodeGet s a.sender sq.node with ⟨_ | p, s'⟩
  · rw [hnode] at hgot
    exact congrArg View.lookups hgot.view
  · rw [hnode] at hgot
    have hloop : Handles (fun _ _ => True) sq.node s'
        (byeLoop p (List.range (s'.services p).size) s') :=
      byeLoop_handles _ s' hgot.inv (hgot.has p rfl)
    have hend := congrArg View.lookups (propagate_view hloop.inv a.localNode (.bye sq.node))
    exact hend.trans ((byeLoop_lookups _ s').trans (congrArg View.lookups hgot.view))

/-- **BYE** keeps the registrations of the other ports when they have no server. -/
theorem ctrlCmdBye_kept_iff (h : s.Inv) (hv : s.view.Inv) (a : Allocs) :
    Kept sq s.view (ctrlCmdBye s a sq).2.view ↔
    ∀ port ≠ sq.port, serversOf s sq.node port = [] := by
  obtain ⟨removed, m, hsweep, htable, -⟩ := ctrlCmdBye_sweep h a sq
  have hwf : (s.table sq.node).Wf Server.key := hv.wf sq.node
  have hitems : ∀ port, ((ctrlCmdBye s a sq).2.table sq.node).itemsOf Server.key (hashU32 port) =
      (s.table sq.node).itemsOf Server.key (hashU32 port) ↔ serversOf s sq.node port = [] := by
    intro port
    rw [serversOf_eq h hv, ← itemsOf_sweep hwf, hsweep, htable]
  constructor
  · intro hkept port hport
    exact (hitems port).mp (hkept.servers port hport)
  · intro hnone
    refine ⟨fun port hport => (hitems port).mpr (hnone port hport), fun port _ => ?_⟩
    exact congrArg (List.filter _) (ctrlCmdBye_lookups h a)

theorem kept_reput_iff (hv : v.Inv) {calloc : Bool} {srv : Server} {old : Option Server}
    {m : Map Server}
    (hport : srv.port = sq.port)
    (hreput : mapReput Server.key calloc (v.table sq.node) srv.key srv = some (old, m)) :
    Kept sq v (v.setTable sq.node m) ↔ ((v.table sq.node).count = (v.table sq.node).size →
      ∀ port ≠ sq.port, ((v.table sq.node).itemsOf Server.key (hashU32 port)).length ≤ 1) := by
  have hwf := hv.wf sq.node
  have hother : ∀ port ≠ sq.port, srv.key ≠ hashU32 port := by
    intro port hne
    rw [Server.key, hport, hashU32_injective.ne_iff]
    exact hne.symm
  rw [kept_setTable_iff]
  cases Nat.lt_or_eq_of_le (count_le_size hwf) with
  | inl hroom =>
      obtain ⟨j, hp, hstore⟩ := mapReput_of_room hwf hroom calloc srv.key srv
      rw [hstore] at hreput
      cases hreput
      refine iff_of_true (fun port hne => itemsOf_store hp rfl (hother port hne)) fun hfull => ?_
      exact absurd hfull hroom.ne
  | inr hfull =>
      obtain ⟨hfalse, n, j, hrehash, -, -, hp, htrue⟩ :=
        @mapReput_of_full _ Server.key _ hfull srv.key srv
      cases calloc with
      | false =>
          rw [hfalse] at hreput
          cases hreput
      | true =>
          rw [htrue] at hreput
          cases hreput
          simp only [hfull, true_imp_iff]
          refine forall₂_congr fun port hne => ?_
          rw [itemsOf_store hp rfl (hother port hne), itemsOf_mapRehash hrehash]

theorem registerServer_kept_iff (h : s.Inv) (hv : s.view.Inv) (a : Allocs) {srv : Server}
    (hnode : srv.node = sq.node)
    (hport : srv.port = sq.port) :
    Kept sq s.view (registerServer s a srv).2.view ↔
      (a.services → (s.table sq.node).count = (s.table sq.node).size →
        ∀ port ≠ sq.port, ((s.table sq.node).itemsOf Server.key (hashU32 port)).length ≤ 1) := by
  have hgot := nodeGet_spec h a.sender sq.node
  rw [registerServer, hnode]
  rcases hget : nodeGet s a.sender sq.node with ⟨_ | p, s'⟩
  · rw [hget] at hgot
    have hempty : s.table sq.node = mapCreate := table_of_nodeGet_none (by rw [hget])
    refine iff_of_true (Kept.of_eq hgot.view) fun _ _ port _ => ?_
    rw [hempty]
    exact Nat.zero_le 1
  · rw [hget] at hgot
    have hp := hgot.has p rfl
    have htable : s'.services p = s.table sq.node :=
      (table_of_has hgot.inv hp).symm.trans (congrArg (fun v : View => v.table sq.node) hgot.view)
    simp only [htable]
    cases hreput : mapReput Server.key a.services (s.table sq.node) srv.key srv with
    | none =>
        refine iff_of_true (Kept.of_eq hgot.view) fun hservices hfull => ?_
        obtain ⟨-, n, j, -, -, -, -, htrue⟩ := @mapReput_of_full _ Server.key _ hfull srv.key srv
        rw [hservices, htrue] at hreput
        cases hreput
    | some r =>
        obtain ⟨old, m⟩ := r
        obtain ⟨-, -, hview⟩ := setServices_spec hgot.inv hp m
        have hset : (s'.setServices p m).view = s.view.setTable sq.node m := by
          rw [hview, hgot.view]
        rw [hset]
        refine (kept_reput_iff hv hport hreput).trans ⟨fun hone _ => hone,
          fun hone hfull => hone ?_ hfull⟩
        cases hservices : a.services with
        | true => rfl
        | false =>
            have hfalse := (@mapReput_of_full _ Server.key (s.table sq.node) hfull srv.key srv).1
            rw [hservices, hfalse] at hreput
            cases hreput

/-- **NEW_SERVER** keeps the registrations of the other ports unless the table is full and one of
them has several servers. -/
theorem ctrlCmdNewServer_kept_iff (h : s.Inv) (hv : s.view.Inv) (hlocal : sq.node = s.localNode)
    (a : Allocs)
    (service inst node port : UInt32) :
    Kept sq s.view (ctrlCmdNewServer s a sq service inst node port).2.view ↔
      ((newServer? s sq service inst node port).isSome → a.server → a.services →
        (s.table sq.node).count = (s.table sq.node).size →
        ∀ port ≠ sq.port, (serversOf s sq.node port).length ≤ 1) := by
  simp only [serversOf_eq h hv, ctrlCmdNewServer_eq]
  cases hnew : newServer? s sq service inst node port with
  | none => exact iff_of_true (Kept.refl sq _) fun hsome => nomatch hsome
  | some srv =>
      have hport : srv.port = sq.port := by
        unfold newServer? at hnew
        rw [claimed, if_pos hlocal] at hnew
        dsimp only at hnew
        split_ifs at hnew
        exact congrArg Server.port (Option.some.inj hnew).symm
      by_cases hserver : a.server = true
      · simp only [hserver, if_true, Option.isSome_some, true_imp_iff]
        exact registerServer_kept_iff h hv a (node_of_newServer? hnew) hport
      · simp only [if_neg hserver]
        exact iff_of_true (Kept.refl sq _) fun _ h => absurd h hserver

end Commands

/-! ### Isolation -/

/-- When a packet from a port of the local node leaves the registrations of the other ports alone: a
BYE finds none of their servers, and a NEW_SERVER that makes the table grow finds no port with
several servers. -/
structure Input.Spares (i : Input) (s : Ns) (sq : SockAddr) (bytes : List UInt8) : Prop where
  bye : cmdOf (i.field bytes 0) = .bye → ∀ port ≠ sq.port, serversOf s sq.node port = []
  grow : (i.newServer? s).isSome → i.allocs.server → i.allocs.services →
    (s.table sq.node).count = (s.table sq.node).size →
    ∀ port ≠ sq.port, (serversOf s sq.node port).length ≤ 1

section Runs

variable {localNode : UInt32} {h : List (Input × List Sent)} {s : Ns}

theorem localNode_of_run {P : Ns → Input → Prop} (hrun : Run ctrlPortFn P (nsInit localNode) h s) :
    s.localNode = localNode := by
  refine (@Run.invariant _ _ _ _ _ _ _ (fun _ s => s.Inv ∧ s.localNode = localNode) ?_
    ?_ _ _ hrun).2
  · exact ⟨inv_nsInit localNode, rfl⟩
  · rintro h s i out s' ⟨hinv, hlocal⟩ - hstep
    obtain ⟨n, hhandles⟩ := @handles_of_ok (fun _ _ => True) s hinv i _ hstep fun _ _ => trivial
    exact ⟨hhandles.inv, hhandles.localNode.trans hlocal⟩

theorem ctrlCmd_kept_iff (hs : s.Inv) (hv : s.view.Inv) {i : Input} {sq : SockAddr}
    {datagram : List UInt8}
    (hlocal : sq.node = s.localNode) (hrecv : i.recv = some (sq, datagram))
    (hlen : 4 ≤ (datagram.take 4096).length) :
    Kept sq s.view (ctrlCmd s i sq (datagram.take 4096)).2.view ↔
    i.Spares s sq (datagram.take 4096) := by
  have hnew : i.newServer? s = if cmdOf (i.field (datagram.take 4096) 0) = .newServer then
      newServer? s sq (i.field (datagram.take 4096) 4) (i.field (datagram.take 4096) 8)
        (i.field (datagram.take 4096) 12) (i.field (datagram.take 4096) 16) else none := by
    simp only [Input.newServer?, hrecv, hlen, true_and]
  have hspares : cmdOf (i.field (datagram.take 4096) 0) ≠ .bye →
      cmdOf (i.field (datagram.take 4096) 0) ≠ .newServer →
      i.Spares s sq (datagram.take 4096) := by
    intro hbye hserver
    refine ⟨fun h => absurd h hbye, fun h => ?_⟩
    rw [hnew, if_neg hserver] at h
    cases h
  unfold ctrlCmd
  cases hcmd : cmdOf (i.field (datagram.take 4096) 0) with
  | hello =>
      exact iff_of_true (Kept.of_eq (ctrlCmdHello_spec hs i sq _).2.2.1)
        (hspares (by simp [hcmd]) (by simp [hcmd]))
  | bye =>
      refine (ctrlCmdBye_kept_iff hs hv i.allocs).trans ⟨fun hnone => ⟨fun _ => hnone, fun h => ?_⟩,
        fun h => h.bye hcmd⟩
      rw [hnew, if_neg (by simp [hcmd])] at h
      cases h
  | newServer =>
      rw [if_pos hcmd] at hnew
      refine (ctrlCmdNewServer_kept_iff hs hv hlocal i.allocs _ _ _ _).trans ?_
      rw [← hnew]
      exact ⟨fun hgrow => ⟨fun h => absurd (hcmd.symm.trans h) (by decide), hgrow⟩, fun h => h.grow⟩
  | delServer =>
      exact iff_of_true (ctrlCmdDelServer_kept hs hv hlocal _ _ _)
        (hspares (by simp [hcmd]) (by simp [hcmd]))
  | delClient =>
      exact iff_of_true (ctrlCmdDelClient_kept hs hv hlocal _ _ _)
        (hspares (by simp [hcmd]) (by simp [hcmd]))
  | newLookup =>
      exact iff_of_true (ctrlCmdNewLookup_kept _ _ _) (hspares (by simp [hcmd]) (by simp [hcmd]))
  | delLookup =>
      exact iff_of_true (ctrlCmdDelLookup_kept _ _) (hspares (by simp [hcmd]) (by simp [hcmd]))
  | other => exact iff_of_true (Kept.refl sq _) (hspares (by simp [hcmd]) (by simp [hcmd]))

/-- **Ports of the local node**: in every reachable state, a packet from a local port leaves the
servers and lookups of the other local ports alone exactly when it spares them. -/
theorem ports_isolated_iff
    (hrun : Run ctrlPortFn (fun _ _ => True) (nsInit localNode) h s) {i : Input}
    {sq : SockAddr} {datagram : List UInt8} (hrecv : i.recv = some (sq, datagram))
    (hlocal : sq.node = localNode)
    (hlen : 20 ≤ datagram.length) :
    ∃ out s', ctrlPortFn s i = .ok (out, s') ∧
      (PortsKept sq s s' ↔ i.Spares s sq (datagram.take 4096)) := by
  obtain ⟨hinv, hview⟩ := inv_of_run hrun
  have hlocal' : sq.node = s.localNode := hlocal.trans (localNode_of_run hrun).symm
  have hne : datagram ≠ [] := by
    rintro rfl
    simp at hlen
  obtain ⟨⟨out, s'⟩, hr, hhandles⟩ :=
    @ctrlPortFn_handles (fun _ _ => True) s hinv i sq datagram hrecv hne (fun _ _ => trivial)
  refine ⟨out, s', hr, ?_⟩
  rw [portsKept_iff hinv hview hhandles.inv (hhandles.change.inv hview)]
  have hbytes : 20 ≤ (datagram.take 4096).length := by
    rw [List.length_take]
    omega
  have hstate : s' = (ctrlCmd s i sq (datagram.take 4096)).2 := by
    unfold ctrlPortFn at hr
    simp only [hrecv] at hr
    rw [if_neg (List.ne_nil_of_length_pos (by omega)), if_neg (by omega)] at hr
    exact congrArg Prod.snd (Except.ok.inj hr).symm
  rw [hstate]
  exact ctrlCmd_kept_iff hinv hview hlocal' hrecv (by omega)

/-- The port 7 registers a second service; the server of the port 8 stays. -/
theorem ports_isolated_newServer : ∃ h s out s', Run ctrlPortFn (fun _ _ => True) (nsInit 1) h s ∧
    ctrlPortFn s (packet ⟨1, 7⟩ [4, 5, 0, 0, 0]) = .ok (out, s') ∧ PortsKept ⟨1, 7⟩ s s' := by
  have h₁ : Run ctrlPortFn (fun _ _ => True) (nsInit 1) [(packet ⟨1, 8⟩ [4, 1, 0, 1, 8], _)] _ :=
    Run.nil.snoc trivial rfl
  obtain ⟨out, s', hr, hiff⟩ :=
    ports_isolated_iff h₁ (i := packet ⟨1, 7⟩ [4, 5, 0, 0, 0]) rfl rfl (by decide)
  exact ⟨_, _, out, s', h₁, hr, hiff.mpr ⟨by decide, by decide⟩⟩

/-- BYE from the port 7 removes the server of the port 8. -/
theorem not_ports_isolated_bye : ∃ h s out s', Run ctrlPortFn (fun _ _ => True) (nsInit 1) h s ∧
    ctrlPortFn s (packet ⟨1, 7⟩ [3, 0, 0, 0, 0]) = .ok (out, s') ∧
    serversOf s 1 8 = [⟨1, 0, 1, 8⟩] ∧ serversOf s' 1 8 = [] := by
  have h₁ : Run ctrlPortFn (fun _ _ => True) (nsInit 1) [(packet ⟨1, 8⟩ [4, 1, 0, 1, 8], _)] _ :=
    Run.nil.snoc trivial rfl
  exact ⟨_, _, _, _, h₁, rfl, by decide, by decide⟩

end Runs

end Imola.Qrtr
