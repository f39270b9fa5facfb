import Imola.QrtrNsLookups
import Imola.QrtrPackets

/-! # The snapshot for a new lookup

A NEW_LOOKUP is answered with a NEW_SERVER for every server that matches, and an empty one.  The
servers are collected by `server_query`, with a filter that has a mask, in a list through the
servers themselves (`reply_list`).  Later the observer is told about servers by the loops of
`ctrl_cmd_new_server` and `server_del`, which have filters of their own.

A server is named by its place, the place of its node and the slot in the map of the node.  What the
links between the servers were before the query does not matter.

`snapshot_agrees`: the snapshot has one packet for every slot with a server that matches, the three
filters agree on every server, and only the end of a listing is all zero. -/

namespace Imola.Qrtr

open Imola.Runs Imola.LinkedLists

/-! ### The query -/

/-- The server at a place. -/
def serverAt (s : Ns) (e : ℕ × ℕ) : Option Server := ((s.services e.1).data e.2).item?

/-- The places with a server, in the order of the two loops of `server_query`. -/
def entries (s : Ns) : List (ℕ × ℕ) :=
  (mapItems s.nodes).flatMap fun p =>
    ((List.range (s.services p).size).filter fun j => (serverAt s (p, j)).isSome).map fun j =>
      (p, j)

/-- The server at a place matches. -/
def listed (f : ServerFilter) (s : Ns) (e : ℕ × ℕ) : Bool :=
  (serverAt s e).any fun srv => serverMatch srv f

/-- `server_query`, with the list of the servers that match. -/
def serverQueryLinks (f : ServerFilter) (s : Ns) (L : Links (ℕ × ℕ)) : Links (ℕ × ℕ) :=
  (entries s).foldl (fun L e => if listed f s e then listAppend L e else L) (listInit L)

/-- The loop of `ctrl_cmd_new_lookup` over the list. -/
def replyLoop (s : Ns) (L : Links (ℕ × ℕ)) (id : ℕ) (sq : SockAddr) (fuel : ℕ) :
    Option (List Sent) :=
  listForEach (fun _ e => L.next e)
    (fun e out => (serverAt s e).map fun srv => out ++ [.notify id sq true (some srv)])
    fuel L.head []

/-- A server is in a slot of the map of a node. -/
structure IsEntry (s : Ns) (e : ℕ × ℕ) (srv : Server) : Prop where
  node : e.1 ∈ mapItems s.nodes
  slot : e.2 < (s.services e.1).size
  data : (s.services e.1).data e.2 = .item srv

section Query

variable {s : Ns} {e : ℕ × ℕ} {srv : Server} {f : ServerFilter}

theorem mem_entries : e ∈ entries s ↔ ∃ srv, IsEntry s e srv := by
  obtain ⟨p, j⟩ := e
  simp only [entries, List.mem_flatMap, List.mem_map, List.mem_filter, List.mem_range]
  constructor
  · rintro ⟨p', hp, j', ⟨hj, hsome⟩, heq⟩
    cases heq
    obtain ⟨srv, hsrv⟩ := Option.isSome_iff_exists.mp hsome
    exact ⟨srv, hp, hj, item?_eq_some.mp hsrv⟩
  · rintro ⟨srv, hp, hj, hdata⟩
    refine ⟨p, hp, j, ⟨hj, ?_⟩, rfl⟩
    rw [serverAt, item?_eq_some.mpr hdata]
    rfl

theorem serverAt_of_isEntry (h : IsEntry s e srv) : serverAt s e = some srv :=
  item?_eq_some.mpr h.data

theorem nodup_entries (h : s.Inv) : (entries s).Nodup := by
  rw [entries, List.nodup_flatMap]
  refine ⟨fun p _ => ?_, ?_⟩
  · exact (List.nodup_range.filter _).map fun a b hab => (Prod.mk.inj hab).2
  · refine (List.Nodup.of_map _ (nodup_keys h.unique)).imp fun hne => ?_
    intro e he he'
    obtain ⟨_, _, rfl⟩ := List.mem_map.mp he
    obtain ⟨_, _, heq⟩ := List.mem_map.mp he'
    exact hne (Prod.mk.inj heq).1.symm

theorem holds_serverQueryLinks (h : s.Inv) (f : ServerFilter) (L : Links (ℕ × ℕ)) :
    (serverQueryLinks f s L).Holds ((entries s).filter (listed f s)) := by
  have hloop : ∀ (es done : List (ℕ × ℕ)) (L : Links (ℕ × ℕ)), (done ++ es).Nodup →
      L.Holds (done.filter (listed f s)) →
      (es.foldl (fun L e => if listed f s e then listAppend L e else L) L).Holds
        ((done ++ es).filter (listed f s)) := by
    intro es
    induction es with
    | nil =>
        intro done L _ hL
        rwa [List.append_nil]
    | cons e es ih =>
        intro done L hnodup hL
        rw [List.foldl_cons, ← List.singleton_append, ← List.append_assoc]
        apply ih
        · rwa [List.append_assoc, List.singleton_append]
        · rw [List.filter_append, List.filter_singleton]
          cases hlisted : listed f s e with
          | true =>
              rw [if_pos rfl, cond_true]
              apply holds_listAppend hL
              intro hmem
              exact (List.nodup_cons.mp (List.nodup_middle.mp hnodup)).1
                (List.mem_append_left _ (List.mem_of_mem_filter hmem))
          | false =>
              rw [if_neg Bool.false_ne_true, cond_false, List.append_nil]
              exact hL
  exact hloop (entries s) [] (listInit L) (nodup_entries h) (holds_listInit L)

theorem replyLoop_eq {L : Links (ℕ × ℕ)} {es : List ((ℕ × ℕ) × Server)}
    (hL : L.Holds (es.map Prod.fst))
    (hes : ∀ p ∈ es, serverAt s p.1 = some p.2) (id : ℕ) (sq : SockAddr) {fuel : ℕ}
    (hfuel : es.length ≤ fuel) :
    replyLoop s L id sq fuel = some (es.map fun p => .notify id sq true (some p.2)) := by
  rw [replyLoop, @listForEach_collects _ _ _ L es hL
    _ (fun srv => [.notify id sq true (some srv)]) ?_ _ hfuel,
    ← List.map_eq_flatMap]
  · intro p hp out
    rw [hes p hp, Option.map_some]

/-- The places that match, with their servers. -/
def matching (f : ServerFilter) (s : Ns) : List ((ℕ × ℕ) × Server) :=
  (entries s).filterMap fun e =>
    ((serverAt s e).filter fun srv => serverMatch srv f).map fun srv => (e, srv)

theorem mem_matching : (e, srv) ∈ matching f s ↔ IsEntry s e srv ∧ serverMatch srv f = true := by
  simp only [matching, List.mem_filterMap, Option.map_eq_some_iff, Option.filter_eq_some_iff]
  constructor
  · rintro ⟨e', he, srv', ⟨hsrv, hmatch⟩, heq⟩
    cases heq
    obtain ⟨srv'', hentry⟩ := mem_entries.mp he
    obtain rfl := Option.some.inj ((serverAt_of_isEntry hentry).symm.trans hsrv)
    exact ⟨hentry, hmatch⟩
  · rintro ⟨hentry, hmatch⟩
    exact ⟨e, mem_entries.mpr ⟨srv, hentry⟩, srv, ⟨serverAt_of_isEntry hentry, hmatch⟩, rfl⟩

theorem map_fst_matching (f : ServerFilter) (s : Ns) :
    (matching f s).map Prod.fst = (entries s).filter (listed f s) := by
  rw [matching, List.map_filterMap, ← List.filterMap_eq_filter]
  refine List.filterMap_congr fun e _ => ?_
  rcases Option.eq_none_or_eq_some (serverAt s e) with hnone | ⟨srv, hsrv⟩
  · simp [Option.guard, listed, hnone]
  · cases hmatch : serverMatch srv f with
    | true => simp [Option.guard, listed, hsrv, hmatch]
    | false => simp [Option.guard, listed, hsrv, hmatch]

/-- The servers that `server_query` finds are those at the places that match. -/
theorem map_snd_matching (f : ServerFilter) (s : Ns) :
    (matching f s).map Prod.snd = serverQuery f s := by
  rw [matching, entries, List.map_filterMap, List.filterMap_flatMap, serverQuery]
  refine List.flatMap_congr fun p _ => ?_
  rw [mapItems, List.filterMap_map, List.filterMap_filter, List.filter_filterMap]
  refine List.filterMap_congr fun j _ => ?_
  rcases Option.eq_none_or_eq_some ((s.services p).data j).item? with hnone | ⟨srv, hsrv⟩
  · simp [serverAt, hnone]
  · simp [serverAt, hsrv]

end Query

/-! ### The notifications -/

/-- A loop over the lookups; `skips` tells when a round does `continue`. -/
def notifyLoop (m : LookupMem) (skips : Lookup → Bool) (new : Bool) (srv : Server) (fuel : ℕ) :
    Option (List Sent) :=
  listForEach (fun _ addr => m.links.next addr)
    (fun addr out => (m.cell addr).map fun l =>
      if skips l then out else out ++ [.notify l.id l.sq new (some srv)])
    fuel m.links.head []

/-- The tests in `ctrl_cmd_new_server`. -/
def newServerSkips (service inst : UInt32) (l : Lookup) : Bool :=
  if l.service ≠ 0 ∧ l.service ≠ service then true
  else if l.inst ≠ 0 ∧ l.inst ≠ inst then true
  else false

/-- The tests in `server_del`. -/
def serverDelSkips (srv : Server) (l : Lookup) : Bool :=
  if l.service ≠ 0 ∧ l.service ≠ srv.service then true
  else if l.inst ≠ 0 ∧ l.inst ≠ srv.inst then true
  else false

/-- The loop of `ctrl_cmd_new_server`. -/
def newServerLoop (m : LookupMem) (srv : Server) (fuel : ℕ) : Option (List Sent) :=
  notifyLoop m (newServerSkips srv.service srv.inst) true srv fuel

/-- The loop of `server_del`. -/
def serverDelLoop (m : LookupMem) (srv : Server) (fuel : ℕ) : Option (List Sent) :=
  notifyLoop m (serverDelSkips srv) false srv fuel

section Notifications

variable {m : LookupMem} {ps : List (ℕ × Lookup)} {fuel : ℕ}

theorem newServerSkips_eq (srv : Server) (l : Lookup) :
    newServerSkips srv.service srv.inst l = !l.observes srv := by
  unfold newServerSkips Lookup.observes
  split_ifs with hservice hinst
  · simp [hservice.1, hservice.2]
  · simp [hinst.1, hinst.2]
  · push Not at hservice hinst
    simpa [or_iff_not_imp_left] using ⟨hservice, hinst⟩

theorem notifyLoop_eq (h : m.Holds ps) {skips : Lookup → Bool} {srv : Server}
    (hskips : ∀ l, skips l = !l.observes srv)
    (new : Bool) (hfuel : ps.length ≤ fuel) :
    notifyLoop m skips new srv fuel = some (notifyObservers (ps.map Prod.snd) new srv) := by
  rw [notifyLoop, @listForEach_collects _ _ _ m.links ps h.links _
    (fun l => if l.observes srv then [.notify l.id l.sq new (some srv)] else []) ?_ _ hfuel]
  · refine congrArg some ?_
    clear h hfuel
    induction ps with
    | nil => rfl
    | cons p ps ih =>
        rw [List.flatMap_cons, ih, List.map_cons]
        simp only [notifyObservers, List.filter_cons]
        split_ifs
        · rfl
        · rfl
  · intro p hp out
    rw [h.cells p hp, Option.map_some, hskips]
    cases p.2.observes srv with
    | true => rfl
    | false => exact congrArg some (List.append_nil out).symm

end Notifications

/-! ### The snapshot and the notifications -/

/-- A lookup is told about a server by the loop of `ctrl_cmd_new_server`. -/
def NotifiedNew (t : NsMem) (l : Lookup) (q : Server) : Prop :=
  ∃ out, newServerLoop t.mem q t.ns.registered = some out ∧ .notify l.id l.sq true (some q) ∈ out

/-- A lookup is told about a server by the loop of `server_del`. -/
def NotifiedDel (t : NsMem) (l : Lookup) (q : Server) : Prop :=
  ∃ out, serverDelLoop t.mem q t.ns.registered = some out ∧ .notify l.id l.sq false (some q) ∈ out

/-- What is sent for a new lookup, which leads from `t` to `t'`: `es` are the places of the servers
in the snapshot. -/
structure Snapshot (t t' : NsMem) (l : Lookup) (out : List Sent) (es : List ((ℕ × ℕ) × Server)) :
    Prop where
  lookups : t'.ns.lookups = t.ns.lookups ++ [l]
  once : (es.map Prod.fst).Nodup
  entries : ∀ e srv, (e, srv) ∈ es ↔
    IsEntry t.ns e srv ∧ serverMatch srv ⟨l.service, l.inst, 0⟩ = true
  sent : out = es.map (fun p => .notify l.id l.sq true (some p.2)) ++ [.notify l.id l.sq true none]
  /-- The loop over `reply_list` sends them, whatever the links of the servers were. -/
  reply : ∀ L fuel, es.length ≤ fuel →
    replyLoop t.ns (serverQueryLinks ⟨l.service, l.inst, 0⟩ t.ns L) l.id l.sq fuel =
      some (es.map fun p => .notify l.id l.sq true (some p.2))
  new : ∀ e srv, IsEntry t.ns e srv → ((e, srv) ∈ es ↔ NotifiedNew t' l srv)
  del : ∀ e srv, IsEntry t.ns e srv → ((e, srv) ∈ es ↔ NotifiedDel t' l srv)

section Agree

variable {localNode : UInt32} {h : List ((Input × ℕ) × List Sent)} {t : NsMem}

/-- In a reachable state the two loops are those of the name service. -/
theorem loops_of_run (hrun : Run ctrlPortFnMem FreshAddr (memInit localNode) h t) (q : Server) :
    newServerLoop t.mem q t.ns.registered = some (notifyObservers t.ns.lookups true q) ∧
      serverDelLoop t.mem q t.ns.registered = some (notifyObservers t.ns.lookups false q) := by
  obtain ⟨ps, hps⟩ := linked_of_run hrun
  have hlen := length_lookups_le (inv_of_run (run_ns hrun)).2
  have hfuel : ps.length ≤ t.ns.registered := by
    have hsame : t.ns.view.lookups = ps.map Prod.snd := hps.2
    rwa [hsame, List.length_map] at hlen
  rw [hps.2]
  exact ⟨notifyLoop_eq hps.1 (newServerSkips_eq q) true hfuel,
    notifyLoop_eq hps.1 (newServerSkips_eq q) false hfuel⟩

theorem mem_notifyObservers {ls : List Lookup} (hids : (ls.map Lookup.id).Nodup) {l : Lookup}
    (hl : l ∈ ls) (new : Bool)
    (q : Server) : .notify l.id l.sq new (some q) ∈ notifyObservers ls new q ↔
    l.observes q = true := by
  rw [notifyObservers, List.mem_map]
  constructor
  · rintro ⟨l', hl', heq⟩
    obtain ⟨hmem, hobserves⟩ := List.mem_filter.mp hl'
    obtain rfl : l' = l := List.inj_on_of_nodup_map hids hmem hl (Sent.notify.inj heq).1
    exact hobserves
  · intro hobserves
    exact ⟨l, List.mem_filter.mpr ⟨hl, hobserves⟩, rfl⟩

/-- **The three filters agree**, for every lookup that is registered and every server. -/
theorem filters_agree (hrun : Run ctrlPortFnMem FreshAddr (memInit localNode) h t) {l : Lookup}
    (hl : l ∈ t.ns.lookups)
    (q : Server) : (serverMatch q ⟨l.service, l.inst, 0⟩ = true ↔ NotifiedNew t l q) ∧
      (serverMatch q ⟨l.service, l.inst, 0⟩ = true ↔ NotifiedDel t l q) := by
  obtain ⟨hnew, hdel⟩ := loops_of_run hrun q
  have hids := (inv_of_run (run_ns hrun)).2.ids
  rw [serverMatch_eq_observes]
  constructor
  · rw [← mem_notifyObservers hids hl true q, NotifiedNew, hnew]
    exact ⟨fun hmem => ⟨_, rfl, hmem⟩, fun ⟨_, heq, hmem⟩ => Option.some.inj heq ▸ hmem⟩
  · rw [← mem_notifyObservers hids hl false q, NotifiedDel, hdel]
    exact ⟨fun hmem => ⟨_, rfl, hmem⟩, fun ⟨_, heq, hmem⟩ => Option.some.inj heq ▸ hmem⟩

/-- **The snapshot** that is sent when a lookup is registered. -/
theorem snapshot_newLookup (hrun : Run ctrlPortFnMem FreshAddr (memInit localNode) h t)
    {x : Input × ℕ} {sq : SockAddr}
    {service inst : UInt32} (hfresh : FreshAddr t x) (hlocal : sq.node = localNode)
    (hx : x.1.Asks .newLookup sq service inst) (hlookup : x.1.allocs.lookup = true) :
    ∃ out t' es, ctrlPortFnMem t x = .ok (out, t') ∧
    Snapshot t t' ⟨t.ns.registered, service, inst, sq⟩ out es := by
  have hinv := (inv_of_run (run_ns hrun)).1
  have hnode : ¬ sq.node ≠ t.ns.localNode :=
    not_not.mpr (hlocal.trans (localNode_of_run (run_ns hrun)).symm)
  have hstep := ctrlPortFnMem_newLookup hx t
  rw [if_neg hnode, if_pos hlookup, ← map_snd_matching, List.map_map] at hstep
  have hagree := @filters_agree localNode _ _ (hrun.snoc hfresh hstep)
    ⟨t.ns.registered, service, inst, sq⟩
    (List.mem_append_right _ (List.mem_singleton_self _))
  have hentries : ∀ e srv, IsEntry t.ns e srv →
      ((e, srv) ∈ matching ⟨service, inst, 0⟩ t.ns ↔
        serverMatch srv ⟨service, inst, 0⟩ = true) := by
    intro e srv he
    rw [mem_matching]
    exact and_iff_right he
  have hplaces : ∀ p ∈ matching ⟨service, inst, 0⟩ t.ns, serverAt t.ns p.1 = some p.2 :=
    fun p hp => serverAt_of_isEntry (mem_matching.mp hp).1
  refine ⟨_, _, matching ⟨service, inst, 0⟩ t.ns, hstep, rfl, ?_, fun e srv => mem_matching,
    rfl, ?_, ?_, ?_⟩
  · rw [map_fst_matching]
    exact (nodup_entries hinv).filter _
  · intro L fuel hfuel
    refine replyLoop_eq ?_ hplaces _ _ hfuel
    rw [map_fst_matching]
    exact holds_serverQueryLinks hinv _ L
  · intro e srv he
    exact (hentries e srv he).trans (hagree srv).1
  · intro e srv he
    exact (hentries e srv he).trans (hagree srv).2

theorem service_ne_zero {i : Input} {s : Ns} {srv : Server} (hsrv : i.newServer? s = some srv) :
    srv.service ≠ 0 := by
  unfold Input.newServer? at hsrv
  split at hsrv
  · cases hsrv
  · dsimp only at hsrv
    split_ifs at hsrv
    unfold newServer? at hsrv
    dsimp only at hsrv
    split_ifs at hsrv with hrefused
    cases hsrv
    exact fun hzero => hrefused (Or.inr (Or.inl hzero))

/-- **No notification about a server is all zero.** -/
theorem not_allZero_of_run (hrun : Run ctrlPortFnMem FreshAddr (memInit localNode) h t)
    {x : Input × ℕ} {out : List Sent}
    {t' : NsMem} (hstep : ctrlPortFnMem t x = .ok (out, t')) {id : ℕ} {dest : SockAddr} {new : Bool}
    {srv : Server}
    (hmem : .notify id dest new (some srv) ∈ out) : ¬ AllZero (lookupNotify (some srv) new) := by
  have hnext := (run_ns hrun).snoc trivial (ctrlPortFn_of_mem hstep)
  have hreports :=
    (@reports_of_run (fun q => q.service ≠ 0) (fun _ => True) (fun _ _ => True) localNode
    (fun _ _ _ _ _ hsrv => service_ne_zero hsrv) (fun _ _ _ _ _ _ => trivial) _ _ hnext).2
  have hfits := hreports (x.1, out) (List.mem_append_right _ (List.mem_singleton_self _)) _ hmem
  exact not_allZero_lookupNotify hfits.1 new

/-- **The snapshot agrees with the notifications**: a local NEW_LOOKUP for which there is memory is
answered with one packet for each slot with a server that matches, and one that is all zero; what
follows is about the servers that match. -/
theorem snapshot_agrees (hrun : Run ctrlPortFnMem FreshAddr (memInit localNode) h t) :
    (∀ (x : Input × ℕ) (sq : SockAddr) (service inst : UInt32), FreshAddr t x →
      sq.node = localNode →
      x.1.Asks .newLookup sq service inst →
      if x.1.allocs.lookup then
        ∃ out t' es, ctrlPortFnMem t x = .ok (out, t') ∧
          Snapshot t t' ⟨t.ns.registered, service, inst, sq⟩ out es
      else ctrlPortFnMem t x = .ok ([], t)) ∧
    (AllZero (lookupNotify none true) ∧ ∀ x out t', ctrlPortFnMem t x = .ok (out, t') →
      ∀ id dest new srv,
      .notify id dest new (some srv) ∈ out → ¬ AllZero (lookupNotify (some srv) new)) ∧
    ∀ l ∈ t.ns.lookups, ∀ q, (serverMatch q ⟨l.service, l.inst, 0⟩ = true ↔ NotifiedNew t l q) ∧
      (serverMatch q ⟨l.service, l.inst, 0⟩ = true ↔ NotifiedDel t l q) := by
  refine ⟨?_, ⟨allZero_lookupNotify_none true, ?_⟩, ?_⟩
  · intro x sq service inst hfresh hlocal hx
    split_ifs with hlookup
    · exact snapshot_newLookup hrun hfresh hlocal hx hlookup
    · have hnode : ¬ sq.node ≠ t.ns.localNode :=
        not_not.mpr (hlocal.trans (localNode_of_run (run_ns hrun)).symm)
      rw [ctrlPortFnMem_newLookup hx, if_neg hnode, if_neg hlookup]
  · intro x out t' hstep id dest new srv hmem
    exact not_allZero_of_run hrun hstep hmem
  · intro l hl q
    exact filters_agree hrun hl q

/-- A remote server and then a lookup of the port 9 for its service. -/
theorem snapshot_agrees_one : ∃ h t out t' es, Run ctrlPortFnMem FreshAddr (memInit 1) h t ∧
    ctrlPortFnMem t (packet ⟨1, 9⟩ [10, 1, 0], 4) = .ok (out, t') ∧
    Snapshot t t' ⟨0, 1, 0, ⟨1, 9⟩⟩ out es ∧
    out = [.notify 0 ⟨1, 9⟩ true (some ⟨1, 5, 2, 7⟩), .notify 0 ⟨1, 9⟩ true none] := by
  have hrun : Run ctrlPortFnMem FreshAddr (memInit 1) [((packet ⟨2, 7⟩ [4, 1, 5, 2, 7], 0), _)] _ :=
    Run.nil.snoc rfl rfl
  have hasks : Input.Asks (packet ⟨1, 9⟩ [10, 1, 0]) .newLookup ⟨1, 9⟩ 1 0 :=
    ⟨_, rfl, by decide, by decide, by decide, by decide⟩
  obtain ⟨out, t', es, hstep, hsnapshot⟩ :=
    (snapshot_agrees hrun).1 (packet ⟨1, 9⟩ [10, 1, 0], 4) ⟨1, 9⟩ 1 0 rfl rfl hasks
  have hout : .ok (out, t') = ctrlPortFnMem _ _ := hstep.symm
  exact ⟨_, _, out, t', es, hrun, hstep, hsnapshot, congrArg Prod.fst (Except.ok.inj hout)⟩

end Agree

end Imola.Qrtr
