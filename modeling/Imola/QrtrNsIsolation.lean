import Imola.QrtrNs

/-! # What a packet does to the registry

A `View` of the name service forgets where nodes are stored: it has a table of servers for every
node number, empty for a node not heard of, and the lookups.  `Change G n` says what a packet from
the node `n` can do to a view, and what observers are told: register a server of `n`, remove one,
forget lookups of `n`, add one.  `ctrlPortFn_handles` shows that every packet is such a change; `G`
is a condition on the servers that are registered, which a result may ask for.

It follows that a packet from `n` changes nothing of another node (`nodes_isolated`). -/

namespace Imola.Qrtr

open Imola.Runs

/-! ### The view -/

/-- What the name service knows, by node number. -/
structure View where
  table : UInt32 → Map Server
  lookups : List Lookup
  registered : ℕ

namespace View

/-- The servers of a node are in a well-formed table and carry its number; no two lookups were
registered at the same time. -/
structure Inv (v : View) : Prop where
  wf : ∀ n, (v.table n).Wf Server.key
  owned : ∀ n, ∀ q ∈ mapItems (v.table n), q.node = n
  ids : (v.lookups.map Lookup.id).Nodup
  fresh : ∀ l ∈ v.lookups, l.id < v.registered

def setTable (v : View) (n : UInt32) (m : Map Server) : View :=
  { v with table := Function.update v.table n m }

theorem table_setTable (v : View) (n : UInt32) (m : Map Server) : (v.setTable n m).table n = m :=
  Function.update_self _ _ _

theorem table_setTable_of_ne (v : View) {n n' : UInt32} (h : n' ≠ n) (m : Map Server) :
    (v.setTable n m).table n' = v.table n' := Function.update_of_ne h _ _

end View

namespace Ns

/-- `p` is the place of the node with the number `id`. -/
def Has (s : Ns) (id : UInt32) (p : ℕ) : Prop := p ∈ mapItems s.nodes ∧ (nodeAt s.heap p).id = id

def table (s : Ns) (id : UInt32) : Map Server :=
  match mapGet (nodeKey s.heap) s.nodes (hashU32 id) with
  | some p => s.services p
  | none => mapCreate

def view (s : Ns) : View := ⟨s.table, s.lookups, s.registered⟩

/-- The map of nodes has one node for a number, and nothing is ever removed from it. -/
structure Inv (s : Ns) : Prop where
  wf : s.nodes.Wf (nodeKey s.heap)
  unique : s.nodes.Unique (nodeKey s.heap)
  clean : s.nodes.Clean
  lt : ∀ p ∈ mapItems s.nodes, p < s.heap.length

end Ns

theorem inv_nsInit (localNode : UInt32) : (nsInit localNode).Inv := by
  refine ⟨wf_mapCreate, unique_mapCreate, fun i hi => absurd hi (Nat.not_lt_zero i), ?_⟩
  intro p hp
  obtain ⟨j, hj, -⟩ := mem_mapItems.mp hp
  exact absurd hj (Nat.not_lt_zero j)

section Nodes

variable {s : Ns} {id : UInt32} {p : ℕ}

/-- **The hash keys do not confuse nodes.** -/
theorem mapGet_nodes (h : s.Inv) :
    mapGet (nodeKey s.heap) s.nodes (hashU32 id) = some p ↔ s.Has id p := by
  rw [mapGet_eq_some_iff h.wf h.unique, Ns.Has, nodeKey, hashU32_injective.eq_iff]

theorem table_of_has (h : s.Inv) (hp : s.Has id p) : s.table id = s.services p := by
  rw [Ns.table, (mapGet_nodes h).mpr hp]

theorem table_of_not_has (h : s.Inv) (hp : ∀ p, ¬ s.Has id p) : s.table id = mapCreate := by
  have hnone : mapGet (nodeKey s.heap) s.nodes (hashU32 id) = none := by
    rw [Option.eq_none_iff_forall_ne_some]
    intro p hget
    exact hp p ((mapGet_nodes h).mp hget)
  rw [Ns.table, hnone]

/-- States with the same nodes at the same places have the same tables. -/
theorem table_eq_of_has {s' : Ns} (h : s.Inv) (h' : s'.Inv)
    (hkeep : ∀ p, s.Has id p → s'.Has id p ∧ s'.services p = s.services p)
    (hnew : ∀ p, s'.Has id p → s.Has id p ∨ s'.services p = mapCreate) :
    s'.table id = s.table id := by
  by_cases hex : ∃ p, s.Has id p
  · obtain ⟨p, hp⟩ := hex
    obtain ⟨hp', hsame⟩ := hkeep p hp
    rw [table_of_has h hp, table_of_has h' hp', hsame]
  · have hnot : ∀ p, ¬ s.Has id p := fun p hp => hex ⟨p, hp⟩
    rw [table_of_not_has h hnot]
    by_cases hex' : ∃ p, s'.Has id p
    · obtain ⟨p, hp⟩ := hex'
      rw [table_of_has h' hp]
      exact (hnew p hp).resolve_left (hnot p)
    · exact table_of_not_has h' fun p hp => hex' ⟨p, hp⟩

theorem nodeAt_append_of_lt {heap : List Node} {x : Node} (hp : p < heap.length) :
    nodeAt (heap ++ [x]) p = nodeAt heap p := by
  rw [nodeAt, nodeAt, List.getD_append _ _ _ _ hp]

theorem nodeAt_append_length (heap : List Node) (x : Node) :
    nodeAt (heap ++ [x]) heap.length = x := by
  simp [nodeAt]

/-- What is true after `node_get`. -/
structure NodeGot (s : Ns) (id : UInt32) (r : Option ℕ × Ns) : Prop where
  inv : r.2.Inv
  view : r.2.view = s.view
  localNode : r.2.localNode = s.localNode
  has : ∀ p, r.1 = some p → r.2.Has id p

theorem newNode_spec (h : s.Inv) {nodes : Map ℕ}
    (hwf : nodes.Wf (nodeKey (s.heap ++ [⟨id, mapCreate⟩])))
    (hu : nodes.Unique (nodeKey (s.heap ++ [⟨id, mapCreate⟩]))) (hclean : nodes.Clean)
    (hmem : ∀ p, p ∈ mapItems nodes ↔ p = s.heap.length ∨ p ∈ mapItems s.nodes) :
    NodeGot s id (some s.heap.length,
      { s with heap := s.heap ++ [⟨id, mapCreate⟩], nodes := nodes }) := by
  have hold : ∀ p ∈ mapItems s.nodes, nodeAt (s.heap ++ [⟨id, mapCreate⟩]) p = nodeAt s.heap p :=
    fun p hp => nodeAt_append_of_lt (h.lt p hp)
  have hinv : Ns.Inv { s with heap := s.heap ++ [⟨id, mapCreate⟩], nodes := nodes } := by
    refine ⟨hwf, hu, hclean, ?_⟩
    intro p hp
    simp only [List.length_append, List.length_singleton]
    rcases (hmem p).mp hp with rfl | hp
    · exact Nat.lt_succ_self _
    · exact (h.lt p hp).trans (Nat.lt_succ_self _)
  refine ⟨hinv, ?_, rfl, ?_⟩
  · refine congrArg (fun t => (⟨t, s.lookups, s.registered⟩ : View)) (funext fun id' => ?_)
    refine table_eq_of_has h hinv ?_ ?_
    · rintro p ⟨hp, hid⟩
      refine ⟨⟨(hmem p).mpr (Or.inr hp), ?_⟩, ?_⟩
      · rw [hold p hp]
        exact hid
      · simp only [Ns.services, hold p hp]
    · rintro p ⟨hp, hid⟩
      rcases (hmem p).mp hp with rfl | hp
      · exact Or.inr (by simp only [Ns.services, nodeAt_append_length])
      · rw [hold p hp] at hid
        exact Or.inl ⟨hp, hid⟩
  · intro p hp
    obtain rfl := Option.some.inj hp
    exact ⟨(hmem _).mpr (Or.inl rfl), by rw [nodeAt_append_length]⟩

/-- **`node_get`** finds the node with the number or makes one without servers. -/
theorem nodeGet_spec (h : s.Inv) (a : NodeAllocs) (id : UInt32) :
    NodeGot s id (nodeGet s a id) := by
  have hnothing : NodeGot s id (none, s) := ⟨h, rfl, rfl, fun _ hp => by cases hp⟩
  unfold nodeGet
  cases hget : mapGet (nodeKey s.heap) s.nodes (hashU32 id) with
  | some p =>
      refine ⟨h, rfl, rfl, fun q hq => ?_⟩
      obtain rfl := Option.some.inj hq
      exact (mapGet_nodes h).mp hget
  | none =>
      dsimp only
      split_ifs with ha
      swap
      · exact hnothing
      have hkey : ∀ p ∈ mapItems s.nodes, nodeKey (s.heap ++ [⟨id, mapCreate⟩]) p =
          nodeKey s.heap p := by
        intro p hp
        rw [nodeKey, nodeAt_append_of_lt (h.lt p hp), nodeKey]
      have hself : nodeKey (s.heap ++ [⟨id, mapCreate⟩]) s.heap.length = hashU32 id := by
        rw [nodeKey, nodeAt_append_length]
      have hfresh : s.heap.length ∉ mapItems s.nodes :=
        fun hmem => absurd (h.lt _ hmem) (lt_irrefl _)
      rw [mapPut]
      rcases mapReput_unique (h.wf.congr hkey) (h.unique.congr hkey) (h.clean.clear _)
        (fun hmem => absurd hmem hfresh)
          hself (fun _ _ => rfl) a.nodes with ⟨-, hnone⟩ | ⟨nodes, hput, hwf, hu, hclean, hitems⟩
      · rw [hnone]
        exact hnothing
      rw [hput, Option.map_some]
      refine newNode_spec h hwf hu (hclean h.clean) fun p => ?_
      rw [hitems]
      refine or_congr_right ⟨And.left, fun hp => ⟨hp, ?_⟩⟩
      rw [hkey p hp]
      exact (mapGet_eq_none_iff h.wf).mp hget p hp

theorem table_of_nodeGet_none {a : NodeAllocs} (hnone : (nodeGet s a id).1 = none) :
    s.table id = mapCreate := by
  unfold nodeGet at hnone
  rw [Ns.table]
  cases hget : mapGet (nodeKey s.heap) s.nodes (hashU32 id) with
  | none => rfl
  | some p =>
      rw [hget] at hnone
      cases hnone

theorem nodeAt_set {heap : List Node} (hp : p < heap.length) (x : Node) (q : ℕ) :
    nodeAt (heap.set p x) q = if q = p then x else nodeAt heap q := by
  by_cases hqp : q = p
  · subst hqp
    simp [nodeAt, List.getD_eq_getElem?_getD, hp]
  · simp [nodeAt, List.getD_eq_getElem?_getD, hqp, Ne.symm hqp]

theorem setServices_spec (h : s.Inv) (hp : s.Has id p) (m : Map Server) :
    (s.setServices p m).Inv ∧ (s.setServices p m).Has id p ∧
    (s.setServices p m).view = s.view.setTable id m := by
  have hlt := h.lt p hp.1
  have hid : ∀ q, (nodeAt (s.heap.set p ⟨(nodeAt s.heap p).id, m⟩) q).id =
      (nodeAt s.heap q).id := by
    intro q
    rw [nodeAt_set hlt]
    split_ifs with hqp
    · rw [hqp]
    · rfl
  have hkey : nodeKey (s.heap.set p ⟨(nodeAt s.heap p).id, m⟩) = nodeKey s.heap := by
    funext q
    rw [nodeKey, hid, nodeKey]
  have hinv : (s.setServices p m).Inv := by
    refine ⟨?_, ?_, h.clean, ?_⟩
    · simp only [Ns.setServices, hkey]
      exact h.wf
    · simp only [Ns.setServices, hkey]
      exact h.unique
    · simp only [Ns.setServices, List.length_set]
      exact h.lt
  have hhas : ∀ id' q, (s.setServices p m).Has id' q ↔ s.Has id' q := by
    intro id' q
    rw [Ns.Has, Ns.Has]
    exact and_congr_right fun _ => by rw [Ns.setServices, hid]
  refine ⟨hinv, (hhas id p).mpr hp, ?_⟩
  refine congrArg (fun t => (⟨t, s.lookups, s.registered⟩ : View)) (funext fun id' => ?_)
  by_cases hne : id' = id
  · subst hne
    rw [Function.update_self, table_of_has hinv ((hhas _ _).mpr hp), Ns.services, Ns.setServices,
      nodeAt_set hlt,
      if_pos rfl]
  · rw [Function.update_of_ne hne]
    have hsame : ∀ q, s.Has id' q → (s.setServices p m).services q = s.services q := by
      intro q hq
      have hqp : q ≠ p := fun hqp => hne (hq.2.symm.trans (hqp ▸ hp.2))
      rw [Ns.services, Ns.setServices, nodeAt_set hlt, if_neg hqp, Ns.services]
    exact table_eq_of_has h hinv (fun q hq => ⟨(hhas _ _).mpr hq, hsame q hq⟩) fun q hq =>
      Or.inl ((hhas _ _).mp hq)

theorem serverMatch_eq_observes (l : Lookup) (q : Server) :
    serverMatch q ⟨l.service, l.inst, 0⟩ = l.observes q := by
  have hall : q.inst &&& 0xffffffff = q.inst := by
    have : (0xffffffff : UInt32) = -1 := rfl
    rw [this, UInt32.and_neg_one]
  by_cases hs : l.service = 0
  · by_cases hi : l.inst = 0
    · simp [serverMatch, Lookup.observes, hs, hi]
    · simp [serverMatch, Lookup.observes, hs, hi, hall, eq_comm]
  · by_cases hi : l.inst = 0
    · simp [serverMatch, Lookup.observes, hs, hi, eq_comm]
    · simp [serverMatch, Lookup.observes, hs, hi, hall, eq_comm]

/-- **`server_query`** lists the servers in the tables that match. -/
theorem mem_serverQuery (h : s.Inv) {f : ServerFilter} {q : Server} :
    q ∈ serverQuery f s ↔ (∃ n, q ∈ mapItems (s.table n)) ∧ serverMatch q f = true := by
  rw [serverQuery, List.mem_flatMap]
  simp only [List.mem_filter]
  constructor
  · rintro ⟨p, hp, hq, hmatch⟩
    exact ⟨⟨(nodeAt s.heap p).id, by rw [table_of_has h ⟨hp, rfl⟩]; exact hq⟩, hmatch⟩
  · rintro ⟨⟨n, hq⟩, hmatch⟩
    by_cases hex : ∃ p, s.Has n p
    · obtain ⟨p, hp⟩ := hex
      rw [table_of_has h hp] at hq
      exact ⟨p, hp.1, hq, hmatch⟩
    · rw [table_of_not_has h fun p hp => hex ⟨p, hp⟩] at hq
      cases hq

end Nodes

/-! ### Changes -/

/-- What an observer is told about a server. -/
structure Notice where
  lookup : ℕ
  new : Bool
  srv : Server
deriving DecidableEq, Repr

/-- The notifications among the packets.  The end of a listing is left out. -/
def notices (out : List Sent) : List Notice :=
  out.filterMap fun
    | .notify l _ new (some srv) => some ⟨l, new, srv⟩
    | _ => none

/-- The notifications about a server. -/
def tell (lookups : List Lookup) (new : Bool) (srv : Server) : List Notice :=
  (lookups.filter fun l => l.observes srv).map fun l => ⟨l.id, new, srv⟩

/-- What a packet from the node `n` can do, with the notifications. -/
inductive Change (G : View → Server → Prop) (n : UInt32) : View → List Notice → View → Prop
  | refl (v : View) : Change G n v [] v
  | add {v : View} {srv : Server} {calloc : Bool} {old : Option Server} {m : Map Server} : G v srv →
      srv.node = n →
      mapReput Server.key calloc (v.table n) srv.key srv = some (old, m) →
      Change G n v (tell v.lookups true srv) (v.setTable n m)
  | del {v : View} {port : UInt32} {srv : Server} : mapGet Server.key (v.table n)
      (hashU32 port) = some srv →
      Change G n v (tell v.lookups false srv)
        (v.setTable n (mapRemove Server.key (v.table n) srv.key).2)
  | forget {v : View} {keep : Lookup → Bool} : (∀ l ∈ v.lookups, keep l = false → l.sq.node = n) →
      Change G n v [] { v with lookups := v.lookups.filter keep }
  | observe {v : View} {l : Lookup} {listed : List Server} : l.id = v.registered → l.sq.node = n →
      (∀ q, q ∈ listed ↔ (∃ m, q ∈ mapItems (v.table m)) ∧ l.observes q = true) →
      Change G n v (listed.map fun q => ⟨l.id, true, q⟩)
        { v with lookups := v.lookups ++ [l], registered := v.registered + 1 }
  | trans {u v w : View} {a b : List Notice} : Change G n u a v → Change G n v b w →
      Change G n u (a ++ b) w

/-- A result of a command is a change of the view. -/
structure Handles (G : View → Server → Prop) (n : UInt32) (s : Ns) (r : List Sent × Ns) : Prop where
  inv : r.2.Inv
  localNode : r.2.localNode = s.localNode
  change : Change G n s.view (notices r.1) r.2.view

section Handles

variable {G : View → Server → Prop} {n : UInt32} {s : Ns}

theorem notices_append (a b : List Sent) : notices (a ++ b) = notices a ++ notices b :=
  List.filterMap_append

theorem notices_announceLocal (s : Ns) (new : Bool) (srv : Server) :
    notices (announceLocal s new srv) = [] := by
  unfold announceLocal
  split_ifs with h
  · rfl
  · rfl

theorem notices_notifyObservers (lookups : List Lookup) (new : Bool) (srv : Server) :
    notices (notifyObservers lookups new srv) = tell lookups new srv := by
  rw [notices, notifyObservers, List.filterMap_map, tell, ← List.filterMap_eq_map]
  rfl

theorem notices_annouceServers (sendOk : ℕ → Bool) (dest : SockAddr) (servers : List Server) :
    ∀ i, notices (annouceServers sendOk dest i servers) = [] := by
  induction servers with
  | nil => exact fun _ => rfl
  | cons srv rest ih =>
      intro i
      rw [annouceServers]
      split_ifs with hsend
      · exact ih (i + 1)
      · rfl

theorem Handles.quiet {out : List Sent} {s' : Ns} (hinv : s'.Inv)
    (hlocal : s'.localNode = s.localNode)
    (hview : s'.view = s.view) (hout : notices out = []) : Handles G n s (out, s') := by
  refine ⟨hinv, hlocal, ?_⟩
  rw [hout, hview]
  exact Change.refl _

theorem Handles.trans {a b : List Sent} {s₁ s₂ : Ns} (h : Handles G n s (a, s₁))
    (h' : Handles G n s₁ (b, s₂)) :
    Handles G n s (a ++ b, s₂) := by
  refine ⟨h'.inv, h'.localNode.trans h.localNode, ?_⟩
  rw [notices_append]
  exact h.change.trans h'.change

theorem NodeGot.handles {id : UInt32} {r : Option ℕ × Ns} (h : NodeGot s id r) {r' : List Sent × Ns}
    (h' : Handles G n r.2 r') : Handles G n s r' := by
  refine ⟨h'.inv, h'.localNode.trans h.localNode, ?_⟩
  rw [← h.view]
  exact h'.change

theorem serverDel_spec (h : s.Inv) {p : ℕ} (hp : s.Has n p) (port : UInt32) :
    Handles G n s (serverDel s p port) ∧ (serverDel s p port).2.Has n p := by
  have htable := table_of_has h hp
  unfold serverDel
  cases hget : mapGet Server.key (s.services p) (hashU32 port) with
  | none => exact ⟨Handles.quiet h rfl rfl rfl, hp⟩
  | some srv =>
      obtain ⟨hinv, hhas, hview⟩ :=
        setServices_spec h hp (mapRemove Server.key (s.services p) srv.key).2
      refine ⟨⟨hinv, rfl, ?_⟩, hhas⟩
      rw [hview, notices_append, notices_announceLocal, notices_notifyObservers,
        List.nil_append, ← htable]
      refine @Change.del G n s.view port srv ?_
      rw [← hget, ← htable]
      rfl

theorem byeLoop_handles {p : ℕ} (js : List ℕ) :
    ∀ s : Ns, s.Inv → s.Has n p → Handles G n s (byeLoop p js s) := by
  induction js with
  | nil => exact fun s h _ => Handles.quiet h rfl rfl rfl
  | cons j js ih =>
      intro s h hp
      rw [byeLoop]
      cases hitem : ((s.services p).data j).item? with
      | none => exact ih s h hp
      | some srv =>
          obtain ⟨hdel, hhas⟩ := @serverDel_spec G n s h p hp srv.port
          exact hdel.trans (ih _ hdel.inv hhas)

theorem propagate_handles (h : s.Inv) (a : NodeAllocs) (pkt : Packet) :
    Handles G n s (propagate s a pkt) := by
  have hgot := nodeGet_spec h a s.localNode
  unfold propagate
  rcases hnode : nodeGet s a s.localNode with ⟨_ | p, s'⟩
  · rw [hnode] at hgot
    exact Handles.quiet hgot.inv hgot.localNode hgot.view rfl
  · rw [hnode] at hgot
    refine Handles.quiet hgot.inv hgot.localNode hgot.view ?_
    simp [notices, List.filterMap_map]

/-- A HELLO changes nothing that can be seen, and announces only what was there. -/
theorem ctrlCmdHello_spec (h : s.Inv) (i : Input) (sq : SockAddr) (bytes : List UInt8) :
    (ctrlCmdHello s i sq bytes).2.Inv ∧ (ctrlCmdHello s i sq bytes).2.localNode = s.localNode ∧
      (ctrlCmdHello s i sq bytes).2.view = s.view ∧ notices (ctrlCmdHello s i sq bytes).1 = [] := by
  have hgot := nodeGet_spec h i.allocs.localNode s.localNode
  unfold ctrlCmdHello
  dsimp only
  split_ifs with hsend
  · rcases hnode : nodeGet s i.allocs.localNode s.localNode with ⟨_ | p, s'⟩
    · rw [hnode] at hgot
      exact ⟨hgot.inv, hgot.localNode, hgot.view, rfl⟩
    · rw [hnode] at hgot
      exact ⟨hgot.inv, hgot.localNode, hgot.view, notices_annouceServers _ _ _ 1⟩
  · exact ⟨h, rfl, rfl, rfl⟩

theorem ctrlCmdHello_handles (h : s.Inv) (i : Input) (sq : SockAddr) (bytes : List UInt8) :
    Handles G n s (ctrlCmdHello s i sq bytes) := by
  obtain ⟨hinv, hlocal, hview, hout⟩ := ctrlCmdHello_spec h i sq bytes
  exact Handles.quiet hinv hlocal hview hout

theorem ctrlCmdBye_handles (h : s.Inv) (a : Allocs) (sq : SockAddr) :
    Handles G sq.node s (ctrlCmdBye s a sq) := by
  have hgot := nodeGet_spec h a.sender sq.node
  unfold ctrlCmdBye
  rcases hnode : nodeGet s a.sender sq.node with ⟨_ | p, s'⟩
  · rw [hnode] at hgot
    exact Handles.quiet hgot.inv hgot.localNode hgot.view rfl
  · rw [hnode] at hgot
    have hloop : Handles G sq.node s' (byeLoop p (List.range (s'.services p).size) s') :=
      byeLoop_handles _ s' hgot.inv (hgot.has p rfl)
    exact hgot.handles (hloop.trans (propagate_handles hloop.inv _ _))

theorem delServer_handles (h : s.Inv) (a : NodeAllocs) (port : UInt32) :
    Handles G n s (match nodeGet s a n with
      | (none, s) => ([], s)
      | (some p, s) => serverDel s p port) := by
  have hgot := nodeGet_spec h a n
  rcases hnode : nodeGet s a n with ⟨_ | p, s'⟩
  · rw [hnode] at hgot
    exact Handles.quiet hgot.inv hgot.localNode hgot.view rfl
  · rw [hnode] at hgot
    exact hgot.handles (serverDel_spec hgot.inv (hgot.has p rfl) port).1

theorem forget_handles (h : s.Inv) {keep : Lookup → Bool}
    (hkeep : ∀ l ∈ s.lookups, keep l = false → l.sq.node = n) :
    Handles G n s ([], { s with lookups := s.lookups.filter keep }) :=
  ⟨⟨h.wf, h.unique, h.clean, h.lt⟩, rfl, Change.forget hkeep⟩

theorem ctrlCmdDelClient_handles (h : s.Inv) (a : Allocs) (sq : SockAddr) (node port : UInt32) :
    Handles G sq.node s (ctrlCmdDelClient s a sq node port) := by
  unfold ctrlCmdDelClient
  split_ifs with hnode hport
  · exact Handles.quiet h rfl rfl rfl
  · exact Handles.quiet h rfl rfl rfl
  · rw [ne_eq, not_not] at hnode
    subst hnode
    have hforget : Handles G sq.node s ([], { s with lookups := s.lookups.filter fun l =>
        ¬(l.sq.node = sq.node ∧ l.sq.port = port) }) := by
      refine forget_handles h fun l _ hl => ?_
      simp only [decide_not, Bool.not_eq_false', decide_eq_true_eq] at hl
      exact hl.1
    have hdel := hforget.trans (delServer_handles hforget.inv a.sender port)
    exact hdel.trans (propagate_handles hdel.inv _ _)

theorem ctrlCmdDelServer_handles (h : s.Inv) (a : Allocs) (sq : SockAddr) (node port : UInt32) :
    Handles G sq.node s (ctrlCmdDelServer s a sq node port) := by
  unfold ctrlCmdDelServer
  dsimp only
  split_ifs with hnode hport
  · exact Handles.quiet h rfl rfl rfl
  · exact Handles.quiet h rfl rfl rfl
  · rw [ne_eq, not_not] at hnode
    rw [← hnode]
    exact delServer_handles h a.sender _

theorem ctrlCmdDelLookup_handles (h : s.Inv) (sq : SockAddr) (service inst : UInt32) :
    Handles G sq.node s (ctrlCmdDelLookup s sq service inst) := by
  refine forget_handles h fun l _ hl => ?_
  simp only [decide_not, Bool.not_eq_false', decide_eq_true_eq] at hl
  rw [hl.1]

theorem ctrlCmdNewLookup_handles (h : s.Inv) (a : Allocs) (sq : SockAddr) (service inst : UInt32) :
    Handles G sq.node s (ctrlCmdNewLookup s a sq service inst) := by
  unfold ctrlCmdNewLookup
  split_ifs with hnode hlookup
  · exact Handles.quiet h rfl rfl rfl
  · refine ⟨⟨h.wf, h.unique, h.clean, h.lt⟩, rfl, ?_⟩
    have hnotices :
      notices
        ((serverQuery ⟨service, inst, 0⟩ s).map (fun srv =>
          .notify s.registered sq true (some srv)) ++
        [.notify s.registered sq true none]) =
        (serverQuery ⟨service, inst, 0⟩ s).map fun q => ⟨s.registered, true, q⟩ := by
      rw [notices_append, notices, List.filterMap_map, ← List.filterMap_eq_map]
      exact List.append_nil _
    rw [hnotices]
    refine @Change.observe G sq.node s.view ⟨s.registered, service, inst, sq⟩ _ rfl rfl fun q => ?_
    rw [mem_serverQuery h, ← serverMatch_eq_observes]
    rfl
  · exact Handles.quiet h rfl rfl rfl

/-- The server that a NEW_SERVER message asks for, if it is not refused. -/
def newServer? (s : Ns) (sq : SockAddr) (service inst node port : UInt32) : Option Server :=
  let addr := claimed s sq node port
  if sq.node ≠ addr.node ∨ service = 0 ∨ addr.port = 0 then none
  else some ⟨service, inst, addr.node, addr.port⟩

theorem node_of_newServer? {sq : SockAddr} {service inst node port : UInt32} {srv : Server}
    (h : newServer? s sq service inst node port = some srv) : srv.node = sq.node := by
  unfold newServer? at h
  dsimp only at h
  split_ifs at h with hrefused
  obtain rfl := Option.some.inj h
  exact (not_not.mp (not_or.mp hrefused).1).symm

/-- What NEW_SERVER does with a server that it has allocated. -/
def registerServer (s : Ns) (a : Allocs) (srv : Server) : List Sent × Ns :=
  match nodeGet s a.sender srv.node with
  | (none, s) => ([], s)
  | (some p, s) =>
      match mapReput Server.key a.services (s.services p) srv.key srv with
      | none => ([], s)
      | some (_, services) =>
          (announceLocal s true srv ++ notifyObservers s.lookups true srv, s.setServices p services)

/-- **NEW_SERVER** registers the server that is asked for, if there is memory for it. -/
theorem ctrlCmdNewServer_eq (s : Ns) (a : Allocs) (sq : SockAddr)
    (service inst node port : UInt32) :
    ctrlCmdNewServer s a sq service inst node port =
      match newServer? s sq service inst node port with
      | none => ([], s)
      | some srv => if a.server then registerServer s a srv else ([], s) := by
  unfold ctrlCmdNewServer newServer?
  dsimp only
  generalize claimed s sq node port = addr
  by_cases hnode : sq.node = addr.node
  swap
  · rw [if_pos hnode, if_pos (Or.inl hnode)]
  rw [if_neg (not_not.mpr hnode), serverAdd]
  by_cases hzero : service = 0 ∨ addr.port = 0
  · rw [if_pos hzero, if_pos (Or.inr hzero)]
  rw [if_neg hzero, if_neg (not_or.mpr ⟨not_not.mpr hnode, hzero⟩)]
  cases a.server with
  | false => rfl
  | true =>
      simp only [if_true, registerServer]
      rcases nodeGet s a.sender addr.node with ⟨_ | p, s'⟩
      · rfl
      · dsimp only [Server.key]
        cases mapReput Server.key a.services (s'.services p) (hashU32 addr.port)
            ⟨service, inst, addr.node, addr.port⟩ with
        | none => rfl
        | some r => rfl

/-- The server is put into the map of its node, or nothing can be seen. -/
theorem registerServer_cases (s : Ns) (a : Allocs) (srv : Server) :
    registerServer s a srv = ([], (nodeGet s a.sender srv.node).2) ∨
    ∃ p s₁ old m, nodeGet s a.sender srv.node = (some p, s₁) ∧
      mapReput Server.key a.services (s₁.services p) srv.key srv = some (old, m) ∧
      registerServer s a srv = (announceLocal s₁ true srv ++ notifyObservers s₁.lookups true srv,
        s₁.setServices p m) := by
  unfold registerServer
  rcases nodeGet s a.sender srv.node with ⟨_ | p, s₁⟩
  · exact Or.inl rfl
  · dsimp only
    cases hreput : mapReput Server.key a.services (s₁.services p) srv.key srv with
    | none => exact Or.inl rfl
    | some r => exact Or.inr ⟨p, s₁, r.1, r.2, rfl, hreput, rfl⟩

theorem registerServer_handles (h : s.Inv) (a : Allocs) {srv : Server} (hG : G s.view srv) :
    Handles G srv.node s (registerServer s a srv) := by
  have hgot := nodeGet_spec h a.sender srv.node
  rcases registerServer_cases s a srv with hquiet | ⟨p, s₁, old, m, hget, hreput, hsent⟩
  · rw [hquiet]
    exact Handles.quiet hgot.inv hgot.localNode hgot.view rfl
  · rw [hget] at hgot
    have hp := hgot.has p rfl
    obtain ⟨hinv, -, hview⟩ := setServices_spec hgot.inv hp m
    rw [hsent]
    refine hgot.handles ⟨hinv, rfl, ?_⟩
    dsimp only
    rw [hview, notices_append, notices_announceLocal, notices_notifyObservers, List.nil_append]
    refine @Change.add G _ s₁.view _ a.services old m ?_ rfl ?_
    · rw [hgot.view]
      exact hG
    · rw [← hreput, ← table_of_has hgot.inv hp]
      rfl

theorem ctrlCmdNewServer_handles (h : s.Inv) (a : Allocs) (sq : SockAddr)
    (service inst node port : UInt32)
    (hG : ∀ srv, newServer? s sq service inst node port = some srv → G s.view srv) :
    Handles G sq.node s (ctrlCmdNewServer s a sq service inst node port) := by
  rw [ctrlCmdNewServer_eq]
  cases hnew : newServer? s sq service inst node port with
  | none => exact Handles.quiet h rfl rfl rfl
  | some srv =>
      dsimp only
      split_ifs
      · rw [← node_of_newServer? hnew]
        exact registerServer_handles h a (hG srv hnew)
      · exact Handles.quiet h rfl rfl rfl

/-- The server that a packet asks for. -/
def Input.newServer? (i : Input) (s : Ns) : Option Server :=
  match i.recv with
  | none => none
  | some (sq, datagram) =>
      let bytes := datagram.take 4096
      if 4 ≤ bytes.length ∧ cmdOf (i.field bytes 0) = .newServer then
        Qrtr.newServer? s sq (i.field bytes 4) (i.field bytes 8) (i.field bytes 12)
          (i.field bytes 16)
      else none

/-- **Every packet is a change of the view**, by the node that sent it. -/
theorem ctrlPortFn_handles (h : s.Inv) {i : Input} {sq : SockAddr} {datagram : List UInt8}
    (hrecv : i.recv = some (sq, datagram)) (hne : datagram ≠ [])
    (hG : ∀ srv, i.newServer? s = some srv → G s.view srv) :
    ∃ r, ctrlPortFn s i = .ok r ∧ Handles G sq.node s r := by
  have hbytes : datagram.take 4096 ≠ [] := by simp [hne]
  unfold ctrlPortFn
  simp only [Input.newServer?, hrecv] at hG
  simp only [hrecv, hbytes, if_false]
  generalize datagram.take 4096 = bytes at hG ⊢
  split_ifs with hshort
  · exact ⟨_, rfl, Handles.quiet h rfl rfl rfl⟩
  refine ⟨_, rfl, ?_⟩
  unfold ctrlCmd
  cases hcmd : cmdOf (i.field bytes 0) with
  | hello => exact ctrlCmdHello_handles h i sq bytes
  | bye => exact ctrlCmdBye_handles h _ sq
  | newServer =>
      rw [if_pos ⟨by omega, hcmd⟩] at hG
      exact ctrlCmdNewServer_handles h _ sq _ _ _ _ hG
  | delServer => exact ctrlCmdDelServer_handles h _ sq _ _
  | delClient => exact ctrlCmdDelClient_handles h _ sq _ _
  | newLookup => exact ctrlCmdNewLookup_handles h _ sq _ _
  | delLookup => exact ctrlCmdDelLookup_handles h sq _ _
  | other => exact Handles.quiet h rfl rfl rfl

/-- **What a packet that is handled can do**: it is short and nothing is done, or its command is. -/
theorem ctrlPortFn_cases {i : Input} {r : List Sent × Ns} (h : ctrlPortFn s i = .ok r) :
    ∃ sq datagram, i.recv = some (sq, datagram) ∧ datagram ≠ [] ∧
      ((datagram.take 4096).length < 4 ∧ r = ([], s) ∨
        4 ≤ (datagram.take 4096).length ∧ r = ctrlCmd s i sq (datagram.take 4096)) := by
  unfold ctrlPortFn at h
  cases hrecv : i.recv with
  | none =>
      rw [hrecv] at h
      cases h
  | some packet =>
      obtain ⟨sq, datagram⟩ := packet
      simp only [hrecv] at h
      split_ifs at h with hempty hshort
      · refine ⟨sq, datagram, rfl, ?_, Or.inl ⟨hshort, (Except.ok.inj h).symm⟩⟩
        rintro rfl
        exact hempty rfl
      · refine ⟨sq, datagram, rfl, ?_, Or.inr ⟨by omega, (Except.ok.inj h).symm⟩⟩
        rintro rfl
        exact hempty rfl

/-- A packet that is handled is a change of the view, by some node. -/
theorem handles_of_ok (h : s.Inv) {i : Input} {r : List Sent × Ns} (hstep : ctrlPortFn s i = .ok r)
    (hG : ∀ srv, i.newServer? s = some srv → G s.view srv) : ∃ n, Handles G n s r := by
  obtain ⟨sq, datagram, hrecv, hne, -⟩ := ctrlPortFn_cases hstep
  obtain ⟨r', hr', hhandles⟩ := ctrlPortFn_handles h hrecv hne hG
  obtain rfl := Except.ok.inj (hr'.symm.trans hstep)
  exact ⟨sq.node, hhandles⟩

end Handles

/-! ### Invariants of the view -/

section Changes

variable {G : View → Server → Prop} {n : UInt32} {v v' : View} {ns : List Notice}

theorem View.Inv.setTable (h : v.Inv) {m : Map Server} (hwf : m.Wf Server.key)
    (howned : ∀ q ∈ mapItems m, q.node = n) : (v.setTable n m).Inv := by
  refine ⟨?_, ?_, h.ids, h.fresh⟩
  · intro n'
    by_cases hn : n' = n
    · subst hn
      rwa [v.table_setTable]
    · rw [v.table_setTable_of_ne hn]
      exact h.wf n'
  · intro n' q hq
    by_cases hn : n' = n
    · subst hn
      rw [v.table_setTable] at hq
      exact howned q hq
    · rw [v.table_setTable_of_ne hn] at hq
      exact h.owned n' q hq

theorem Change.inv (hc : Change G n v ns v') : v.Inv → v'.Inv := by
  induction hc with
  | refl v => exact id
  | @add v srv calloc old m _ hnode hreput =>
      intro h
      obtain ⟨hwf, hitems⟩ := mapReput_items (h.wf n) rfl hreput
      refine h.setTable hwf fun q hq => ?_
      rcases hitems q hq with rfl | hq
      · exact hnode
      · exact h.owned n q hq
  | @del v port srv hget =>
      intro h
      obtain ⟨hwf, hitems⟩ := mapRemove_items (h.wf n) srv.key
      exact h.setTable hwf fun q hq => h.owned n q (hitems q hq)
  | forget _ =>
      intro h
      exact ⟨h.wf, h.owned, h.ids.sublist (List.filter_sublist.map _),
        fun l hl => h.fresh l (List.mem_of_mem_filter hl)⟩
  | @observe v l _ hid _ _ =>
      intro h
      refine ⟨h.wf, h.owned, ?_, ?_⟩
      · rw [List.map_append, List.map_singleton, hid]
        refine h.ids.append (List.nodup_singleton _) ?_
        rw [List.disjoint_singleton, List.mem_map]
        rintro ⟨l', hl', hid'⟩
        exact absurd (h.fresh l' hl') (by omega)
      · intro l' hl'
        rcases List.mem_append.mp hl' with hl' | hl'
        · exact (h.fresh l' hl').trans (Nat.lt_succ_self _)
        · rw [List.mem_singleton] at hl'
          rw [hl', hid]
          exact Nat.lt_succ_self _
  | trans _ _ ih₁ ih₂ => exact fun h => ih₂ (ih₁ h)

/-- A change made by one node is not one of another. -/
theorem Change.others (hc : Change G n v ns v') {m : UInt32} (hm : m ≠ n) : v'.table m = v.table m ∧
    v'.lookups.filter (fun l => l.sq.node = m) = v.lookups.filter (fun l => l.sq.node = m) := by
  induction hc with
  | refl v => exact ⟨rfl, rfl⟩
  | add _ _ _ => exact ⟨View.table_setTable_of_ne _ hm _, rfl⟩
  | del _ => exact ⟨View.table_setTable_of_ne _ hm _, rfl⟩
  | @forget v keep hkeep =>
      refine ⟨rfl, ?_⟩
      rw [List.filter_filter]
      refine List.filter_congr fun l hl => ?_
      cases hk : keep l with
      | true => simp
      | false =>
          have hne : l.sq.node ≠ m := fun h => hm (h.symm.trans (hkeep l hl hk))
          simp [hne]
  | @observe v l _ _ hnode _ =>
      have hne : l.sq.node ≠ m := fun h => hm (h.symm.trans hnode)
      refine ⟨rfl, ?_⟩
      rw [List.filter_append]
      simp [hne]
  | trans _ _ ih₁ ih₂ => exact ⟨ih₂.1.trans ih₁.1, ih₂.2.trans ih₁.2⟩

end Changes

/-! ### Runs -/

section Runs

variable {localNode : UInt32} {P : Ns → Input → Prop} {h : List (Input × List Sent)} {s : Ns}

theorem view_nsInit (localNode : UInt32) : (nsInit localNode).view.Inv :=
  ⟨fun _ => wf_mapCreate, fun _ q hq => (by cases hq), List.nodup_nil, fun l hl => (by cases hl)⟩

theorem inv_of_run (hrun : Run ctrlPortFn P (nsInit localNode) h s) : s.Inv ∧ s.view.Inv := by
  refine @Run.invariant _ _ _ _ _ _ _ (fun _ s => s.Inv ∧ s.view.Inv) ?_ ?_ _ _ hrun
  · exact ⟨inv_nsInit localNode, view_nsInit localNode⟩
  · rintro h s i out s' ⟨hinv, hview⟩ - hstep
    obtain ⟨n, hhandles⟩ := @handles_of_ok (fun _ _ => True) s hinv i _ hstep fun _ _ => trivial
    exact ⟨hhandles.inv, hhandles.change.inv hview⟩

/-- The filter that matches every server. -/
def matchAll : ServerFilter := ⟨0, 0, 0⟩

theorem serverMatch_matchAll (q : Server) : serverMatch q matchAll = true := by
  simp [serverMatch, matchAll]

theorem mem_serverQuery_matchAll (hs : s.Inv) (hv : s.view.Inv) {q : Server} :
    q ∈ serverQuery matchAll s ↔ q ∈ mapItems (s.table q.node) := by
  rw [mem_serverQuery hs, serverMatch_matchAll]
  constructor
  · rintro ⟨⟨n, hq⟩, -⟩
    rwa [hv.owned n q hq]
  · exact fun hq => ⟨⟨_, hq⟩, rfl⟩

/-- What a node has registered is the same in two states. -/
structure SameOf (m : UInt32) (s s' : Ns) : Prop where
  servers : ∀ q, q.node = m → (q ∈ serverQuery matchAll s' ↔ q ∈ serverQuery matchAll s)
  lookups : s'.lookups.filter (fun l => l.sq.node = m) = s.lookups.filter (fun l => l.sq.node = m)

/-- The node that `node_get` gives, and what `server_del` would find there. -/
structure Owns (m : UInt32) (s : Ns) (p : ℕ) : Prop where
  id : (nodeAt s.heap p).id = m
  servers : ∀ q ∈ mapItems (s.services p), q.node = m
  ports : ∀ port q, mapGet Server.key (s.services p) (hashU32 port) = some q → q.port = port

/-- **Nodes are isolated**: in every reachable state a packet from a node changes no server and no
lookup of another node, and the table that `node_get` gives holds servers of that node. -/
theorem nodes_isolated (hrun : Run ctrlPortFn (fun _ _ => True) (nsInit localNode) h s) :
    (∀ i sq datagram, i.recv = some (sq, datagram) → datagram ≠ [] →
      ∃ out s', ctrlPortFn s i = .ok (out, s') ∧ ∀ m, m ≠ sq.node → SameOf m s s') ∧
    ∀ a m p s', nodeGet s a m = (some p, s') → Owns m s' p := by
  obtain ⟨hinv, hview⟩ := inv_of_run hrun
  constructor
  · intro i sq datagram hrecv hne
    obtain ⟨⟨out, s'⟩, hr, hhandles⟩ :=
      @ctrlPortFn_handles (fun _ _ => True) s hinv i sq datagram hrecv hne (fun _ _ => trivial)
    refine ⟨out, s', hr, fun m hm => ?_⟩
    obtain ⟨htable, hlookups⟩ := hhandles.change.others hm
    refine ⟨fun q hq => ?_, hlookups⟩
    have hq' : s'.table q.node = s.table q.node := hq ▸ htable
    rw [mem_serverQuery_matchAll hhandles.inv (hhandles.change.inv hview),
      mem_serverQuery_matchAll hinv hview, hq']
  · intro a m p s' hget
    have hgot := nodeGet_spec hinv a m
    rw [hget] at hgot
    have hp := hgot.has p rfl
    have htable : s'.services p = s.view.table m := by
      rw [← hgot.view]
      exact (table_of_has hgot.inv hp).symm
    refine ⟨hp.2, ?_, ?_⟩
    · rw [htable]
      exact hview.owned m
    · intro port q hq
      rw [htable] at hq
      exact hashU32_injective (mem_of_mapGet (hview.wf m) hq).2

/-- After the node 2 has registered the service 1 at the port 7. -/
theorem nodes_isolated_newServer : ∃ h s, Run ctrlPortFn (fun _ _ => True) (nsInit 1) h s ∧
    serverQuery matchAll s = [⟨1, 0, 2, 7⟩] ∧ ∀ a m p s', nodeGet s a m = (some p, s') →
    Owns m s' p := by
  have hrun : Run ctrlPortFn (fun _ _ => True) (nsInit 1) [(packet ⟨2, 7⟩ [4, 1, 0, 2, 7], [])] _ :=
    Run.nil.snoc trivial rfl
  exact ⟨_, _, hrun, by decide, (nodes_isolated hrun).2⟩

end Runs

end Imola.Qrtr
