import Imola.Replicas
import Imola.QrtrNsObservers
import Imola.QrtrNsPurge
import Imola.QrtrIdentity

/-! # What a name service does to its tables, and what it broadcasts

`Edits` are the registrations and removals that one packet leads to in the table of the sender's
node, with the packets that announce them.  A packet from a client of the local node makes the name
service broadcast exactly the edits of its own table, a packet from another node makes it broadcast
nothing (`ctrlPortFn_announces`); HELLO is a matter of its own.

`Well` is what holds of a name service whose registrations never met a marker in front of the server
they should replace, so that no table has two servers for a port; a step keeps it (`Well.step`). -/

namespace Imola.Qrtr

open Imola.Replicas Imola.Bytes

/-! ### Packets -/

def Sent.dest : Sent → SockAddr
  | .packet dest _ => dest
  | .notify _ dest _ _ => dest

/-- The broadcasts about servers. -/
def casts (out : List Sent) : List (Bool × Server) :=
  out.filterMap fun
    | .packet dest (.server new srv) => if dest = bcastSq then some (new, srv) else none
    | _ => none

/-- What a packet about a server says of the table of its node. -/
def castEdit (x : Bool × Server) : Edit UInt32 Server :=
  if x.1 then .put x.2.port x.2 else .drop x.2.port

/-- A packet about a server in bytes: `service_announce_new` and `service_announce_del`. -/
def castBytes (x : Bool × Server) : List UInt8 :=
  if x.1 then serviceAnnounceNew x.2 else serviceAnnounceDel x.2

theorem casts_append (a b : List Sent) : casts (a ++ b) = casts a ++ casts b :=
  List.filterMap_append

theorem casts_announceLocal (s : Ns) (new : Bool) (srv : Server) :
    casts (announceLocal s new srv) = if srv.node = s.localNode then [(new, srv)] else [] := by
  unfold announceLocal
  split_ifs with h
  · rfl
  · rfl

theorem casts_notifyObservers (lookups : List Lookup) (new : Bool) (srv : Server) :
    casts (notifyObservers lookups new srv) = [] := by
  rw [casts, notifyObservers, List.filterMap_map]
  exact List.filterMap_eq_nil_iff.mpr fun _ _ => rfl

/-! ### Tables by port -/

section ByPort

variable {m m' : Map Server} {srv : Server} {port : UInt32}

/-- The server that `map_get` finds for a port. -/
def Map.byPort (m : Map Server) (port : UInt32) : Option Server :=
  mapGet Server.key m (hashU32 port)

theorem byPort_eq_some_iff (hwf : m.Wf Server.key) (hu : m.Unique Server.key) {q : Server} :
    m.byPort port = some q ↔ q ∈ mapItems m ∧ q.port = port := by
  rw [Map.byPort, mapGet_eq_some_iff hwf hu]
  exact and_congr_right fun _ => hashU32_injective.eq_iff

theorem byPort_eq_of_items {A : UInt32 → Option Server} (hwf : m.Wf Server.key)
    (hu : m.Unique Server.key)
    (h : ∀ port q, q ∈ mapItems m ∧ q.port = port ↔ A port = some q) : m.byPort = A := by
  funext port
  apply Option.ext
  intro q
  rw [byPort_eq_some_iff hwf hu, h]

theorem byPort_reput (hwf : m.Wf Server.key) (hu : m.Unique Server.key)
    (hclear : m.Clear Server.key srv.key)
    {calloc : Bool} {old : Option Server}
    (h : mapReput Server.key calloc m srv.key srv = some (old, m')) :
    m'.Wf Server.key ∧ m'.Unique Server.key ∧
    m'.byPort = Function.update m.byPort srv.port (some srv) := by
  rcases mapReput_unique hwf hu hclear (fun _ => rfl) rfl (fun _ _ => rfl) calloc with
    ⟨-, hnone⟩ | ⟨n, hput, hwf', hu', -, hitems⟩
  · rw [hnone] at h
    cases h
  obtain rfl : n = m' := (Prod.mk.inj (Option.some.inj (hput.symm.trans h))).2
  refine ⟨hwf', hu', byPort_eq_of_items hwf' hu' fun port q => ?_⟩
  have hkey : q.key ≠ srv.key ↔ q.port ≠ srv.port := not_congr hashU32_injective.eq_iff
  rw [hitems, hkey]
  by_cases hport : port = srv.port
  · rw [hport, Function.update_self, Option.some_inj]
    constructor
    · rintro ⟨rfl | ⟨-, hne⟩, hq⟩
      · rfl
      · exact absurd hq hne
    · rintro rfl
      exact ⟨Or.inl rfl, rfl⟩
  · rw [Function.update_of_ne hport, byPort_eq_some_iff hwf hu]
    constructor
    · rintro ⟨rfl | ⟨hmem, -⟩, hq⟩
      · exact absurd hq.symm hport
      · exact ⟨hmem, hq⟩
    · rintro ⟨hmem, rfl⟩
      exact ⟨Or.inr ⟨hmem, hport⟩, rfl⟩

theorem byPort_remove (hwf : m.Wf Server.key) (hu : m.Unique Server.key) (port : UInt32) :
    (mapRemove Server.key m (hashU32 port)).2.Wf Server.key ∧
    (mapRemove Server.key m (hashU32 port)).2.Unique Server.key ∧
      (mapRemove Server.key m (hashU32 port)).2.byPort = Function.update m.byPort port none := by
  obtain ⟨-, hwf', hu', hitems⟩ := mapRemove_unique hwf hu (hashU32 port)
  refine ⟨hwf', hu', byPort_eq_of_items hwf' hu' fun port' q => ?_⟩
  have hkey : q.key ≠ hashU32 port ↔ q.port ≠ port := not_congr hashU32_injective.eq_iff
  rw [hitems, hkey]
  by_cases hport : port' = port
  · rw [hport, Function.update_self]
    constructor
    · rintro ⟨⟨-, hne⟩, hq⟩
      exact absurd hq hne
    · rintro ⟨⟩
  · rw [Function.update_of_ne hport, byPort_eq_some_iff hwf hu]
    constructor
    · rintro ⟨⟨hmem, -⟩, hq⟩
      exact ⟨hmem, hq⟩
    · rintro ⟨hmem, rfl⟩
      exact ⟨⟨hmem, hport⟩, rfl⟩

theorem byPort_of_items_eq_nil (hwf : m.Wf Server.key) (h : mapItems m = []) :
    m.byPort = fun _ => none := by
  funext port
  rw [Map.byPort, mapGet_eq_none_iff hwf, h]
  intro v hv
  cases hv

/-- With one server for a port, the search for a port meets the servers in the order of the
slots. -/
theorem inOrder_of_unique (hu : m.Unique Server.key) : m.InOrder Server.key := by
  intro i j v w hij hj hv hw hkey
  exact absurd (hu (hij.trans hj) hj hv hw hkey) hij.ne

end ByPort

/-! ### Edits -/

/-- The registrations and removals in a table, with what is broadcast of them. -/
inductive Edits : Map Server → List (Bool × Server) → Map Server → Prop
  | refl (m : Map Server) : Edits m [] m
  | add {m m' : Map Server} {srv : Server} {calloc : Bool} {old : Option Server} : m.Clear
      Server.key srv.key →
      mapReput Server.key calloc m srv.key srv = some (old, m') → Edits m [(true, srv)] m'
  | del {m : Map Server} {port : UInt32} {srv : Server} : mapGet Server.key m
      (hashU32 port) = some srv →
      Edits m [(false, srv)] (mapRemove Server.key m srv.key).2
  | trans {m m' m'' : Map Server} {a b : List (Bool × Server)} : Edits m a m' → Edits m' b m'' →
      Edits m (a ++ b) m''

/-- **The broadcasts say what happens to the table.** -/
theorem Edits.byPort {m m' : Map Server} {l : List (Bool × Server)} (h : Edits m l m') :
    m.Wf Server.key → m.Unique Server.key →
      m'.Wf Server.key ∧ m'.Unique Server.key ∧
      m'.byPort = Replicas.replay (l.map castEdit) m.byPort := by
  induction h with
  | refl m => exact fun hwf hu => ⟨hwf, hu, rfl⟩
  | add hclear hreput => exact fun hwf hu => byPort_reput hwf hu hclear hreput
  | @del m port srv hget => exact fun hwf hu => byPort_remove hwf hu srv.port
  | trans _ _ ih₁ ih₂ =>
      intro hwf hu
      obtain ⟨hwf₁, hu₁, hport₁⟩ := ih₁ hwf hu
      obtain ⟨hwf₂, hu₂, hport₂⟩ := ih₂ hwf₁ hu₁
      refine ⟨hwf₂, hu₂, ?_⟩
      rw [hport₂, hport₁, List.map_append, replay_append]

/-- What a packet from the node `n` does: it edits the table of `n`, the edits are broadcast if `n`
is the local node, and no other packet leaves the local node. -/
structure Announces (n : UInt32) (s : Ns) (r : List Sent × Ns) : Prop where
  edits : ∃ l, Edits (s.table n) l (r.2.table n) ∧ casts r.1 = if n = s.localNode then l else []
  stays : ∀ x ∈ r.1, x.dest.node = s.localNode ∨
    ∃ new srv, x = .packet bcastSq (.server new srv) ∧ srv.node = s.localNode

section Announces

variable {n : UInt32} {s : Ns}

theorem Announces.quiet {out : List Sent} {s' : Ns} (htable : s'.table n = s.table n)
    (hcasts : casts out = [])
    (hstays : ∀ x ∈ out, x.dest.node = s.localNode) : Announces n s (out, s') := by
  refine ⟨⟨[], ?_, ?_⟩, fun x hx => Or.inl (hstays x hx)⟩
  · rw [htable]
    exact Edits.refl _
  · rw [hcasts, ite_self]

theorem Announces.refl (n : UInt32) (s : Ns) : Announces n s ([], s) :=
  Announces.quiet rfl rfl fun x hx => by cases hx

theorem Announces.trans {a b : List Sent} {s₁ s₂ : Ns} (h : Announces n s (a, s₁))
    (hlocal : s₁.localNode = s.localNode)
    (h' : Announces n s₁ (b, s₂)) : Announces n s (a ++ b, s₂) := by
  obtain ⟨l, hedits, hcasts⟩ := h.edits
  obtain ⟨l', hedits', hcasts'⟩ := h'.edits
  refine ⟨⟨l ++ l', hedits.trans hedits', ?_⟩, fun x hx => ?_⟩
  · dsimp only at hcasts hcasts' ⊢
    rw [casts_append, hcasts, hcasts', hlocal]
    split_ifs with hn
    · rfl
    · rfl
  · rcases List.mem_append.mp hx with hx | hx
    · exact h.stays x hx
    · rw [← hlocal]
      exact h'.stays x hx

theorem NodeGot.table {id : UInt32} {r : Option ℕ × Ns} (hgot : NodeGot s id r) (n : UInt32) :
    r.2.table n = s.table n :=
  congrArg (fun v : View => v.table n) hgot.view

theorem NodeGot.services {id : UInt32} {p : ℕ} {s' : Ns} (hgot : NodeGot s id (some p, s')) :
    s'.services p = s.table id :=
  (table_of_has hgot.inv (hgot.has p rfl)).symm.trans (hgot.table id)

theorem NodeGot.announces {id : UInt32} {r : Option ℕ × Ns} (hgot : NodeGot s id r)
    {r' : List Sent × Ns}
    (h : Announces n r.2 r') : Announces n s r' := by
  refine ⟨?_, ?_⟩
  · rw [← hgot.table n, ← hgot.localNode]
    exact h.edits
  · rw [← hgot.localNode]
    exact h.stays

theorem stays_announceLocal (s : Ns) (new : Bool) (srv : Server) : ∀ x ∈ announceLocal s new srv,
    x.dest.node = s.localNode ∨ ∃ new srv, x = .packet bcastSq (.server new srv) ∧
    srv.node = s.localNode := by
  intro x hx
  unfold announceLocal at hx
  split_ifs at hx with hnode
  · rw [List.mem_singleton] at hx
    exact Or.inr ⟨new, srv, hx, hnode⟩
  · cases hx

theorem stays_notifyObservers {lookups : List Lookup} {node : UInt32}
    (h : ∀ l ∈ lookups, l.sq.node = node) (new : Bool)
    (srv : Server) : ∀ x ∈ notifyObservers lookups new srv, x.dest.node = node := by
  intro x hx
  obtain ⟨l, hl, rfl⟩ := List.mem_map.mp hx
  exact h l (List.mem_of_mem_filter hl)

theorem announces_server {p : ℕ} (h : s.Inv) (hp : s.Has n p)
    (hlookups : ∀ l ∈ s.lookups, l.sq.node = s.localNode)
    {new : Bool} {srv : Server} {m : Map Server} (hnode : srv.node = n)
    (hedits : Edits (s.table n) [(new, srv)] m) :
    Announces n s (announceLocal s new srv ++ notifyObservers s.lookups new srv,
      s.setServices p m) := by
  have htable : (s.setServices p m).table n = m := by
    have hview := congrArg (fun v : View => v.table n) (setServices_spec h hp m).2.2
    rwa [View.table_setTable] at hview
  refine ⟨⟨[(new, srv)], ?_, ?_⟩, fun x hx => ?_⟩
  · rw [htable]
    exact hedits
  · rw [casts_append, casts_announceLocal, casts_notifyObservers, List.append_nil, hnode]
  · rcases List.mem_append.mp hx with hx | hx
    · exact stays_announceLocal s new srv x hx
    · exact Or.inl (stays_notifyObservers hlookups new srv x hx)

end Announces

/-! ### The commands -/

/-- What holds of the name service of the node `n` whose tables have one server for a port. -/
structure Well (n : UInt32) (s : Ns) : Prop where
  localNode : s.localNode = n
  sound : Sound (fun q => q.service ≠ 0 ∧ q.port ≠ 0) (fun l => l.sq.node = n) s
  unique : ∀ m, (s.table m).Unique Server.key

theorem well_nsInit (n : UInt32) : Well n (nsInit n) :=
  ⟨rfl, ⟨inv_nsInit n, view_nsInit n, fun _ _ hq => (by cases hq), fun _ hl => (by cases hl)⟩,
    fun _ => unique_mapCreate⟩

/-- The condition on a packet: no marker stands in front of the server that it replaces. -/
def Ns.Clears (s : Ns) (i : Input) : Prop :=
  ∀ srv, i.newServer? s = some srv → (s.table srv.node).Clear Server.key srv.key

section Commands

variable {n n₀ : UInt32} {s : Ns} {sq : SockAddr} {R : Server → Prop}

theorem serverDel_announces (h : Sound R (fun l => l.sq.node = n₀) s) (hlocal : s.localNode = n₀)
    {p : ℕ} (hp : s.Has n p)
    (port : UInt32) : Announces n s (serverDel s p port) := by
  have htable := table_of_has h.inv hp
  unfold serverDel
  cases hget : mapGet Server.key (s.services p) (hashU32 port) with
  | none => exact Announces.refl n s
  | some srv =>
      rw [← htable] at hget
      have hnode : srv.node = n := h.view.owned n srv (mem_of_mapGet (h.view.wf n) hget).1
      refine announces_server h.inv hp (fun l hl => (h.lookups l hl).trans hlocal.symm) hnode ?_
      rw [← htable]
      exact Edits.del hget

theorem byeLoop_announces {p : ℕ} (js : List ℕ) :
    ∀ s : Ns, Sound R (fun l => l.sq.node = n₀) s → s.localNode = n₀ →
    s.Has n p → Announces n s (byeLoop p js s) := by
  induction js with
  | nil => exact fun s _ _ _ => Announces.refl n s
  | cons j js ih =>
      intro s h hlocal hp
      rw [byeLoop]
      cases hitem : ((s.services p).data j).item? with
      | none => exact ih s h hlocal hp
      | some srv =>
          obtain ⟨hdel, hhas⟩ := h.serverDel hp srv.port
          have hkept := (@serverDel_spec (fun _ _ => True) n s h.inv p hp srv.port).1.localNode
          have hrest := ih _ hdel (hkept.trans hlocal) hhas
          exact (serverDel_announces h hlocal hp srv.port).trans hkept hrest

/-- The removal of a client is told to the local services only. -/
theorem propagate_announces (h : Sound R (fun l => l.sq.node = n₀) s) (a : NodeAllocs)
    {pkt : Packet}
    (hpkt : ∀ new srv, pkt ≠ .server new srv) : Announces n s (propagate s a pkt) := by
  have hgot := nodeGet_spec h.inv a s.localNode
  unfold propagate
  rcases hnode : nodeGet s a s.localNode with ⟨_ | p, s'⟩
  · rw [hnode] at hgot
    exact hgot.announces (Announces.refl n s')
  · rw [hnode] at hgot
    refine hgot.announces (Announces.quiet rfl ?_ fun x hx => ?_)
    · rw [casts, List.filterMap_map]
      refine List.filterMap_eq_nil_iff.mpr fun srv _ => ?_
      cases pkt with
      | server new srv => exact absurd rfl (hpkt new srv)
      | _ => rfl
    · obtain ⟨srv, hsrv, rfl⟩ := List.mem_map.mp hx
      rw [hgot.services] at hsrv
      exact (h.view.owned _ srv hsrv).trans hgot.localNode.symm

theorem delServer_announces (h : Sound R (fun l => l.sq.node = n₀) s) (hlocal : s.localNode = n₀)
    (a : NodeAllocs)
    (port : UInt32) : Announces n s (match nodeGet s a n with
      | (none, s) => ([], s)
      | (some p, s) => serverDel s p port) := by
  have hgot := nodeGet_spec h.inv a n
  rcases hnode : nodeGet s a n with ⟨_ | p, s'⟩
  · rw [hnode] at hgot
    exact hgot.announces (Announces.refl n s')
  · rw [hnode] at hgot
    have hdel := serverDel_announces (h.of_view hgot.inv hgot.view) (hgot.localNode.trans hlocal)
      (hgot.has p rfl) port
    exact hgot.announces hdel

theorem ctrlCmdBye_announces (h : Sound R (fun l => l.sq.node = n₀) s) (hlocal : s.localNode = n₀)
    (a : Allocs) :
    Announces sq.node s (ctrlCmdBye s a sq) := by
  have hgot := nodeGet_spec h.inv a.sender sq.node
  unfold ctrlCmdBye
  rcases hnode : nodeGet s a.sender sq.node with ⟨_ | p, s'⟩
  · rw [hnode] at hgot
    exact hgot.announces (Announces.refl _ s')
  · rw [hnode] at hgot
    have hp := hgot.has p rfl
    have hsound := h.of_view hgot.inv hgot.view
    have hloop := @byeLoop_handles (fun _ q => R q) sq.node p (List.range (s'.services p).size)
      s' hgot.inv hp
    have hlookups : (byeLoop p (List.range (s'.services p).size) s').2.lookups = s'.lookups :=
      congrArg View.lookups (byeLoop_sweep (List.range (s'.services p).size) s' hgot.inv hp).2.2
    have hswept : Sound R (fun l => l.sq.node = n₀)
        (byeLoop p (List.range (s'.services p).size) s').2 := by
      refine hsound.of_handles (fun _ _ hR => hR) hloop ?_
      rw [hlookups]
      exact hsound.lookups
    have hpurge := byeLoop_announces (List.range (s'.services p).size) s' hsound
      (hgot.localNode.trans hlocal) hp
    have hbye := @propagate_announces sq.node n₀ _ R hswept a.localNode (.bye sq.node)
      fun new srv hpkt => by cases hpkt
    exact hgot.announces (hpurge.trans hloop.localNode hbye)

theorem ctrlCmdDelClient_announces (h : Sound R (fun l => l.sq.node = n₀) s)
    (hlocal : s.localNode = n₀) (a : Allocs)
    (node port : UInt32) : Announces sq.node s (ctrlCmdDelClient s a sq node port) := by
  unfold ctrlCmdDelClient
  split_ifs with hnode hport
  · exact Announces.refl _ s
  · exact Announces.refl _ s
  · obtain rfl : sq.node = node := not_not.mp hnode
    dsimp only
    generalize
      hs' : ({ s with lookups := s.lookups.filter fun l =>
        ¬(l.sq.node = sq.node ∧ l.sq.port = port) } : Ns) = s'
    have hforget : Sound R (fun l => l.sq.node = n₀) s' := by
      rw [← hs']
      exact ⟨⟨h.inv.wf, h.inv.unique, h.inv.clean, h.inv.lt⟩, ⟨h.view.wf, h.view.owned,
        h.view.ids.sublist (List.filter_sublist.map _),
        fun l hl => h.view.fresh l (List.mem_of_mem_filter hl)⟩, h.all,
        fun l hl => h.lookups l (List.mem_of_mem_filter hl)⟩
    have hlocal' : s'.localNode = s.localNode := by rw [← hs']
    have htable : s'.table sq.node = s.table sq.node := by
      rw [← hs']
      rfl
    have hdel := @delServer_handles (fun _ q => R q) sq.node s' hforget.inv a.sender port
    have hlookups := delServer_lookups s' a.sender sq.node port
    have hannounces := @delServer_announces sq.node n₀ s' R hforget (hlocal'.trans hlocal)
      a.sender port
    have hgone : Sound R (fun l => l.sq.node = n₀) (match nodeGet s' a.sender sq.node with
        | (none, s) => (([], s) : List Sent × Ns)
        | (some p, s) => serverDel s p port).2 := by
      refine hforget.of_handles (fun _ _ hR => hR) hdel fun l hl => ?_
      exact hforget.lookups l (Eq.mp (congrArg (l ∈ ·) hlookups) hl)
    have hbye := @propagate_announces sq.node n₀ _ R hgone a.localNode (.delClient sq.node port)
      fun new srv hpkt => by
      cases hpkt
    have hall := hannounces.trans hdel.localNode hbye
    refine ⟨?_, ?_⟩
    · rw [← htable, ← hlocal']
      exact hall.edits
    · rw [← hlocal']
      exact hall.stays

theorem ctrlCmdDelServer_announces (h : Sound R (fun l => l.sq.node = n₀) s)
    (hlocal : s.localNode = n₀) (a : Allocs)
    (node port : UInt32) : Announces sq.node s (ctrlCmdDelServer s a sq node port) := by
  unfold ctrlCmdDelServer
  dsimp only
  split_ifs with hnode hport
  · exact Announces.refl _ s
  · exact Announces.refl _ s
  · rw [ne_eq, not_not] at hnode
    rw [hnode]
    exact delServer_announces h hlocal a.sender _

theorem ctrlCmdNewServer_announces (h : Sound R (fun l => l.sq.node = n₀) s)
    (hlocal : s.localNode = n₀) (a : Allocs)
    (service inst node port : UInt32)
    (hclear : ∀ srv, newServer? s sq service inst node port = some srv →
      (s.table srv.node).Clear Server.key srv.key) :
    Announces sq.node s (ctrlCmdNewServer s a sq service inst node port) := by
  rw [ctrlCmdNewServer_eq]
  cases hnew : newServer? s sq service inst node port with
  | none => exact Announces.refl _ s
  | some srv =>
      dsimp only
      split_ifs
      · have hgot := nodeGet_spec h.inv a.sender srv.node
        rw [← node_of_newServer? hnew]
        rcases registerServer_cases s a srv with hquiet | ⟨p, s₁, old, m, hget, hreput, hsent⟩
        · rw [hquiet]
          exact hgot.announces (Announces.refl _ _)
        · rw [hget] at hgot
          have hp := hgot.has p rfl
          have hsound := h.of_view hgot.inv hgot.view
          have hedits : Edits (s₁.table srv.node) [(true, srv)] m := by
            rw [← table_of_has hgot.inv hp] at hreput
            refine Edits.add ?_ hreput
            rw [hgot.table]
            exact hclear srv hnew
          have hlookups : ∀ l ∈ s₁.lookups, l.sq.node = s₁.localNode := fun l hl =>
            (hsound.lookups l hl).trans (hgot.localNode.trans hlocal).symm
          rw [hsent]
          exact hgot.announces (announces_server hgot.inv hp hlookups rfl hedits)
      · exact Announces.refl _ s

theorem ctrlCmdNewLookup_announces (s : Ns) (a : Allocs) (service inst : UInt32) :
    Announces sq.node s (ctrlCmdNewLookup s a sq service inst) := by
  unfold ctrlCmdNewLookup
  split_ifs with hnode hlookup
  · exact Announces.refl _ s
  · refine Announces.quiet rfl ?_ fun x hx => ?_
    · rw [casts_append, casts, List.filterMap_map]
      exact List.append_eq_nil_iff.mpr ⟨List.filterMap_eq_nil_iff.mpr fun _ _ => rfl, rfl⟩
    · rcases List.mem_append.mp hx with hx | hx
      · obtain ⟨srv, -, rfl⟩ := List.mem_map.mp hx
        exact not_not.mp hnode
      · obtain rfl := List.mem_singleton.mp hx
        exact not_not.mp hnode
  · exact Announces.refl _ s

theorem mem_annouceServers {sendOk : ℕ → Bool} {dest : SockAddr} (servers : List Server) : ∀ i,
    ∀ x ∈ annouceServers sendOk dest i servers, ∃ srv ∈ servers, x =
      .packet dest (.server true srv) := by
  induction servers with
  | nil =>
      intro i x hx
      cases hx
  | cons srv rest ih =>
      intro i x hx
      rw [annouceServers] at hx
      rcases List.mem_cons.mp hx with rfl | hx
      · exact ⟨srv, List.mem_cons_self, rfl⟩
      · split_ifs at hx
        · obtain ⟨q, hq, hx⟩ := ih (i + 1) x hx
          exact ⟨q, List.mem_cons_of_mem _ hq, hx⟩
        · cases hx

/-- **One packet**: the edits of the table of the sender, and what is broadcast of them. -/
theorem ctrlPortFn_announces (h : Sound R (fun l => l.sq.node = n₀) s)
    (hlocal : s.localNode = n₀) {i : Input}
    {datagram : List UInt8} (hrecv : i.recv = some (sq, datagram)) (hclear : s.Clears i)
    (hhello : cmdOf (i.field (datagram.take 4096) 0) ≠ .hello)
    {r : List Sent × Ns} (hstep : ctrlPortFn s i = .ok r) : Announces sq.node s r := by
  obtain ⟨sq', datagram', hrecv', -, ⟨-, heq⟩ | ⟨hlen, heq⟩⟩ := ctrlPortFn_cases hstep
  · rw [heq]
    exact Announces.refl _ s
  obtain ⟨rfl, rfl⟩ := Prod.mk.inj (Option.some.inj (hrecv.symm.trans hrecv'))
  rw [heq]
  simp only [Ns.Clears, Input.newServer?, hrecv] at hclear
  unfold ctrlCmd
  cases hcmd : cmdOf (i.field (datagram.take 4096) 0) with
  | hello => exact absurd hcmd hhello
  | bye => exact ctrlCmdBye_announces h hlocal i.allocs
  | newServer =>
      rw [if_pos ⟨hlen, hcmd⟩] at hclear
      exact ctrlCmdNewServer_announces h hlocal _ _ _ _ _ hclear
  | delServer => exact ctrlCmdDelServer_announces h hlocal _ _ _
  | delClient => exact ctrlCmdDelClient_announces h hlocal _ _ _
  | newLookup => exact ctrlCmdNewLookup_announces s _ _ _
  | delLookup => exact Announces.quiet rfl rfl fun x hx => by cases hx
  | other => exact Announces.refl _ s

end Commands

/-! ### Steps of a name service -/

section Steps

variable {n m k : UInt32} {s s' : Ns} {i : Input} {out : List Sent}

/-- A change whose registrations meet no marker keeps one server for a port. -/
theorem Change.unique {G : View → Server → Prop} {v v' : View} {ns : List Notice}
    (hG : ∀ v srv, G v srv → (v.table srv.node).Clear Server.key srv.key)
    (hc : Change G n v ns v') :
    v.Inv → (∀ m, (v.table m).Unique Server.key) → ∀ m, (v'.table m).Unique Server.key := by
  induction hc with
  | refl v => exact fun _ h => h
  | @add v srv calloc old m hgood hnode hreput =>
      intro hinv h
      subst hnode
      exact View.unique_setTable h (byPort_reput (hinv.wf _) (h _) (hG v srv hgood) hreput).2.1
  | @del v port srv hget =>
      intro hinv h
      exact View.unique_setTable h (byPort_remove (hinv.wf _) (h _) srv.port).2.1
  | forget _ => exact fun _ h => h
  | observe _ _ _ => exact fun _ h => h
  | trans hc _ ih₁ ih₂ => exact fun hinv h => ih₂ (hc.inv hinv) (ih₁ hinv h)

theorem asked_ne_zero {srv : Server} (h : i.newServer? s = some srv) :
    srv.service ≠ 0 ∧ srv.port ≠ 0 := by
  unfold Input.newServer? at h
  split at h
  · cases h
  · dsimp only at h
    split_ifs at h
    unfold newServer? at h
    dsimp only at h
    split_ifs at h with hrefused
    cases h
    obtain ⟨-, hservice, hport⟩ := not_or.mp hrefused |>.imp_right not_or.mp
    exact ⟨hservice, hport⟩

/-- **A step keeps the invariant, and the tables of nodes other than the sender.** -/
theorem Well.step (h : Well n s) (hclear : s.Clears i) (hstep : ctrlPortFn s i = .ok (out, s')) :
    Well n s' ∧ ∀ sq datagram, i.recv = some (sq, datagram) → ∀ m, m ≠ sq.node →
    s'.table m = s.table m := by
  obtain ⟨sq, datagram, hrecv, hne, -⟩ := ctrlPortFn_cases hstep
  obtain ⟨r, hr, hhandles⟩ := @ctrlPortFn_handles
    (fun v srv => (v.table srv.node).Clear Server.key srv.key ∧ srv.service ≠ 0 ∧ srv.port ≠ 0) s
      h.sound.inv i sq
    datagram hrecv hne (fun srv hsrv => ⟨hclear srv hsrv, asked_ne_zero hsrv⟩)
  obtain rfl : r = (out, s') := Except.ok.inj (hr.symm.trans hstep)
  have hlookups : ∀ l ∈ s'.lookups, l.sq.node = n := by
    intro l hl
    rcases ctrlPortFn_lookups h.sound.inv hstep l hl with hold | hnew
    · exact h.sound.lookups l hold
    · exact (node_of_newLookup? hnew).trans h.localNode
  refine ⟨⟨hhandles.localNode.trans h.localNode, h.sound.of_handles (fun _ _ hG => hG.2) hhandles
    hlookups, ?_⟩, ?_⟩
  · exact hhandles.change.unique (fun _ _ hG => hG.1) h.sound.view h.unique
  · intro sq' datagram' hrecv' m hm
    obtain ⟨rfl, rfl⟩ := Prod.mk.inj (Option.some.inj (hrecv.symm.trans hrecv'))
    exact (hhandles.change.others hm).1

theorem delServer_byPort
    (hs : Sound (fun q => q.service ≠ 0 ∧ q.port ≠ 0) (fun l => l.sq.node = n) s)
    (hu : (s.table m).Unique Server.key) (a : NodeAllocs) (port : UInt32) :
    ((match nodeGet s a m with
      | (none, s) => (([], s) : List Sent × Ns)
      | (some p, s) =>
          serverDel s p port).2.table m).byPort = Function.update (s.table m).byPort port none := by
  have hgot := nodeGet_spec hs.inv a m
  have hwf := hs.view.wf m
  rcases hnode : nodeGet s a m with ⟨_ | p, s₁⟩
  · have hempty := table_of_nodeGet_none (show (nodeGet s a m).1 = none by rw [hnode])
    rw [hnode] at hgot
    have hnothing : (s.table m).byPort port = none := by
      rw [hempty]
      rfl
    dsimp only
    rw [hgot.table m, ← hnothing, Function.update_eq_self]
  · rw [hnode] at hgot
    dsimp only
    unfold serverDel
    rw [hgot.services]
    cases hget : mapGet Server.key (s.table m) (hashU32 port) with
    | none =>
        have hsame : Function.update (s.table m).byPort port none = (s.table m).byPort :=
          Function.update_eq_iff.mpr ⟨hget.symm, fun _ _ => rfl⟩
        rw [hsame]
        exact congrArg Map.byPort (hgot.table m)
    | some srv =>
        have hkey : srv.key = hashU32 port := (mem_of_mapGet hwf hget).2
        have hview := congrArg (fun v : View => v.table m)
          (setServices_spec hgot.inv (hgot.has p rfl)
          (mapRemove Server.key (s.table m) srv.key).2).2.2
        rw [View.table_setTable] at hview
        refine (congrArg Map.byPort hview).trans ?_
        rw [hkey]
        exact (byPort_remove hwf hu port).2.2

end Steps

end Imola.Qrtr
