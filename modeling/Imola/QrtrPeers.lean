import Imola.QrtrNsAnnounce

/-! # The registry, and the copies that other name services keep of it

* `Input.edits` says what a packet asks of the servers of a node.  The hash tables of the name
  service hold what the packets so far ask for (`registry_refines`).
* A name service sends what it does to the servers of its own node to all others, and all of them to
  one that says hello (`toldTo`).  If another name service has received all of that from some point
  on, and nothing else about servers from that node, both list the same servers for it
  (`peers_agree`).
* Without any condition on the packets, a server that is listed was asked for by a packet from its
  own node (`listed_asked`).

How packets get from one node to another is not modelled: that they have arrived is a hypothesis of
`peers_agree`. -/

namespace Imola.Qrtr

open Imola.Replicas Imola.Runs

/-! ### What a packet asks for -/

/-- What a packet at the node `n` asks of the servers of the node `k`. -/
def Input.edits (i : Input) (n k : UInt32) : List (Edit UInt32 Server) :=
  match i.recv with
  | none => []
  | some (sq, datagram) =>
      let bytes := datagram.take 4096
      if sq.node ≠ k ∨ bytes.length < 4 then []
      else
        match cmdOf (i.field bytes 0) with
        | .newServer =>
            match i.newServer? (nsInit n) with
            | some srv => [.put srv.port srv]
            | none => []
        | .delServer =>
            let addr := claimed (nsInit n) sq (i.field bytes 12) (i.field bytes 16)
            if addr.node = k then [.drop addr.port] else []
        | .delClient =>
            if i.field bytes 4 = k ∧ (k = n → i.field bytes 8 = sq.port) then
              [.drop (i.field bytes 8)]
            else []
        | .bye => [.clear]
        | _ => []

/-- Memory suffices for a registration. -/
def Allocs.Registers (a : Allocs) : Prop :=
  a.server = true ∧ a.sender = ⟨true, true⟩ ∧ a.services = true

/-- The condition on a packet: a registration has memory and meets no marker. -/
def Ns.Admits (s : Ns) (i : Input) : Prop :=
  s.Clears i ∧ ∀ srv, i.newServer? s = some srv → i.allocs.Registers

section Asked

variable {n k : UInt32} {s s' : Ns} {i : Input} {sq : SockAddr} {out : List Sent}

theorem claimed_congr (h : s.localNode = n) (sq : SockAddr) (node port : UInt32) :
    claimed s sq node port = claimed (nsInit n) sq node port := by
  rw [claimed, claimed, h]
  rfl

theorem newServer?_nsInit (h : s.localNode = n) (i : Input) :
    i.newServer? s = i.newServer? (nsInit n) := by
  simp only [Input.newServer?, newServer?_congr h]

theorem edits_of_ne {datagram : List UInt8} (hrecv : i.recv = some (sq, datagram))
    (h : sq.node ≠ k ∨ (datagram.take 4096).length < 4) : i.edits n k = [] := by
  simp only [Input.edits, hrecv, if_pos h]

theorem edits_eq {datagram : List UInt8} (hrecv : i.recv = some (sq, datagram))
    (hlen : 4 ≤ (datagram.take 4096).length) : i.edits n sq.node =
      match cmdOf (i.field (datagram.take 4096) 0) with
      | .newServer =>
          match i.newServer? (nsInit n) with
          | some srv => [.put srv.port srv]
          | none => []
      | .delServer =>
          if (claimed (nsInit n) sq (i.field (datagram.take 4096) 12)
              (i.field (datagram.take 4096) 16)).node = sq.node then
            [.drop (claimed (nsInit n) sq (i.field (datagram.take 4096) 12)
              (i.field (datagram.take 4096) 16)).port]
          else []
      | .delClient =>
          if i.field (datagram.take 4096) 4 = sq.node ∧
              (sq.node = n → i.field (datagram.take 4096) 8 = sq.port) then
            [.drop (i.field (datagram.take 4096) 8)]
          else []
      | .bye => [.clear]
      | _ => [] := by
  have hneg : ¬ (sq.node ≠ sq.node ∨ (datagram.take 4096).length < 4) := by
    rw [not_or, not_not, not_lt]
    exact ⟨rfl, hlen⟩
  simp only [Input.edits, hrecv, if_neg hneg]

theorem propagate_table (h : s.Inv) (a : NodeAllocs) (pkt : Packet) (k : UInt32) :
    (propagate s a pkt).2.table k = s.table k := by
  have hgot := nodeGet_spec h a s.localNode
  unfold propagate
  rcases hnode : nodeGet s a s.localNode with ⟨_ | p, s₁⟩
  · rw [hnode] at hgot
    exact hgot.table k
  · rw [hnode] at hgot
    exact hgot.table k

theorem ctrlCmdNewLookup_table (s : Ns) (a : Allocs) (sq : SockAddr) (service inst k : UInt32) :
    (ctrlCmdNewLookup s a sq service inst).2.table k = s.table k := by
  unfold ctrlCmdNewLookup
  split_ifs
  · rfl
  · rfl
  · rfl

theorem registerServer_byPort (h : Well n s) {a : Allocs} (ha : a.Registers) {srv : Server}
    (hclear : (s.table srv.node).Clear Server.key srv.key) :
    ((registerServer s a srv).2.table srv.node).byPort =
      Function.update (s.table srv.node).byPort srv.port (some srv) := by
  obtain ⟨-, hsender, hservices⟩ := ha
  have hsame : registerServer s a srv = registerServer s enough srv := by
    unfold registerServer
    rw [hsender, hservices]
    rfl
  obtain ⟨-, old, hreput⟩ := registerServer_enough h.sound.inv h.sound.view srv
  rw [hsame]
  exact (byPort_reput (h.sound.view.wf _) (h.unique _) hclear hreput).2.2

theorem ctrlCmdBye_byPort (h : Well n s) (a : Allocs) (sq : SockAddr) :
    ((ctrlCmdBye s a sq).2.table sq.node).byPort = fun _ => none := by
  have hhandles := @ctrlCmdBye_handles (fun _ _ => True) s h.sound.inv a sq
  obtain ⟨removed, t, hsweep, htable, -⟩ := ctrlCmdBye_sweep h.sound.inv a sq
  obtain ⟨-, hempty⟩ := sweep_inOrder (s.table sq.node).size 0 (s.table sq.node)
    (h.sound.view.wf sq.node) (inOrder_of_unique (h.unique sq.node)) (by omega)
    (fun j hj => absurd hj (Nat.not_lt_zero j))
  have hwf := (hhandles.change.inv h.sound.view).wf sq.node
  rw [hsweep] at hempty
  apply byPort_of_items_eq_nil hwf
  rw [show (ctrlCmdBye s a sq).2.view.table sq.node = t from htable]
  exact hempty

theorem ctrlCmdDelServer_byPort (h : Well n s) (a : Allocs) (sq : SockAddr) (node port : UInt32) :
    ((ctrlCmdDelServer s a sq node port).2.table sq.node).byPort =
      Replicas.replay (if (claimed (nsInit n) sq node port).node = sq.node then
        [.drop (claimed (nsInit n) sq node port).port] else []) (s.table sq.node).byPort := by
  have hown : ¬ (sq.node = s.localNode ∧ sq.port ≠ (claimed s sq node port).port) := by
    rintro ⟨hlocal, hport⟩
    rw [claimed, if_pos hlocal] at hport
    exact hport rfl
  rw [← claimed_congr h.localNode]
  unfold ctrlCmdDelServer
  dsimp only
  by_cases hnode : (claimed s sq node port).node = sq.node
  · rw [if_neg (not_not.mpr hnode.symm), if_neg hown, if_pos hnode, hnode]
    exact delServer_byPort h.sound (h.unique _) a.sender _
  · rw [if_pos (Ne.symm hnode), if_neg hnode]
    rfl

theorem ctrlCmdDelClient_byPort (h : Well n s) (a : Allocs) (sq : SockAddr) (node port : UInt32) :
    ((ctrlCmdDelClient s a sq node port).2.table sq.node).byPort =
      Replicas.replay (if node = sq.node ∧ (sq.node = n → port = sq.port) then [.drop port] else [])
        (s.table sq.node).byPort := by
  unfold ctrlCmdDelClient
  by_cases hnode : sq.node = node
  swap
  · rw [if_pos hnode, if_neg (fun hboth => hnode hboth.1.symm)]
    rfl
  by_cases hport : sq.node = s.localNode ∧ sq.port ≠ port
  · have hother : ¬ (node = sq.node ∧ (sq.node = n → port = sq.port)) := by
      rintro ⟨-, hsame⟩
      exact hport.2 (hsame (hport.1.trans h.localNode)).symm
    rw [if_neg (not_not.mpr hnode), if_pos hport, if_neg hother]
    rfl
  have hsame : node = sq.node ∧ (sq.node = n → port = sq.port) := by
    refine ⟨hnode.symm, fun hn => ?_⟩
    by_contra hne
    exact hport ⟨hn.trans h.localNode.symm, Ne.symm hne⟩
  rw [if_neg (not_not.mpr hnode), if_neg hport, if_pos hsame]
  subst hnode
  dsimp only
  generalize hs₁ : ({ s with lookups := s.lookups.filter fun l =>
    ¬(l.sq.node = sq.node ∧ l.sq.port = port) } : Ns) = s₁
  have hforget : Sound (fun q => q.service ≠ 0 ∧ q.port ≠ 0) (fun l => l.sq.node = n) s₁ := by
    rw [← hs₁]
    exact ⟨⟨h.sound.inv.wf, h.sound.inv.unique, h.sound.inv.clean, h.sound.inv.lt⟩,
      ⟨h.sound.view.wf, h.sound.view.owned, h.sound.view.ids.sublist (List.filter_sublist.map _),
        fun l hl => h.sound.view.fresh l (List.mem_of_mem_filter hl)⟩, h.sound.all,
      fun l hl => h.sound.lookups l (List.mem_of_mem_filter hl)⟩
  have htable : s₁.table sq.node = s.table sq.node := by
    rw [← hs₁]
    rfl
  have hdel := @delServer_handles (fun _ _ => True) sq.node s₁ hforget.inv a.sender port
  refine (congrArg Map.byPort (propagate_table hdel.inv a.localNode _ sq.node)).trans ?_
  have hu : (s₁.table sq.node).Unique Server.key := by
    rw [htable]
    exact h.unique sq.node
  rw [← htable]
  exact delServer_byPort hforget hu a.sender port

theorem ctrlCmdNewServer_byPort (h : Well n s) (a : Allocs) (sq : SockAddr)
    (service inst node port : UInt32)
    (hadmits : ∀ srv, newServer? s sq service inst node port = some srv →
      (s.table srv.node).Clear Server.key srv.key ∧ a.Registers) :
    ((ctrlCmdNewServer s a sq service inst node port).2.table sq.node).byPort =
      Replicas.replay (match newServer? s sq service inst node port with
        | some srv => [.put srv.port srv]
        | none => []) (s.table sq.node).byPort := by
  rw [ctrlCmdNewServer_eq]
  cases hnew : newServer? s sq service inst node port with
  | none => rfl
  | some srv =>
      obtain ⟨hclear, hregisters⟩ := hadmits srv hnew
      dsimp only
      rw [if_pos hregisters.1, ← node_of_newServer? hnew]
      exact registerServer_byPort h hregisters hclear

/-- **One packet**: it does to the servers of every node what it asks for. -/
theorem Well.asked (h : Well n s) (hadmits : s.Admits i) (hstep : ctrlPortFn s i = .ok (out, s'))
    (k : UInt32) : (s'.table k).byPort = Replicas.replay (i.edits n k) (s.table k).byPort := by
  obtain ⟨-, hothers⟩ := h.step hadmits.1 hstep
  obtain ⟨sq, datagram, hrecv, -, ⟨hshort, heq⟩ | ⟨hlen, heq⟩⟩ := ctrlPortFn_cases hstep
  · cases heq
    rw [edits_of_ne hrecv (Or.inr hshort)]
    rfl
  by_cases hk : sq.node = k
  swap
  · rw [edits_of_ne hrecv (Or.inl hk), hothers sq datagram hrecv k (Ne.symm hk)]
    rfl
  subst hk
  obtain rfl : s' = (ctrlCmd s i sq (datagram.take 4096)).2 := congrArg Prod.snd heq
  rw [edits_eq hrecv hlen]
  obtain ⟨hclear, hmemory⟩ := hadmits
  unfold ctrlCmd
  cases hcmd : cmdOf (i.field (datagram.take 4096) 0) with
  | hello =>
      obtain ⟨-, -, hview, -⟩ := ctrlCmdHello_spec h.sound.inv i sq (datagram.take 4096)
      exact congrArg (fun v : View => (v.table sq.node).byPort) hview
  | bye => exact ctrlCmdBye_byPort h i.allocs sq
  | newServer =>
      have hnew : i.newServer? s = newServer? s sq (i.field (datagram.take 4096) 4)
          (i.field (datagram.take 4096) 8) (i.field (datagram.take 4096) 12)
          (i.field (datagram.take 4096) 16) := by
        simp only [Input.newServer?, hrecv, if_pos (And.intro hlen hcmd)]
      have hbyPort := ctrlCmdNewServer_byPort h i.allocs sq (i.field (datagram.take 4096) 4)
        (i.field (datagram.take 4096) 8) (i.field (datagram.take 4096) 12)
        (i.field (datagram.take 4096) 16) fun srv hsrv =>
          ⟨hclear srv (hnew.trans hsrv), hmemory srv (hnew.trans hsrv)⟩
      rw [← hnew, newServer?_nsInit h.localNode] at hbyPort
      exact hbyPort
  | delServer => exact ctrlCmdDelServer_byPort h i.allocs sq _ _
  | delClient => exact ctrlCmdDelClient_byPort h i.allocs sq _ _
  | newLookup => exact congrArg Map.byPort (ctrlCmdNewLookup_table s i.allocs sq _ _ sq.node)
  | delLookup => rfl
  | other => rfl

end Asked

/-! ### The registry -/

/-- What a history of packets at the node `n` asks for: the server of a node under a port. -/
def asked (n : UInt32) (h : List (Input × List Sent)) (k : UInt32) : UInt32 → Option Server :=
  Replicas.replay (h.flatMap fun x => x.1.edits n k) fun _ => none

section Registry

variable {n : UInt32} {s : Ns} {h : List (Input × List Sent)} {q : Server}

theorem registry_run (hrun : Run ctrlPortFn Ns.Admits (nsInit n) h s) :
    Well n s ∧ ∀ k, (s.table k).byPort = asked n h k := by
  refine @Run.invariant _ _ _ _ _ _ _
    (fun h s => Well n s ∧ ∀ k, (s.table k).byPort = asked n h k) ?_ ?_ _ _ hrun
  · exact ⟨well_nsInit n, fun k => rfl⟩
  · rintro h s i out s' ⟨hwell, hasked⟩ hadmits hstep
    refine ⟨(hwell.step hadmits.1 hstep).1, fun k => ?_⟩
    rw [hwell.asked hadmits hstep k, hasked k, asked, asked, List.flatMap_append, replay_append,
      List.flatMap_singleton]

theorem listed_iff (hwell : Well n s) :
    q ∈ serverQuery matchAll s ↔ (s.table q.node).byPort q.port = some q := by
  have hwf : (s.table q.node).Wf Server.key := hwell.sound.view.wf q.node
  rw [mem_serverQuery_matchAll hwell.sound.inv hwell.sound.view,
    byPort_eq_some_iff hwf (hwell.unique q.node)]
  exact (and_iff_left rfl).symm

/-- **The tables refine the registry**: a server is listed exactly when it is what the packets so
far ask for under its node and port. -/
theorem registry_refines (hrun : Run ctrlPortFn Ns.Admits (nsInit n) h s) (q : Server) :
    q ∈ serverQuery matchAll s ↔ asked n h q.node q.port = some q := by
  obtain ⟨hwell, hasked⟩ := registry_run hrun
  rw [listed_iff hwell, hasked]

end Registry

theorem clear_mapCreate (k : UInt32) : (mapCreate : Map Server).Clear Server.key k := by
  intro j _ v hv
  cases hv

/-- A packet that is handled with enough memory. -/
def handled (s : Ns) (sq : SockAddr) (pkt : List UInt8) : List Sent × Ns :=
  ctrlCmd s (call sq pkt) sq pkt

theorem admits_call {s : Ns} {sq : SockAddr} {pkt : List UInt8}
    (h : ∀ srv, (call sq pkt).newServer? s = some srv → s.table srv.node = mapCreate) :
    s.Admits (call sq pkt) := by
  refine ⟨fun srv hsrv => ?_, fun _ _ => ⟨rfl, rfl, rfl⟩⟩
  rw [h srv hsrv]
  exact clear_mapCreate _

theorem ctrlPortFn_call {s : Ns} {sq : SockAddr} {cmd service inst node port : UInt32} :
    ctrlPortFn s (call sq (ctrlPkt cmd service inst node port)) =
      .ok ((handled s sq (ctrlPkt cmd service inst node port)).1,
        (handled s sq (ctrlPkt cmd service inst node port)).2) := by
  rw [ctrlPortFn_ctrlPkt rfl]
  rfl

theorem registry_refines_two : ∃ h s, Run ctrlPortFn Ns.Admits (nsInit 1) h s ∧
    (⟨7, 257, 1, 100⟩ : Server) ∈ serverQuery matchAll s ∧
    (⟨8, 0, 2, 9⟩ : Server) ∈ serverQuery matchAll s := by
  let s₁ := (handled (nsInit 1) ⟨1, 100⟩ (ctrlPkt 4 7 257 0 0)).2
  have hadmits₁ : (nsInit 1).Admits (call ⟨1, 100⟩ (ctrlPkt 4 7 257 0 0)) :=
    admits_call fun _ _ => rfl
  have hrun₁ : Run ctrlPortFn Ns.Admits (nsInit 1) _ s₁ := Run.nil.snoc hadmits₁ ctrlPortFn_call
  have hadmits : s₁.Admits (call ⟨2, portCtrl⟩ (ctrlPkt 4 8 0 2 9)) := by
    refine admits_call fun srv hsrv => ?_
    cases hsrv
    exact ((well_nsInit 1).step hadmits₁.1 ctrlPortFn_call).2 _ _ rfl 2 (by decide)
  have hrun₂ := hrun₁.snoc hadmits ctrlPortFn_call
  exact ⟨_, _, hrun₂, (registry_refines hrun₂ _).mpr (by decide +kernel),
    (registry_refines hrun₂ _).mpr (by decide +kernel)⟩

/-- The condition on markers is needed: the second announcement of a server behind a removed one is
put into another slot, and only one of the two is removed. -/
example : serverQuery matchAll ([(true, ⟨7, 257, 1, 1⟩), (true, ⟨7, 257, 1, 257⟩),
    (false, ⟨7, 257, 1, 1⟩), (true, ⟨7, 257, 1, 257⟩), (false, ⟨7, 257, 1, 257⟩)].foldl
      (fun s x => (handled s ⟨1, portCtrl⟩ (castBytes x)).2) (nsInit 2)) =
    [⟨7, 257, 1, 257⟩] := by decide +kernel

/-! ### What other name services are told -/

/-- What is sent to the name service of the node `k` about servers. -/
def toldTo (k : UInt32) (out : List Sent) : List (Bool × Server) :=
  out.filterMap fun
    | .packet dest (.server new srv) =>
        if dest = bcastSq ∨ dest = ⟨k, portCtrl⟩ then some (new, srv) else none
    | _ => none

/-- HELLO of the name service of `k`, to which the whole answer is sent. -/
structure Input.Greets (i : Input) (k : UInt32) : Prop where
  hello : ∃ d, i.recv = some (⟨k, portCtrl⟩, d) ∧ 4 ≤ (d.take 4096).length ∧
    cmdOf (i.field (d.take 4096) 0) = .hello
  sent : ∀ j, i.sendOk j = true
  memory : i.allocs.localNode = ⟨true, true⟩

section Told

variable {m k : UInt32} {s s' : Ns} {i : Input} {sq : SockAddr} {out : List Sent}

theorem mem_toldTo {x : Bool × Server} (hx : x ∈ toldTo k out) :
    ∃ dest, .packet dest (.server x.1 x.2) ∈ out ∧ (dest = bcastSq ∨ dest = ⟨k, portCtrl⟩) := by
  obtain ⟨y, hy, htold⟩ := List.mem_filterMap.mp hx
  match y with
  | .packet dest (.server new srv) =>
      dsimp only at htold
      split_ifs at htold with hdest
      cases htold
      exact ⟨dest, hy, hdest⟩
  | .packet _ (.hello _) => cases htold
  | .packet _ (.bye _) => cases htold
  | .packet _ (.delClient _ _) => cases htold
  | .notify _ _ _ _ => cases htold

/-- What leaves the node is what is broadcast. -/
theorem toldTo_of_stays (hk : k ≠ m) (h : ∀ x ∈ out, x.dest.node = m ∨
    ∃ new srv, x = .packet bcastSq (.server new srv) ∧ srv.node = m) : toldTo k out =
    casts out := by
  refine List.filterMap_congr fun x hx => ?_
  match x with
  | .packet dest (.server new srv) =>
      refine if_congr (or_iff_left_of_imp ?_) rfl rfl
      rintro rfl
      rcases h _ hx with hnode | ⟨new', srv', heq, -⟩
      · exact absurd hnode hk
      · exact (Sent.packet.inj heq).1
  | .packet _ (.hello _) => rfl
  | .packet _ (.bye _) => rfl
  | .packet _ (.delClient _ _) => rfl
  | .notify _ _ _ _ => rfl

theorem mem_mapItems_own (h : Well m s) {q : Server} (hq : q ∈ mapItems (s.table m)) :
    (s.table m).byPort q.port = some q ∧ q.node = m ∧ q.service ≠ 0 ∧ q.port ≠ 0 := by
  have hwf : (s.table m).Wf Server.key := h.sound.view.wf m
  exact ⟨(byPort_eq_some_iff hwf (h.unique m)).mpr ⟨hq, rfl⟩, h.sound.view.owned m q hq,
    h.sound.all m q hq⟩

theorem told_hello (h : Well m s) (i : Input) (sq : SockAddr) (bytes : List UInt8) :
    ∀ x ∈ toldTo k (ctrlCmdHello s i sq bytes).1, x.1 = true ∧ x.2 ∈ mapItems (s.table m) := by
  intro x hx
  obtain ⟨dest, hsent, -⟩ := mem_toldTo hx
  have hgot := nodeGet_spec h.sound.inv i.allocs.localNode s.localNode
  unfold ctrlCmdHello at hsent
  dsimp only at hsent
  split_ifs at hsent
  · rcases hnode : nodeGet s i.allocs.localNode s.localNode with ⟨_ | p, s₁⟩
    · rw [hnode] at hsent
      cases List.mem_singleton.mp hsent
    · rw [hnode] at hsent hgot
      rcases List.mem_cons.mp hsent with heq | hsent
      · cases heq
      · obtain ⟨srv, hsrv, heq⟩ := mem_annouceServers _ _ _ hsent
        obtain ⟨hnew, hsame⟩ := Packet.server.inj (Sent.packet.inj heq).2
        rw [hgot.services, h.localNode] at hsrv
        rw [hsame]
        exact ⟨hnew, hsrv⟩
  · cases List.mem_singleton.mp hsent

theorem replay_told_own (h : Well m s) {xs : List (Bool × Server)}
    (hxs : ∀ x ∈ xs, x.1 = true ∧ x.2 ∈ mapItems (s.table m)) :
    Replicas.replay (xs.map castEdit) (s.table m).byPort = (s.table m).byPort := by
  have hputs : xs.map castEdit = (xs.map fun x => (x.2.port, x.2)).map fun y => .put y.1 y.2 := by
    rw [List.map_map]
    exact List.map_congr_left fun x hx => if_pos (hxs x hx).1
  rw [hputs]
  apply replay_puts_self
  intro y hy
  obtain ⟨x, hx, rfl⟩ := List.mem_map.mp hy
  exact (mem_mapItems_own h (hxs x hx).2).1

/-- **One packet**: what it does to the servers of the own node is told to every other node. -/
theorem Well.tells (h : Well m s) (hm : m ≠ bcastSq.node) (hk : k ≠ m) (hclear : s.Clears i)
    (hstep : ctrlPortFn s i = .ok (out, s')) :
    (s'.table m).byPort = Replicas.replay ((toldTo k out).map castEdit) (s.table m).byPort ∧
      ∀ x ∈ toldTo k out, x.2.node = m ∧ x.2.service ≠ 0 ∧ x.2.port ≠ 0 := by
  obtain ⟨-, hothers⟩ := h.step hclear hstep
  obtain ⟨sq, datagram, hrecv, -, ⟨-, heq⟩ | ⟨hlen, heq⟩⟩ := ctrlPortFn_cases hstep
  · cases heq
    exact ⟨rfl, fun x hx => by cases hx⟩
  by_cases hhello : cmdOf (i.field (datagram.take 4096) 0) = .hello
  · have hctrl : (out, s') = ctrlCmdHello s i sq (datagram.take 4096) := by
      rw [heq, ctrlCmd, hhello]
    obtain ⟨-, -, hview, -⟩ := ctrlCmdHello_spec h.sound.inv i sq (datagram.take 4096)
    have htold := told_hello (k := k) h i sq (datagram.take 4096)
    rw [← hctrl] at hview htold
    refine ⟨?_, fun x hx => (mem_mapItems_own h (htold x hx).2).2⟩
    rw [replay_told_own h htold]
    exact congrArg (fun v : View => (v.table m).byPort) hview
  · have hannounces := ctrlPortFn_announces h.sound h.localNode hrecv hclear hhello hstep
    obtain ⟨l, hedits, hcasts⟩ := hannounces.edits
    have hstays := hannounces.stays
    rw [h.localNode] at hcasts hstays
    rw [toldTo_of_stays hk hstays]
    refine ⟨?_, fun x hx => ?_⟩
    · dsimp only at hcasts hedits
      rw [hcasts]
      split_ifs with hnode
      · rw [hnode] at hedits
        exact (hedits.byPort (h.sound.view.wf m) (h.unique m)).2.2
      · rw [hothers sq datagram hrecv m (Ne.symm hnode)]
        rfl
    · rw [← toldTo_of_stays hk hstays] at hx
      obtain ⟨dest, hsent, hdest⟩ := mem_toldTo hx
      have hreports := ctrlPortFn_reports h.sound (fun srv hsrv => asked_ne_zero hsrv)
        (fun l hl => (node_of_newLookup? hl).trans h.localNode) hstep
      refine ⟨?_, hreports _ hsent⟩
      rcases hstays _ hsent with hnode | ⟨new, srv, heq, hnode⟩
      · rcases hdest with rfl | rfl
        · exact absurd hnode.symm hm
        · exact absurd hnode hk
      · cases heq
        exact hnode

theorem annouceServers_sent {sendOk : ℕ → Bool} (hsent : ∀ j, sendOk j = true) (dest : SockAddr)
    (servers : List Server) : ∀ i, annouceServers sendOk dest i servers =
      servers.map fun srv => .packet dest (.server true srv) := by
  induction servers with
  | nil => exact fun _ => rfl
  | cons srv rest ih =>
      intro i
      rw [annouceServers, if_pos (hsent i), ih, List.map_cons]

/-- A whole answer to HELLO lists all servers of the own node. -/
theorem Well.greeted (h : Well m s) (hgreets : i.Greets k)
    (hstep : ctrlPortFn s i = .ok (out, s')) :
    toldTo k out = (mapItems (s.table m)).map fun srv => (true, srv) := by
  obtain ⟨d, hrecv, hlen, hhello⟩ := hgreets.hello
  obtain ⟨sq, datagram, hrecv', -, ⟨hshort, -⟩ | ⟨-, heq⟩⟩ := ctrlPortFn_cases hstep
  · obtain ⟨rfl, rfl⟩ := Prod.mk.inj (Option.some.inj (hrecv.symm.trans hrecv'))
    omega
  obtain ⟨rfl, rfl⟩ := Prod.mk.inj (Option.some.inj (hrecv.symm.trans hrecv'))
  obtain ⟨p, s₁, hget⟩ := nodeGet_isSome h.sound.inv s.localNode
  have hgot := nodeGet_spec h.sound.inv (⟨true, true⟩ : NodeAllocs) s.localNode
  rw [hget] at hgot
  have htable : s₁.services p = s.table m := hgot.services.trans (congrArg s.table h.localNode)
  have hout : out = .packet ⟨k, portCtrl⟩ (.hello (d.take 4096)) ::
      (mapItems (s.table m)).map fun srv => .packet ⟨k, portCtrl⟩ (.server true srv) := by
    have hfst := congrArg Prod.fst heq
    simp only [ctrlCmd, hhello, ctrlCmdHello, hgreets.sent, if_true, hgreets.memory, hget,
      annouceServers_sent hgreets.sent, htable] at hfst
    exact hfst
  rw [hout, toldTo, List.filterMap_cons, List.filterMap_map]
  have hsome : ∀ srv ∈ mapItems (s.table m), (if (⟨k, portCtrl⟩ : SockAddr) = bcastSq ∨
      (⟨k, portCtrl⟩ : SockAddr) = ⟨k, portCtrl⟩ then some (true, srv) else none) =
      some (true, srv) := fun srv _ => if_pos (Or.inr rfl)
  exact (List.filterMap_congr hsome).trans (congrFun List.filterMap_eq_map' _)

end Told

/-! ### Two name services -/

/-- The datagram of a packet about servers from the node `m`. -/
def Input.aboutServers (i : Input) (m : UInt32) : Option (List UInt8) :=
  match i.recv with
  | none => none
  | some (sq, datagram) =>
      if sq.node = m ∧ 4 ≤ (datagram.take 4096).length then
        match cmdOf (i.field (datagram.take 4096) 0) with
        | .newServer | .delServer | .delClient | .bye => some datagram
        | _ => none
      else none

section Peers

variable {m n : UInt32} {s s' s₁ : Ns} {i : Input} {h h₁ h₂ h' : List (Input × List Sent)}

theorem edits_of_not_about (hnone : i.aboutServers m = none) : i.edits n m = [] := by
  cases hrecv : i.recv with
  | none => simp only [Input.edits, hrecv]
  | some packet =>
      obtain ⟨sq, datagram⟩ := packet
      by_cases hfrom : sq.node = m ∧ 4 ≤ (datagram.take 4096).length
      · obtain ⟨rfl, hlen⟩ := hfrom
        rw [edits_eq hrecv hlen]
        simp only [Input.aboutServers, hrecv, hlen, and_self, if_true] at hnone
        cases hcmd : cmdOf (i.field (datagram.take 4096) 0) with
        | newServer | delServer | delClient | bye =>
            rw [hcmd] at hnone
            cases hnone
        | hello | newLookup | delLookup | other => rfl
      · rw [not_and_or, not_le] at hfrom
        exact edits_of_ne hrecv hfrom

theorem recv_of_about {d : List UInt8} (hsome : i.aboutServers m = some d) :
    ∃ sq, i.recv = some (sq, d) ∧ sq.node = m := by
  unfold Input.aboutServers at hsome
  cases hrecv : i.recv with
  | none =>
      rw [hrecv] at hsome
      cases hsome
  | some packet =>
      obtain ⟨sq, datagram⟩ := packet
      simp only [hrecv] at hsome
      split_ifs at hsome with hfrom
      refine ⟨sq, ?_, hfrom.1⟩
      split at hsome
      · cases hsome
        rfl
      · cases hsome
        rfl
      · cases hsome
        rfl
      · cases hsome
        rfl
      · cases hsome

theorem castBytes_eq (x : Bool × Server) : castBytes x =
    ctrlPkt (if x.1 then 4 else 5) x.2.service x.2.inst x.2.node x.2.port := by
  unfold castBytes
  split_ifs
  · rfl
  · rfl

theorem edits_of_about (hmn : m ≠ n) {x : Bool × Server} (hnode : x.2.node = m)
    (hx : x.2.service ≠ 0 ∧ x.2.port ≠ 0) (hsome : i.aboutServers m = some (castBytes x)) :
    i.edits n m = [castEdit x] := by
  obtain ⟨sq, hrecv, hsq⟩ := recv_of_about hsome
  rw [castBytes_eq] at hrecv
  have hclaimed : claimed (nsInit n) sq x.2.node x.2.port = ⟨x.2.node, x.2.port⟩ :=
    if_neg fun hlocal => hmn (hsq.symm.trans hlocal)
  obtain ⟨hcmd, -, -, hf₁₂, hf₁₆⟩ := field_ctrlPkt i (if x.1 then 4 else 5) x.2.service x.2.inst
    x.2.node x.2.port
  have hnew := newServer?_ctrlPkt hrecv (nsInit n)
  have hlen : 4 ≤ ((ctrlPkt (if x.1 then 4 else 5) x.2.service x.2.inst x.2.node
      x.2.port).take 4096).length := by
    rw [take_ctrlPkt, length_ctrlPkt]
    omega
  rw [← hsq, edits_eq hrecv hlen, take_ctrlPkt, hcmd, hf₁₂, hf₁₆, hclaimed, hnew]
  obtain ⟨new, srv⟩ := x
  dsimp only at hnode hx hclaimed ⊢
  cases new with
  | true =>
      have hasked : newServer? (nsInit n) sq srv.service srv.inst srv.node srv.port = some srv := by
        rw [newServer?, hclaimed]
        exact if_neg (not_or.mpr ⟨not_not.mpr (hsq.trans hnode.symm), not_or.mpr hx⟩)
      have hcmd₄ : cmdOf 4 = .newServer := rfl
      simp only [if_true, hcmd₄, hasked]
      rfl
  | false =>
      have hcmd₅ : cmdOf 5 = .delServer := rfl
      simp only [Bool.false_eq_true, if_false, hcmd₅]
      rw [if_pos (hnode.trans hsq.symm)]
      rfl

/-- The packets about servers that have arrived ask for what they say. -/
theorem edits_of_arrived (hmn : m ≠ n) : ∀ {told : List (Bool × Server)},
    (∀ x ∈ told, x.2.node = m ∧ x.2.service ≠ 0 ∧ x.2.port ≠ 0) →
    h'.filterMap (fun x => x.1.aboutServers m) = told.map castBytes →
    h'.flatMap (fun x => x.1.edits n m) = told.map castEdit := by
  induction h' with
  | nil =>
      intro told _ harrived
      rw [List.map_eq_nil_iff.mp harrived.symm]
      rfl
  | cons y h' ih =>
      intro told htold harrived
      rw [List.flatMap_cons]
      cases habout : y.1.aboutServers m with
      | none =>
          rw [List.filterMap_cons, habout] at harrived
          rw [edits_of_not_about habout, ih htold harrived]
          rfl
      | some d =>
          rw [List.filterMap_cons, habout] at harrived
          obtain ⟨x, rest, rfl, rfl, hrest⟩ := List.map_eq_cons_iff.mp harrived.symm
          obtain ⟨hx, hok⟩ := List.forall_mem_cons.mp htold
          rw [edits_of_about hmn hx.1 hx.2 habout, ih hok hrest.symm]
          rfl

theorem tells_run (hm : m ≠ bcastSq.node) {k : UInt32} (hk : k ≠ m) (hwell : Well m s₁)
    (hrun : Run ctrlPortFn Ns.Clears s₁ h s) : Well m s ∧
      (s.table m).byPort = Replicas.replay ((h.flatMap fun x => toldTo k x.2).map castEdit)
        (s₁.table m).byPort ∧
      ∀ x ∈ h.flatMap fun x => toldTo k x.2, x.2.node = m ∧ x.2.service ≠ 0 ∧ x.2.port ≠ 0 := by
  refine @Run.invariant _ _ _ _ _ _ _ (fun h s => Well m s ∧
      (s.table m).byPort = Replicas.replay ((h.flatMap fun x => toldTo k x.2).map castEdit)
        (s₁.table m).byPort ∧
      ∀ x ∈ h.flatMap fun x => toldTo k x.2, x.2.node = m ∧ x.2.service ≠ 0 ∧ x.2.port ≠ 0)
    ?_ ?_ _ _ hrun
  · exact ⟨hwell, rfl, fun x hx => by cases hx⟩
  · rintro h s i out s' ⟨hwell, htable, hok⟩ hclear hstep
    obtain ⟨htable', hok'⟩ := hwell.tells hm hk hclear hstep
    refine ⟨(hwell.step hclear hstep).1, ?_, fun x hx => ?_⟩
    · rw [htable', htable, List.flatMap_append, List.map_append, replay_append,
        List.flatMap_singleton]
    · rw [List.flatMap_append, List.flatMap_singleton] at hx
      rcases List.mem_append.mp hx with hx | hx
      · exact hok x hx
      · exact hok' x hx

/-- What is told from some point on makes up the servers of the own node, if all of them were sent
since in an answer to HELLO, or if nothing was told before. -/
theorem told_whole (hm : m ≠ bcastSq.node) {k : UInt32} (hk : k ≠ m)
    (hrun : Run ctrlPortFn Ns.Clears (nsInit m) (h₁ ++ h₂) s)
    (hstart : h₁ = [] ∨ ∃ x ∈ h₂, x.1.Greets k) :
    Replicas.replay ((h₂.flatMap fun x => toldTo k x.2).map castEdit) (fun _ => none) =
      (s.table m).byPort := by
  rcases hstart with rfl | ⟨x, hx, hgreets⟩
  · exact (tells_run hm hk (well_nsInit m) hrun).2.1.symm
  · obtain ⟨a, b, rfl⟩ := List.append_of_mem hx
    obtain ⟨s₁, hrun₁, hrun⟩ := hrun.split
    obtain ⟨s₂, hruna, hrun⟩ := hrun.split
    obtain ⟨s₃, hclear, hstep, hrunb⟩ := hrun.first
    obtain ⟨hwell₁, -, -⟩ := tells_run hm hk (well_nsInit m) hrun₁
    obtain ⟨hwell₂, hbefore, -⟩ := tells_run hm hk hwell₁ hruna
    have hat := (hwell₂.tells hm hk hclear hstep).1
    obtain ⟨-, hbehind, -⟩ := tells_run hm hk (hwell₂.step hclear hstep).1 hrunb
    have hpart : Within (Replicas.replay ((a.flatMap fun x => toldTo k x.2).map castEdit)
        fun _ => none) (s₂.table m).byPort := by
      rw [hbefore]
      exact Within.replay (fun _ _ hnone => by cases hnone) _
    have hentries : ∀ port q, (port, q) ∈ (mapItems (s₂.table m)).map (fun q => (q.port, q)) ↔
        (s₂.table m).byPort port = some q := by
      intro port q
      have hwf : (s₂.table m).Wf Server.key := hwell₂.sound.view.wf m
      rw [byPort_eq_some_iff hwf (hwell₂.unique m), List.mem_map]
      constructor
      · rintro ⟨q', hq', heq⟩
        obtain ⟨rfl, rfl⟩ := Prod.mk.inj heq
        exact ⟨hq', rfl⟩
      · rintro ⟨hq, rfl⟩
        exact ⟨q, hq, rfl⟩
    have htold : (toldTo k x.2).map castEdit =
        ((mapItems (s₂.table m)).map fun q => (q.port, q)).map fun y => .put y.1 y.2 := by
      rw [hwell₂.greeted hgreets hstep, List.map_map, List.map_map]
      rfl
    have hsame : (s₃.table m).byPort = (s₂.table m).byPort := by
      rw [hat, htold]
      exact (Within.refl _).replay_entries hentries
    rw [hbehind, List.flatMap_append, List.flatMap_cons, List.map_append, List.map_append,
      replay_append, replay_append, htold, hpart.replay_entries hentries, hsame]

/-- **Two name services agree.**  The one of the node `m` has run through `h₁ ++ h₂`.  If the one of
the node `n` has received from `m` exactly the packets about servers that were sent to it since
`h₁`, in order, and was sent a whole answer to a HELLO since then or all from the start, both list
the same servers of `m`. -/
theorem peers_agree (hm : m ≠ bcastSq.node) (hmn : m ≠ n)
    (hrun : Run ctrlPortFn Ns.Clears (nsInit m) (h₁ ++ h₂) s)
    (hrun' : Run ctrlPortFn Ns.Admits (nsInit n) h' s')
    (hstart : h₁ = [] ∨ ∃ x ∈ h₂, x.1.Greets n)
    (harrived : h'.filterMap (fun x => x.1.aboutServers m) =
      (h₂.flatMap fun x => toldTo n x.2).map castBytes) {q : Server} (hq : q.node = m) :
    q ∈ serverQuery matchAll s' ↔ q ∈ serverQuery matchAll s := by
  obtain ⟨hwell', hasked⟩ := registry_run hrun'
  obtain ⟨s₁, hrun₁, hrun₂⟩ := hrun.split
  have hwell₁ := (tells_run hm (Ne.symm hmn) (well_nsInit m) hrun₁).1
  obtain ⟨hwell, -, hok⟩ := tells_run hm (Ne.symm hmn) hwell₁ hrun₂
  rw [listed_iff hwell', listed_iff hwell, hq, hasked, asked, edits_of_arrived hmn hok harrived,
    told_whole hm (Ne.symm hmn) hrun hstart]

end Peers

theorem peers_agree_greeted : ∃ h₁ h₂ h' s s',
    Run ctrlPortFn Ns.Clears (nsInit 1) (h₁ ++ h₂) s ∧ Run ctrlPortFn Ns.Admits (nsInit 2) h' s' ∧
    (⟨7, 257, 1, 100⟩ : Server) ∈ serverQuery matchAll s ∧
    (⟨7, 257, 1, 100⟩ : Server) ∈ serverQuery matchAll s' := by
  let s₁ := (handled (nsInit 1) ⟨1, 100⟩ (ctrlPkt 4 7 257 0 0)).2
  have hrun₁ : Run ctrlPortFn Ns.Clears (nsInit 1) _ s₁ :=
    Run.nil.snoc (fun _ _ => clear_mapCreate _) ctrlPortFn_call
  have hclear : s₁.Clears (call ⟨2, portCtrl⟩ (ctrlPkt 2 0 0 0 0)) :=
    fun srv hsrv => by cases hsrv
  have hrun := hrun₁.snoc hclear ctrlPortFn_call
  have hadmits : (nsInit 2).Admits (call ⟨1, portCtrl⟩ (ctrlPkt 4 7 257 1 100)) :=
    admits_call fun _ _ => rfl
  have hrun' := Run.nil.snoc hadmits ctrlPortFn_call
  have hgreets : (call ⟨2, portCtrl⟩ (ctrlPkt 2 0 0 0 0)).Greets 2 :=
    ⟨⟨_, rfl, by decide, by decide⟩, fun _ => rfl, rfl⟩
  have hlisted : (⟨7, 257, 1, 100⟩ : Server) ∈
      serverQuery matchAll (handled s₁ ⟨2, portCtrl⟩ (ctrlPkt 2 0 0 0 0)).2 := by decide +kernel
  exact ⟨_, _, _, _, _, hrun, hrun', hlisted, (peers_agree (by decide) (by decide) hrun hrun'
    (Or.inr ⟨_, List.mem_singleton_self _, hgreets⟩) (by decide +kernel) rfl).mpr hlisted⟩

/-! ### Where the servers come from -/

/-- **What is listed was asked for** by a packet that came from its node. -/
theorem listed_asked {n : UInt32} {s : Ns} {h : List (Input × List Sent)} {q : Server}
    (hrun : Run ctrlPortFn (fun _ _ => True) (nsInit n) h s) (hq : q ∈ serverQuery matchAll s) :
    ∃ x ∈ h, x.1.newServer? (nsInit n) = some q := by
  have hsound : Sound (fun q => ∃ x ∈ h, x.1.newServer? (nsInit n) = some q) (fun _ => True) s ∧
      s.localNode = n := by
    refine @Run.invariant _ _ _ _ _ _ _ (fun h s =>
      Sound (fun q => ∃ x ∈ h, x.1.newServer? (nsInit n) = some q) (fun _ => True) s ∧
        s.localNode = n) ?_ ?_ _ _ hrun
    · exact ⟨⟨inv_nsInit n, view_nsInit n, fun _ _ hq => (by cases hq), fun _ _ => trivial⟩, rfl⟩
    · rintro h s i out s' ⟨hsound, hlocal⟩ - hstep
      obtain ⟨sq, datagram, hrecv, hne, -⟩ := ctrlPortFn_cases hstep
      obtain ⟨r, hr, hhandles⟩ := @ctrlPortFn_handles
        (fun _ srv => i.newServer? (nsInit n) = some srv) s hsound.inv i sq datagram hrecv hne
        (fun srv hsrv => (newServer?_nsInit hlocal i).symm.trans hsrv)
      obtain rfl : r = (out, s') := Except.ok.inj (hr.symm.trans hstep)
      have hmore : Sound (fun q => ∃ x ∈ h ++ [(i, out)], x.1.newServer? (nsInit n) = some q)
          (fun _ => True) s := by
        refine ⟨hsound.inv, hsound.view, fun k q hq => ?_, hsound.lookups⟩
        obtain ⟨x, hx, hasked⟩ := hsound.all k q hq
        exact ⟨x, List.mem_append_left _ hx, hasked⟩
      refine ⟨hmore.of_handles (fun _ srv hsrv => ?_) hhandles fun _ _ => trivial,
        hhandles.localNode.trans hlocal⟩
      exact ⟨(i, out), List.mem_append_right _ (List.mem_singleton_self _), hsrv⟩
  obtain ⟨⟨k, hmem⟩, -⟩ := (mem_serverQuery hsound.1.inv).mp hq
  exact hsound.1.all k q hmem

theorem listed_asked_one : ∃ h s, Run ctrlPortFn (fun _ _ => True) (nsInit 1) h s ∧
    ∃ x ∈ h, x.1.newServer? (nsInit 1) = some ⟨7, 257, 1, 100⟩ := by
  have hrun : Run ctrlPortFn (fun _ _ => True) (nsInit 1) _ _ :=
    Run.nil.snoc trivial (@ctrlPortFn_call (nsInit 1) ⟨1, 100⟩ 4 7 257 0 0)
  exact ⟨_, _, hrun, listed_asked hrun (by decide +kernel)⟩

end Imola.Qrtr
