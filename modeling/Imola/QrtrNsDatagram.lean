import Imola.QrtrNsPorts

/-! # Short datagrams

`ctrl_port_fn` asks for four bytes, and the commands then read up to twenty.  What lies behind the
datagram is what the buffer held before.

`usedLen` is the length up to which a command uses the packet.  A datagram of that length decides
what is done, whatever the buffer held.  A shorter one is harmless only if none of its completions
passes the checks of the command (`Input.Accepted`); otherwise there is a reachable state in which a
completion changes the servers or the lookups (`decides_iff`). -/

namespace Imola.Qrtr

open Imola.Bytes Imola.Runs

/-- How much of a packet a command uses.  The node and port of local servers are ignored, and only
the local node has lookups. -/
def usedLen (localNode : UInt32) (sq : SockAddr) : Cmd → ℕ
  | .hello | .bye | .other => 4
  | .delClient => 12
  | .newServer => if sq.node = localNode then 12 else 20
  | .delServer => if sq.node = localNode then 4 else 20
  | .newLookup | .delLookup => if sq.node = localNode then 12 else 4

/-- The command in the first four bytes. -/
def datagramCmd (bytes : List UInt8) : Cmd := cmdOf (UInt32.ofNat (ofLE (bytes.take 4)))

/-- The datagram passes the checks of its command, with the buffer as it is. -/
def Input.Accepted (localNode : UInt32) (i : Input) (sq : SockAddr) (bytes : List UInt8) : Prop :=
  match datagramCmd bytes with
  | .delClient => i.field bytes 4 = sq.node ∧ (sq.node = localNode → i.field bytes 8 = sq.port)
  | .newServer =>
      (Qrtr.newServer? (nsInit localNode) sq (i.field bytes 4) (i.field bytes 8) (i.field bytes 12)
      (i.field bytes 16)).isSome
  | .delServer => i.field bytes 12 = sq.node
  | _ => True

/-- A datagram that is received into a buffer. -/
def received (sq : SockAddr) (datagram : List UInt8) (buf : ℕ → UInt8) (allocs : Allocs)
    (sendOk : ℕ → Bool) : Input :=
  ⟨some (sq, datagram), buf, allocs, sendOk⟩

/-- The servers and lookups are the same in two states. -/
structure Unchanged (s s' : Ns) : Prop where
  servers : ∀ q, q ∈ serverQuery matchAll s' ↔ q ∈ serverQuery matchAll s
  lookups : s'.lookups = s.lookups

/-- What is done with a datagram is decided by its bytes, and nothing is done when it is too short
for its command, in every reachable state. -/
structure Decides (localNode : UInt32) (sq : SockAddr) (datagram : List UInt8) : Prop where
  same : ∀ {h s}, Run ctrlPortFn (fun _ _ => True) (nsInit localNode) h s →
    ∀ allocs sendOk buf buf',
    ctrlPortFn s (received sq datagram buf allocs sendOk) =
      ctrlPortFn s (received sq datagram buf' allocs sendOk)
  short : ∀ {h s}, Run ctrlPortFn (fun _ _ => True) (nsInit localNode) h s → ∀ allocs sendOk buf,
    (datagram.take 4096).length < usedLen localNode sq (datagramCmd (datagram.take 4096)) →
    ∃ out s', ctrlPortFn s (received sq datagram buf allocs sendOk) = .ok (out, s') ∧ Unchanged s s'

/-! ### The fields -/

section Fields

variable {i i' : Input} {bytes : List UInt8} {off : ℕ}

theorem field_congr (h : off + 4 ≤ bytes.length) : i.field bytes off = i'.field bytes off := by
  unfold Input.field
  refine congrArg (fun l => UInt32.ofNat (ofLE l)) (List.map_congr_left fun j hj => ?_)
  have hj := List.mem_range.mp hj
  rw [List.getD_eq_getElem _ _ (by omega), List.getD_eq_getElem _ _ (by omega)]

theorem cmdOf_field (h : 4 ≤ bytes.length) : cmdOf (i.field bytes 0) = datagramCmd bytes := by
  refine congrArg (fun l => cmdOf (UInt32.ofNat (ofLE l))) ?_
  refine List.ext_getElem (by simp [h]) fun j hj _ => ?_
  rw [List.length_map, List.length_range] at hj
  rw [List.getElem_map, List.getElem_range, List.getElem_take, Nat.zero_add,
    List.getD_eq_getElem _ _ (by omega)]

theorem field_congr_buf (h : ∀ j < 4, i.buf (off + j) = i'.buf (off + j)) :
    i.field bytes off = i'.field bytes off := by
  unfold Input.field
  refine congrArg (fun l => UInt32.ofNat (ofLE l)) (List.map_congr_left fun j hj => ?_)
  rw [h j (List.mem_range.mp hj)]

theorem field_ne_zero (hlen : bytes.length ≤ off + 3) (h : i.buf (off + 3) ≠ 0) :
    i.field bytes off ≠ 0 := by
  have hlast : bytes.getD (off + 3) (i.buf (off + 3)) = i.buf (off + 3) :=
    List.getD_eq_default _ _ hlen
  have hpos : 0 < (i.buf (off + 3)).toNat := by
    refine Nat.pos_of_ne_zero fun hzero => h ?_
    rw [← UInt8.toNat_inj, hzero]
    rfl
  have hrange : List.range 4 = [0, 1, 2, 3] := rfl
  unfold Input.field
  rw [hrange]
  simp only [List.map_cons, List.map_nil, ofLE, hlast, Nat.mul_zero, Nat.add_zero]
  intro hzero
  have h₀ := (bytes.getD off (i.buf off)).toNat_lt
  have h₁ := (bytes.getD (off + 1) (i.buf (off + 1))).toNat_lt
  have h₂ := (bytes.getD (off + 2) (i.buf (off + 2))).toNat_lt
  have h₃ := (i.buf (off + 3)).toNat_lt
  have hnat := congrArg UInt32.toNat hzero
  rw [UInt32.toNat_ofNat_of_lt' (by simp only [UInt32.size]; omega)] at hnat
  have hz : (0 : UInt32).toNat = 0 := rfl
  omega

end Fields

/-! ### Datagrams that are long enough or refused -/

section Sufficient

variable {localNode : UInt32} {s : Ns} {i i' : Input} {sq : SockAddr} {bytes : List UInt8}

theorem newServer?_congr (hs : s.localNode = localNode) (service inst node port : UInt32) :
    newServer? s sq service inst node port = newServer? (nsInit localNode) sq service inst
      node port := by
  have hclaimed : claimed s sq node port = claimed (nsInit localNode) sq node port := by
    rw [claimed, hs]
    rfl
  rw [newServer?, hclaimed]
  rfl

theorem ctrlCmdNewServer_of_none {service inst node port : UInt32} (a : Allocs)
    (h : newServer? s sq service inst node port = none) :
    ctrlCmdNewServer s a sq service inst node port = ([], s) := by
  rw [ctrlCmdNewServer_eq, h]

/-- A command that refuses a datagram does nothing. -/
theorem ctrlCmd_of_not_accepted (hs : s.localNode = localNode)
    (hused : bytes.length < usedLen localNode sq (datagramCmd bytes)) (hlen : 4 ≤ bytes.length)
    (h : ¬ i.Accepted localNode sq bytes) : ctrlCmd s i sq bytes = ([], s) := by
  unfold Input.Accepted at h
  unfold ctrlCmd
  rw [cmdOf_field hlen]
  cases hcmd : datagramCmd bytes with
  | delClient =>
      simp only [hcmd, not_and, Classical.not_imp] at h
      simp only [ctrlCmdDelClient]
      by_cases hnode : sq.node = i.field bytes 4
      · obtain ⟨hlocal, hport⟩ := h hnode.symm
        rw [if_neg (not_not.mpr hnode), if_pos ⟨hlocal.trans hs.symm, Ne.symm hport⟩]
      · rw [if_pos hnode]
  | newServer =>
      simp only [hcmd, ← newServer?_congr hs, Option.not_isSome_iff_eq_none] at h
      exact ctrlCmdNewServer_of_none i.allocs h
  | delServer =>
      simp only [hcmd] at h hused
      have hremote : sq.node ≠ localNode := by
        intro hlocal
        simp only [usedLen, if_pos hlocal] at hused
        omega
      have hclaimed : claimed s sq (i.field bytes 12) (i.field bytes 16) =
          ⟨i.field bytes 12, i.field bytes 16⟩ :=
        if_neg (hs ▸ hremote)
      simp only [ctrlCmdDelServer, hclaimed]
      rw [if_pos (Ne.symm h)]
  | _ => simp [hcmd] at h

/-- A command depends on the fields it uses. -/
theorem ctrlCmd_congr (hs : s.localNode = localNode)
    (hlookups : ∀ l ∈ s.lookups, l.sq.node = localNode)
    (hallocs : i.allocs = i'.allocs) (hsend : i.sendOk = i'.sendOk)
    (hlen : 4 ≤ bytes.length) (hused : usedLen localNode sq (datagramCmd bytes) ≤ bytes.length) :
    ctrlCmd s i sq bytes = ctrlCmd s i' sq bytes := by
  have hfield : ∀ off, off + 4 ≤ bytes.length → i.field bytes off = i'.field bytes off :=
    fun off h => field_congr h
  unfold ctrlCmd
  rw [cmdOf_field hlen, cmdOf_field hlen, hallocs]
  cases hcmd : datagramCmd bytes with
  | hello => simp only [ctrlCmdHello, hallocs, hsend]
  | bye => rfl
  | other => rfl
  | delClient =>
      simp only [hcmd, usedLen] at hused
      simp only [hfield 4 (by omega), hfield 8 (by omega)]
  | newServer =>
      simp only [hcmd, usedLen] at hused
      by_cases hlocal : sq.node = localNode
      · rw [if_pos hlocal] at hused
        have hclaimed : ∀ node port, claimed s sq node port = sq :=
          fun _ _ => if_pos (hlocal.trans hs.symm)
        simp only [ctrlCmdNewServer, hclaimed, hfield 4 (by omega), hfield 8 (by omega)]
      · rw [if_neg hlocal] at hused
        simp only [hfield 4 (by omega), hfield 8 (by omega), hfield 12 (by omega),
          hfield 16 (by omega)]
  | delServer =>
      simp only [hcmd, usedLen] at hused
      by_cases hlocal : sq.node = localNode
      · have hclaimed : ∀ node port, claimed s sq node port = sq :=
          fun _ _ => if_pos (hlocal.trans hs.symm)
        simp only [ctrlCmdDelServer, hclaimed]
      · rw [if_neg hlocal] at hused
        simp only [hfield 12 (by omega), hfield 16 (by omega)]
  | newLookup =>
      simp only [hcmd, usedLen] at hused
      by_cases hlocal : sq.node = localNode
      · rw [if_pos hlocal] at hused
        simp only [hfield 4 (by omega), hfield 8 (by omega)]
      · simp only [ctrlCmdNewLookup, hs, ne_eq, hlocal, not_false_eq_true, if_true]
  | delLookup =>
      simp only [hcmd, usedLen] at hused
      by_cases hlocal : sq.node = localNode
      · rw [if_pos hlocal] at hused
        simp only [hfield 4 (by omega), hfield 8 (by omega)]
      · have hkeep : ∀ service inst, ctrlCmdDelLookup s sq service inst = ([], s) := by
          intro service inst
          have hself : s.lookups.filter (fun l =>
              ¬(l.sq = sq ∧ l.service = service ∧ (l.inst = 0 ∨ l.inst = inst))) = s.lookups := by
            refine List.filter_eq_self.mpr fun l hl => ?_
            have hne : l.sq ≠ sq := fun heq => hlocal (heq ▸ hlookups l hl)
            simp [hne]
          rw [ctrlCmdDelLookup, hself]
        simp only [hkeep]

theorem nodeGet_lookups (s : Ns) (a : NodeAllocs) (id : UInt32) :
    (nodeGet s a id).2.lookups = s.lookups := by
  unfold nodeGet
  dsimp only
  split
  · rfl
  · split_ifs
    · split <;> rfl
    · rfl

theorem propagate_lookups (s : Ns) (a : NodeAllocs) (pkt : Packet) :
    (propagate s a pkt).2.lookups = s.lookups := by
  have h := nodeGet_lookups s a s.localNode
  unfold propagate
  rcases hnode : nodeGet s a s.localNode with ⟨_ | p, s'⟩
  · rwa [hnode] at h
  · rwa [hnode] at h

theorem ctrlCmdHello_lookups (s : Ns) (i : Input) (sq : SockAddr) (bytes : List UInt8) :
    (ctrlCmdHello s i sq bytes).2.lookups = s.lookups := by
  have h := nodeGet_lookups s i.allocs.localNode s.localNode
  unfold ctrlCmdHello
  dsimp only
  split_ifs
  · rcases hnode : nodeGet s i.allocs.localNode s.localNode with ⟨_ | p, s'⟩
    · rwa [hnode] at h
    · rwa [hnode] at h
  · rfl

theorem registerServer_lookups (s : Ns) (a : Allocs) (srv : Server) :
    (registerServer s a srv).2.lookups = s.lookups := by
  have h := nodeGet_lookups s a.sender srv.node
  rcases registerServer_cases s a srv with hquiet | ⟨p, s₁, old, m, hget, -, hsent⟩
  · rwa [hquiet]
  · rw [hget] at h
    rw [hsent]
    exact h

theorem ctrlCmdNewServer_lookups (s : Ns) (a : Allocs) (sq : SockAddr)
    (service inst node port : UInt32) :
    (ctrlCmdNewServer s a sq service inst node port).2.lookups = s.lookups := by
  rw [ctrlCmdNewServer_eq]
  cases newServer? s sq service inst node port with
  | none => rfl
  | some srv =>
      dsimp only
      split_ifs
      · exact registerServer_lookups s a srv
      · rfl

theorem delServer_lookups (s : Ns) (a : NodeAllocs) (n port : UInt32) : (match nodeGet s a n with
    | (none, s) => (([], s) : List Sent × Ns)
    | (some p, s) => serverDel s p port).2.lookups = s.lookups := by
  have h := nodeGet_lookups s a n
  rcases hnode : nodeGet s a n with ⟨_ | p, s'⟩
  · rwa [hnode] at h
  · rw [hnode] at h
    exact (serverDel_lookups s' p port).trans h

/-- The lookup that a packet asks for. -/
def Input.newLookup? (i : Input) (s : Ns) : Option Lookup :=
  match i.recv with
  | none => none
  | some (sq, datagram) =>
      let bytes := datagram.take 4096
      if 4 ≤ bytes.length ∧ cmdOf (i.field bytes 0) = .newLookup ∧ sq.node = s.localNode then
        some ⟨s.registered, i.field bytes 4, i.field bytes 8, sq⟩
      else none

theorem ctrlCmd_lookups (h : s.Inv) (i : Input) (sq : SockAddr) (bytes : List UInt8) :
    ∀ l ∈ (ctrlCmd s i sq bytes).2.lookups, l ∈ s.lookups ∨ (cmdOf (i.field bytes 0) = .newLookup ∧
      sq.node = s.localNode ∧ l = ⟨s.registered, i.field bytes 4, i.field bytes 8, sq⟩) := by
  have hsame : ∀ {s' : Ns} {p : Lookup → Prop}, s'.lookups = s.lookups →
      ∀ l ∈ s'.lookups, l ∈ s.lookups ∨ p l :=
    fun heq l hl => Or.inl (heq ▸ hl)
  unfold ctrlCmd
  cases hcmd : cmdOf (i.field bytes 0) with
  | hello => exact hsame (ctrlCmdHello_lookups s i sq bytes)
  | bye => exact hsame (ctrlCmdBye_lookups h i.allocs)
  | other => exact hsame rfl
  | newServer => exact hsame (ctrlCmdNewServer_lookups s i.allocs sq _ _ _ _)
  | delServer =>
      dsimp only [ctrlCmdDelServer]
      split_ifs
      · exact hsame rfl
      · exact hsame rfl
      · exact hsame (delServer_lookups s i.allocs.sender _ _)
  | delClient =>
      dsimp only [ctrlCmdDelClient]
      split_ifs
      · exact hsame rfl
      · exact hsame rfl
      · intro l hl
        rw [propagate_lookups] at hl
        have hkept := Eq.mp (congrArg (l ∈ ·) (delServer_lookups _ i.allocs.sender _ _)) hl
        exact Or.inl (List.mem_of_mem_filter hkept)
  | newLookup =>
      dsimp only [ctrlCmdNewLookup]
      split_ifs with hnode
      · exact hsame rfl
      · intro l hl
        refine (List.mem_append.mp hl).imp_right fun hl => ?_
        exact ⟨rfl, not_not.mp hnode, List.mem_singleton.mp hl⟩
      · exact hsame rfl
  | delLookup => exact fun l hl => Or.inl (List.mem_of_mem_filter hl)

theorem ctrlPortFn_lookups (h : s.Inv) {i : Input} {out : List Sent} {s' : Ns}
    (hstep : ctrlPortFn s i = .ok (out, s')) :
    ∀ l ∈ s'.lookups, l ∈ s.lookups ∨ i.newLookup? s = some l := by
  intro l hl
  obtain ⟨sq, datagram, hrecv, -, ⟨-, heq⟩ | ⟨hlen, heq⟩⟩ := ctrlPortFn_cases hstep
  · cases heq
    exact Or.inl hl
  · obtain rfl : s' = (ctrlCmd s i sq (datagram.take 4096)).2 := congrArg Prod.snd heq
    refine (ctrlCmd_lookups h i sq _ l hl).imp_right ?_
    rintro ⟨hcmd, hnode, rfl⟩
    simp only [Input.newLookup?, hrecv]
    rw [if_pos ⟨hlen, hcmd, hnode⟩]

theorem node_of_newLookup? {i : Input} {l : Lookup} (h : i.newLookup? s = some l) :
    l.sq.node = s.localNode := by
  unfold Input.newLookup? at h
  split at h
  · cases h
  · dsimp only at h
    split_ifs at h with hnew
    cases h
    exact hnew.2.2

theorem lookups_local {h : List (Input × List Sent)} {P : Ns → Input → Prop}
    (hrun : Run ctrlPortFn P (nsInit localNode) h s) : ∀ l ∈ s.lookups, l.sq.node = localNode := by
  refine (@Run.invariant _ _ _ _ _ _ _ (fun _ s => s.Inv ∧ s.localNode = localNode ∧
    ∀ l ∈ s.lookups, l.sq.node = localNode) ?_ ?_ _ _ hrun).2.2
  · exact ⟨inv_nsInit localNode, rfl, fun l hl => by cases hl⟩
  · rintro h s i out s' ⟨hinv, hlocal, hlookups⟩ - hstep
    obtain ⟨n, hhandles⟩ := @handles_of_ok (fun _ _ => True) s hinv i _ hstep fun _ _ => trivial
    refine ⟨hhandles.inv, hhandles.localNode.trans hlocal, fun l hl => ?_⟩
    rcases ctrlPortFn_lookups hinv hstep l hl with hold | hnew
    · exact hlookups l hold
    · exact (node_of_newLookup? hnew).trans hlocal

end Sufficient

/-! ### States in which a completion does something -/

section Necessary

variable {localNode : UInt32} {s : Ns} {sq : SockAddr}

/-- All allocations succeed. -/
def enough : Allocs := ⟨true, ⟨true, true⟩, true, ⟨true, true⟩, true⟩

theorem nodeGet_isSome (h : s.Inv) (id : UInt32) :
    ∃ p s', nodeGet s ⟨true, true⟩ id = (some p, s') := by
  unfold nodeGet
  cases hget : mapGet (nodeKey s.heap) s.nodes (hashU32 id) with
  | some p => exact ⟨p, s, rfl⟩
  | none =>
      have hkey : ∀ p ∈ mapItems s.nodes, nodeKey (s.heap ++ [⟨id, mapCreate⟩]) p =
          nodeKey s.heap p := by
        intro p hp
        rw [nodeKey, nodeAt_append_of_lt (h.lt p hp), nodeKey]
      dsimp only
      rw [if_pos rfl, mapPut]
      obtain ⟨hfalse, -⟩ | ⟨n, j, -, -, -, hreput⟩ :=
        mapReput_spec (h.wf.congr hkey) true (hashU32 id) s.heap.length
      · cases hfalse
      · rw [hreput]
        exact ⟨_, _, rfl⟩

/-- A state in which a node has one server. -/
structure OnlyServer (localNode : UInt32) (srv : Server) (s : Ns) : Prop where
  inv : s.Inv
  view : s.view.Inv
  localNode : s.localNode = localNode
  unique : (s.table srv.node).Unique Server.key
  items : ∀ q, q ∈ mapItems (s.table srv.node) ↔ q = srv

/-- With enough memory a server is put into the map of its node, and it is told of. -/
theorem registerServer_enough (hs : s.Inv) (hv : s.view.Inv) (srv : Server) :
    (registerServer s enough srv).1 = announceLocal s true srv ++ notifyObservers
      s.lookups true srv ∧
    ∃ old, mapReput Server.key true (s.table srv.node) srv.key srv =
      some (old, (registerServer s enough srv).2.table srv.node) := by
  have hgot := nodeGet_spec hs enough.sender srv.node
  obtain ⟨p, s₁, hget⟩ : ∃ p s₁, nodeGet s enough.sender srv.node = (some p, s₁) :=
    nodeGet_isSome hs srv.node
  rw [hget] at hgot
  have hp := hgot.has p rfl
  have htable : s₁.services p = s.table srv.node :=
    (table_of_has hgot.inv hp).symm.trans (congrArg (fun v : View => v.table srv.node) hgot.view)
  have hlookups : s₁.lookups = s.lookups := congrArg View.lookups hgot.view
  have hlocal : s₁.localNode = s.localNode := hgot.localNode
  have hservices : enough.services = true := rfl
  obtain ⟨hfalse, -⟩ | ⟨n, j, -, -, -, hreput⟩ := mapReput_spec (hv.wf srv.node) true srv.key srv
  · cases hfalse
  have hput : mapReput Server.key true (s.table srv.node) srv.key srv = some (_, n.store j srv) :=
    hreput
  have hregister : registerServer s enough srv =
      (announceLocal s true srv ++ notifyObservers s.lookups true srv,
        s₁.setServices p (n.store j srv)) := by
    simp only [registerServer, hget, hservices, htable, hput, announceLocal, hlookups, hlocal]
  have hview := congrArg (fun v : View => v.table srv.node)
    (setServices_spec hgot.inv hp (n.store j srv)).2.2
  rw [View.table_setTable] at hview
  rw [hregister, hput]
  exact ⟨rfl, _, congrArg (fun m => some (_, m)) hview.symm⟩

/-- **A server that passes the checks is registered.** -/
theorem onlyServer_ctrlCmdNewServer {service inst node port : UInt32} {srv : Server}
    (h : newServer? (nsInit localNode) sq service inst node port = some srv) :
    OnlyServer localNode srv (ctrlCmdNewServer (nsInit localNode) enough sq service inst node
      port).2 := by
  have hhandles := @ctrlCmdNewServer_handles (fun _ _ => True) _ (inv_nsInit localNode) enough sq
    service inst node port
    (fun _ _ => trivial)
  obtain ⟨-, old, hreput⟩ :=
    registerServer_enough (inv_nsInit localNode) (view_nsInit localNode) srv
  have hresult : ctrlCmdNewServer (nsInit localNode) enough sq service inst node port =
      registerServer (nsInit localNode) enough srv := by
    rw [ctrlCmdNewServer_eq, h]
    rfl
  obtain ⟨hfalse, -⟩ | ⟨m, hreput', -, hu, -, hitems⟩ :=
    @mapReput_unique Server Server.key mapCreate srv.key
    Server.key srv wf_mapCreate unique_mapCreate (fun _ hj => absurd hj (Nat.not_lt_zero _))
      (fun hmem => by cases hmem)
    rfl (fun _ _ => rfl) true
  · cases hfalse
  have hnew : (registerServer (nsInit localNode) enough srv).2.table srv.node = m :=
    (Prod.mk.inj (Option.some.inj (hreput.symm.trans hreput'))).2
  rw [hresult] at hhandles ⊢
  refine ⟨hhandles.inv, hhandles.change.inv (view_nsInit localNode), hhandles.localNode, ?_,
    fun q => ?_⟩
  · rw [hnew]
    exact hu
  · rw [hnew, hitems]
    exact ⟨fun hor => hor.resolve_right fun hmem => (by cases hmem.1), Or.inl⟩

theorem delServer_gone {srv : Server} (h : OnlyServer localNode srv s) (a : NodeAllocs) :
    ∀ q, q ∉ mapItems ((match nodeGet s a srv.node with
      | (none, s) => (([], s) : List Sent × Ns)
      | (some p, s) => serverDel s p srv.port).2.table srv.node) := by
  have hgot := nodeGet_spec h.inv a srv.node
  have hsrv : srv ∈ mapItems (s.table srv.node) := (h.items srv).mpr rfl
  rcases hnode : nodeGet s a srv.node with ⟨_ | p, s'⟩
  · rw [table_of_nodeGet_none (by rw [hnode])] at hsrv
    cases hsrv
  · rw [hnode] at hgot
    have hp := hgot.has p rfl
    have htable : s'.services p = s.table srv.node :=
      (table_of_has hgot.inv hp).symm.trans (congrArg (fun v : View => v.table srv.node) hgot.view)
    have hwf : (s.table srv.node).Wf Server.key := h.view.wf srv.node
    have hget : mapGet Server.key (s'.services p) (hashU32 srv.port) = some srv := by
      rw [htable, mapGet_eq_some_iff hwf h.unique]
      exact ⟨hsrv, rfl⟩
    obtain ⟨-, -, hview⟩ :=
      setServices_spec hgot.inv hp (mapRemove Server.key (s'.services p) srv.key).2
    obtain ⟨-, -, -, hitems⟩ := mapRemove_unique hwf h.unique srv.key
    have hnew := congrArg (fun v : View => v.table srv.node) hview
    rw [View.table_setTable, htable] at hnew
    intro q hq
    simp only [serverDel, hget] at hq
    rw [htable] at hq
    have hq' : q ∈ mapItems (mapRemove Server.key (s.table srv.node) srv.key).2 := hnew ▸ hq
    obtain ⟨hmem, hne⟩ := (hitems q).mp hq'
    exact hne (by rw [(h.items q).mp hmem])

/-! ### Packets of words -/

theorem getD_flatMap_toLE (words : List ℕ) : ∀ {k j : ℕ}, k < words.length → j < 4 → ∀ d,
    (words.flatMap (toLE 4)).getD (4 * k + j) d = (toLE 4 (words.getD k 0)).getD j d := by
  induction words with
  | nil => exact fun hk => absurd hk (Nat.not_lt_zero _)
  | cons w words ih =>
      intro k j hk hj d
      rw [List.flatMap_cons]
      cases k with
      | zero =>
          rw [Nat.mul_zero, Nat.zero_add, List.getD_append _ _ _ _ (by simpa using hj)]
          rfl
      | succ k =>
          rw [List.getD_append_right _ _ _ _ (by rw [toLE_length]; omega), toLE_length,
            show 4 * (k + 1) + j - 4 = 4 * k + j by omega, ih (Nat.lt_of_succ_lt_succ hk) hj]
          rfl

theorem field_words (i : Input) (words : List ℕ) {k : ℕ} (hk : k < words.length)
    (hw : words.getD k 0 < 2 ^ 32) :
    i.field (words.flatMap (toLE 4)) (4 * k) = UInt32.ofNat (words.getD k 0) := by
  have hbytes :
      (List.range 4).map (fun j => (words.flatMap (toLE 4)).getD (4 * k + j) (i.buf (4 * k + j))) =
      toLE 4 (words.getD k 0) := by
    refine List.ext_getElem (by simp) fun j hj hj' => ?_
    rw [List.length_map, List.length_range] at hj
    rw [List.getElem_map, List.getElem_range, getD_flatMap_toLE words hk hj,
      List.getD_eq_getElem _ _ hj']
  rw [Input.field, hbytes, ofLE_toLE (by simpa using hw)]

theorem ctrlPortFn_packet (s : Ns) (sq : SockAddr) {words : List ℕ} (hne : words ≠ [])
    (hle : words.length ≤ 1024) :
    ctrlPortFn s (packet sq words) =
      .ok (ctrlCmd s (packet sq words) sq (words.flatMap (toLE 4))) := by
  have hlen : (words.flatMap (toLE 4)).length = 4 * words.length := by
    simp [List.length_flatMap, Nat.mul_comm]
  have hpos := List.length_pos_iff.mpr hne
  have htake : (words.flatMap (toLE 4)).take 4096 = words.flatMap (toLE 4) :=
    List.take_of_length_le (by omega)
  unfold ctrlPortFn
  simp only [packet, htake]
  rw [if_neg (List.ne_nil_of_length_pos (by omega)), if_neg (by omega)]

theorem lookups_ctrlCmdNewLookup (hlocal : sq.node = s.localNode) (service inst : UInt32) :
    (ctrlCmdNewLookup s enough sq service inst).2.lookups =
      s.lookups ++ [⟨s.registered, service, inst, sq⟩] := by
  have hlookup : enough.lookup = true := rfl
  rw [ctrlCmdNewLookup, if_neg (not_not.mpr hlocal), if_pos hlookup]

theorem run_newLookup (hlocal : sq.node = localNode) (service inst : UInt32) :
    ∃ h s, Run ctrlPortFn (fun _ _ => True) (nsInit localNode) h s ∧
    s.lookups = [⟨0, service, inst, sq⟩] := by
  set words := [10, service.toNat, inst.toNat] with hwords
  have hcmd : cmdOf ((packet sq words).field (words.flatMap (toLE 4)) 0) = .newLookup := by
    rw [field_words _ words (k := 0) (by simp [hwords]) (by simp [hwords])]
    rfl
  have hservice : (packet sq words).field (words.flatMap (toLE 4)) 4 = service := by
    rw [field_words _ words (k := 1) (by simp [hwords]) service.toNat_lt]
    exact UInt32.ofNat_toNat
  have hinst : (packet sq words).field (words.flatMap (toLE 4)) 8 = inst := by
    rw [field_words _ words (k := 2) (by simp [hwords]) inst.toNat_lt]
    exact UInt32.ofNat_toNat
  have hstep : ctrlPortFn (nsInit localNode) (packet sq words) =
      .ok (ctrlCmdNewLookup (nsInit localNode) enough sq service inst) := by
    rw [ctrlPortFn_packet _ sq (by simp [hwords]) (by simp [hwords]), ctrlCmd, hcmd]
    simp only [hservice, hinst]
    rfl
  refine ⟨_, (ctrlCmdNewLookup (nsInit localNode) enough sq service inst).2,
    Run.nil.snoc trivial hstep, ?_⟩
  exact lookups_ctrlCmdNewLookup (s := nsInit localNode) hlocal service inst

theorem run_newServer {n port : UInt32} (hremote : n ≠ localNode) (hport : port ≠ 0) :
    ∃ h s, Run ctrlPortFn (fun _ _ => True) (nsInit localNode) h s ∧
    OnlyServer localNode ⟨1, 0, n, port⟩ s ∧
      s.lookups = [] := by
  set words := [4, 1, 0, n.toNat, port.toNat] with hwords
  have hcmd : cmdOf ((packet ⟨n, port⟩ words).field (words.flatMap (toLE 4)) 0) = .newServer := by
    rw [field_words _ words (k := 0) (by simp [hwords]) (by simp [hwords])]
    rfl
  have hservice : (packet ⟨n, port⟩ words).field (words.flatMap (toLE 4)) 4 = 1 := by
    rw [field_words _ words (k := 1) (by simp [hwords]) (by simp [hwords])]
    rfl
  have hinst : (packet ⟨n, port⟩ words).field (words.flatMap (toLE 4)) 8 = 0 := by
    rw [field_words _ words (k := 2) (by simp [hwords]) (by simp [hwords])]
    rfl
  have hnode : (packet ⟨n, port⟩ words).field (words.flatMap (toLE 4)) 12 = n := by
    rw [field_words _ words (k := 3) (by simp [hwords]) n.toNat_lt]
    exact UInt32.ofNat_toNat
  have hfield : (packet ⟨n, port⟩ words).field (words.flatMap (toLE 4)) 16 = port := by
    rw [field_words _ words (k := 4) (by simp [hwords]) port.toNat_lt]
    exact UInt32.ofNat_toNat
  have hclaimed : claimed (nsInit localNode) ⟨n, port⟩ n port = ⟨n, port⟩ := if_neg hremote
  have hnew : newServer? (nsInit localNode) ⟨n, port⟩ 1 0 n port = some ⟨1, 0, n, port⟩ := by
    rw [newServer?, hclaimed]
    simp [hport]
  have hstep : ctrlPortFn (nsInit localNode) (packet ⟨n, port⟩ words) =
      .ok (ctrlCmdNewServer (nsInit localNode) enough ⟨n, port⟩ 1 0 n port) := by
    rw [ctrlPortFn_packet _ _ (by simp [hwords]) (by simp [hwords]), ctrlCmd, hcmd]
    simp only [hservice, hinst, hnode, hfield]
    rfl
  exact ⟨_, (ctrlCmdNewServer (nsInit localNode) enough ⟨n, port⟩ 1 0 n port).2,
    Run.nil.snoc trivial hstep,
    onlyServer_ctrlCmdNewServer hnew, ctrlCmdNewServer_lookups _ _ _ _ _ _ _⟩

variable {datagram : List UInt8}

theorem ctrlPortFn_received (hlen : 4 ≤ (datagram.take 4096).length) (s : Ns) (buf : ℕ → UInt8)
    (allocs : Allocs)
    (sendOk : ℕ → Bool) : ctrlPortFn s (received sq datagram buf allocs sendOk) =
      .ok (ctrlCmd s (received sq datagram buf allocs sendOk) sq (datagram.take 4096)) := by
  unfold ctrlPortFn
  simp only [received]
  rw [if_neg (List.ne_nil_of_length_pos (by omega)), if_neg (by omega)]

/-- What a short datagram does if it decides. -/
theorem Decides.unchanged (h : Decides localNode sq datagram)
    (hlen : 4 ≤ (datagram.take 4096).length)
    (hshort : (datagram.take 4096).length < usedLen localNode sq (datagramCmd (datagram.take 4096)))
    {tr : List (Input × List Sent)}
    (hrun : Run ctrlPortFn (fun _ _ => True) (nsInit localNode) tr s) (i : Input) :
    Unchanged s (ctrlCmd s (received sq datagram i.buf enough fun _ => true) sq
      (datagram.take 4096)).2 := by
  obtain ⟨out, s', hr, hsame⟩ := h.short hrun enough (fun _ => true) i.buf hshort
  rw [ctrlPortFn_received hlen] at hr
  rw [congrArg Prod.snd (Except.ok.inj hr)]
  exact hsame

theorem OnlyServer.not_unchanged {srv : Server} (h : OnlyServer localNode srv s) {s' : Ns}
    (hinv : s'.Inv)
    (hview : s'.view.Inv) (hgone : ∀ q, q ∉ mapItems (s'.table srv.node)) : ¬ Unchanged s s' := by
  intro hsame
  have hmem : srv ∈ serverQuery matchAll s :=
    (mem_serverQuery_matchAll h.inv h.view).mpr ((h.items srv).mpr rfl)
  have hmem' := (hsame.servers srv).mpr hmem
  rw [mem_serverQuery_matchAll hinv hview] at hmem'
  exact hgone srv hmem'

theorem ctrlCmdDelClient_forgets {l : Lookup} (hl : s.lookups = [l]) (a : Allocs) :
    (ctrlCmdDelClient s a l.sq l.sq.node l.sq.port).2.lookups = [] := by
  unfold ctrlCmdDelClient
  rw [if_neg (not_not.mpr rfl), if_neg fun h => h.2 rfl]
  dsimp only
  rw [propagate_lookups]
  refine (delServer_lookups _ a.sender _ _).trans ?_
  simp [hl]

theorem ctrlCmdDelClient_gone {port : UInt32} (hremote : sq.node ≠ localNode)
    (h : OnlyServer localNode ⟨1, 0, sq.node, port⟩ s) (hlookups : s.lookups = []) (a : Allocs) :
    ∀ q, q ∉ mapItems ((ctrlCmdDelClient s a sq sq.node port).2.table sq.node) := by
  have hkeep : { s with lookups := s.lookups.filter fun l =>
      ¬(l.sq.node = sq.node ∧ l.sq.port = port) } = s := by
    simp only [hlookups, List.filter_nil]
    rw [← hlookups]
  unfold ctrlCmdDelClient
  rw [if_neg (not_not.mpr rfl), if_neg fun hlocal => hremote (hlocal.1.trans h.localNode)]
  dsimp only
  rw [hkeep]
  have hdel := delServer_handles (G := fun _ _ => True) (n := sq.node) h.inv a.sender port
  have hview := propagate_view hdel.inv a.localNode (.delClient sq.node port)
  intro q hq
  refine delServer_gone h a.sender q ?_
  have htable := congrArg (fun v : View => mapItems (v.table sq.node)) hview
  exact htable ▸ hq

theorem ctrlCmdDelServer_gone {port : UInt32} (hremote : sq.node ≠ localNode)
    (h : OnlyServer localNode ⟨1, 0, sq.node, port⟩ s) (a : Allocs) :
    ∀ q, q ∉ mapItems ((ctrlCmdDelServer s a sq sq.node port).2.table sq.node) := by
  have hclaimed : claimed s sq sq.node port = ⟨sq.node, port⟩ := if_neg (h.localNode ▸ hremote)
  rw [ctrlCmdDelServer, hclaimed]
  dsimp only
  rw [if_neg (not_not.mpr rfl), if_neg fun hlocal => hremote (hlocal.1.trans h.localNode)]
  exact delServer_gone h a.sender

/-- The missing last byte of a port can be one that makes the port another than zero. -/
theorem exists_port (i : Input) {bytes : List UInt8} {off : ℕ} (hlen : bytes.length ≤ off + 3) :
    ∃ i' : Input, i'.field bytes off ≠ 0 ∧ ∀ o, o + 4 ≤ off →
    i'.field bytes o = i.field bytes o := by
  refine ⟨{ i with buf := Function.update i.buf (off + 3) 1 }, field_ne_zero hlen ?_,
    fun o ho => field_congr_buf ?_⟩
  · show Function.update i.buf (off + 3) 1 (off + 3) ≠ 0
    rw [Function.update_self]
    decide
  · intro j hj
    exact Function.update_of_ne (by omega) _ _

/-- **A short datagram that some buffer completes to an accepted one does not decide.** -/
theorem not_decides (hlen : 4 ≤ (datagram.take 4096).length)
    (hshort : (datagram.take 4096).length < usedLen localNode sq (datagramCmd (datagram.take 4096)))
    {i : Input}
    (hacc : i.Accepted localNode sq (datagram.take 4096)) : ¬ Decides localNode sq datagram := by
  intro hdec
  have hsame := fun {tr s} hrun i => @Decides.unchanged localNode s sq datagram hdec hlen
    hshort tr hrun i
  have hfield : ∀ (i : Input) off,
      (received sq datagram i.buf enough fun _ => true).field (datagram.take 4096) off =
      i.field (datagram.take 4096) off := fun i off => field_congr_buf fun _ _ => rfl
  generalize datagram.take 4096 = bytes at *
  have hallocs : ∀ i : Input, (received sq datagram i.buf enough fun _ => true).allocs = enough :=
    fun _ => rfl
  simp only [ctrlCmd, cmdOf_field hlen, hfield, hallocs] at hsame
  unfold Input.Accepted at hacc
  cases hcmd : datagramCmd bytes with
  | hello => simp only [hcmd, usedLen] at hshort; omega
  | bye => simp only [hcmd, usedLen] at hshort; omega
  | other => simp only [hcmd, usedLen] at hshort; omega
  | newLookup =>
      simp only [hcmd, usedLen] at hshort hsame
      have hlocal : sq.node = localNode := by
        by_contra hremote
        rw [if_neg hremote] at hshort
        omega
      have h := (hsame Run.nil i).lookups
      rw [lookups_ctrlCmdNewLookup (s := nsInit localNode) hlocal] at h
      cases h
  | delLookup =>
      simp only [hcmd, usedLen] at hshort hsame
      have hlocal : sq.node = localNode := by
        by_contra hremote
        rw [if_neg hremote] at hshort
        omega
      obtain ⟨tr, s, hrun, hl⟩ := run_newLookup hlocal (i.field bytes 4) (i.field bytes 8)
      have h := (hsame hrun i).lookups
      rw [hl] at h
      simp [ctrlCmdDelLookup, hl] at h
  | newServer =>
      simp only [hcmd] at hacc hsame
      obtain ⟨srv, hsrv⟩ := Option.isSome_iff_exists.mp hacc
      have h := hsame Run.nil i
      have honly := onlyServer_ctrlCmdNewServer hsrv
      have hmem : srv ∈ serverQuery matchAll
          (ctrlCmdNewServer (nsInit localNode) enough sq _ _ _ _).2 :=
        (mem_serverQuery_matchAll honly.inv honly.view).mpr ((honly.items srv).mpr rfl)
      have hmem' := (h.servers srv).mp hmem
      cases hmem'
  | delServer =>
      simp only [hcmd, usedLen] at hshort hsame hacc
      have hremote : sq.node ≠ localNode := by
        intro hlocal
        rw [if_pos hlocal] at hshort
        omega
      rw [if_neg hremote] at hshort
      obtain ⟨i', hport, hother⟩ := @exists_port i bytes 16 (by omega)
      obtain ⟨tr, s, hrun, honly, -⟩ := run_newServer hremote hport
      have h := hsame hrun i'
      have hhandles := @ctrlCmdDelServer_handles (fun _ _ => True) s honly.inv enough sq sq.node
        (i'.field bytes 16)
      rw [hother 12 (by omega), hacc] at h
      exact honly.not_unchanged hhandles.inv (hhandles.change.inv honly.view)
        (ctrlCmdDelServer_gone hremote honly enough) h
  | delClient =>
      simp only [hcmd, usedLen] at hshort hsame hacc
      by_cases hlocal : sq.node = localNode
      · obtain ⟨tr, s, hrun, hl⟩ := run_newLookup hlocal 0 0
        have h := (hsame hrun i).lookups
        rw [hacc.1, hacc.2 hlocal, ctrlCmdDelClient_forgets hl, hl] at h
        cases h
      · obtain ⟨i', hport, hother⟩ := @exists_port i bytes 8 (by omega)
        obtain ⟨tr, s, hrun, honly, hlookups⟩ := run_newServer hlocal hport
        have h := hsame hrun i'
        have hhandles := @ctrlCmdDelClient_handles (fun _ _ => True) s honly.inv enough sq sq.node
          (i'.field bytes 8)
        rw [hother 4 (by omega), hacc.1] at h
        exact honly.not_unchanged hhandles.inv (hhandles.change.inv honly.view)
          (ctrlCmdDelClient_gone hlocal honly hlookups enough) h

end Necessary

theorem Unchanged.refl (s : Ns) : Unchanged s s := ⟨fun _ => Iff.rfl, rfl⟩

/-- **Short datagrams**: for every sender and datagram, what `ctrl_port_fn` does is decided by the
bytes of the datagram in every reachable state exactly when it has no command, or all that its
command uses, or no completion passes the checks of the command. -/
theorem decides_iff (localNode : UInt32) (sq : SockAddr) (datagram : List UInt8)
    (hne : datagram ≠ []) :
    Decides localNode sq datagram ↔ (datagram.take 4096).length < 4 ∨
      usedLen localNode sq (datagramCmd (datagram.take 4096)) ≤ (datagram.take 4096).length ∨
      ∀ i : Input, ¬ i.Accepted localNode sq (datagram.take 4096) := by
  rcases Nat.lt_or_ge (datagram.take 4096).length 4 with hshort | hlen
  · have hignored : ∀ s buf allocs sendOk, ctrlPortFn s (received sq datagram buf allocs sendOk) =
        .ok ([], s) := by
      intro s buf allocs sendOk
      have hbytes : datagram.take 4096 ≠ [] := by simp [hne]
      simp only [ctrlPortFn, received, if_neg hbytes, if_pos hshort]
    refine iff_of_true ⟨fun _ allocs sendOk buf buf' => ?_, fun _ allocs sendOk buf _ => ?_⟩
      (Or.inl hshort)
    · rw [hignored, hignored]
    · exact ⟨[], _, hignored _ _ _ _, Unchanged.refl _⟩
  · constructor
    · intro hdec
      by_contra hnot
      simp only [not_or, not_forall, not_not, not_le] at hnot
      obtain ⟨-, hused, i, hacc⟩ := hnot
      exact not_decides hlen hused hacc hdec
    · intro hor
      rcases Nat.lt_or_ge (datagram.take 4096).length (usedLen localNode sq
        (datagramCmd (datagram.take 4096)))
        with hused | hused
      · have hrefused := (hor.resolve_left (by omega)).resolve_left (by omega)
        have hnothing : ∀ {h s}, Run ctrlPortFn (fun _ _ => True) (nsInit localNode) h s →
          ∀ buf allocs sendOk,
            ctrlPortFn s (received sq datagram buf allocs sendOk) = .ok ([], s) := by
          intro h s hrun buf allocs sendOk
          rw [ctrlPortFn_received hlen, ctrlCmd_of_not_accepted (localNode_of_run hrun) hused hlen
            (hrefused _)]
        refine ⟨fun hrun allocs sendOk buf buf' => ?_, fun hrun allocs sendOk buf _ => ?_⟩
        · rw [hnothing hrun, hnothing hrun]
        · exact ⟨[], _, hnothing hrun _ _ _, Unchanged.refl _⟩
      · refine ⟨fun hrun allocs sendOk buf buf' => ?_, fun _ _ _ _ hlt => absurd hused (by omega)⟩
        rw [ctrlPortFn_received hlen, ctrlPortFn_received hlen]
        exact congrArg Except.ok (ctrlCmd_congr (localNode_of_run hrun) (lookups_local hrun) rfl
          rfl hlen hused)

/-- NEW_SERVER from a remote node, in full. -/
theorem decides_newServer : Decides 1 ⟨2, 7⟩ ([4, 1, 0, 2, 7].flatMap (toLE 4)) :=
  (decides_iff 1 ⟨2, 7⟩ _ (by decide)).mpr (Or.inr (Or.inl (by decide)))

/-- NEW_LOOKUP of four bytes from the port 9: the service and the instance of the lookup are what
the buffer held before, and the lookup is registered. -/
theorem not_decides_newLookup :
    ctrlPortFn (nsInit 1) (received ⟨1, 9⟩ [10, 0, 0, 0] (fun _ => 0) enough fun _ => true) ≠
        ctrlPortFn (nsInit 1) (received ⟨1, 9⟩ [10, 0, 0, 0] (fun _ => 5) enough fun _ => true) ∧
      ∃ out s', ctrlPortFn (nsInit 1) (received ⟨1, 9⟩ [10, 0, 0, 0] (fun _ => 5) enough fun _ =>
        true) = .ok (out, s') ∧
        s'.lookups = [⟨0, 0x05050505, 0x05050505, ⟨1, 9⟩⟩] := by
  refine ⟨fun heq => ?_, _, _, rfl, by decide⟩
  have hlookups :=
    congrArg (fun r : Except Closed (List Sent × Ns) => r.toOption.map fun p => p.2.lookups) heq
  revert hlookups
  decide

end Imola.Qrtr
