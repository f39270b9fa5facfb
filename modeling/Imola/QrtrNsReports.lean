import Imola.QrtrNsDatagram

/-! # What the packets are about

NEW_SERVER and DEL_SERVER packets go to the observers, and about local servers to all nodes; a node
that sends HELLO gets a NEW_SERVER for every local server.  All of them are about servers that were
registered, and a notification goes to the address of a lookup that was registered and observes the
server: what holds of every server and of every lookup that is asked for holds of those behind every
packet (`reports_of_run`). -/

namespace Imola.Qrtr

open Imola.Runs

/-- The server that a NEW_SERVER (`true`) or DEL_SERVER packet is about. -/
def Sent.report? : Sent → Option (Bool × Server)
  | .packet _ (.server new srv) => some (new, srv)
  | .notify _ _ new (some srv) => some (new, srv)
  | _ => none

/-- The server that a packet is about and the lookup that it is sent for have a property. -/
def Sent.Fits (R : Server → Prop) (K : Lookup → Prop) : Sent → Prop
  | .packet _ (.server _ srv) => R srv
  | .notify id dest _ (some srv) =>
      R srv ∧ ∃ l, K l ∧ l.id = id ∧ l.sq = dest ∧ l.observes srv = true
  | _ => True

theorem Sent.Fits.server {R : Server → Prop} {K : Lookup → Prop} {x : Sent} (h : x.Fits R K)
    {new : Bool} {srv : Server}
    (hx : x.report? = some (new, srv)) : R srv := by
  match x with
  | .packet _ (.server _ _) =>
      cases hx
      exact h
  | .notify _ _ _ (some _) =>
      cases hx
      exact h.1

def Reports (R : Server → Prop) (K : Lookup → Prop) (out : List Sent) : Prop :=
  ∀ x ∈ out, x.Fits R K

/-- The servers in the tables have a property. -/
def View.All (R : Server → Prop) (v : View) : Prop := ∀ n, ∀ q ∈ mapItems (v.table n), R q

section Reports

variable {R : Server → Prop} {K : Lookup → Prop} {a b : List Sent}

theorem Reports.nil : Reports R K [] := fun x hx => by cases hx

theorem Reports.singleton {x : Sent} (hx : x.Fits R K) : Reports R K [x] := by
  intro y hy
  rw [List.mem_singleton.mp hy]
  exact hx

theorem Reports.append (ha : Reports R K a) (hb : Reports R K b) : Reports R K (a ++ b) := by
  intro x hx
  rcases List.mem_append.mp hx with hx | hx
  · exact ha x hx
  · exact hb x hx

theorem Reports.map {α : Type} {xs : List α} {f : α → Sent} (h : ∀ x ∈ xs, (f x).Fits R K) :
    Reports R K (xs.map f) := by
  intro x hx
  obtain ⟨y, hy, rfl⟩ := List.mem_map.mp hx
  exact h y hy

theorem announceLocal_reports (s : Ns) (new : Bool) {srv : Server} (h : R srv) :
    Reports R K (announceLocal s new srv) := by
  unfold announceLocal
  split_ifs
  · exact Reports.singleton h
  · exact Reports.nil

theorem notifyObservers_reports {lookups : List Lookup} (hK : ∀ l ∈ lookups, K l) (new : Bool)
    {srv : Server}
    (h : R srv) : Reports R K (notifyObservers lookups new srv) := by
  apply Reports.map
  intro l hl
  obtain ⟨hmem, hobserves⟩ := List.mem_filter.mp hl
  exact ⟨h, l, hK l hmem, rfl, rfl, hobserves⟩

theorem annouceServers_reports (sendOk : ℕ → Bool) (dest : SockAddr) (servers : List Server)
    (h : ∀ q ∈ servers, R q) :
    ∀ i, Reports R K (annouceServers sendOk dest i servers) := by
  induction servers with
  | nil => exact fun _ => Reports.nil
  | cons srv rest ih =>
      intro i
      have hone : Reports R K [.packet dest (.server true srv)] :=
        Reports.singleton (h srv List.mem_cons_self)
      rw [annouceServers, ← List.singleton_append]
      apply hone.append
      split_ifs
      · exact ih (fun q hq => h q (List.mem_cons_of_mem _ hq)) (i + 1)
      · exact Reports.nil

theorem propagate_reports (s : Ns) (a : NodeAllocs) {pkt : Packet}
    (hpkt : ∀ dest, (Sent.packet dest pkt).Fits R K) :
    Reports R K (propagate s a pkt).1 := by
  unfold propagate
  rcases nodeGet s a s.localNode with ⟨_ | p, s'⟩
  · exact Reports.nil
  · exact Reports.map fun srv _ => hpkt ⟨srv.node, srv.port⟩

end Reports

/-! ### The tables -/

section Tables

variable {R : Server → Prop} {G : View → Server → Prop} {n : UInt32} {v v' : View}
    {ns : List Notice}

theorem View.All.setTable (h : v.All R) {m : Map Server} (hm : ∀ q ∈ mapItems m, R q) :
    (v.setTable n m).All R := by
  intro n' q hq
  by_cases hn : n' = n
  · subst hn
    rw [v.table_setTable] at hq
    exact hm q hq
  · rw [v.table_setTable_of_ne hn] at hq
    exact h n' q hq

theorem Change.all (hG : ∀ v srv, G v srv → R srv) (hc : Change G n v ns v') :
    v.Inv → v.All R → v'.All R := by
  induction hc with
  | refl v => exact fun _ h => h
  | @add v srv calloc old m hgood _ hreput =>
      intro hinv h
      refine h.setTable fun q hq => ?_
      rcases (mapReput_items (hinv.wf n) rfl hreput).2 q hq with rfl | hq
      · exact hG v q hgood
      · exact h n q hq
  | @del v port srv _ =>
      intro hinv h
      exact h.setTable fun q hq => h n q ((mapRemove_items (hinv.wf n) srv.key).2 q hq)
  | forget _ => exact fun _ h => h
  | observe _ _ _ => exact fun _ h => h
  | trans hc _ ih₁ ih₂ => exact fun hinv h => ih₂ (hc.inv hinv) (ih₁ hinv h)

end Tables

/-! ### The commands -/

section Commands

variable {R : Server → Prop} {K : Lookup → Prop} {n : UInt32} {s : Ns} {sq : SockAddr}

/-- What a command finds: the invariants, and the properties for all servers and lookups. -/
structure Sound (R : Server → Prop) (K : Lookup → Prop) (s : Ns) : Prop where
  inv : s.Inv
  view : s.view.Inv
  all : s.view.All R
  lookups : ∀ l ∈ s.lookups, K l

theorem Sound.of_view {s' : Ns} (h : Sound R K s) (hinv : s'.Inv) (hview : s'.view = s.view) :
    Sound R K s' := by
  refine ⟨hinv, ?_, ?_, ?_⟩
  · rw [hview]
    exact h.view
  · rw [hview]
    exact h.all
  · have hlookups : s'.lookups = s.lookups := congrArg View.lookups hview
    rw [hlookups]
    exact h.lookups

theorem Sound.of_handles {G : View → Server → Prop} {r : List Sent × Ns} (h : Sound R K s)
    (hG : ∀ v srv, G v srv → R srv) (hr : Handles G n s r) (hlookups : ∀ l ∈ r.2.lookups, K l) :
    Sound R K r.2 :=
  ⟨hr.inv, hr.change.inv h.view, hr.change.all hG h.view h.all, hlookups⟩

theorem Sound.services (h : Sound R K s) {p : ℕ} (hp : s.Has n p) :
    ∀ q ∈ mapItems (s.services p), R q := by
  rw [← table_of_has h.inv hp]
  exact h.all n

theorem serverDel_reports (h : Sound R K s) {p : ℕ} (hp : s.Has n p) (port : UInt32) :
    Reports R K (serverDel s p port).1 := by
  unfold serverDel
  cases hget : mapGet Server.key (s.services p) (hashU32 port) with
  | none => exact Reports.nil
  | some srv =>
      have hwf : (s.services p).Wf Server.key := by
        rw [← table_of_has h.inv hp]
        exact h.view.wf n
      have hR := h.services hp srv (mem_of_mapGet hwf hget).1
      exact (announceLocal_reports s false hR).append (notifyObservers_reports h.lookups false hR)

theorem Sound.serverDel (h : Sound R K s) {p : ℕ} (hp : s.Has n p) (port : UInt32) :
    Sound R K (serverDel s p port).2 ∧ (serverDel s p port).2.Has n p := by
  obtain ⟨hdel, hhas⟩ := @serverDel_spec (fun _ q => R q) n s h.inv p hp port
  refine ⟨h.of_handles (fun _ _ hR => hR) hdel ?_, hhas⟩
  rw [serverDel_lookups]
  exact h.lookups

theorem byeLoop_reports {p : ℕ} (js : List ℕ) :
    ∀ s : Ns, Sound R K s → s.Has n p → Reports R K (byeLoop p js s).1 := by
  induction js with
  | nil => exact fun _ _ _ => Reports.nil
  | cons j js ih =>
      intro s h hp
      rw [byeLoop]
      cases hitem : ((s.services p).data j).item? with
      | none => exact ih s h hp
      | some srv =>
          obtain ⟨hdel, hhas⟩ := h.serverDel hp srv.port
          exact (serverDel_reports h hp srv.port).append (ih _ hdel hhas)

theorem delServer_reports (h : Sound R K s) (a : NodeAllocs) (port : UInt32) :
    Reports R K (match nodeGet s a n with
      | (none, s) => (([], s) : List Sent × Ns)
      | (some p, s) => serverDel s p port).1 := by
  have hgot := nodeGet_spec h.inv a n
  rcases hnode : nodeGet s a n with ⟨_ | p, s'⟩
  · exact Reports.nil
  · rw [hnode] at hgot
    exact serverDel_reports (h.of_view hgot.inv hgot.view) (hgot.has p rfl) port

theorem ctrlCmdHello_reports (h : Sound R K s) (i : Input) (bytes : List UInt8) :
    Reports R K (ctrlCmdHello s i sq bytes).1 := by
  have hecho : Reports R K [Sent.packet sq (.hello bytes)] := Reports.singleton trivial
  have hgot := nodeGet_spec h.inv i.allocs.localNode s.localNode
  unfold ctrlCmdHello
  dsimp only
  split_ifs
  · rcases hnode : nodeGet s i.allocs.localNode s.localNode with ⟨_ | p, s'⟩
    · exact hecho
    · rw [hnode] at hgot
      have hservices := (h.of_view hgot.inv hgot.view).services (hgot.has p rfl)
      exact hecho.append (annouceServers_reports i.sendOk sq _ hservices 1)
  · exact hecho

theorem ctrlCmdBye_reports (h : Sound R K s) (a : Allocs) : Reports R K (ctrlCmdBye s a sq).1 := by
  have hgot := nodeGet_spec h.inv a.sender sq.node
  unfold ctrlCmdBye
  rcases hnode : nodeGet s a.sender sq.node with ⟨_ | p, s'⟩
  · exact Reports.nil
  · rw [hnode] at hgot
    have hloop := byeLoop_reports (List.range (s'.services p).size) s'
      (h.of_view hgot.inv hgot.view) (hgot.has p rfl)
    exact hloop.append (propagate_reports _ _ fun _ => trivial)

theorem ctrlCmdDelClient_reports (h : Sound R K s) (a : Allocs) (node port : UInt32) :
    Reports R K (ctrlCmdDelClient s a sq node port).1 := by
  unfold ctrlCmdDelClient
  split_ifs
  · exact Reports.nil
  · exact Reports.nil
  · have hforget : Sound R K { s with lookups := s.lookups.filter fun l =>
        ¬(l.sq.node = node ∧ l.sq.port = port) } :=
      ⟨⟨h.inv.wf, h.inv.unique, h.inv.clean, h.inv.lt⟩, ⟨h.view.wf, h.view.owned,
        h.view.ids.sublist (List.filter_sublist.map _),
        fun l hl => h.view.fresh l (List.mem_of_mem_filter hl)⟩, h.all,
        fun l hl => h.lookups l (List.mem_of_mem_filter hl)⟩
    exact (delServer_reports hforget a.sender port).append (propagate_reports _ _ fun _ => trivial)

theorem ctrlCmdDelServer_reports (h : Sound R K s) (a : Allocs) (node port : UInt32) :
    Reports R K (ctrlCmdDelServer s a sq node port).1 := by
  unfold ctrlCmdDelServer
  dsimp only
  split_ifs
  · exact Reports.nil
  · exact Reports.nil
  · exact delServer_reports h a.sender _

theorem ctrlCmdNewLookup_reports (h : Sound R K s) (a : Allocs) (service inst : UInt32)
    (hK : sq.node = s.localNode → K ⟨s.registered, service, inst, sq⟩) :
    Reports R K (ctrlCmdNewLookup s a sq service inst).1 := by
  unfold ctrlCmdNewLookup
  split_ifs with hnode
  · exact Reports.nil
  · refine Reports.append (Reports.map fun q hq => ?_) (Reports.singleton trivial)
    obtain ⟨⟨n, hq⟩, hmatch⟩ := (mem_serverQuery h.inv).mp hq
    refine ⟨h.all n q hq, ⟨s.registered, service, inst, sq⟩, hK (not_not.mp hnode), rfl, rfl, ?_⟩
    rw [← serverMatch_eq_observes]
    exact hmatch
  · exact Reports.nil

theorem ctrlCmdNewServer_reports (h : Sound R K s) (a : Allocs) (service inst node port : UInt32)
    (hR : ∀ srv, newServer? s sq service inst node port = some srv → R srv) :
    Reports R K (ctrlCmdNewServer s a sq service inst node port).1 := by
  rw [ctrlCmdNewServer_eq]
  cases hnew : newServer? s sq service inst node port with
  | none => exact Reports.nil
  | some srv =>
      dsimp only
      split_ifs
      · have hlookups := nodeGet_lookups s a.sender srv.node
        rcases registerServer_cases s a srv with hquiet | ⟨p, s₁, old, m, hget, -, hsent⟩
        · rw [hquiet]
          exact Reports.nil
        · rw [hget] at hlookups
          rw [hsent]
          refine (announceLocal_reports s₁ true (hR srv hnew)).append
            (notifyObservers_reports ?_ true (hR srv hnew))
          intro l hl
          exact h.lookups l (hlookups ▸ hl)
      · exact Reports.nil

/-- **One packet**: what is sent is about servers and for lookups that were registered. -/
theorem ctrlPortFn_reports (h : Sound R K s) {i : Input}
    (hR : ∀ srv, i.newServer? s = some srv → R srv)
    (hK : ∀ l, i.newLookup? s = some l → K l) {out : List Sent} {s' : Ns}
    (hstep : ctrlPortFn s i = .ok (out, s')) :
    Reports R K out := by
  obtain ⟨sq, datagram, hrecv, -, ⟨-, heq⟩ | ⟨hlen, heq⟩⟩ := ctrlPortFn_cases hstep
  · cases heq
    exact Reports.nil
  simp only [Input.newServer?, Input.newLookup?, hrecv] at hR hK
  generalize datagram.take 4096 = bytes at heq hlen hR hK
  obtain rfl : out = (ctrlCmd s i sq bytes).1 := congrArg Prod.fst heq
  unfold ctrlCmd
  cases hcmd : cmdOf (i.field bytes 0) with
  | hello => exact ctrlCmdHello_reports h i bytes
  | bye => exact ctrlCmdBye_reports h i.allocs
  | newServer =>
      rw [if_pos ⟨hlen, hcmd⟩] at hR
      exact ctrlCmdNewServer_reports h _ _ _ _ _ hR
  | delServer => exact ctrlCmdDelServer_reports h _ _ _
  | delClient => exact ctrlCmdDelClient_reports h _ _ _
  | newLookup =>
      refine ctrlCmdNewLookup_reports h _ _ _ fun hnode => hK _ ?_
      rw [if_pos ⟨hlen, hcmd, hnode⟩]
  | delLookup => exact Reports.nil
  | other => exact Reports.nil

end Commands

/-- **A run**: what holds of all servers and lookups that are asked for holds of those that packets
are about and sent for. -/
theorem reports_of_run {R : Server → Prop} {K : Lookup → Prop} {P : Ns → Input → Prop}
    {localNode : UInt32}
    (hR : ∀ s i srv, s.localNode = localNode → P s i → i.newServer? s = some srv → R srv)
    (hK : ∀ s i l, s.localNode = localNode → P s i → i.newLookup? s = some l → K l)
    {h : List (Input × List Sent)} {s : Ns} (hrun : Run ctrlPortFn P (nsInit localNode) h s) :
    Sound R K s ∧ ∀ e ∈ h, Reports R K e.2 := by
  have hall : (Sound R K s ∧ s.localNode = localNode) ∧ ∀ e ∈ h, Reports R K e.2 := by
    refine @Run.invariant _ _ _ _ _ _ _
      (fun h s => (Sound R K s ∧ s.localNode = localNode) ∧ ∀ e ∈ h, Reports R K e.2) ?_ ?_ _ _ hrun
    · exact ⟨⟨⟨inv_nsInit localNode, view_nsInit localNode, fun _ _ hq => (by cases hq),
        fun _ hl => (by cases hl)⟩, rfl⟩,
        fun e he => by cases he⟩
    · rintro h s i out s' ⟨⟨hs, hlocal⟩, hreports⟩ hguard hstep
      have hRi := fun srv => hR s i srv hlocal hguard
      have hKi := fun l => hK s i l hlocal hguard
      obtain ⟨n, hhandles⟩ := @handles_of_ok (fun _ q => R q) s hs.inv i _ hstep hRi
      have hlookups : ∀ l ∈ s'.lookups, K l := by
        intro l hl
        rcases ctrlPortFn_lookups hs.inv hstep l hl with hold | hnew
        · exact hs.lookups l hold
        · exact hKi l hnew
      refine ⟨⟨hs.of_handles (fun _ _ h => h) hhandles hlookups, hhandles.localNode.trans hlocal⟩,
        fun e he => ?_⟩
      rcases List.mem_append.mp he with he | he
      · exact hreports e he
      · rw [List.mem_singleton.mp he]
        exact ctrlPortFn_reports hs hRi hKi hstep
  exact ⟨hall.1.1, hall.2⟩

end Imola.Qrtr
