import Imola.QrtrPackets

/-! # The identity of a server

A client registers a server by `qrtr_publish`, with a service, a version and an instance.  Later the
name service sends packets about the server at the address of the client, and whoever receives one
reads a service, a version and an instance from it by `qrtr_decode`.

They are the same when the version is below 256 (`identity_iff`), and that is exact.  A version has
sixteen bits and the packed word has eight for it, so the upper ones are read as part of the
instance: what `pd-mapper` publishes as version 257 is reported as version 1, instance 1. -/

namespace Imola.Qrtr

open Imola.Bytes Imola.Runs

/-! ### Properties -/

/-- What `qrtr_decode` reads from a packet of the name service of a node. -/
def DecodesTo (node : UInt32) (bytes : List UInt8) (service version inst : UInt32) : Prop :=
  ∀ dest, ∃ pkt, qrtrDecode dest bytes ⟨node, portCtrl⟩ = some pkt ∧ pkt.service = service ∧
    pkt.version = version ∧
    pkt.inst = inst

/-- NEW_SERVER and DEL_SERVER packets about the server at an address. -/
def ReportedAt (h : List (Input × List Sent)) (addr : SockAddr) (bytes : List UInt8) : Prop :=
  ∃ e ∈ h, ∃ x ∈ e.2, ∃ new srv, x.report? = some (new, srv) ∧
    (⟨srv.node, srv.port⟩ : SockAddr) = addr ∧
    x.wire? = some bytes

/-- Whatever is registered at an address is registered by one kind of call of `qrtr_publish`. -/
def PublishesOnly (addr : SockAddr) (service : UInt32) (version inst : UInt16) (s : Ns)
    (i : Input) : Prop :=
  ∀ srv, i.newServer? s = some srv → (⟨srv.node, srv.port⟩ : SockAddr) = addr →
    i.recv = some (addr, qrtrPublish service version inst)

/-- The lookups of an address are registered by one kind of call of `qrtr_new_lookup`. -/
def LooksUpOnly (addr : SockAddr) (service : UInt32) (version inst : UInt16) (s : Ns) (i : Input) :
    Prop :=
  ∀ l, i.newLookup? s = some l → l.sq = addr →
    i.recv = some (addr, qrtrNewLookup service version inst)

/-- Every packet about a local server that was published is decoded to what was published. -/
def RoundTrips (service : UInt32) (version inst : UInt16) : Prop :=
  ∀ (localNode : UInt32) (addr : SockAddr) (h : List (Input × List Sent)) (s : Ns),
    addr.node = localNode →
    Run ctrlPortFn (PublishesOnly addr service version inst) (nsInit localNode) h s →
    ∀ bytes, ReportedAt h addr bytes → DecodesTo localNode bytes service version.toUInt32
      inst.toUInt32

/-- Every notification for a lookup is decoded to what was asked for.  A lookup with the service 0
asks for every service, and one with the version 0 and the instance 0 for all of them. -/
def LookupTrips (service : UInt32) (version inst : UInt16) : Prop :=
  ∀ (localNode : UInt32) (addr : SockAddr) (h : List (Input × List Sent)) (s : Ns),
    Run ctrlPortFn (LooksUpOnly addr service version inst) (nsInit localNode) h s →
    ∀ e ∈ h, ∀ id new srv bytes, .notify id addr new (some srv) ∈ e.2 →
      (Sent.notify id addr new (some srv)).wire? = some bytes →
      ∃ service' version' inst', DecodesTo localNode bytes service' version' inst' ∧
        (service = 0 ∨ service' = service) ∧
        ((version = 0 ∧ inst = 0) ∨ (version' = version.toUInt32 ∧ inst' = inst.toUInt32))

/-- Servers of a service at two addresses are reported with the same version and instance. -/
def SameReport (service : UInt32) (version inst version' inst' : UInt16) : Prop :=
  ∃ (localNode : UInt32) (addr addr' : SockAddr) (h : List (Input × List Sent)) (s : Ns)
    (bytes bytes' : List UInt8),
    addr ≠ addr' ∧ addr.node = localNode ∧ addr'.node = localNode ∧
    Run ctrlPortFn (fun s i => PublishesOnly addr service version inst s i ∧
      PublishesOnly addr' service version' inst' s i)
      (nsInit localNode) h s ∧
    ReportedAt h addr bytes ∧ ReportedAt h addr' bytes' ∧
    ∃ v i, DecodesTo localNode bytes service v i ∧ DecodesTo localNode bytes' service v i

/-! ### Reading packets -/

section Decoding

variable {node : UInt32} {bytes : List UInt8}
    {service version inst service' version' inst' : UInt32}

theorem decodesTo_lookupNotify (node : UInt32) (srv : Server) (new : Bool) :
    DecodesTo node (lookupNotify (some srv) new) srv.service (srv.inst &&& 0xff) (srv.inst >>> 8) :=
  fun dest => qrtrDecode_lookupNotify dest srv new node

theorem DecodesTo.unique (h : DecodesTo node bytes service version inst)
    (h' : DecodesTo node bytes service' version' inst') : service = service' ∧ version = version' ∧
    inst = inst' := by
  obtain ⟨pkt, hpkt, rfl, rfl, rfl⟩ := h ⟨0, 0, 0, 0, 0, 0, []⟩
  obtain ⟨pkt', hpkt', rfl, rfl, rfl⟩ := h' ⟨0, 0, 0, 0, 0, 0, []⟩
  obtain rfl := Option.some.inj (hpkt.symm.trans hpkt')
  exact ⟨rfl, rfl, rfl⟩

end Decoding

/-! ### Requests of the library -/

section Requests

variable {i : Input} {sq addr : SockAddr} {cmd service inst node port : UInt32} {s : Ns}

theorem field_ctrlPkt (i : Input) (cmd service inst node port : UInt32) :
    i.field (ctrlPkt cmd service inst node port) 0 = cmd ∧
    i.field (ctrlPkt cmd service inst node port) 4 = service ∧
      i.field (ctrlPkt cmd service inst node port) 8 = inst ∧
      i.field (ctrlPkt cmd service inst node port) 12 = node ∧
      i.field (ctrlPkt cmd service inst node port) 16 = port := by
  have hword : ∀ k w, k < 5 → [cmd.toNat, service.toNat, inst.toNat, node.toNat, port.toNat].getD k
      0 = w.toNat →
      i.field (ctrlPkt cmd service inst node port) (4 * k) = w := by
    intro k w hk hw
    have hfield :=
      @field_words i [cmd.toNat, service.toNat, inst.toNat, node.toNat, port.toNat] k hk
      (hw ▸ w.toNat_lt)
    rw [hw, UInt32.ofNat_toNat] at hfield
    exact hfield
  exact ⟨hword 0 cmd (by omega) rfl, hword 1 service (by omega) rfl, hword 2 inst (by omega) rfl,
    hword 3 node (by omega) rfl, hword 4 port (by omega) rfl⟩

theorem take_ctrlPkt :
    (ctrlPkt cmd service inst node port).take 4096 = ctrlPkt cmd service inst node port :=
  List.take_of_length_le (by rw [length_ctrlPkt]; omega)

theorem ctrlPortFn_ctrlPkt
    (hrecv : i.recv = some (sq, ctrlPkt cmd service inst node port)) (s : Ns) :
    ctrlPortFn s i = .ok (ctrlCmd s i sq (ctrlPkt cmd service inst node port)) := by
  simp only [ctrlPortFn, hrecv, take_ctrlPkt, length_ctrlPkt]
  rw [if_neg (List.ne_nil_of_length_pos (by rw [length_ctrlPkt]; omega)), if_neg (by omega)]

theorem newServer?_ctrlPkt
    (hrecv : i.recv = some (sq, ctrlPkt cmd service inst node port)) (s : Ns) :
    i.newServer? s = if cmdOf cmd = .newServer then newServer? s sq service inst node port
      else none := by
  obtain ⟨hcmd, hservice, hinst, hnode, hport⟩ := field_ctrlPkt i cmd service inst node port
  simp only [Input.newServer?, hrecv, take_ctrlPkt, length_ctrlPkt, hcmd, hservice, hinst,
    hnode, hport]
  exact if_congr (and_iff_right (by omega)) rfl rfl

theorem newLookup?_ctrlPkt
    (hrecv : i.recv = some (sq, ctrlPkt cmd service inst node port)) (s : Ns) :
    i.newLookup? s = if cmdOf cmd = .newLookup ∧
    sq.node = s.localNode then some ⟨s.registered, service, inst, sq⟩
      else none := by
  obtain ⟨hcmd, hservice, hinst, -, -⟩ := field_ctrlPkt i cmd service inst node port
  simp only [Input.newLookup?, hrecv, take_ctrlPkt, length_ctrlPkt, hcmd, hservice, hinst]
  exact if_congr (and_iff_right (by omega)) rfl rfl

/-- A server that is published has the address of the client. -/
theorem newServer?_publish {version inst : UInt16} (hlocal : addr.node = s.localNode)
    (hrecv : i.recv = some (addr, qrtrPublish service version inst)) : i.newServer? s =
      if service = 0 ∨ addr.port = 0 then none
      else some ⟨service, packInstance version inst, addr.node, addr.port⟩ := by
  have hcmd : cmdOf 4 = .newServer := rfl
  have hclaimed : claimed s addr 0 0 = addr := if_pos hlocal
  rw [newServer?_ctrlPkt hrecv, if_pos hcmd, newServer?, hclaimed]
  exact if_congr (or_iff_right (not_not.mpr rfl)) rfl rfl

/-- A call with enough memory. -/
def call (sq : SockAddr) (pkt : List UInt8) : Input :=
  received sq pkt (fun _ => 0) enough fun _ => true

theorem ctrlCmdNewServer_enough (hs : s.Inv) (hv : s.view.Inv) {srv : Server}
    (hnew : newServer? s sq service inst node port = some srv) :
    (ctrlCmdNewServer s enough sq service inst node port).1 =
      announceLocal s true srv ++ notifyObservers s.lookups true srv := by
  rw [ctrlCmdNewServer_eq, hnew]
  exact (registerServer_enough hs hv srv).1

theorem ctrlPortFn_publish (hs : s.Inv) (hv : s.view.Inv) (hlocal : addr.node = s.localNode)
    (hport : addr.port ≠ 0)
    (hservice : service ≠ 0) (version inst : UInt16) :
    ∃ s', ctrlPortFn s (call addr (qrtrPublish service version inst)) =
      .ok
        (.packet bcastSq
          (.server true ⟨service, packInstance version inst, addr.node, addr.port⟩) ::
        notifyObservers s.lookups true ⟨service, packInstance version inst, addr.node, addr.port⟩,
        s') := by
  have hcmd : cmdOf 4 = .newServer := rfl
  have hrecv : (call addr (qrtrPublish service version inst)).recv =
      some (addr, qrtrPublish service version inst) := rfl
  have hnew := newServer?_publish hlocal hrecv
  rw [newServer?_ctrlPkt hrecv, if_pos hcmd, if_neg (not_or.mpr ⟨hservice, hport⟩)] at hnew
  have hsent := ctrlCmdNewServer_enough hs hv hnew
  rw [announceLocal, if_pos hlocal, List.singleton_append] at hsent
  obtain ⟨hfield, hf₄, hf₈, hf₁₂, hf₁₆⟩ :=
    field_ctrlPkt (call addr (qrtrPublish service version inst)) 4 service
    (packInstance version inst) 0 0
  refine ⟨(ctrlCmdNewServer s enough addr service (packInstance version inst) 0 0).2, ?_⟩
  rw [ctrlPortFn_ctrlPkt hrecv]
  simp only [ctrlCmd, hfield, hcmd, hf₄, hf₈, hf₁₂, hf₁₆]
  exact congrArg Except.ok (Prod.ext hsent rfl)

end Requests

/-! ### Servers -/

section Servers

variable {localNode : UInt32} {addr : SockAddr} {service : UInt32}
    {version inst version' inst' : UInt16}
  {h : List (Input × List Sent)} {s : Ns}

/-- **What is reported** about the server at an address is what was published there, in the packed
word. -/
theorem decodesTo_of_reportedAt {P : Ns → Input → Prop}
    (hP : ∀ s i, P s i → PublishesOnly addr service version inst s i)
    (hlocal : addr.node = localNode) (hrun : Run ctrlPortFn P (nsInit localNode) h s)
    {bytes : List UInt8}
    (hreported : ReportedAt h addr bytes) : service ≠ 0 ∧
      DecodesTo localNode bytes service
        (version &&& 0xff).toUInt32 (inst ||| version >>> 8).toUInt32 := by
  have hreports := (@reports_of_run (fun q => (⟨q.node, q.port⟩ : SockAddr) = addr →
    service ≠ 0 ∧ q.service = service ∧ q.inst = packInstance version inst) (fun _ => True) P
    localNode ?_
    (fun _ _ _ _ _ _ => trivial) _ _ hrun).2
  · obtain ⟨e, he, x, hx, new, srv, hsrv, haddr, hwire⟩ := hreported
    obtain ⟨hservice, rfl, hinst⟩ := (hreports e he x hx).server hsrv haddr
    rw [wire?_of_report? hsrv] at hwire
    obtain rfl := Option.some.inj hwire
    refine ⟨hservice, ?_⟩
    rw [← version_packInstance version inst, ← inst_packInstance version inst, ← hinst]
    exact decodesTo_lookupNotify localNode srv new
  · intro s i srv hs hguard hsrv haddr
    have hnew := newServer?_publish (hlocal.trans hs.symm) (hP s i hguard srv hsrv haddr)
    rw [hsrv] at hnew
    split_ifs at hnew with hzero
    cases hnew
    exact ⟨fun h => hzero (Or.inl h), rfl, rfl⟩

theorem reportedAt_publish {P : Ns → Input → Prop} (hrun : Run ctrlPortFn P (nsInit localNode) h s)
    (hlocal : addr.node = localNode) (hport : addr.port ≠ 0) (hservice : service ≠ 0)
    (version inst : UInt16)
    (hguard : P s (call addr (qrtrPublish service version inst))) :
    ∃ out s' bytes, Run ctrlPortFn P (nsInit localNode)
      (h ++ [(call addr (qrtrPublish service version inst), out)]) s' ∧
      ReportedAt (h ++ [(call addr (qrtrPublish service version inst), out)]) addr bytes := by
  obtain ⟨hs, hv⟩ := inv_of_run hrun
  obtain ⟨s', hstep⟩ := ctrlPortFn_publish hs hv (hlocal.trans (localNode_of_run hrun).symm) hport
    hservice version inst
  refine ⟨_, s', _, hrun.snoc hguard hstep, _,
    List.mem_append_right _ (List.mem_singleton_self _), _,
    List.mem_cons_self, true, ⟨service, packInstance version inst, addr.node, addr.port⟩,
    rfl, rfl, rfl⟩

theorem ReportedAt.append {bytes : List UInt8} (hreported : ReportedAt h addr bytes)
    (h' : List (Input × List Sent)) :
    ReportedAt (h ++ h') addr bytes := by
  obtain ⟨e, he, hrest⟩ := hreported
  exact ⟨e, List.mem_append_left h' he, hrest⟩

theorem publishesOnly_self (s : Ns) :
    PublishesOnly addr service version inst s (call addr (qrtrPublish service version inst)) :=
      fun _ _ _ => rfl

/-- A local client registers nothing at another address. -/
theorem publishesOnly_other {addr' : SockAddr} (hlocal : addr'.node = s.localNode)
    (hne : addr ≠ addr') :
    PublishesOnly addr service version inst s
      (call addr' (qrtrPublish service version' inst')) := by
  intro srv hsrv haddr
  have hnew := @newServer?_publish (call addr' (qrtrPublish service version' inst')) addr' service s
    version' inst' hlocal rfl
  rw [hsrv] at hnew
  split_ifs at hnew
  cases hnew
  exact absurd haddr.symm hne

/-- **A registration is reported as it was made** when its version is below 256. -/
theorem roundTrips_iff (service : UInt32) (version inst : UInt16) :
    RoundTrips service version inst ↔ service = 0 ∨ version < 256 := by
  constructor
  · intro htrips
    by_cases hzero : service = 0
    · exact Or.inl hzero
    obtain ⟨out, s', bytes, hrun, hreported⟩ := @reportedAt_publish 1 ⟨1, 7⟩ service [] _
      (PublishesOnly ⟨1, 7⟩ service version inst) Run.nil rfl (by decide) hzero version inst
        (publishesOnly_self _)
    have hread := htrips 1 ⟨1, 7⟩ _ s' rfl hrun bytes hreported
    obtain ⟨-, hpacked⟩ := decodesTo_of_reportedAt (fun _ _ h => h) rfl hrun hreported
    obtain ⟨-, hversion, hinst⟩ := hpacked.unique hread
    exact Or.inr ((unpacked_iff version inst).mp ⟨UInt16.toUInt32_inj.mp hversion,
      UInt16.toUInt32_inj.mp hinst⟩)
  · intro hsmall localNode addr h s hlocal hrun bytes hreported
    obtain ⟨hservice, hpacked⟩ := decodesTo_of_reportedAt (fun _ _ h => h) hlocal hrun hreported
    obtain ⟨hversion, hinst⟩ := (unpacked_iff version inst).mpr (hsmall.resolve_left hservice)
    rwa [hversion, hinst] at hpacked

/-- **Two registrations are told apart** when their packed words are. -/
theorem sameReport_iff (service : UInt32) (version inst version' inst' : UInt16) :
    SameReport service version inst version' inst' ↔
    service ≠ 0 ∧ version &&& 0xff = version' &&& 0xff ∧
      inst ||| version >>> 8 = inst' ||| version' >>> 8 := by
  constructor
  · rintro ⟨localNode, addr, addr', h, s, bytes, bytes', -, hlocal, hlocal', hrun, hreported,
      hreported', v, i, hread, hread'⟩
    obtain ⟨hservice, hpacked⟩ := decodesTo_of_reportedAt (fun _ _ h => h.1) hlocal hrun hreported
    obtain ⟨-, hpacked'⟩ := decodesTo_of_reportedAt (fun _ _ h => h.2) hlocal' hrun hreported'
    obtain ⟨-, hversion, hinst⟩ := hpacked.unique hread
    obtain ⟨-, hversion', hinst'⟩ := hpacked'.unique hread'
    exact ⟨hservice, UInt16.toUInt32_inj.mp (hversion.trans hversion'.symm),
      UInt16.toUInt32_inj.mp (hinst.trans hinst'.symm)⟩
  · rintro ⟨hservice, hversion, hinst⟩
    have hne : (⟨1, 7⟩ : SockAddr) ≠ ⟨1, 8⟩ := by decide
    obtain ⟨out, s₁, bytes, hrun, hreported⟩ := @reportedAt_publish 1 ⟨1, 7⟩ service [] _
      (fun s i => PublishesOnly ⟨1, 7⟩ service version inst s i ∧
        PublishesOnly ⟨1, 8⟩ service version' inst' s i) Run.nil
      rfl (by decide) hservice version inst ⟨publishesOnly_self _, publishesOnly_other rfl hne.symm⟩
    have hlocal : s₁.localNode = 1 := localNode_of_run hrun
    obtain ⟨out', s₂, bytes', hrun', hreported'⟩ := @reportedAt_publish 1 ⟨1, 8⟩ service _ s₁
      (fun s i => PublishesOnly ⟨1, 7⟩ service version inst s i ∧
        PublishesOnly ⟨1, 8⟩ service version' inst' s i) hrun
      rfl (by decide) hservice version' inst' ⟨publishesOnly_other hlocal.symm hne,
        publishesOnly_self _⟩
    have hearlier := hreported.append [(call ⟨1, 8⟩ (qrtrPublish service version' inst'), out')]
    obtain ⟨-, hread⟩ := decodesTo_of_reportedAt (fun _ _ h => h.1) rfl hrun' hearlier
    obtain ⟨-, hread'⟩ := decodesTo_of_reportedAt (fun _ _ h => h.2) rfl hrun' hreported'
    rw [← hversion, ← hinst] at hread'
    exact ⟨1, ⟨1, 7⟩, ⟨1, 8⟩, _, s₂, bytes, bytes', hne, rfl, rfl, hrun', hearlier, hreported', _,
      _, hread, hread'⟩

end Servers

/-! ### Lookups -/

section Lookups

variable {localNode : UInt32} {addr : SockAddr} {service : UInt32} {version inst : UInt16}
  {h : List (Input × List Sent)} {s : Ns}

/-- What an observer is told is about servers with the packed word that it asked for. -/
theorem observed_of_run
    (hrun : Run ctrlPortFn (LooksUpOnly addr service version inst) (nsInit localNode) h s)
    {e : Input × List Sent} (he : e ∈ h) {id : ℕ} {new : Bool} {srv : Server}
    (hmem : .notify id addr new (some srv) ∈ e.2) : (service = 0 ∨ srv.service = service) ∧
      (packInstance version inst = 0 ∨ srv.inst = packInstance version inst) := by
  have hreports := (@reports_of_run (fun _ => True) (fun l => l.sq = addr →
    l.service = service ∧ l.inst = packInstance version inst)
    (LooksUpOnly addr service version inst) localNode
    (fun _ _ _ _ _ _ => trivial) ?_ _ _ hrun).2
  · obtain ⟨-, l, hl, -, hsq, hobserves⟩ := hreports e he _ hmem
    obtain ⟨rfl, hinst⟩ := hl hsq
    rw [← hinst]
    simp only [Lookup.observes, Bool.and_eq_true, Bool.or_eq_true, decide_eq_true_eq] at hobserves
    exact ⟨hobserves.1.imp_right Eq.symm, hobserves.2.imp_right Eq.symm⟩
  · intro s i l _ hguard hl hsq
    rw [newLookup?_ctrlPkt (hguard l hl hsq)] at hl
    split_ifs at hl
    cases hl
    exact ⟨rfl, rfl⟩

theorem run_observed (service : UInt32) (version inst : UInt16) : ∃ h s srv, ∃ e ∈ h,
    Run ctrlPortFn (LooksUpOnly ⟨1, 9⟩ service version inst) (nsInit 1) h s ∧
      .notify 0 ⟨1, 9⟩ true (some srv) ∈ e.2 ∧ srv.inst = packInstance version inst := by
  set lookup := call ⟨1, 9⟩ (qrtrNewLookup service version inst)
  have hcmd : cmdOf 10 = .newLookup := rfl
  have hrecv : lookup.recv = some (⟨1, 9⟩, qrtrNewLookup service version inst) := rfl
  obtain ⟨hfield, hf₄, hf₈, -, -⟩ := field_ctrlPkt lookup 10 service (packInstance version inst) 0 0
  have hstep : ctrlPortFn (nsInit 1) lookup =
      .ok (ctrlCmdNewLookup (nsInit 1) enough ⟨1, 9⟩ service (packInstance version inst)) := by
    rw [ctrlPortFn_ctrlPkt hrecv]
    simp only [ctrlCmd, hfield, hcmd, hf₄, hf₈]
    rfl
  have hone : Run ctrlPortFn (LooksUpOnly ⟨1, 9⟩ service version inst) (nsInit 1)
      ([] ++ [(lookup, _)]) _ :=
    Run.nil.snoc (fun _ _ _ => hrecv) hstep
  obtain ⟨service', hservice', hmatch⟩ : ∃ service' : UInt32, service' ≠ 0 ∧
      (service = 0 ∨ service = service') := by
    by_cases hzero : service = 0
    · exact ⟨1, by decide, Or.inl hzero⟩
    · exact ⟨service, hzero, Or.inr rfl⟩
  obtain ⟨hs, hv⟩ := inv_of_run hone
  obtain ⟨s', hpublish⟩ := @ctrlPortFn_publish ⟨1, 7⟩ service' _ hs hv
    (localNode_of_run hone).symm (by decide) hservice'
    version inst
  refine ⟨_, s', ⟨service', packInstance version inst, 1, 7⟩, _,
    List.mem_append_right _ (List.mem_singleton_self _),
    hone.snoc ?_ hpublish, ?_, rfl⟩
  · intro l hl _
    have hnone := @newLookup?_ctrlPkt (call ⟨1, 7⟩ (qrtrPublish service' version inst))
      ⟨1, 7⟩ 4 service'
      (packInstance version inst) 0 0 rfl
    rw [hnone, if_neg (fun hand => by cases hand.1)] at hl
    cases hl
  · refine List.mem_cons_of_mem
      _ (List.mem_map.mpr ⟨⟨0, service, packInstance version inst, ⟨1, 9⟩⟩, ?_, rfl⟩)
    refine List.mem_filter.mpr ⟨List.mem_singleton_self _, ?_⟩
    simp only [Lookup.observes, Bool.and_eq_true, Bool.or_eq_true, decide_eq_true_eq]
    exact ⟨hmatch, Or.inr trivial⟩

/-- **An observer is told what it asked for** when its version is below 256. -/
theorem lookupTrips_iff (service : UInt32) (version inst : UInt16) :
    LookupTrips service version inst ↔ version < 256 := by
  constructor
  · intro htrips
    obtain ⟨h, s, srv, e, he, hrun, hmem, hsrv⟩ := run_observed service version inst
    obtain ⟨service', version', inst', hread, -, hor⟩ :=
      htrips 1 ⟨1, 9⟩ h s hrun e he 0 true srv _ hmem rfl
    obtain ⟨-, hversion, hinst⟩ := (decodesTo_lookupNotify 1 srv true).unique hread
    rcases hor with ⟨rfl, -⟩ | ⟨rfl, rfl⟩
    · decide
    · rw [hsrv, version_packInstance] at hversion
      rw [hsrv, inst_packInstance] at hinst
      exact (unpacked_iff version inst).mp ⟨UInt16.toUInt32_inj.mp hversion,
        UInt16.toUInt32_inj.mp hinst⟩
  · intro hsmall localNode addr h s hrun e he id new srv bytes hmem hwire
    obtain rfl := Option.some.inj hwire
    obtain ⟨hservice, hinst⟩ := observed_of_run hrun he hmem
    refine ⟨_, _, _, decodesTo_lookupNotify localNode srv new, hservice, ?_⟩
    refine hinst.imp (packInstance_eq_zero version inst).mp fun hinst => ?_
    obtain ⟨hversion, hupper⟩ := (unpacked_iff version inst).mpr hsmall
    rw [hinst, version_packInstance, inst_packInstance, hversion, hupper]
    exact ⟨rfl, rfl⟩

end Lookups

/-- **Services, versions and instances** come back as they were passed to the library exactly when
the version is below 256, for servers (the service 0 is refused) and for lookups.  Two registrations
of a service are reported as the same one exactly when the low halves of the versions are equal, and
what is read as the instance is. -/
theorem identity_iff (service : UInt32) (version inst : UInt16) :
    (RoundTrips service version inst ↔ service = 0 ∨ version < 256) ∧
    (LookupTrips service version inst ↔ version < 256) ∧
    ∀ version' inst', SameReport service version inst version' inst' ↔ service ≠ 0 ∧
      version &&& 0xff = version' &&& 0xff ∧ inst ||| version >>> 8 = inst' ||| version' >>> 8 :=
  ⟨roundTrips_iff service version inst, lookupTrips_iff service version inst,
    sameReport_iff service version inst⟩

/-- `pd-mapper` publishes the service 64, version 257, instance 0.  It is reported as version 1,
instance 1, like a server that is published so, also when it is removed. -/
theorem not_roundTrips_pdMapper : ¬ RoundTrips 64 257 0 ∧ SameReport 64 257 0 1 1 ∧
    ∃ h s, Run ctrlPortFn (PublishesOnly ⟨1, 7⟩ 64 257 0) (nsInit 1) h s ∧
      (∀ e ∈ h, e.1 = call ⟨1, 7⟩ (qrtrPublish 64 257 0) ∨
        e.1 = call ⟨1, 7⟩ (qrtrBye ⟨1, 7⟩ 64 257 0)) ∧
      ∀ new, ReportedAt h ⟨1, 7⟩ (lookupNotify (some ⟨64, 257, 1, 7⟩) new) ∧
        DecodesTo 1 (lookupNotify (some ⟨64, 257, 1, 7⟩) new) 64 1 1 := by
  refine ⟨?_, ?_, ?_⟩
  · rw [roundTrips_iff]
    decide
  · rw [sameReport_iff]
    decide
  · have hone : Run ctrlPortFn (PublishesOnly ⟨1, 7⟩ 64 257 0) (nsInit 1)
        [(call ⟨1, 7⟩ (qrtrPublish 64 257 0), _)] _ :=
      Run.nil.snoc (publishesOnly_self _) rfl
    have hnone : (call ⟨1, 7⟩ (qrtrBye ⟨1, 7⟩ 64 257 0)).newServer? = fun _ => none := rfl
    have hrun : Run ctrlPortFn (PublishesOnly ⟨1, 7⟩ 64 257 0) (nsInit 1)
        ([_] ++ [(call ⟨1, 7⟩ (qrtrBye ⟨1, 7⟩ 64 257 0),
          [.packet bcastSq (.server false ⟨64, 257, 1, 7⟩)])]) _ :=
      hone.snoc (fun srv hsrv => by rw [hnone] at hsrv; cases hsrv) rfl
    refine ⟨_, _, hrun, ?_, fun new => ⟨?_, decodesTo_lookupNotify 1 ⟨64, 257, 1, 7⟩ new⟩⟩
    · intro e he
      rcases List.mem_append.mp he with he | he
      · exact Or.inl (congrArg Prod.fst (List.mem_singleton.mp he))
      · exact Or.inr (congrArg Prod.fst (List.mem_singleton.mp he))
    · cases new with
      | true =>
          exact ⟨_, List.mem_append_left _ (List.mem_singleton_self _),
            .packet bcastSq (.server true ⟨64, 257, 1, 7⟩),
            List.mem_singleton_self _, true, ⟨64, 257, 1, 7⟩, rfl, rfl, rfl⟩
      | false =>
          exact ⟨_, List.mem_append_right _ (List.mem_singleton_self _), _,
            List.mem_singleton_self _, false,
            ⟨64, 257, 1, 7⟩, rfl, rfl, rfl⟩

end Imola.Qrtr
