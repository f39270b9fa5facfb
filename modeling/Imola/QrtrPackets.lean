import Imola.QrtrNsReports

/-! # Control packets

A control packet has five words.  `ns.c` writes NEW_SERVER and DEL_SERVER packets in three places,
and the library writes the requests of its callers (`qrtr_new_server` and the like) and reads the
packets of the name service (`qrtr_decode`).

The library puts a version and an instance of sixteen bits each into one word, the instance above
the low eight bits.  What it reads back are the low eight bits and the others
(`version_packInstance`, `inst_packInstance`), so the upper half of a version is read as part of the
instance. -/

namespace Imola.Qrtr

open Imola.Bytes

/-- `struct qrtr_ctrl_pkt`. -/
def ctrlPkt (cmd service inst node port : UInt32) : List UInt8 :=
  [cmd, service, inst, node, port].flatMap fun w => toLE 4 w.toNat

/-- The word at a place of a packet. -/
def wordAt (buf : List UInt8) (off : ℕ) : UInt32 := UInt32.ofNat (ofLE ((buf.drop off).take 4))

section Words

variable (cmd service inst node port : UInt32)

theorem length_ctrlPkt : (ctrlPkt cmd service inst node port).length = 20 := rfl

theorem ofNat_ofLE_toLE (w : UInt32) : UInt32.ofNat (ofLE (toLE 4 w.toNat)) = w := by
  rw [ofLE_toLE w.toNat_lt, UInt32.ofNat_toNat]

theorem cmd_ctrlPkt : wordAt (ctrlPkt cmd service inst node port) 0 = cmd := ofNat_ofLE_toLE cmd

theorem service_ctrlPkt : wordAt (ctrlPkt cmd service inst node port) 4 = service :=
  ofNat_ofLE_toLE service

theorem inst_ctrlPkt : wordAt (ctrlPkt cmd service inst node port) 8 = inst := ofNat_ofLE_toLE inst

end Words

/-! ### The name service -/

/-- `service_announce_new`. -/
def serviceAnnounceNew (srv : Server) : List UInt8 :=
  ctrlPkt 4 srv.service srv.inst srv.node srv.port

/-- `service_announce_del`. -/
def serviceAnnounceDel (srv : Server) : List UInt8 :=
  ctrlPkt 5 srv.service srv.inst srv.node srv.port

/-- `lookup_notify`. -/
def lookupNotify (srv : Option Server) (new : Bool) : List UInt8 :=
  let cmd := if new then 4 else 5
  match srv with
  | some srv => ctrlPkt cmd srv.service srv.inst srv.node srv.port
  | none => ctrlPkt cmd 0 0 0 0

/-- The bytes of a NEW_SERVER or DEL_SERVER packet. -/
def Sent.wire? : Sent → Option (List UInt8)
  | .packet _ (.server true srv) => some (serviceAnnounceNew srv)
  | .packet _ (.server false srv) => some (serviceAnnounceDel srv)
  | .notify _ _ new srv => some (lookupNotify srv new)
  | _ => none

theorem wire?_of_report? {x : Sent} {new : Bool} {srv : Server} (h : x.report? = some (new, srv)) :
    x.wire? = some (lookupNotify (some srv) new) := by
  match x with
  | .packet _ (.server true _) =>
      cases h
      rfl
  | .packet _ (.server false _) =>
      cases h
      rfl
  | .notify _ _ _ (some _) =>
      cases h
      rfl

/-- A packet is all zero behind the command. -/
def AllZero (bytes : List UInt8) : Prop := bytes.drop 4 = List.replicate 16 0

theorem allZero_lookupNotify_none (new : Bool) : AllZero (lookupNotify none new) := rfl

/-- A packet about a server is not all zero, since it has a service. -/
theorem not_allZero_lookupNotify {srv : Server} (h : srv.service ≠ 0) (new : Bool) :
    ¬ AllZero (lookupNotify (some srv) new) := by
  intro hzero
  apply h
  rw [← service_ctrlPkt (if new then 4 else 5) srv.service srv.inst srv.node srv.port]
  have hdrop : (ctrlPkt (if new then 4 else 5) srv.service srv.inst srv.node srv.port).drop 4 =
      List.replicate 16 0 := hzero
  rw [wordAt, hdrop]
  rfl

/-! ### The library -/

/-- The word that the library makes of a version and an instance, `instance << 8 | version`. -/
def packInstance (version inst : UInt16) : UInt32 := inst.toUInt32 <<< 8 ||| version.toUInt32

/-- `qrtr_new_server`. -/
def qrtrNewServer (service : UInt32) (version inst : UInt16) : List UInt8 :=
  ctrlPkt 4 service (packInstance version inst) 0 0

/-- `qrtr_remove_server`, from an address. -/
def qrtrRemoveServer (sq : SockAddr) (service : UInt32) (version inst : UInt16) : List UInt8 :=
  ctrlPkt 5 service (packInstance version inst) sq.node sq.port

/-- `qrtr_publish`. -/
def qrtrPublish (service : UInt32) (version inst : UInt16) : List UInt8 :=
  qrtrNewServer service version inst

/-- `qrtr_bye`. -/
def qrtrBye (sq : SockAddr) (service : UInt32) (version inst : UInt16) : List UInt8 :=
  qrtrRemoveServer sq service version inst

/-- `qrtr_new_lookup`. -/
def qrtrNewLookup (service : UInt32) (version inst : UInt16) : List UInt8 :=
  ctrlPkt 10 service (packInstance version inst) 0 0

/-- `struct qrtr_packet`. -/
structure QrtrPacket where
  type : UInt32
  node : UInt32
  port : UInt32
  service : UInt32
  inst : UInt32
  version : UInt32
  data : List UInt8
deriving DecidableEq, Repr

/-- `QRTR_PORT_CTRL`. -/
def portCtrl : UInt32 := 0xfffffffe

/-- `qrtr_decode`.  The fields that are not assigned keep what they held, and a short packet assigns
none. -/
def qrtrDecode (dest : QrtrPacket) (buf : List UInt8) (sq : SockAddr) : Option QrtrPacket :=
  if sq.port = portCtrl then
    if buf.length < 20 then none
    else
      let type := wordAt buf 0
      if type = 3 then some { dest with type, node := wordAt buf 4 }
      else if type = 6 then some { dest with type, node := wordAt buf 4, port := wordAt buf 8 }
      else if type = 4 ∨ type = 5 then
        some { dest with
          type
          node := wordAt buf 12
          port := wordAt buf 16
          service := wordAt buf 4
          version := wordAt buf 8 &&& 0xff
          inst := wordAt buf 8 >>> 8 }
      else some { dest with type := 0 }
  else some { dest with type := 1, node := sq.node, port := sq.port, data := buf }

theorem qrtrDecode_lookupNotify (dest : QrtrPacket) (srv : Server) (new : Bool) (node : UInt32) :
    ∃ pkt, qrtrDecode dest (lookupNotify (some srv) new) ⟨node, portCtrl⟩ = some pkt ∧
    pkt.service = srv.service ∧
      pkt.version = srv.inst &&& 0xff ∧ pkt.inst = srv.inst >>> 8 := by
  have hlookup : lookupNotify (some srv) new =
      ctrlPkt (if new then 4 else 5) srv.service srv.inst srv.node srv.port := rfl
  rw [hlookup]
  unfold qrtrDecode
  simp only [if_true, length_ctrlPkt, cmd_ctrlPkt, service_ctrlPkt, inst_ctrlPkt,
    lt_irrefl, if_false]
  cases new with
  | true => exact ⟨_, rfl, rfl, rfl, rfl⟩
  | false => exact ⟨_, rfl, rfl, rfl, rfl⟩

section Packing

variable (version inst : UInt16)

theorem toNat_packInstance :
    (packInstance version inst).toNat = inst.toNat <<< 8 ||| version.toNat := by
  have hinst := inst.toNat_lt
  have hshift : inst.toNat <<< 8 < 2 ^ 32 := by
    rw [Nat.shiftLeft_eq]
    omega
  rw [packInstance, UInt32.toNat_or, UInt32.toNat_shiftLeft, UInt16.toNat_toUInt32,
    UInt16.toNat_toUInt32]
  exact congrArg (· ||| version.toNat) (Nat.mod_eq_of_lt hshift)

theorem version_packInstance :
    packInstance version inst &&& 0xff = (version &&& 0xff).toUInt32 := by
  apply UInt32.toNat_inj.mp
  rw [UInt32.toNat_and, toNat_packInstance, UInt16.toNat_toUInt32, UInt16.toNat_and]
  apply Nat.eq_of_testBit_eq
  intro k
  have hmask : (0xff : UInt32).toNat = 2 ^ 8 - 1 := rfl
  have hmask' : (0xff : UInt16).toNat = 2 ^ 8 - 1 := rfl
  rw [hmask, hmask', Nat.testBit_and, Nat.testBit_and, Nat.testBit_or, Nat.testBit_shiftLeft,
    Nat.testBit_two_pow_sub_one]
  by_cases hk : k < 8
  · simp [hk, Nat.not_le.mpr hk]
  · simp [hk]

/-- A version that fits into eight bits is read back, and nothing of it gets into the instance. -/
theorem unpacked_iff : version &&& 0xff = version ∧ inst ||| version >>> 8 = inst ↔
    version < 256 := by
  have hmask : (version &&& 0xff).toNat = version.toNat % 2 ^ 8 := by
    rw [UInt16.toNat_and]
    exact Nat.and_two_pow_sub_one_eq_mod version.toNat 8
  have hlt : version < 256 ↔ version.toNat < 256 := UInt16.lt_iff_toNat_lt
  rw [hlt]
  constructor
  · rintro ⟨hversion, -⟩
    rw [hversion] at hmask
    omega
  · intro hsmall
    refine ⟨UInt16.toNat_inj.mp (by omega), ?_⟩
    have hupper : version >>> 8 = 0 := by
      apply UInt16.toNat_inj.mp
      rw [UInt16.toNat_shiftRight, Nat.shiftRight_eq_div_pow]
      exact Nat.div_eq_of_lt hsmall
    rw [hupper, UInt16.or_zero]

theorem packInstance_eq_zero : packInstance version inst = 0 ↔ version = 0 ∧ inst = 0 := by
  rw [← UInt32.toNat_inj, toNat_packInstance, ← UInt16.toNat_inj, ← UInt16.toNat_inj]
  have hzero : (0 : UInt32).toNat = 0 := rfl
  have hzero' : (0 : UInt16).toNat = 0 := rfl
  rw [hzero, hzero', Nat.or_eq_zero_iff, Nat.shiftLeft_eq, and_comm]
  exact and_congr_right fun _ => ⟨fun h => by omega, fun h => by rw [h, Nat.zero_mul]⟩

theorem inst_packInstance :
    packInstance version inst >>> 8 = (inst ||| version >>> 8).toUInt32 := by
  apply UInt32.toNat_inj.mp
  rw [UInt32.toNat_shiftRight, toNat_packInstance, UInt16.toNat_toUInt32, UInt16.toNat_or,
    UInt16.toNat_shiftRight]
  have height : (8 : UInt32).toNat % 32 = 8 := rfl
  have height' : (8 : UInt16).toNat % 16 = 8 := rfl
  rw [height, height', Nat.shiftRight_or_distrib, Nat.shiftLeft_shiftRight]

end Packing

end Imola.Qrtr
