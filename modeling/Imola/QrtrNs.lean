import Imola.Bytes
import Imola.Runs
import Imola.QrtrMap

/-! # The name service of `qrtr`

`ns.c` handles one control packet at a time (`ctrl_port_fn`).  It keeps a node for every node number
it has heard of, with a hash map of the servers registered there, and a list of lookups, the
observers that are told about servers.

* **Memory.**  A node is allocated once and never freed, so nodes live in a list, `heap`, and the
  map `nodes` holds their places in it.  The map of a node holds the servers themselves; the key of
  a server is the hash of its port.  The maps are those of `QrtrMap.lean`, so they are taken to stay
  below `2 ^ 31` slots.  A lookup carries its place in the order of registration, by which the
  packets sent on its account are told from those of another lookup of the same client.
* **The outside world** is in the input: the packet, what the receive buffer held before it, which
  allocations succeed and which packets are sent.
* **Packets.**  `Sent` lists the packets given to `sendto`.  Those for observers are `notify`, and
  the end of a listing is a `notify` without a server.

The fields of a packet shorter than the structure come from the old content of the buffer, as in the
source.  The results of the functions that are only logged are left out. -/

namespace Imola.Qrtr

open Imola.Bytes

/-- `hash_u32`. -/
def hashU32 (value : UInt32) : UInt32 := value * 2654435761

/-- The multiplier is odd. -/
theorem hashU32_injective : Function.Injective hashU32 := by
  have hinv : Function.LeftInverse (fun h : UInt32 => h * 244002641) hashU32 := by
    intro v
    have hone : (2654435761 * 244002641 : UInt32) = 1 := by decide
    simp only [hashU32, UInt32.mul_assoc, hone, UInt32.mul_one]
  exact hinv.injective

/-- `struct sockaddr_qrtr`. -/
structure SockAddr where
  node : UInt32
  port : UInt32
deriving DecidableEq, Repr

/-- `struct server`. -/
structure Server where
  service : UInt32
  inst : UInt32
  node : UInt32
  port : UInt32
deriving DecidableEq, Repr

/-- The key under which `server_add` puts a server. -/
def Server.key (srv : Server) : UInt32 := hashU32 srv.port

/-- `struct server_filter`. -/
structure ServerFilter where
  service : UInt32
  inst : UInt32
  ifilter : UInt32
deriving DecidableEq, Repr

/-- `struct lookup`. -/
structure Lookup where
  id : ℕ
  service : UInt32
  inst : UInt32
  sq : SockAddr
deriving DecidableEq, Repr

/-- `struct node`. -/
structure Node where
  id : UInt32
  services : Map Server

/-- The name service: `nodes` and `struct context`. -/
structure Ns where
  localNode : UInt32
  heap : List Node
  nodes : Map ℕ
  lookups : List Lookup
  /-- How many lookups have been registered. -/
  registered : ℕ

/-- What `main` sets up. -/
def nsInit (localNode : UInt32) : Ns := ⟨localNode, [], mapCreate, [], 0⟩

/-- `QRTR_NODE_BCAST` and `QRTR_PORT_CTRL`. -/
def bcastSq : SockAddr := ⟨0xffffffff, 0xfffffffe⟩

/-- The content of a control packet. -/
inductive Packet where
  | hello (bytes : List UInt8)
  | server (new : Bool) (srv : Server)
  | bye (node : UInt32)
  | delClient (node port : UInt32)
deriving DecidableEq, Repr

/-- A packet given to `sendto`. -/
inductive Sent where
  | packet (dest : SockAddr) (pkt : Packet)
  /-- `lookup_notify`, on account of a lookup. -/
  | notify (lookup : ℕ) (dest : SockAddr) (new : Bool) (srv : Option Server)
deriving DecidableEq, Repr

/-- Whether `calloc` succeeds for a node, and for a larger map of nodes. -/
structure NodeAllocs where
  node : Bool
  nodes : Bool
deriving DecidableEq, Repr

/-- Which allocations succeed while a packet is handled. -/
structure Allocs where
  server : Bool
  sender : NodeAllocs
  services : Bool
  localNode : NodeAllocs
  lookup : Bool
deriving DecidableEq, Repr

/-- What `ctrl_port_fn` gets from the outside; `recv` is `none` when `recvfrom` fails. -/
structure Input where
  recv : Option (SockAddr × List UInt8)
  buf : ℕ → UInt8
  allocs : Allocs
  sendOk : ℕ → Bool

/-! ### Nodes -/

/-- The node at a place of the heap. -/
def nodeAt (heap : List Node) (p : ℕ) : Node := heap.getD p ⟨0, mapCreate⟩

/-- The key of the node at a place. -/
def nodeKey (heap : List Node) (p : ℕ) : UInt32 := hashU32 (nodeAt heap p).id

/-- The map of the servers of the node at `p`. -/
def Ns.services (s : Ns) (p : ℕ) : Map Server := (nodeAt s.heap p).services

def Ns.setServices (s : Ns) (p : ℕ) (m : Map Server) : Ns :=
  { s with heap := s.heap.set p ⟨(nodeAt s.heap p).id, m⟩ }

/-- `node_get`: the place of the node with a number, which is made if there is none. -/
def nodeGet (s : Ns) (a : NodeAllocs) (id : UInt32) : Option ℕ × Ns :=
  match mapGet (nodeKey s.heap) s.nodes (hashU32 id) with
  | some p => (some p, s)
  | none =>
      if a.node then
        let heap := s.heap ++ [⟨id, mapCreate⟩]
        match mapPut (nodeKey heap) a.nodes s.nodes (hashU32 id) s.heap.length with
        | some nodes => (some s.heap.length, { s with heap, nodes })
        | none => (none, s)
      else (none, s)

/-! ### Servers and lookups -/

/-- `server_match`. -/
def serverMatch (srv : Server) (f : ServerFilter) : Bool :=
  if f.service ≠ 0 ∧ srv.service ≠ f.service then false
  else
    let ifilter := if f.ifilter = 0 ∧ f.inst ≠ 0 then 0xffffffff else f.ifilter
    srv.inst &&& ifilter = f.inst

/-- `server_query`: the servers that match a filter, in the order of the list. -/
def serverQuery (f : ServerFilter) (s : Ns) : List Server :=
  (mapItems s.nodes).flatMap fun p => (mapItems (s.services p)).filter fun srv => serverMatch srv f

/-- The condition under which the loops over the lookups do not `continue`. -/
def Lookup.observes (l : Lookup) (srv : Server) : Bool :=
  (l.service = 0 || l.service = srv.service) && (l.inst = 0 || l.inst = srv.inst)

/-- The loops of `server_del` and `ctrl_cmd_new_server` over the lookups. -/
def notifyObservers (lookups : List Lookup) (new : Bool) (srv : Server) : List Sent :=
  (lookups.filter fun l => l.observes srv).map fun l => .notify l.id l.sq new (some srv)

/-- `service_announce_new` and `service_announce_del`, for local servers. -/
def announceLocal (s : Ns) (new : Bool) (srv : Server) : List Sent :=
  if srv.node = s.localNode then [.packet bcastSq (.server new srv)] else []

/-- `server_add`: the server, if it was registered.  A server that was there under the port is
replaced. -/
def serverAdd (s : Ns) (a : Allocs) (service inst node port : UInt32) : Option Server × Ns :=
  if service = 0 ∨ port = 0 then (none, s)
  else if a.server then
    let srv : Server := ⟨service, inst, node, port⟩
    match nodeGet s a.sender node with
    | (none, s) => (none, s)
    | (some p, s) =>
        match mapReput Server.key a.services (s.services p) (hashU32 port) srv with
        | none => (none, s)
        | some (_, services) => (some srv, s.setServices p services)
  else (none, s)

/-- `server_del`: the server that `map_get` finds under the port is removed. -/
def serverDel (s : Ns) (p : ℕ) (port : UInt32) : List Sent × Ns :=
  match mapGet Server.key (s.services p) (hashU32 port) with
  | none => ([], s)
  | some srv =>
      (announceLocal s false srv ++ notifyObservers s.lookups false srv,
        s.setServices p (mapRemove Server.key (s.services p) srv.key).2)

/-! ### The commands -/

/-- The loop of `annouce_servers`, which ends at the first packet that is not sent; `i` packets have
been sent before. -/
def annouceServers (sendOk : ℕ → Bool) (dest : SockAddr) : ℕ → List Server → List Sent
  | _, [] => []
  | i, srv :: rest =>
      .packet dest (.server true srv) ::
        if sendOk i then annouceServers sendOk dest (i + 1) rest else []

/-- `ctrl_cmd_hello`. -/
def ctrlCmdHello (s : Ns) (i : Input) (sq : SockAddr) (bytes : List UInt8) : List Sent × Ns :=
  let echo := Sent.packet sq (.hello bytes)
  if i.sendOk 0 then
    match nodeGet s i.allocs.localNode s.localNode with
    | (none, s) => ([echo], s)
    | (some p, s) => (echo :: annouceServers i.sendOk sq 1 (mapItems (s.services p)), s)
  else ([echo], s)

/-- The packets by which `ctrl_cmd_bye` and `ctrl_cmd_del_client` advertise the removal of a client
to all local services. -/
def propagate (s : Ns) (a : NodeAllocs) (pkt : Packet) : List Sent × Ns :=
  match nodeGet s a s.localNode with
  | (none, s) => ([], s)
  | (some p, s) => ((mapItems (s.services p)).map fun srv => .packet ⟨srv.node, srv.port⟩ pkt, s)

/-- The loop of `ctrl_cmd_bye` over the slots: a slot with a server makes `server_del` remove what
it finds under the port of that server. -/
def byeLoop (p : ℕ) : List ℕ → Ns → List Sent × Ns
  | [], s => ([], s)
  | j :: js, s =>
      match ((s.services p).data j).item? with
      | none => byeLoop p js s
      | some srv =>
          let del := serverDel s p srv.port
          let rest := byeLoop p js del.2
          (del.1 ++ rest.1, rest.2)

/-- `ctrl_cmd_bye`. -/
def ctrlCmdBye (s : Ns) (a : Allocs) (sq : SockAddr) : List Sent × Ns :=
  match nodeGet s a.sender sq.node with
  | (none, s) => ([], s)
  | (some p, s) =>
      let purge := byeLoop p (List.range (s.services p).size) s
      let bye := propagate purge.2 a.localNode (.bye sq.node)
      (purge.1 ++ bye.1, bye.2)

/-- `ctrl_cmd_del_client`. -/
def ctrlCmdDelClient (s : Ns) (a : Allocs) (sq : SockAddr) (node port : UInt32) : List Sent × Ns :=
  if sq.node ≠ node then ([], s)
  else if sq.node = s.localNode ∧ sq.port ≠ port then ([], s)
  else
    let s := { s with lookups := s.lookups.filter fun l => ¬(l.sq.node = node ∧ l.sq.port = port) }
    let del := match nodeGet s a.sender node with
      | (none, s) => ([], s)
      | (some p, s) => serverDel s p port
    let bye := propagate del.2 a.localNode (.delClient node port)
    (del.1 ++ bye.1, bye.2)

/-- The node and port that are ignored for local servers. -/
def claimed (s : Ns) (sq : SockAddr) (node port : UInt32) : SockAddr :=
  if sq.node = s.localNode then sq else ⟨node, port⟩

/-- `ctrl_cmd_new_server`. -/
def ctrlCmdNewServer (s : Ns) (a : Allocs) (sq : SockAddr) (service inst node port : UInt32) :
    List Sent × Ns :=
  let addr := claimed s sq node port
  if sq.node ≠ addr.node then ([], s)
  else
    match serverAdd s a service inst addr.node addr.port with
    | (none, s) => ([], s)
    | (some srv, s) => (announceLocal s true srv ++ notifyObservers s.lookups true srv, s)

/-- `ctrl_cmd_del_server`. -/
def ctrlCmdDelServer (s : Ns) (a : Allocs) (sq : SockAddr) (node port : UInt32) : List Sent × Ns :=
  let addr := claimed s sq node port
  if sq.node ≠ addr.node then ([], s)
  else if sq.node = s.localNode ∧ sq.port ≠ addr.port then ([], s)
  else
    match nodeGet s a.sender addr.node with
    | (none, s) => ([], s)
    | (some p, s) => serverDel s p addr.port

/-- `ctrl_cmd_new_lookup`. -/
def ctrlCmdNewLookup (s : Ns) (a : Allocs) (sq : SockAddr) (service inst : UInt32) :
    List Sent × Ns :=
  if sq.node ≠ s.localNode then ([], s)
  else if a.lookup then
    ((serverQuery ⟨service, inst, 0⟩ s).map (fun srv => .notify s.registered sq true (some srv)) ++
        [.notify s.registered sq true none],
      { s with lookups := s.lookups ++
        [⟨s.registered, service, inst, sq⟩], registered := s.registered + 1 })
  else ([], s)

/-- `ctrl_cmd_del_lookup`. -/
def ctrlCmdDelLookup (s : Ns) (sq : SockAddr) (service inst : UInt32) : List Sent × Ns :=
  ([], { s with lookups := s.lookups.filter fun l =>
    ¬(l.sq = sq ∧ l.service = service ∧ (l.inst = 0 ∨ l.inst = inst)) })

/-! ### Handling a packet -/

/-- The commands that are handled. -/
inductive Cmd where
  | hello
  | bye
  | newServer
  | delServer
  | delClient
  | newLookup
  | delLookup
  /-- `QRTR_TYPE_EXIT`, `QRTR_TYPE_PING`, `QRTR_TYPE_RESUME_TX` and what is not known. -/
  | other
deriving DecidableEq, Repr

/-- The `switch` of `ctrl_port_fn`. -/
def cmdOf (cmd : UInt32) : Cmd :=
  if cmd = 2 then .hello
  else if cmd = 3 then .bye
  else if cmd = 4 then .newServer
  else if cmd = 5 then .delServer
  else if cmd = 6 then .delClient
  else if cmd = 10 then .newLookup
  else if cmd = 11 then .delLookup
  else .other

/-- The number of four bytes at a place of the receive buffer. -/
def Input.field (i : Input) (bytes : List UInt8) (off : ℕ) : UInt32 :=
  UInt32.ofNat (ofLE ((List.range 4).map fun j => bytes.getD (off + j) (i.buf (off + j))))

/-- The commands of `ctrl_port_fn`, for a packet that is not short. -/
def ctrlCmd (s : Ns) (i : Input) (sq : SockAddr) (bytes : List UInt8) : List Sent × Ns :=
  match cmdOf (i.field bytes 0) with
  | .hello => ctrlCmdHello s i sq bytes
  | .bye => ctrlCmdBye s i.allocs sq
  | .delClient => ctrlCmdDelClient s i.allocs sq (i.field bytes 4) (i.field bytes 8)
  | .newServer =>
      ctrlCmdNewServer s i.allocs sq (i.field bytes 4) (i.field bytes 8) (i.field bytes 12)
        (i.field bytes 16)
  | .delServer => ctrlCmdDelServer s i.allocs sq (i.field bytes 12) (i.field bytes 16)
  | .newLookup => ctrlCmdNewLookup s i.allocs sq (i.field bytes 4) (i.field bytes 8)
  | .delLookup => ctrlCmdDelLookup s sq (i.field bytes 4) (i.field bytes 8)
  | .other => ([], s)

/-- Why the name service ends: the socket is closed when nothing can be received. -/
inductive Closed where
  | closed
deriving DecidableEq, Repr

/-- `ctrl_port_fn`.  The buffer takes 4096 bytes. -/
def ctrlPortFn (s : Ns) (i : Input) : Except Closed (List Sent × Ns) :=
  match i.recv with
  | none => .error .closed
  | some (sq, datagram) =>
      let bytes := datagram.take 4096
      if bytes = [] then .error .closed
      else if bytes.length < 4 then .ok ([], s)
      else .ok (ctrlCmd s i sq bytes)

/-- A packet of words that is handled with enough memory. -/
def packet (sq : SockAddr) (words : List ℕ) : Input where
  recv := some (sq, words.flatMap (toLE 4))
  buf := fun _ => 0
  allocs := ⟨true, ⟨true, true⟩, true, ⟨true, true⟩, true⟩
  sendOk := fun _ => true

example : (packet ⟨2, 7⟩ [4, 1, 0, 2, 7]).field ([4, 1, 0, 2, 7].flatMap (toLE 4)) 16 = 7 := by
  decide

end Imola.Qrtr
