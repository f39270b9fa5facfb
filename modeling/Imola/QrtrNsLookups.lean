import Imola.QrtrList
import Imola.QrtrNsDatagram

/-! # The lookups in memory

`ctx->lookups` is a list of structures that carry their own links.  `LookupMem` has these links and
the structures that are allocated, by address; a structure that has been freed is not there any
more, and reading it is a fault.  `ctrlPortFnMem` is `ctrl_port_fn` with the lookups in memory.

After every run the structures in memory are the lookups of the name service, in the same order, and
no fault has occurred (`linked_of_run`): a structure is taken out and freed while the list is
walked, and `list_for_each_safe` has read the link before.

`ctrl_cmd_del_lookup` has the test of the notifications, in which a lookup without an instance
matches every instance.  So it also removes the lookups of its sender that ask for every instance of
the service (`delLookup_exact_iff`). -/

namespace Imola.Qrtr

open Imola.Bytes Imola.Runs Imola.LinkedLists

/-! ### The list -/

/-- `ctx->lookups`, and the structures that are allocated. -/
structure LookupMem where
  links : Links ℕ
  cell : ℕ → Option Lookup

namespace LookupMem

/-- The structures in the list, with their addresses. -/
structure Holds (m : LookupMem) (ps : List (ℕ × Lookup)) : Prop where
  links : m.links.Holds (ps.map Prod.fst)
  cells : ∀ p ∈ ps, m.cell p.1 = some p.2

/-- No lookup is allocated. -/
def empty : LookupMem := ⟨⟨none, none, fun _ => none, fun _ => none⟩, fun _ => none⟩

/-- A lookup that `calloc` puts at an address, with `list_append`. -/
def add (m : LookupMem) (addr : ℕ) (l : Lookup) : LookupMem :=
  ⟨listAppend m.links addr, Function.update m.cell addr (some l)⟩

/-- `list_remove` and `free`. -/
def drop (m : LookupMem) (addr : ℕ) : Option LookupMem :=
  (listRemove m.links addr).map fun links => ⟨links, Function.update m.cell addr none⟩

/-- The loops of `ctrl_cmd_del_client` and `ctrl_cmd_del_lookup`; `keeps` tells when a round does
`continue`. -/
def forget (keeps : Lookup → Bool) (fuel : ℕ) (m : LookupMem) : Option LookupMem :=
  listForEachSafe (fun m addr => m.links.next addr)
    (fun addr m => (m.cell addr).bind fun l => if keeps l then some m else m.drop addr) fuel
      m.links.head m

end LookupMem

/-- The tests of `ctrl_cmd_del_lookup`. -/
def delLookupKeeps (sq : SockAddr) (service inst : UInt32) (l : Lookup) : Bool :=
  if l.sq.node ≠ sq.node then true
  else if l.sq.port ≠ sq.port then true
  else if l.service ≠ service then true
  else if l.inst ≠ 0 ∧ l.inst ≠ inst then true
  else false

/-- The tests of `ctrl_cmd_del_client`. -/
def delClientKeeps (node port : UInt32) (l : Lookup) : Bool :=
  if l.sq.node ≠ node then true
  else if l.sq.port ≠ port then true
  else false

theorem delLookupKeeps_eq (sq : SockAddr) (service inst : UInt32) (l : Lookup) :
    delLookupKeeps sq service inst l =
    decide ¬(l.sq = sq ∧ l.service = service ∧ (l.inst = 0 ∨ l.inst = inst)) := by
  obtain ⟨id, service', inst', ⟨node, port⟩⟩ := l
  obtain ⟨node', port'⟩ := sq
  simp only [delLookupKeeps, SockAddr.mk.injEq]
  split_ifs with hnode hport hservice hinst
  · simp [hnode]
  · simp [hport]
  · simp [hservice]
  · simp [hinst.1, hinst.2]
  · push Not at hnode hport hservice hinst
    have hor : inst' = 0 ∨ inst' = inst := or_iff_not_imp_left.mpr hinst
    simp [hnode, hport, hservice, hor]

theorem delClientKeeps_eq (node port : UInt32) (l : Lookup) :
    delClientKeeps node port l = decide ¬(l.sq.node = node ∧ l.sq.port = port) := by
  unfold delClientKeeps
  split_ifs with hnode hport
  · simp [hnode]
  · simp [hport]
  · push Not at hnode hport
    simp [hnode, hport]

section Memory

variable {m : LookupMem} {ps as bs : List (ℕ × Lookup)} {p : ℕ × Lookup}

theorem holds_empty : LookupMem.empty.Holds [] := ⟨Links.Holds.nil rfl rfl, fun p hp => by cases hp⟩

theorem LookupMem.Holds.add (h : m.Holds ps) {addr : ℕ} (hfree : m.cell addr = none) (l : Lookup) :
    (m.add addr l).Holds (ps ++ [(addr, l)]) := by
  have hfresh : ∀ q ∈ ps, q.1 ≠ addr := by
    rintro q hq rfl
    rw [h.cells q hq] at hfree
    cases hfree
  constructor
  · rw [List.map_append, List.map_singleton]
    apply holds_listAppend h.links
    rintro hmem
    obtain ⟨q, hq, heq⟩ := List.mem_map.mp hmem
    exact hfresh q hq heq
  · intro q hq
    rcases List.mem_append.mp hq with hq | hq
    · exact (Function.update_of_ne (hfresh q hq) _ _).trans (h.cells q hq)
    · rw [List.mem_singleton.mp hq]
      exact Function.update_self _ _ _

theorem LookupMem.Holds.drop (h : m.Holds (as ++ p :: bs)) :
    ∃ m', m.drop p.1 = some m' ∧ m'.Holds (as ++ bs) := by
  have hlinks := h.links
  rw [List.map_append, List.map_cons] at hlinks
  obtain ⟨links, hremove, hholds⟩ := holds_listRemove hlinks
  refine ⟨⟨links, Function.update m.cell p.1 none⟩, ?_, ?_, ?_⟩
  · rw [LookupMem.drop, hremove, Option.map_some]
  · rwa [List.map_append]
  · intro q hq
    have hne : q.1 ≠ p.1 := by
      intro heq
      refine (List.nodup_cons.mp (List.nodup_middle.mp hlinks.nodup)).1 ?_
      rw [← List.map_append, ← heq]
      exact List.mem_map_of_mem hq
    refine (Function.update_of_ne hne _ _).trans (h.cells q ?_)
    rcases List.mem_append.mp hq with hq | hq
    · exact List.mem_append_left _ hq
    · exact List.mem_append_right _ (List.mem_cons_of_mem _ hq)

/-- **The loops** leave the lookups that they do not drop, in order. -/
theorem LookupMem.Holds.forget (h : m.Holds ps) (keeps : Lookup → Bool) {fuel : ℕ}
    (hfuel : ps.length ≤ fuel) :
    ∃ m', m.forget keeps fuel = some m' ∧ m'.Holds (ps.filter fun p => keeps p.2) := by
  have hloop := @listForEachSafe_rule ℕ LookupMem (fun m addr => m.links.next addr)
    (fun addr m => (m.cell addr).bind fun l => if keeps l then some m else m.drop addr)
    (fun rest m => ∃ done left, ps = done ++ left ∧ rest = left.map Prod.fst ∧
      m.Holds (done.filter (fun p => keeps p.2) ++ left)) ?_ (ps.map Prod.fst) fuel m
    (by rwa [List.length_map]) ⟨[], ps, rfl, rfl, h⟩
  · obtain ⟨m', hrun, done, left, hps, hleft, hm'⟩ := hloop
    obtain rfl : left = [] := List.map_eq_nil_iff.mp hleft.symm
    refine ⟨m', ?_, ?_⟩
    · rw [LookupMem.forget, h.links.head, hrun]
    · rw [List.append_nil] at hm' hps
      rwa [hps]
  · rintro addr rest m ⟨done, left, hps, hrest, hm⟩
    cases left with
    | nil => cases hrest
    | cons p left =>
        rw [List.map_cons] at hrest
        obtain ⟨rfl, rfl⟩ := List.cons.inj hrest
        refine ⟨?_, ?_⟩
        · exact hm.links.next ((done.filter fun p => keeps p.2).map Prod.fst) p.1
            (left.map Prod.fst) (by simp)
        · have hmore : ps = (done ++ [p]) ++ left := by
            rw [hps, List.append_assoc, List.singleton_append]
          rw [hm.cells p (by simp), Option.bind_some]
          cases hkeep : keeps p.2 with
          | true =>
              refine ⟨m, if_pos rfl, done ++ [p], left, hmore, rfl, ?_⟩
              rwa [List.filter_append, List.filter_singleton, hkeep, cond_true, List.append_assoc,
                List.singleton_append]
          | false =>
              obtain ⟨m', hdrop, hm'⟩ := hm.drop
              refine ⟨m', ?_, done ++ [p], left, hmore, rfl, ?_⟩
              · rw [if_neg Bool.false_ne_true, hdrop]
              · rwa [List.filter_append, List.filter_singleton, hkeep, cond_false, List.append_nil]

end Memory

/-! ### The name service with the lookups in memory -/

structure NsMem where
  ns : Ns
  mem : LookupMem

/-- Why `ctrl_port_fn` does not go on. -/
inductive Stop where
  | closed
  /-- A structure that is not allocated is read, a link that is `0` is followed, or a loop does not
  end. -/
  | fault
deriving DecidableEq, Repr

/-- What a command does to the list; `addr` is what `calloc` returns for a lookup.  A list has no
more structures than were registered. -/
def lookupsCmd (t : NsMem) (i : Input) (addr : ℕ) (sq : SockAddr) (bytes : List UInt8) :
    Option LookupMem :=
  match cmdOf (i.field bytes 0) with
  | .delClient =>
      if sq.node ≠ i.field bytes 4 then some t.mem
      else if sq.node = t.ns.localNode ∧ sq.port ≠ i.field bytes 8 then some t.mem
      else t.mem.forget (delClientKeeps (i.field bytes 4) (i.field bytes 8)) t.ns.registered
  | .newLookup =>
      if sq.node ≠ t.ns.localNode then some t.mem
      else if i.allocs.lookup then
        some (t.mem.add addr ⟨t.ns.registered, i.field bytes 4, i.field bytes 8, sq⟩)
      else some t.mem
  | .delLookup =>
      t.mem.forget (delLookupKeeps sq (i.field bytes 4) (i.field bytes 8)) t.ns.registered
  | _ => some t.mem

def lookupsStep (t : NsMem) (i : Input) (addr : ℕ) : Option LookupMem :=
  match i.recv with
  | none => some t.mem
  | some (sq, datagram) =>
      if (datagram.take 4096).length < 4 then some t.mem
      else lookupsCmd t i addr sq (datagram.take 4096)

/-- `ctrl_port_fn`, with the list in memory.  An input comes with the address that `calloc`
returns. -/
def ctrlPortFnMem (t : NsMem) (i : Input × ℕ) : Except Stop (List Sent × NsMem) :=
  match ctrlPortFn t.ns i.1 with
  | .error _ => .error .closed
  | .ok (out, ns) =>
      match lookupsStep t i.1 i.2 with
      | none => .error .fault
      | some mem => .ok (out, ⟨ns, mem⟩)

/-- `calloc` returns memory that is not in use. -/
def FreshAddr (t : NsMem) (i : Input × ℕ) : Prop := t.mem.cell i.2 = none

/-- What `main` sets up. -/
def memInit (localNode : UInt32) : NsMem := ⟨nsInit localNode, .empty⟩

/-- The structures in memory are the lookups of the name service. -/
def NsMem.Linked (t : NsMem) (ps : List (ℕ × Lookup)) : Prop :=
  t.mem.Holds ps ∧ t.ns.lookups = ps.map Prod.snd

section Refines

variable {localNode : UInt32} {t t' : NsMem} {ps : List (ℕ × Lookup)} {i : Input} {addr : ℕ}

theorem filter_map_snd (keeps : Lookup → Bool) (ps : List (ℕ × Lookup)) :
    (ps.filter fun p => keeps p.2).map Prod.snd = (ps.map Prod.snd).filter keeps := by
  rw [List.filter_map]
  rfl

theorem NsMem.Linked.forget (h : t.Linked ps) (hlen : t.ns.lookups.length ≤ t.ns.registered)
    (keeps : Lookup → Bool) :
    ∃ m', t.mem.forget keeps t.ns.registered = some m' ∧ m'.Holds (ps.filter fun p => keeps p.2) ∧
      t.ns.lookups.filter keeps = (ps.filter fun p => keeps p.2).map Prod.snd := by
  rw [h.2, List.length_map] at hlen
  obtain ⟨m', hforget, hm'⟩ := h.1.forget keeps hlen
  exact ⟨m', hforget, hm', by rw [h.2, filter_map_snd]⟩

theorem ctrlCmdDelClient_lookups (s : Ns) (a : Allocs) (sq : SockAddr) (node port : UInt32) :
    (ctrlCmdDelClient s a sq node port).2.lookups =
      if sq.node ≠ node then s.lookups
      else if sq.node = s.localNode ∧ sq.port ≠ port then s.lookups
      else s.lookups.filter (delClientKeeps node port) := by
  unfold ctrlCmdDelClient
  split_ifs with hnode hport
  · rfl
  · rfl
  · dsimp only
    rw [propagate_lookups]
    refine (delServer_lookups _ a.sender node port).trans (List.filter_congr fun l _ => ?_)
    rw [delClientKeeps_eq]

/-- **One command**: the list in memory follows the lookups of the name service. -/
theorem lookupsCmd_spec (hinv : t.ns.Inv) (hlen : t.ns.lookups.length ≤ t.ns.registered)
    (h : t.Linked ps)
    (haddr : t.mem.cell addr = none) (sq : SockAddr) (bytes : List UInt8) :
    ∃ m' ps', lookupsCmd t i addr sq bytes = some m' ∧
    NsMem.Linked ⟨(ctrlCmd t.ns i sq bytes).2, m'⟩ ps' := by
  have hsame : ∀ {s' : Ns}, s'.lookups = t.ns.lookups → ∃ m' ps', some t.mem = some m' ∧
      NsMem.Linked ⟨s', m'⟩ ps' :=
    fun heq => ⟨t.mem, ps, rfl, h.1, heq.trans h.2⟩
  unfold lookupsCmd ctrlCmd
  cases cmdOf (i.field bytes 0) with
  | hello => exact hsame (ctrlCmdHello_lookups t.ns i sq bytes)
  | bye => exact hsame (ctrlCmdBye_lookups hinv i.allocs)
  | other => exact hsame rfl
  | newServer => exact hsame (ctrlCmdNewServer_lookups t.ns i.allocs sq _ _ _ _)
  | delServer =>
      dsimp only [ctrlCmdDelServer]
      split_ifs
      · exact hsame rfl
      · exact hsame rfl
      · exact hsame (delServer_lookups t.ns i.allocs.sender _ _)
  | delClient =>
      have hns := ctrlCmdDelClient_lookups t.ns i.allocs sq (i.field bytes 4) (i.field bytes 8)
      dsimp only
      split_ifs at hns ⊢ with hnode hport
      · exact hsame hns
      · exact hsame hns
      · obtain ⟨m', hforget, hm', hlookups⟩ :=
          h.forget hlen (delClientKeeps (i.field bytes 4) (i.field bytes 8))
        exact ⟨m', _, hforget, hm', hns.trans hlookups⟩
  | newLookup =>
      dsimp only [ctrlCmdNewLookup]
      split_ifs with hnode hlookup
      · exact hsame rfl
      · refine ⟨_, ps ++ [(addr, ⟨t.ns.registered, i.field bytes 4, i.field bytes 8, sq⟩)], rfl,
          h.1.add haddr _, ?_⟩
        rw [List.map_append, ← h.2]
        rfl
      · exact hsame rfl
  | delLookup =>
      obtain ⟨m', hforget, hm', hlookups⟩ :=
        h.forget hlen (delLookupKeeps sq (i.field bytes 4) (i.field bytes 8))
      refine ⟨m', _, hforget, hm', Eq.trans (List.filter_congr fun l _ => ?_) hlookups⟩
      rw [delLookupKeeps_eq]

/-- No two lookups have been registered at the same time. -/
theorem length_lookups_le {v : View} (h : v.Inv) : v.lookups.length ≤ v.registered := by
  have hsub : v.lookups.map Lookup.id ⊆ List.range v.registered := by
    intro n hn
    obtain ⟨l, hl, rfl⟩ := List.mem_map.mp hn
    exact List.mem_range.mpr (h.fresh l hl)
  have hle := (h.ids.subperm hsub).length_le
  rwa [List.length_map, List.length_range] at hle

theorem ctrlPortFn_of_mem {x : Input × ℕ} {out : List Sent}
    (h : ctrlPortFnMem t x = .ok (out, t')) :
    ctrlPortFn t.ns x.1 = .ok (out, t'.ns) := by
  unfold ctrlPortFnMem at h
  cases hstep : ctrlPortFn t.ns x.1 with
  | error e =>
      rw [hstep] at h
      cases h
  | ok r =>
      rw [hstep] at h
      dsimp only at h
      cases hmem : lookupsStep t x.1 x.2 with
      | none =>
          rw [hmem] at h
          cases h
      | some mem =>
          rw [hmem] at h
          cases h
          rfl

/-- A run with the list in memory is a run of the name service. -/
theorem run_ns {P : NsMem → Input × ℕ → Prop} {h : List ((Input × ℕ) × List Sent)}
    (hrun : Run ctrlPortFnMem P (memInit localNode) h t) :
    Run ctrlPortFn (fun _ _ => True) (nsInit localNode) (h.map fun e => (e.1.1, e.2)) t.ns := by
  induction hrun with
  | nil => exact Run.nil
  | snoc _ _ hstep ih =>
      rw [List.map_append]
      exact ih.snoc trivial (ctrlPortFn_of_mem hstep)

/-- **One step**: if the name service goes on, there is no fault. -/
theorem linked_step (hinv : t.ns.Inv) (hview : t.ns.view.Inv) (h : t.Linked ps) {x : Input × ℕ}
    (hx : FreshAddr t x)
    {out : List Sent} {ns : Ns} (hstep : ctrlPortFn t.ns x.1 = .ok (out, ns)) :
    ∃ mem ps', ctrlPortFnMem t x = .ok (out, ⟨ns, mem⟩) ∧ NsMem.Linked ⟨ns, mem⟩ ps' := by
  have hmem : ∃ mem ps', lookupsStep t x.1 x.2 = some mem ∧ NsMem.Linked ⟨ns, mem⟩ ps' := by
    obtain ⟨sq, datagram, hrecv, -, ⟨hshort, heq⟩ | ⟨hlen, heq⟩⟩ := ctrlPortFn_cases hstep
    · cases heq
      simp only [lookupsStep, hrecv]
      exact ⟨t.mem, ps, if_pos hshort, h⟩
    · obtain rfl : ns = (ctrlCmd t.ns x.1 sq (datagram.take 4096)).2 := congrArg Prod.snd heq
      simp only [lookupsStep, hrecv]
      rw [if_neg (by omega)]
      exact lookupsCmd_spec hinv (length_lookups_le hview) h hx sq _
  obtain ⟨mem, ps', hmem, hlinked⟩ := hmem
  refine ⟨mem, ps', ?_, hlinked⟩
  unfold ctrlPortFnMem
  rw [hstep]
  dsimp only
  rw [hmem]

/-- **The list in memory** is the list of lookups, in every reachable state. -/
theorem linked_of_run {h : List ((Input × ℕ) × List Sent)}
    (hrun : Run ctrlPortFnMem FreshAddr (memInit localNode) h t) : ∃ ps, t.Linked ps := by
  induction hrun with
  | nil => exact ⟨[], holds_empty, rfl⟩
  | snoc hrun hfresh hstep ih =>
      obtain ⟨ps, hps⟩ := ih
      obtain ⟨hinv, hview⟩ := inv_of_run (run_ns hrun)
      obtain ⟨mem, ps', hmem, hlinked⟩ :=
        linked_step hinv hview hps hfresh (ctrlPortFn_of_mem hstep)
      have hend := (Prod.mk.inj (Except.ok.inj (hmem.symm.trans hstep))).2
      rw [hend] at hlinked
      exact ⟨ps', hlinked⟩

end Refines

/-! ### Removing a lookup -/

/-- A message with a command, a service and an instance.  What the datagram is too short for is in
the buffer. -/
def Input.Asks (i : Input) (cmd : Cmd) (sq : SockAddr) (service inst : UInt32) : Prop :=
  ∃ datagram, i.recv = some (sq, datagram) ∧ 4 ≤ (datagram.take 4096).length ∧
    cmdOf (i.field (datagram.take 4096) 0) = cmd ∧ i.field (datagram.take 4096) 4 = service ∧
    i.field (datagram.take 4096) 8 = inst

/-- The lookups of the sender with the service and the instance are removed, and no others. -/
def RemovesExactly (t : NsMem) (i : Input × ℕ) (sq : SockAddr) (service inst : UInt32) : Prop :=
  ∃ t' ps, ctrlPortFnMem t i = .ok ([], t') ∧ t.Linked ps ∧
    t'.Linked (ps.filter fun p => ¬(p.2.sq = sq ∧ p.2.service = service ∧ p.2.inst = inst))

/-- After two messages the list is as before. -/
def Restores (t : NsMem) (i j : Input × ℕ) : Prop :=
  ∃ out t₁ t₂ ps, ctrlPortFnMem t i = .ok (out, t₁) ∧ ctrlPortFnMem t₁ j = .ok ([], t₂) ∧
    t.Linked ps ∧ t₂.Linked ps

/-- There is no lookup of the sender for every instance of the service, except if those are asked
for. -/
def NoWildcard (t : NsMem) (sq : SockAddr) (service inst : UInt32) : Prop :=
  inst = 0 ∨ ∀ l ∈ t.ns.lookups, l.sq = sq → l.service = service → l.inst ≠ 0

section Removing

variable {localNode : UInt32} {h : List ((Input × ℕ) × List Sent)} {t : NsMem}
    {ps : List (ℕ × Lookup)}
  {i j : Input × ℕ} {sq : SockAddr} {service inst : UInt32}

theorem ctrlPortFn_asks {x : Input} {cmd : Cmd} (hx : x.Asks cmd sq service inst) (s : Ns) :
    ∃ bytes, ctrlPortFn s x = .ok (ctrlCmd s x sq bytes) ∧ cmdOf (x.field bytes 0) = cmd ∧
      x.field bytes 4 = service ∧ x.field bytes 8 = inst ∧
      ∀ (m : LookupMem) addr, lookupsStep ⟨s, m⟩ x addr = lookupsCmd ⟨s, m⟩ x addr sq bytes := by
  obtain ⟨datagram, hrecv, hlen, hcmd, hservice, hinst⟩ := hx
  refine ⟨datagram.take 4096, ?_, hcmd, hservice, hinst, ?_⟩
  · simp only [ctrlPortFn, hrecv]
    rw [if_neg (List.ne_nil_of_length_pos (by omega)), if_neg (by omega)]
  · intro m addr
    simp only [lookupsStep, hrecv]
    rw [if_neg (by omega)]

theorem step_delLookup (hlen : t.ns.lookups.length ≤ t.ns.registered) (hps : t.Linked ps)
    (hi : i.1.Asks .delLookup sq service inst) : ∃ t', ctrlPortFnMem t i = .ok ([], t') ∧
      t'.Linked (ps.filter fun p => delLookupKeeps sq service inst p.2) := by
  obtain ⟨bytes, hstep, hcmd, rfl, rfl, hmem⟩ := ctrlPortFn_asks hi t.ns
  obtain ⟨m', hforget, hm', hlookups⟩ :=
    hps.forget hlen (delLookupKeeps sq (i.1.field bytes 4) (i.1.field bytes 8))
  have hlist : lookupsStep t i.1 i.2 = some m' := by
    rw [hmem t.mem i.2, lookupsCmd, hcmd, ← hforget]
  refine ⟨⟨(ctrlCmdDelLookup t.ns sq (i.1.field bytes 4) (i.1.field bytes 8)).2, m'⟩, ?_, hm', ?_⟩
  · simp only [ctrlPortFnMem, hstep, ctrlCmd, hcmd, hlist]
    rfl
  · refine Eq.trans (List.filter_congr fun l _ => ?_) hlookups
    rw [delLookupKeeps_eq]

theorem ctrlPortFnMem_newLookup (hi : i.1.Asks .newLookup sq service inst) (t : NsMem) :
    ctrlPortFnMem t i =
      if sq.node ≠ t.ns.localNode then .ok ([], t)
      else if i.1.allocs.lookup then
        .ok
          ((serverQuery ⟨service, inst, 0⟩ t.ns).map (fun srv =>
            .notify t.ns.registered sq true (some srv)) ++
            [.notify t.ns.registered sq true none],
          ⟨{ t.ns with
              lookups := t.ns.lookups ++ [⟨t.ns.registered, service, inst, sq⟩]
              registered := t.ns.registered + 1 },
            t.mem.add i.2 ⟨t.ns.registered, service, inst, sq⟩⟩)
      else .ok ([], t) := by
  obtain ⟨bytes, hstep, hcmd, rfl, rfl, hmem⟩ := ctrlPortFn_asks hi t.ns
  have hlist : lookupsStep t i.1 i.2 = _ := hmem t.mem i.2
  simp only [ctrlPortFnMem, hstep, hlist, ctrlCmd, lookupsCmd, hcmd, ctrlCmdNewLookup]
  split_ifs
  · rfl
  · rfl
  · rfl

theorem step_newLookup (hps : t.Linked ps) (hfresh : FreshAddr t i)
    (hi : i.1.Asks .newLookup sq service inst) :
    ∃ out t₁ added, ctrlPortFnMem t i = .ok (out, t₁) ∧ t₁.Linked (ps ++ added) ∧
      ∀ p ∈ added, p.2.sq = sq ∧ p.2.service = service ∧ p.2.inst = inst := by
  have hnothing : t.Linked (ps ++ []) := by rwa [List.append_nil]
  rw [ctrlPortFnMem_newLookup hi]
  split_ifs
  · exact ⟨[], t, [], rfl, hnothing, fun p hp => by cases hp⟩
  · refine ⟨_, _, [(i.2, ⟨t.ns.registered, service, inst, sq⟩)], rfl, ⟨hps.1.add hfresh _, ?_⟩, ?_⟩
    · rw [List.map_append, ← hps.2]
      rfl
    · intro p hp
      rw [List.mem_singleton.mp hp]
      exact ⟨rfl, rfl, rfl⟩
  · exact ⟨[], t, [], rfl, hnothing, fun p hp => by cases hp⟩

theorem delLookupKeeps_eq_false : ∀ {l : Lookup}, delLookupKeeps sq service inst l = false ↔
    l.sq = sq ∧ l.service = service ∧ (l.inst = 0 ∨ l.inst = inst) := by
  intro l
  rw [delLookupKeeps_eq, decide_eq_false_iff_not, not_not]

/-- What a wildcard lookup that is dropped shows. -/
theorem noWildcard_of_kept
    (hkept : ∀ l ∈ t.ns.lookups, l.inst ≠ inst → delLookupKeeps sq service inst l = true) :
    NoWildcard t sq service inst := by
  by_cases hzero : inst = 0
  · exact Or.inl hzero
  · refine Or.inr fun l hl hsq hservice hwild => ?_
    have hkeep := hkept l hl (fun heq => hzero (heq.symm.trans hwild))
    rw [delLookupKeeps_eq_false.mpr ⟨hsq, hservice, Or.inl hwild⟩] at hkeep
    cases hkeep

theorem delLookupKeeps_of_noWildcard (hno : NoWildcard t sq service inst) {l : Lookup}
    (hl : l ∈ t.ns.lookups) :
    delLookupKeeps sq service inst l =
      decide ¬(l.sq = sq ∧ l.service = service ∧ l.inst = inst) := by
  rw [delLookupKeeps_eq]
  refine decide_eq_decide.mpr
    (not_congr (and_congr_right fun hsq => and_congr_right fun hservice => ?_))
  constructor
  · rintro (hwild | heq)
    · rcases hno with hzero | hno
      · rw [hwild, hzero]
      · exact absurd hwild (hno l hl hsq hservice)
    · exact heq
  · exact Or.inr

theorem removesExactly_iff (hlen : t.ns.lookups.length ≤ t.ns.registered) (hps : t.Linked ps)
    (hi : i.1.Asks .delLookup sq service inst) :
    RemovesExactly t i sq service inst ↔ NoWildcard t sq service inst := by
  obtain ⟨t', hstep, ht'⟩ := step_delLookup hlen hps hi
  constructor
  · rintro ⟨t'', qs, hstep', hqs, ht''⟩
    obtain rfl : t'' = t' := congrArg Prod.snd (Except.ok.inj (hstep'.symm.trans hstep))
    refine noWildcard_of_kept fun l hl hne => ?_
    have hexact : l ∈ t''.ns.lookups := by
      rw [hqs.2] at hl
      obtain ⟨p, hp, rfl⟩ := List.mem_map.mp hl
      rw [ht''.2]
      exact List.mem_map_of_mem (List.mem_filter.mpr ⟨hp, by simp [hne]⟩)
    rw [ht'.2, filter_map_snd] at hexact
    exact (List.mem_filter.mp hexact).2
  · intro hno
    refine ⟨t', ps, hstep, hps, ?_⟩
    have hsame : (ps.filter fun p => delLookupKeeps sq service inst p.2) =
        ps.filter fun p => ¬(p.2.sq = sq ∧ p.2.service = service ∧ p.2.inst = inst) := by
      refine List.filter_congr fun p hp => delLookupKeeps_of_noWildcard hno ?_
      rw [hps.2]
      exact List.mem_map_of_mem hp
    rwa [hsame] at ht'

theorem restores_iff (hrun : Run ctrlPortFnMem FreshAddr (memInit localNode) h t)
    (hfresh : FreshAddr t i)
    (hi : i.1.Asks .newLookup sq service inst) (hj : j.1.Asks .delLookup sq service inst)
    (habsent : ∀ l ∈ t.ns.lookups, ¬(l.sq = sq ∧ l.service = service ∧ l.inst = inst)) :
    Restores t i j ↔ NoWildcard t sq service inst := by
  obtain ⟨ps, hps⟩ := linked_of_run hrun
  obtain ⟨out, t₁, added, hstep₁, ht₁, hadded⟩ := step_newLookup hps hfresh hi
  have hlen := length_lookups_le (inv_of_run (run_ns (hrun.snoc hfresh hstep₁))).2
  obtain ⟨t₂, hstep₂, ht₂⟩ := step_delLookup hlen ht₁ hj
  constructor
  · rintro ⟨out', t₁', t₂', qs, hstep₁', hstep₂', hqs, ht₂'⟩
    obtain rfl : t₁' = t₁ := congrArg Prod.snd (Except.ok.inj (hstep₁'.symm.trans hstep₁))
    obtain rfl : t₂' = t₂ := congrArg Prod.snd (Except.ok.inj (hstep₂'.symm.trans hstep₂))
    refine noWildcard_of_kept fun l hl _ => ?_
    rw [hqs.2, ← ht₂'.2, ht₂.2, filter_map_snd] at hl
    exact (List.mem_filter.mp hl).2
  · intro hno
    refine ⟨out, t₁, t₂, ps, hstep₁, hstep₂, hps, ?_⟩
    have hold : (ps.filter fun p => delLookupKeeps sq service inst p.2) = ps := by
      refine List.filter_eq_self.mpr fun p hp => ?_
      have hl : p.2 ∈ t.ns.lookups := by
        rw [hps.2]
        exact List.mem_map_of_mem hp
      rw [delLookupKeeps_of_noWildcard hno hl]
      exact decide_eq_true (habsent p.2 hl)
    have hnew : (added.filter fun p => delLookupKeeps sq service inst p.2) = [] := by
      refine List.filter_eq_nil_iff.mpr fun p hp => ?_
      obtain ⟨hsq, hservice, hinst⟩ := hadded p hp
      rw [delLookupKeeps_eq_false.mpr ⟨hsq, hservice, Or.inr hinst⟩]
      exact Bool.false_ne_true
    rwa [List.filter_append, hold, hnew, List.append_nil] at ht₂

/-- **DEL_LOOKUP** undoes NEW_LOOKUP when the sender has no lookup for every instance of the
service, or asks for those.  Otherwise they are removed with the lookup that is meant. -/
theorem delLookup_exact_iff (hrun : Run ctrlPortFnMem FreshAddr (memInit localNode) h t)
    (sq : SockAddr)
    (service inst : UInt32) :
    (∀ i : Input × ℕ, i.1.Asks .delLookup sq service inst →
      (RemovesExactly t i sq service inst ↔ NoWildcard t sq service inst)) ∧
    ∀ i j : Input × ℕ, FreshAddr t i → i.1.Asks .newLookup sq service inst →
    j.1.Asks .delLookup sq service inst →
      (∀ l ∈ t.ns.lookups, ¬(l.sq = sq ∧ l.service = service ∧ l.inst = inst)) →
      (Restores t i j ↔ NoWildcard t sq service inst) := by
  obtain ⟨ps, hps⟩ := linked_of_run hrun
  constructor
  · intro i hi
    exact removesExactly_iff (length_lookups_le (inv_of_run (run_ns hrun)).2) hps hi
  · intro i j hfresh hi hj habsent
    exact restores_iff hrun hfresh hi hj habsent

/-- The port 9 of the node 1 has asked for the instance 2 of the service 1, and for the instance
3. -/
theorem delLookup_exact_two : ∃ h t, Run ctrlPortFnMem FreshAddr (memInit 1) h t ∧
    t.ns.lookups = [⟨0, 1, 2, ⟨1, 9⟩⟩, ⟨1, 1, 3, ⟨1, 9⟩⟩] ∧
    RemovesExactly t (packet ⟨1, 9⟩ [11, 1, 2], 0) ⟨1, 9⟩ 1 2 := by
  have hone : Run ctrlPortFnMem FreshAddr (memInit 1) [((packet ⟨1, 9⟩ [10, 1, 2], 4), _)] _ :=
    Run.nil.snoc rfl rfl
  have hrun : Run ctrlPortFnMem FreshAddr (memInit 1)
      (_ ++ [((packet ⟨1, 9⟩ [10, 1, 3], 8), _)]) _ :=
    hone.snoc rfl rfl
  refine ⟨_, _, hrun, rfl, ((delLookup_exact_iff hrun ⟨1, 9⟩ 1 2).1 _ ?_).mpr ?_⟩
  · exact ⟨_, rfl, by decide, by decide, by decide, by decide⟩
  · refine Or.inr fun l hl _ _ => ?_
    rcases List.mem_cons.mp hl with rfl | hl
    · decide
    · rw [List.mem_singleton.mp hl]
      decide

/-- The port 9 of the node 1 has asked for every instance of the service 1.  Its DEL_LOOKUP for the
instance 2, which it did not ask for, removes that lookup. -/
theorem not_removesExactly_wildcard : ∃ h t t', Run ctrlPortFnMem FreshAddr (memInit 1) h t ∧
    t.ns.lookups = [⟨0, 1, 0, ⟨1, 9⟩⟩] ∧
    ctrlPortFnMem t (packet ⟨1, 9⟩ [11, 1, 2], 0) = .ok ([], t') ∧ t'.ns.lookups = [] ∧
    Input.Asks (packet ⟨1, 9⟩ [11, 1, 2]) .delLookup ⟨1, 9⟩ 1 2 ∧
    ¬ RemovesExactly t (packet ⟨1, 9⟩ [11, 1, 2], 0) ⟨1, 9⟩ 1 2 := by
  have hrun : Run ctrlPortFnMem FreshAddr (memInit 1) [((packet ⟨1, 9⟩ [10, 1, 0], 4), _)] _ :=
    Run.nil.snoc rfl rfl
  have hasks : Input.Asks (packet ⟨1, 9⟩ [11, 1, 2]) .delLookup ⟨1, 9⟩ 1 2 :=
    ⟨_, rfl, by decide, by decide, by decide, by decide⟩
  refine ⟨_, _, _, hrun, rfl, rfl, rfl, hasks, fun hexact => ?_⟩
  obtain ⟨ps, hps⟩ := linked_of_run hrun
  have hlen := length_lookups_le (inv_of_run (run_ns hrun)).2
  rcases (@removesExactly_iff _ _ (packet ⟨1, 9⟩ [11, 1, 2], 0) _ _ _ hlen hps hasks).mp hexact
    with hzero | hno
  · cases hzero
  · exact hno ⟨0, 1, 0, ⟨1, 9⟩⟩ List.mem_cons_self rfl rfl rfl

end Removing

end Imola.Qrtr
