import Imola.RmtfsCallers

/-! # The handles that the handlers of `rmtfs` use

A handler applies `storage_close`, `storage_pread`, `storage_pwrite`, `storage_sync` or
`storage_get_error` to the handle that `storage_get` gave it.  The handlers jump to their label
`respond` from several places, and what `rmtfs_iovec` does there depends on locals that only some of
the paths have assigned. `handlerUses` is a handler with the list of these uses; it computes what
`outcome` does (`handlerUses_snd`).

`usesHandles_iff` is the exact condition for a request under which only a handle that was found is
used, no local is read before it has a value, and GET_DEV_ERROR tells a holder the state of the
handle and everybody else that there is none.  The test in `rmtfs_get_dev_error` is the wrong way
round, so for a holder it never does. -/

namespace Imola.Rmtfs

open Imola.Bytes Imola.Progs Imola.Qmi Imola.Runs

/-! ### The handlers with their uses -/

/-- The locals of `rmtfs_iovec` that are assigned behind the decoding. -/
inductive Local where
  | isWrite
  | rmtfd
  | entries
deriving DecidableEq, Repr

/-- The functions of the storage layer on a handle. -/
inductive StorageFn where
  | sync
  | close
  | getError
  | pread
  | pwrite
deriving DecidableEq, Repr

/-- The value of `rmtfd`; `wild` is what it holds before it is assigned. -/
inductive Pointer where
  | null
  | slot (c : Fin maxCallers)
  | wild
deriving DecidableEq, Repr

/-- A local is read, assigned or not, or a function is applied to a handle. -/
inductive Use where
  | reads (x : Local) (assigned : Bool)
  | applies (f : StorageFn) (p : Pointer)
deriving DecidableEq, Repr

/-- The uses in a round of the sector loop. -/
def sectorUses (io : SectorIo) (isWrite : Bool) (c : Fin maxCallers) (phys : ℕ) (d : Daemon) :
    List Use :=
  [.reads .entries true, .reads .isWrite true] ++
    if isWrite then
      if (rmtfsMemRead d.rmem io.memRead phys sectorSize).1 = sectorSize then
        [.reads .rmtfd true, .applies .pwrite (.slot c)]
      else []
    else [.reads .rmtfd true, .applies .pread (.slot c)]

/-- `iovecLoop` with its uses. -/
def iovecLoopUses (cfg : Config) (io : ℕ → SectorIo) (isWrite : Bool) (c : Fin maxCallers) :
    ℕ → List (ℕ × ℕ) → List UInt8 → Daemon → List Use × Bool × Daemon
  | _, [], _, d => ([], true, d)
  | k, (phys, offset) :: rest, buf, d =>
      let s := iovecSector cfg (io k) isWrite c phys offset buf d
      let uses := sectorUses (io k) isWrite c phys d
      if s.1 ≠ sectorSize then
        -- the message about the sector
        (uses ++ [.reads .isWrite true, .reads .entries true], false, s.2.2)
      else
        let t := iovecLoopUses cfg io isWrite c (k + 1) rest s.2.1 s.2.2
        (uses ++ t.1, t.2)

/-- The uses of `rmtfs_iovec` behind its label `respond`: `dbgprintf` is a function, so its
arguments are read whether or not it prints. -/
def respondUses (assigned isWrite : Bool) (rmtfd : Pointer) (numEntries : ℕ) : List Use :=
  [.reads .isWrite assigned] ++
    (if isWrite then [.reads .rmtfd assigned, .applies .sync rmtfd] else []) ++
    (List.replicate numEntries [Use.reads .isWrite assigned, .reads .entries assigned]).flatten

/-- `rmtfs_close` with its uses. -/
def rmtfsCloseUses (i : Input) (d : Daemon) (callerId : ℕ) :
    List Use × Except Fault (Reply × Daemon) :=
  match storageGet d.table i.node (toInt32 callerId) with
  | .outside => ([], .error .outsideTable)
  | .null => ([], .ok (.failure errInternal, d))
  | .slot c =>
      ([.applies .close (.slot c)],
        .ok (.success, { d with table := Function.update d.table c (storageClose (d.table c)) }))

/-- `rmtfs_iovec` with its uses. -/
def rmtfsIovecUses (cfg : Config) (i : Input) (d : Daemon) (r : IovecReq) :
    List Use × Except Fault (Reply × Daemon) :=
  match storageGet d.table i.node (toInt32 r.callerId) with
  | .outside => ([], .error .outsideTable)
  | .null =>
      (.reads .rmtfd true :: respondUses true (r.direction ≠ 0) .null r.iovec.length,
        if r.direction ≠ 0 ∧ ¬ cfg.readOnly then .error .nullHandle
          else .ok (.failure errInternal, d))
  | .slot c =>
      let s := iovecLoopUses cfg i.io (r.direction ≠ 0) c 0 (iovecSectors r.iovec) i.stack d
      (.reads .rmtfd true :: s.1 ++ respondUses true (r.direction ≠ 0) (.slot c) r.iovec.length,
        .ok (if s.2.1 then .success else .failure errInternal, s.2.2))

/-- `rmtfs_get_dev_error` with its uses. -/
def rmtfsGetDevErrorUses (d : Daemon) (node callerId : ℕ) :
    List Use × Except Fault (Response × Daemon) :=
  match storageGet d.table node (toInt32 callerId) with
  | .outside => ([], .error .outsideTable)
  | .null => ([.applies .getError .null], .error .nullHandle)
  | .slot _ => ([], .ok (.failure errInternal, d))

section Handlers

variable (cfg : Config) (env : Env) (loc : Locals) (pkt : Packet) (d : Daemon)

/-- `act` with its uses. -/
def actUses (msg : Msg) (req : ℕ → UInt8) : List Use × Except Undefined (Response × Daemon) :=
  match msg with
  | .open => ([], act cfg env pkt d .open req)
  | .close =>
      let r := rmtfsCloseUses (env.input pkt (.close (reqCallerId req))) d (reqCallerId req)
      (r.1, ofStep r.2)
  | .rwIovec =>
      let r := rmtfsIovecUses cfg (env.input pkt (.iovec (reqIovec req))) d (reqIovec req)
      (r.1, ofStep r.2)
  | .allocBuff => ([], act cfg env pkt d .allocBuff req)
  | .getDevError =>
      let r := rmtfsGetDevErrorUses d pkt.node (reqCallerId req)
      (r.1, r.2.mapError .action)

/-- A handler up to its response, with its uses; a rejected RW_IOVEC has assigned nothing. -/
def handlerUses (msg : Msg) : List Use × Except Undefined (Response × Daemon) :=
  match (decodeReq msg pkt).result pkt.data with
  | .error _ =>
      (if msg = .rwIovec then respondUses false (loc.isWrite ≠ 0) .wild 0 else [],
        malformed cfg loc d msg)
  | .ok _ => actUses cfg env pkt d msg (reqMemory msg pkt)

end Handlers

/-! ### The uses change nothing -/

theorem iovecLoopUses_snd (cfg : Config) (io : ℕ → SectorIo) (isWrite : Bool) (c : Fin maxCallers)
    (ss : List (ℕ × ℕ)) : ∀ (k : ℕ) (buf : List UInt8) (d : Daemon),
      (iovecLoopUses cfg io isWrite c k ss buf d).2 = iovecLoop cfg io isWrite c k ss buf d := by
  induction ss with
  | nil =>
      intro k buf d
      rfl
  | cons s ss ih =>
      intro k buf d
      simp only [iovecLoopUses, iovecLoop]
      split_ifs
      · rfl
      · exact ih _ _ _

theorem rmtfsCloseUses_snd (i : Input) (d : Daemon) (callerId : ℕ) :
    (rmtfsCloseUses i d callerId).2 = rmtfsClose i d callerId := by
  unfold rmtfsCloseUses rmtfsClose
  cases storageGet d.table i.node (toInt32 callerId) with
  | _ => rfl

theorem rmtfsIovecUses_snd (cfg : Config) (i : Input) (d : Daemon) (r : IovecReq) :
    (rmtfsIovecUses cfg i d r).2 = rmtfsIovec cfg i d r := by
  unfold rmtfsIovecUses rmtfsIovec
  cases storageGet d.table i.node (toInt32 r.callerId) with
  | slot c => simp only [iovecLoopUses_snd]
  | _ => rfl

theorem rmtfsGetDevErrorUses_snd (d : Daemon) (node callerId : ℕ) :
    (rmtfsGetDevErrorUses d node callerId).2 = rmtfsGetDevError d node callerId := by
  unfold rmtfsGetDevErrorUses rmtfsGetDevError
  cases storageGet d.table node (toInt32 callerId) with
  | _ => rfl

/-- A handler with its uses is the handler. -/
theorem handlerUses_snd (cfg : Config) (env : Env) (loc : Locals) (pkt : Packet) (d : Daemon)
    (msg : Msg) :
    (handlerUses cfg env loc pkt d msg).2 = outcome cfg env loc pkt d msg := by
  unfold handlerUses outcome
  cases (decodeReq msg pkt).result pkt.data with
  | error e => rfl
  | ok v =>
      cases msg with
      | «open» => rfl
      | allocBuff => rfl
      | close => simp only [actUses, act, rmtfsCloseUses_snd, step, Env.input]
      | rwIovec => simp only [actUses, act, rmtfsIovecUses_snd, step, Env.input]
      | getDevError => simp only [actUses, act, rmtfsGetDevErrorUses_snd]

/-! ### Holders -/

/-- The caller ids of the requests are `uint32_t`. -/
def WireIds (_ : Config) (_ : Daemon) (i : Input) : Prop := ∀ c ∈ i.req.names, c < 2 ^ 32

/-- Slot `c` is in use, by node `n`. -/
def InUseBy (d : Daemon) (n c : ℕ) : Prop :=
  ∃ hc : c < maxCallers, (d.table ⟨c, hc⟩).InUse ∧ (d.table ⟨c, hc⟩).node = n

/-- What is held is in use, by its holder. -/
structure HeldInv (h : List Entry) (d : Daemon) : Prop where
  id_eq : ∀ c, (d.table c).id = c
  held : ∀ n c, Holds h n c → InUseBy d n c

theorem storageGet_slot {t : Table} {node callerId : ℕ} {c : Fin maxCallers}
    (hid : callerId < 2 ^ 32)
    (hget : storageGet t node (toInt32 callerId) = .slot c) :
    (c : ℕ) = callerId ∧ (t c).node = node := by
  unfold storageGet at hget
  split_ifs at hget with hmax hrange hnode
  obtain rfl := Lookup.slot.inj hget
  refine ⟨?_, not_not.mp hnode⟩
  dsimp only
  unfold toInt32 at hrange ⊢
  split_ifs at hrange ⊢ <;> omega

section Held

variable {cfg : Config} {h : List Entry} {d d' : Daemon} {i : Input} {rep : Reply}

theorem HeldInv.snoc {e : Entry} (hid : ∀ c, (d'.table c).id = c)
    (ho : ∀ n c, Opened e n c → InUseBy d' n c)
    (hk : ∀ n c, Holds h n c → ¬ Closed e n c → InUseBy d' n c) : HeldInv (h ++ [e]) d' := by
  refine ⟨hid, fun n c hn => ?_⟩
  rcases (holds_snoc h e n c).mp hn with hopen | ⟨hh, hclosed⟩
  · exact ho n c hopen
  · exact hk n c hh hclosed

theorem HeldInv.snoc_same {e : Entry} (hi : HeldInv h d) (ho : ∀ n c, ¬ Opened e n c)
    (hsame : ∀ c, SameButShadow (d.table c) (d'.table c)) : HeldInv (h ++ [e]) d' := by
  refine HeldInv.snoc (fun c => (hsame c).id.trans (hi.id_eq c))
    (fun n c hn => absurd hn (ho n c)) ?_
  intro n c hh _
  obtain ⟨hc, huse, hnode⟩ := hi.held n c hh
  exact ⟨hc, (hsame _).inUse huse, (hsame _).node.trans hnode⟩

theorem HeldInv.snoc_update {e : Entry} {c : Fin maxCallers} {r : RmtFd} (hi : HeldInv h d)
    (hid : r.id = (d.table c).id) (ho : ∀ n k, Opened e n k → r.InUse ∧ r.node = n ∧ k = (c : ℕ))
    (hk : ∀ n, Holds h n c → Closed e n c) :
    HeldInv (h ++ [e]) { d with table := Function.update d.table c r } := by
  refine HeldInv.snoc (fun k => ?_) ?_ ?_
  · refine (Function.forall_update_iff d.table fun k r => r.id = k).mpr ⟨hid.trans (hi.id_eq c), ?_⟩
      k
    intro k _
    exact hi.id_eq k
  · intro n k hn
    obtain ⟨huse, hnode, rfl⟩ := ho n k hn
    refine ⟨c.isLt, ?_⟩
    dsimp only
    rw [Fin.eta, Function.update_self]
    exact ⟨huse, hnode⟩
  · intro n k hh hclosed
    obtain ⟨hc, huse⟩ := hi.held n k hh
    have hne : (⟨k, hc⟩ : Fin maxCallers) ≠ c := by
      rintro rfl
      exact hclosed (hk n hh)
    refine ⟨hc, ?_⟩
    dsimp only
    rwa [Function.update_of_ne hne]

theorem HeldInv.open (hi : HeldInv h d) {path : String} :
    HeldInv (h ++ [(i, (rmtfsOpen cfg i d path).1)]) (rmtfsOpen cfg i d path).2 := by
  unfold rmtfsOpen
  rcases storageOpen_cases cfg i.fs d.table i.node path with
    hcase | ⟨c, hcase, huse, hnode⟩ | ⟨c, r, hcase, hfree, huse, hnode, hid, -⟩
  · rw [hcase]
    refine hi.snoc_same ?_ fun c => SameButShadow.refl _
    rintro n k ⟨-, -, hres, -⟩
    cases hres
  · rw [hcase]
    refine HeldInv.snoc hi.id_eq ?_ fun n k hh _ => hi.held n k hh
    rintro n k ⟨rfl, -, -, hk⟩
    obtain rfl : (d.table c).id = k := Option.some.inj hk
    rw [hi.id_eq]
    exact ⟨c.isLt, huse, hnode⟩
  · rw [hcase]
    refine hi.snoc_update hid ?_ ?_
    · rintro n k ⟨rfl, -, -, hk⟩
      have hk' : (Function.update d.table c r c).id = k := Option.some.inj hk
      rw [Function.update_self, hid, hi.id_eq] at hk'
      exact ⟨huse, hnode, hk'.symm⟩
    · intro n hh
      obtain ⟨hc, hused, -⟩ := hi.held n c hh
      exact absurd hused hfree

theorem HeldInv.close (hi : HeldInv h d) {callerId : ℕ} (hreq : i.req = .close callerId)
    (hid : callerId < 2 ^ 32)
    (hstep : rmtfsClose i d callerId = .ok (rep, d')) : HeldInv (h ++ [(i, rep)]) d' := by
  have hopen : ∀ n c, ¬ Opened (i, rep) n c := by
    rintro n c ⟨-, ⟨path, hpath⟩, -⟩
    rw [hreq] at hpath
    cases hpath
  unfold rmtfsClose at hstep
  cases hget : storageGet d.table i.node (toInt32 callerId) with
  | outside =>
      rw [hget] at hstep
      cases hstep
  | null =>
      rw [hget] at hstep
      cases hstep
      exact hi.snoc_same hopen fun c => SameButShadow.refl _
  | slot c =>
      rw [hget] at hstep
      cases hstep
      obtain ⟨rfl, hnode⟩ := storageGet_slot hid hget
      refine hi.snoc_update rfl (fun n k hn => absurd hn (hopen n k)) ?_
      intro n hh
      obtain ⟨hc, -, hn⟩ := hi.held n c hh
      exact ⟨hnode.symm.trans hn, hreq, rfl⟩

theorem HeldInv.iovec (hi : HeldInv h d) {r : IovecReq} (hreq : i.req = .iovec r)
    (hstep : rmtfsIovec cfg i d r = .ok (rep, d')) : HeldInv (h ++ [(i, rep)]) d' := by
  have hopen : ∀ n c, ¬ Opened (i, rep) n c := by
    rintro n c ⟨-, ⟨path, hpath⟩, -⟩
    rw [hreq] at hpath
    cases hpath
  refine hi.snoc_same hopen ?_
  unfold rmtfsIovec at hstep
  cases hget : storageGet d.table i.node (toInt32 r.callerId) with
  | outside =>
      rw [hget] at hstep
      cases hstep
  | null =>
      rw [hget] at hstep
      dsimp only at hstep
      split_ifs at hstep
      cases hstep
      exact fun c => SameButShadow.refl _
  | slot c =>
      rw [hget] at hstep
      cases hstep
      obtain ⟨r', hsame, htab⟩ :=
        iovecLoop_table cfg i.io (r.direction ≠ 0) c (iovecSectors r.iovec) 0 i.stack d
      rw [htab]
      refine (Function.forall_update_iff d.table fun k r =>
        SameButShadow (d.table k) r).mpr ⟨hsame, ?_⟩
      intro k _
      exact SameButShadow.refl _

/-- **Holders**: in every run, what a node holds is in use by it. -/
theorem heldInv_of_run {rmem : RmtfsMem} {root : Option String} {ro parts : Bool}
    (hrun : RunFrom rmem root ro parts WireIds h d) : HeldInv h d := by
  refine hrun.invariant ⟨fun c => rfl, fun n c hn => absurd hn (not_holds_nil n c)⟩ ?_
  intro h d i rep d' hi hids hstep
  unfold step at hstep
  cases hreq : i.req with
  | «open» path =>
      rw [hreq] at hstep
      have hopen := @HeldInv.open (storageInit root ro parts).1 h d i hi path
      rwa [Except.ok.inj hstep] at hopen
  | close callerId =>
      rw [hreq] at hstep
      exact hi.close hreq (hids callerId (by rw [hreq]; rfl)) hstep
  | iovec r =>
      rw [hreq] at hstep
      exact hi.iovec hreq hstep

end Held

/-! ### The property -/

/-- A local that is read has a value, and a handle that is used was found. -/
def Use.Sound (found : Lookup) : Use → Prop
  | .reads _ assigned => assigned = true
  | .applies _ p => ∃ c, p = .slot c ∧ found = .slot c

/-- What `storage_get` gives in the handler of a request. -/
def found (pkt : Packet) (d : Daemon) (msg : Msg) : Lookup :=
  storageGet d.table pkt.node (toInt32 (reqCallerId (reqMemory msg pkt)))

/-- The sender of a GET_DEV_ERROR holds the handle. -/
def AsksHeld (pkt : Packet) (h : List Entry) (msg : Msg) : Prop :=
  msg = .getDevError ∧ ¬ Rejected msg pkt ∧ Holds h pkt.node (reqCallerId (reqMemory msg pkt))

/-- A request uses only the handle that was found for it, and GET_DEV_ERROR answers for held handles
and for no others. -/
structure UsesHandles (cfg : Config) (env : Env) (loc : Locals) (pkt : Packet) (h : List Entry)
    (d : Daemon)
    (msg : Msg) : Prop where
  uses : ∀ u ∈ (handlerUses cfg env loc pkt d msg).1, u.Sound (found pkt d msg)
  /-- `storage_get` does not leave the table. -/
  inTable : (handlerUses cfg env loc pkt d msg).2 ≠ .error (.action .outsideTable)
  held : AsksHeld pkt h msg → ∃ c, found pkt d msg = .slot c ∧
    (handlerUses cfg env loc pkt d msg).2 = .ok (⟨0, 0, some (d.table c).devError⟩, d)
  other : msg = .getDevError → ¬ AsksHeld pkt h msg → ∃ resp,
    (handlerUses cfg env loc pkt d msg).2 = .ok (resp, d) ∧ resp.result = 1

/-- The condition: an RW_IOVEC is accepted, and finds its handle if it is a write; a GET_DEV_ERROR
that is accepted finds a slot that its sender does not hold. -/
def UsesCondition (pkt : Packet) (h : List Entry) (d : Daemon) (msg : Msg) : Prop :=
  match msg with
  | .open | .allocBuff => True
  | .close => Rejected msg pkt ∨ found pkt d msg ≠ .outside
  | .rwIovec => ¬ Rejected msg pkt ∧ found pkt d msg ≠ .outside ∧
      (found pkt d msg = .null → reqMemory msg pkt 4 = 0)
  | .getDevError => Rejected msg pkt ∨ ((∃ c, found pkt d msg = .slot c) ∧ ¬ AsksHeld pkt h msg)

section Requests

variable {cfg : Config} {env : Env} {loc : Locals} {pkt : Packet} {h : List Entry} {d : Daemon}
  {msg : Msg}

/-- Behind `respond` locals are read, and a write is synced. -/
theorem mem_respondUses {assigned isWrite : Bool} {rmtfd : Pointer} {n : ℕ} {u : Use}
    (hu : u ∈ respondUses assigned isWrite rmtfd n) :
    (∃ x, u = .reads x assigned) ∨ (isWrite = true ∧ u = .applies .sync rmtfd) := by
  simp only [respondUses, List.mem_append, List.mem_singleton, List.mem_flatten,
    List.mem_replicate] at hu
  rcases hu with (rfl | hu) | ⟨us, ⟨-, rfl⟩, hu⟩
  · exact Or.inl ⟨_, rfl⟩
  · split_ifs at hu with hw
    · simp only [List.mem_cons, List.not_mem_nil, or_false] at hu
      rcases hu with rfl | rfl
      · exact Or.inl ⟨_, rfl⟩
      · exact Or.inr ⟨hw, rfl⟩
    · cases hu
  · simp only [List.mem_cons, List.not_mem_nil, or_false] at hu
    rcases hu with rfl | rfl
    · exact Or.inl ⟨_, rfl⟩
    · exact Or.inl ⟨_, rfl⟩

theorem sectorUses_sound (io : SectorIo) (isWrite : Bool) (c : Fin maxCallers) (phys : ℕ)
    (d : Daemon) :
    ∀ u ∈ sectorUses io isWrite c phys d, u.Sound (.slot c) := by
  intro u hu
  unfold sectorUses at hu
  split_ifs at hu <;>
    simp only [List.mem_append, List.mem_cons, List.not_mem_nil, or_false] at hu
  · rcases hu with (rfl | rfl) | rfl | rfl
    · rfl
    · rfl
    · rfl
    · exact ⟨c, rfl, rfl⟩
  · rcases hu with rfl | rfl
    · rfl
    · rfl
  · rcases hu with (rfl | rfl) | rfl | rfl
    · rfl
    · rfl
    · rfl
    · exact ⟨c, rfl, rfl⟩

theorem iovecLoopUses_sound (cfg : Config) (io : ℕ → SectorIo) (isWrite : Bool) (c : Fin maxCallers)
    (ss : List (ℕ × ℕ)) : ∀ (k : ℕ) (buf : List UInt8) (d : Daemon),
      ∀ u ∈ (iovecLoopUses cfg io isWrite c k ss buf d).1, u.Sound (.slot c) := by
  induction ss with
  | nil =>
      intro k buf d u hu
      cases hu
  | cons s ss ih =>
      intro k buf d u hu
      simp only [iovecLoopUses] at hu
      split_ifs at hu
      · rcases List.mem_append.mp hu with hu | hu
        · exact sectorUses_sound _ _ _ _ _ u hu
        · simp only [List.mem_cons, List.not_mem_nil, or_false] at hu
          rcases hu with rfl | rfl
          · rfl
          · rfl
      · rcases List.mem_append.mp hu with hu | hu
        · exact sectorUses_sound _ _ _ _ _ u hu
        · exact ih _ _ _ u hu

/-- A rejected RW_IOVEC reads `is_write`; the other handlers use nothing. -/
theorem usesHandles_rejected {e : Errno} (hrej : (decodeReq msg pkt).result pkt.data = .error e) :
    UsesHandles cfg env loc pkt h d msg ↔ msg ≠ .rwIovec := by
  have huses : handlerUses cfg env loc pkt d msg =
      (if msg = .rwIovec then respondUses false (loc.isWrite ≠ 0) .wild 0 else [],
        malformed cfg loc d msg) := by
    rw [handlerUses, hrej]
  constructor
  · rintro hsound rfl
    have hread := hsound.uses (.reads .isWrite false)
      (by rw [huses, if_pos rfl]; exact List.mem_cons_self ..)
    cases hread
  · intro hne
    have hmal : malformed cfg loc d msg = .ok (.failure errMalformedMsg, d) := by
      rw [malformed, if_neg fun hw => hne hw.1]
    rw [if_neg hne, hmal] at huses
    refine ⟨?_, ?_, fun hask => absurd ⟨e, hrej⟩ hask.2.1,
      fun _ _ => ⟨_, congrArg Prod.snd huses, rfl⟩⟩
    · rw [huses]
      intro u hu
      cases hu
    · rw [huses]
      simp

theorem usesHandles_iff_of_ne (hmsg : msg ≠ .getDevError) : UsesHandles cfg env loc pkt h d msg ↔
    (∀ u ∈ (handlerUses cfg env loc pkt d msg).1, u.Sound (found pkt d msg)) ∧
      (handlerUses cfg env loc pkt d msg).2 ≠ .error (.action .outsideTable) :=
  ⟨fun hs => ⟨hs.uses, hs.inTable⟩,
    fun hs => ⟨hs.1, hs.2, fun hask => absurd hask.1 hmsg, fun hm => absurd hm hmsg⟩⟩

section Accepted

variable {v : ℕ × ℕ}

theorem usesHandles_close (hacc : (decodeReq .close pkt).result pkt.data = .ok v) :
    UsesHandles cfg env loc pkt h d .close ↔ found pkt d .close ≠ .outside := by
  rw [usesHandles_iff_of_ne (by decide), handlerUses, hacc]
  simp only [actUses, rmtfsCloseUses, Env.input]
  change _ ↔ storageGet d.table pkt.node (toInt32 (reqCallerId (reqMemory .close pkt))) ≠ .outside
  unfold found
  generalize storageGet d.table pkt.node (toInt32 (reqCallerId (reqMemory .close pkt))) = fnd
  cases fnd with
  | outside => simp [ofStep]
  | null => simp [ofStep]
  | slot c => simp [ofStep, Use.Sound]

theorem rmtfsIovecUses_sound (cfg : Config) (i : Input) (d : Daemon) (r : IovecReq) :
    ((∀ u ∈ (rmtfsIovecUses cfg i d r).1,
      u.Sound (storageGet d.table i.node (toInt32 r.callerId))) ∧
      (rmtfsIovecUses cfg i d r).2 ≠ .error .outsideTable) ↔
      storageGet d.table i.node (toInt32 r.callerId) ≠ .outside ∧
        (storageGet d.table i.node (toInt32 r.callerId) = .null → r.direction = 0) := by
  unfold rmtfsIovecUses
  cases storageGet d.table i.node (toInt32 r.callerId) with
  | outside => exact iff_of_false (fun hs => hs.2 rfl) fun hs => hs.1 rfl
  | null =>
      dsimp only
      constructor
      · intro hs
        refine ⟨by simp, fun _ => ?_⟩
        by_contra hdir
        have hsync := hs.1 (.applies .sync .null) (by simp [respondUses, hdir])
        obtain ⟨c, hc, -⟩ := hsync
        cases hc
      · rintro ⟨-, hdir⟩
        refine ⟨?_, ?_⟩
        · intro u hu
          rcases List.mem_cons.mp hu with rfl | hu
          · rfl
          · rcases mem_respondUses hu with ⟨x, rfl⟩ | ⟨hw, -⟩
            · rfl
            · rw [decide_eq_true_eq] at hw
              exact absurd (hdir rfl) hw
        · split_ifs <;> simp
  | slot c =>
      refine iff_of_true ⟨?_, by simp⟩ ⟨by simp, by simp⟩
      intro u hu
      rcases List.mem_append.mp hu with hu | hu
      · rcases List.mem_cons.mp hu with rfl | hu
        · rfl
        · exact iovecLoopUses_sound _ _ _ _ _ _ _ _ u hu
      · rcases mem_respondUses hu with ⟨x, rfl⟩ | ⟨-, rfl⟩
        · rfl
        · exact ⟨c, rfl, rfl⟩

theorem usesHandles_iovec (hacc : (decodeReq .rwIovec pkt).result pkt.data = .ok v) :
    UsesHandles cfg env loc pkt h d .rwIovec ↔ found pkt d .rwIovec ≠ .outside ∧
      (found pkt d .rwIovec = .null → reqMemory .rwIovec pkt 4 = 0) := by
  have hdir : reqMemory .rwIovec pkt 4 = 0 ↔ (reqIovec (reqMemory .rwIovec pkt)).direction = 0 :=
    UInt8.toNat_inj.symm
  rw [usesHandles_iff_of_ne (by decide), handlerUses, hacc, hdir]
  simp only [actUses, ne_eq, ofStep_eq_action]
  exact rmtfsIovecUses_sound cfg (env.input pkt (.iovec (reqIovec (reqMemory .rwIovec pkt)))) d _

theorem handlerUses_getDevError (hacc : (decodeReq .getDevError pkt).result pkt.data = .ok v) :
    handlerUses cfg env loc pkt d .getDevError =
      match found pkt d .getDevError with
      | .outside => ([], .error (.action .outsideTable))
      | .null => ([.applies .getError .null], .error (.action .nullHandle))
      | .slot _ => ([], .ok (.failure errInternal, d)) := by
  rw [handlerUses, hacc]
  simp only [actUses, rmtfsGetDevErrorUses, found]
  cases storageGet d.table pkt.node (toInt32 (reqCallerId (reqMemory .getDevError pkt))) with
  | _ => rfl

/-- The handle is refused when it was found, and used when it was not. -/
theorem usesHandles_getDevError (hacc : (decodeReq .getDevError pkt).result pkt.data = .ok v) :
    UsesHandles cfg env loc pkt h d .getDevError ↔
      (∃ c, found pkt d .getDevError = .slot c) ∧ ¬ AsksHeld pkt h .getDevError := by
  have huses := @handlerUses_getDevError cfg env loc pkt d v hacc
  cases hfound : found pkt d .getDevError with
  | outside =>
      rw [hfound] at huses
      refine iff_of_false (fun hs => hs.inTable (by rw [huses])) ?_
      rintro ⟨⟨c, hc⟩, -⟩
      cases hc
  | null =>
      rw [hfound] at huses
      refine iff_of_false (fun hs => ?_) ?_
      · obtain ⟨c, hc, -⟩ :=
          hs.uses (.applies .getError .null) (by rw [huses]; exact List.mem_singleton.mpr rfl)
        cases hc
      · rintro ⟨⟨c, hc⟩, -⟩
        cases hc
  | slot c =>
      rw [hfound] at huses
      constructor
      · intro hs
        refine ⟨⟨c, rfl⟩, fun hask => ?_⟩
        obtain ⟨c', -, hok⟩ := hs.held hask
        rw [huses] at hok
        cases hok
      · rintro ⟨-, hask⟩
        refine ⟨?_, ?_, fun h => absurd h hask, fun _ _ => ⟨_, congrArg Prod.snd huses, rfl⟩⟩
        · rw [huses]
          intro u hu
          cases hu
        · rw [huses]
          simp

theorem usesHandles_plain (hacc : (decodeReq msg pkt).result pkt.data = .ok v)
    (hmsg : msg = .open ∨ msg = .allocBuff) :
    UsesHandles cfg env loc pkt h d msg := by
  rcases hmsg with rfl | rfl
  · rw [usesHandles_iff_of_ne (by decide), handlerUses, hacc]
    simp [actUses, act, step, ofStep, Env.input]
  · rw [usesHandles_iff_of_ne (by decide), handlerUses, hacc]
    simp [actUses, act]

end Accepted

end Requests

/-- **Uses of handles**: in every state that the daemon can reach, what a node holds is found for
it, and a request uses handles as it should exactly under the condition. -/
theorem usesHandles_iff {rmem : RmtfsMem} {root : Option String} {ro parts : Bool} {h : List Entry}
    {d : Daemon}
    (hrun : RunFrom rmem root ro parts WireIds h d) (env : Env) (loc : Locals) (pkt : Packet)
    (msg : Msg) :
    (∀ c, Holds h pkt.node c → ∃ hc, storageGet d.table pkt.node (toInt32 c) = .slot ⟨c, hc⟩) ∧
    (UsesHandles (storageInit root ro parts).1 env loc pkt h d msg ↔
      UsesCondition pkt h d msg) := by
  constructor
  · intro c hc
    obtain ⟨hlt, -, hnode⟩ := (heldInv_of_run hrun).held _ _ hc
    refine ⟨hlt, ?_⟩
    rw [storageGet_eq (lt_trans hlt (by decide)), dif_pos hlt, if_pos hnode]
  · unfold UsesCondition
    cases hres : (decodeReq msg pkt).result pkt.data with
    | error e =>
        have hrej : Rejected msg pkt := ⟨e, hres⟩
        rw [usesHandles_rejected hres]
        cases msg with
        | _ => simp [hrej]
    | ok v =>
        have hacc : ¬ Rejected msg pkt := by
          rintro ⟨e, he⟩
          rw [hres] at he
          cases he
        cases msg with
        | «open» => exact iff_of_true (usesHandles_plain hres (Or.inl rfl)) trivial
        | allocBuff => exact iff_of_true (usesHandles_plain hres (Or.inr rfl)) trivial
        | close => simp only [usesHandles_close hres, hacc, false_or]
        | rwIovec => simp only [usesHandles_iovec hres, hacc, not_false_eq_true, true_and]
        | getDevError => simp only [usesHandles_getDevError hres, hacc, false_or]

theorem holds_openedByOne : Holds openedByOne 1 0 :=
  ⟨[], _, [], rfl, ⟨rfl, ⟨_, rfl⟩, rfl, rfl⟩, fun e he => by cases he⟩

/-- Node 1 closes the slot that it holds: `storage_close` is applied to it and to nothing else. -/
theorem usesHandles_closing : ∃ d, RunFrom ⟨0, 0, true, []⟩ none true false WireIds openedByOne d ∧
    ∀ env loc, (handlerUses ⟨"/boot", true, false⟩ env loc (callerPacket 1 .close 0) d .close).1 =
        [.applies .close (.slot 0)] ∧
      UsesHandles ⟨"/boot", true, false⟩ env loc (callerPacket 1 .close 0) openedByOne d
        .close := by
  have hrun : RunFrom ⟨0, 0, true, []⟩ none true false WireIds openedByOne _ :=
    .snoc .nil (fun c hc => by cases hc) rfl
  refine ⟨_, hrun, fun env loc => ⟨rfl, ?_⟩⟩
  exact (usesHandles_iff hrun env loc (callerPacket 1 .close 0) .close).2.mpr (Or.inr
    (by decide +kernel))

/-- Node 1 holds slot 0, and its GET_DEV_ERROR for it fails; the one for slot 1 reads through
NULL. -/
theorem not_usesHandles_devError :
    ∃ d, RunFrom ⟨0, 0, true, []⟩ none true false WireIds openedByOne d ∧
    Holds openedByOne 1 0 ∧
    (∀ env loc, (handlerUses ⟨"/boot", true, false⟩ env loc (callerPacket 1 .getDevError 0) d
      .getDevError).2 =
        .ok (.failure errInternal, d) ∧
      ¬ UsesHandles ⟨"/boot", true, false⟩ env loc (callerPacket 1 .getDevError 0) openedByOne d
        .getDevError) ∧
    ∀ env loc, handlerUses ⟨"/boot", true, false⟩ env loc (callerPacket 1 .getDevError 1) d
      .getDevError =
        ([.applies .getError .null], .error (.action .nullHandle)) ∧
      ¬ UsesHandles ⟨"/boot", true, false⟩ env loc (callerPacket 1 .getDevError 1) openedByOne d
        .getDevError := by
  refine ⟨_, .snoc .nil ?_ rfl, holds_openedByOne, fun env loc => ?_, fun env loc => ?_⟩
  · intro c hc
    cases hc
  · refine ⟨rfl, fun hs => ?_⟩
    have hcarries := @callerPacket_carries .getDevError rfl 1 0 (by decide)
    obtain ⟨v, hv⟩ := hcarries.accepted
    apply ((usesHandles_getDevError hv).mp hs).2
    refine ⟨rfl, ?_, ?_⟩
    · rintro ⟨e, he⟩
      rw [hv] at he
      cases he
    · rw [hcarries.callerId]
      exact holds_openedByOne
  · refine ⟨rfl, fun hs => ?_⟩
    obtain ⟨c, hc, -⟩ := hs.uses (.applies .getError .null) (List.mem_singleton.mpr rfl)
    cases hc

end Imola.Rmtfs
