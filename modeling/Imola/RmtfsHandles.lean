import Imola.Runs
import Imola.RmtfsRequests

/-! # Who holds a handle

A node holds slot `c` from the OPEN that returned `c` to its next successful CLOSE of `c`
(`Holds`).  The table should agree with that: a slot is in use exactly when some node holds it
(`SlotsHeld`), and a CLOSE or RW_IOVEC succeeds only for a holder and else fails and leaves the
table alone (`Authorised`).

`storage_get` compares the sender only with the `node` field, which outlives the handle: it is
left in place by `storage_close` and is zero in a slot that was never opened.  A negative index
is not refused either, and in read-write mode `rmtfs_iovec` syncs a NULL handle after a refused
write.  `Meets` is the condition under which none of this happens in a step;
`handles_of_run` proves the two properties for every run of such steps. -/

namespace Imola.Rmtfs

open Imola.Runs

/-! ### Holding a slot -/

/-- An answered request. -/
abbrev Entry := Input × Reply

/-- The entry is an OPEN by `n` that returned `c`. -/
def Opened (e : Entry) (n c : ℕ) : Prop :=
  e.1.node = n ∧ (∃ path, e.1.req = .open path) ∧ e.2.result = 0 ∧ e.2.callerId = some c

/-- The entry is a successful CLOSE of `c` by `n`. -/
def Closed (e : Entry) (n c : ℕ) : Prop := e.1.node = n ∧ e.1.req = .close c ∧ e.2.result = 0

/-- Node `n` holds slot `c`: an OPEN by `n` returned `c` and no later CLOSE of `c` by `n`
succeeded. -/
def Holds (h : List Entry) (n c : ℕ) : Prop :=
  ∃ h₁ e h₂, h = h₁ ++ e :: h₂ ∧ Opened e n c ∧ ∀ e' ∈ h₂, ¬ Closed e' n c

theorem not_holds_nil (n c : ℕ) : ¬ Holds [] n c := by
  rintro ⟨h₁, e, h₂, heq, _⟩
  simp at heq

theorem holds_snoc (h : List Entry) (e : Entry) (n c : ℕ) :
    Holds (h ++ [e]) n c ↔ Opened e n c ∨ (Holds h n c ∧ ¬ Closed e n c) := by
  constructor
  · rintro ⟨h₁, e', h₂, heq, hopen, hclose⟩
    rcases List.eq_nil_or_concat h₂ with rfl | ⟨h₂, e'', rfl⟩
    · have hlast : e = e' := by simpa using (List.append_inj' heq rfl).2
      exact Or.inl (hlast ▸ hopen)
    · rw [List.concat_eq_append, ← List.cons_append, ← List.append_assoc] at heq
      obtain ⟨hinit, hlast⟩ := List.append_inj' heq rfl
      obtain rfl : e = e'' := by simpa using hlast
      refine Or.inr ⟨⟨h₁, e', h₂, hinit, hopen, ?_⟩, ?_⟩
      · intro x hx
        exact hclose x (by simp [hx])
      · exact hclose e (by simp)
  · rintro (hopen | ⟨⟨h₁, e', h₂, rfl, hopen, hclose⟩, hlast⟩)
    · exact ⟨h, e, [], rfl, hopen, by simp⟩
    · refine ⟨h₁, e', h₂ ++ [e], by simp, hopen, ?_⟩
      intro x hx
      rcases List.mem_append.mp hx with hx | hx
      · exact hclose x hx
      · obtain rfl : x = e := by simpa using hx
        exact hlast

/-! ### The properties -/

/-- The caller id a CLOSE or RW_IOVEC names. -/
def Req.names : Req → Option ℕ
  | .open _ => none
  | .close callerId => some callerId
  | .iovec r => some r.callerId

/-- A slot is in use exactly when some node holds it. -/
def SlotsHeld (h : List Entry) (d : Daemon) : Prop :=
  ∀ c : Fin maxCallers, (d.table c).InUse ↔ ∃ n, Holds h n c

/-- A request that names a slot is answered, with success only if its sender holds the slot, and
with a failure that leaves the table unchanged if not. -/
def Authorised (cfg : Config) (h : List Entry) (d : Daemon) (i : Input) : Prop :=
  ∀ c, i.req.names = some c → ∃ rep d', step cfg d i = .ok (rep, d') ∧
    (rep.result = 0 → Holds h i.node c) ∧
    (¬ Holds h i.node c → rep.result = 1 ∧ d'.table = d.table)

/-- The id is no negative `int`, and the slot it names is no free slot left with the sender's
node. -/
def NotStale (d : Daemon) (node callerId : ℕ) : Prop :=
  callerId < 2 ^ 31 ∧ ∀ hc : callerId < maxCallers,
    (d.table ⟨callerId, hc⟩).node = node → (d.table ⟨callerId, hc⟩).InUse

/-- The condition on a step: the slot named is not stale, and in read-write mode a write does not
come from a node to which `storage_get` refuses the slot. -/
def Meets (cfg : Config) (d : Daemon) (i : Input) : Prop :=
  match i.req with
  | .open _ => True
  | .close callerId => NotStale d i.node callerId
  | .iovec r => NotStale d i.node r.callerId ∧
      (cfg.readOnly ∨ r.direction = 0 ∨
        ∃ hc : r.callerId < maxCallers, (d.table ⟨r.callerId, hc⟩).node = i.node)

/-! ### The functions on the table -/

theorem storageGet_eq {t : Table} {node callerId : ℕ} (h : callerId < 2 ^ 31) :
    storageGet t node (toInt32 callerId) =
      if hc : callerId < maxCallers then
        if (t ⟨callerId, hc⟩).node = node then .slot ⟨callerId, hc⟩ else .null
      else .null := by
  have hid : toInt32 callerId = callerId := by rw [toInt32, if_pos h]
  rw [hid]
  unfold storageGet
  by_cases hc : callerId < maxCallers
  · rw [dif_pos hc, if_neg (by simpa using hc), dif_pos ⟨by omega, by simpa using hc⟩]
    simp only [Int.toNat_natCast]
    by_cases hn : (t ⟨callerId, hc⟩).node = node
    · rw [if_pos hn, if_neg (by simpa using hn)]
    · rw [if_neg hn, if_pos (by simpa using hn)]
  · rw [dif_neg hc, if_pos (by simpa using hc)]

/-- The three ways `storage_open` can end. -/
theorem storageOpen_cases (cfg : Config) (fs : FileSystem) (t : Table) (node : ℕ) (path : String) :
    storageOpen cfg fs t node path = (none, t) ∨
    (∃ c, storageOpen cfg fs t node path = (some c, t) ∧ (t c).InUse ∧ (t c).node = node) ∨
    (∃ c r, storageOpen cfg fs t node path = (some c, Function.update t c r) ∧ ¬ (t c).InUse ∧
      r.InUse ∧ r.node = node ∧ r.id = (t c).id ∧ (r.fd = (t c).fd ∨ 0 ≤ r.fd)) := by
  rcases storageOpen_spec cfg fs t node path with
    ⟨hopen, -⟩ | ⟨part, -, ⟨c, hopen, hheld⟩ | ⟨c, r, hopen, -, hfree, hr⟩⟩
  · exact Or.inl hopen
  · exact Or.inr (Or.inl ⟨c, hopen, hheld.1, hheld.2.1⟩)
  · refine Or.inr (Or.inr ⟨c, r, hopen, hfree, hr.heldFor.1, hr.heldFor.2.1, ?_⟩)
    cases hr with
    | shadow _ hpop =>
        obtain ⟨-, hid, hfd⟩ := storagePopulateShadowBuf_spec hpop
        exact ⟨hid, Or.inl hfd⟩
    | file _ hfd => exact ⟨rfl, Or.inr hfd⟩

/-- The sectors of a request touch only the slot it names. -/
theorem iovecSector_table (cfg : Config) (io : SectorIo) (isWrite : Bool) (c : Fin maxCallers)
    (phys offset : ℕ) (buf : List UInt8) (d : Daemon) : ∃ r, SameButShadow (d.table c) r ∧
      (iovecSector cfg io isWrite c phys offset buf d).2.2.table = Function.update d.table c r := by
  unfold iovecSector
  dsimp only
  split_ifs
  · exact ⟨_, storagePwrite_keeps cfg _ _ _ _, rfl⟩
  · exact ⟨_, SameButShadow.refl _, (Function.update_eq_self c d.table).symm⟩
  · exact ⟨_, SameButShadow.refl _, (Function.update_eq_self c d.table).symm⟩

theorem iovecLoop_table (cfg : Config) (io : ℕ → SectorIo) (isWrite : Bool) (c : Fin maxCallers)
    (ss : List (ℕ × ℕ)) : ∀ (k : ℕ) (buf : List UInt8) (d : Daemon),
    ∃ r, SameButShadow (d.table c) r ∧
      (iovecLoop cfg io isWrite c k ss buf d).2.table = Function.update d.table c r := by
  induction ss with
  | nil =>
      intro k buf d
      exact ⟨_, SameButShadow.refl _, (Function.update_eq_self c d.table).symm⟩
  | cons s ss ih =>
      intro k buf d
      obtain ⟨r, hr, htab⟩ := iovecSector_table cfg (io k) isWrite c s.1 s.2 buf d
      simp only [iovecLoop]
      split_ifs
      · exact ⟨r, hr, htab⟩
      · obtain ⟨r', hr', htab'⟩ := ih (k + 1)
          (iovecSector cfg (io k) isWrite c s.1 s.2 buf d).2.1
          (iovecSector cfg (io k) isWrite c s.1 s.2 buf d).2.2
        rw [htab, Function.update_self] at hr'
        refine ⟨r', hr.trans hr', ?_⟩
        rw [htab', htab, Function.update_idem]

/-! ### The invariant -/

/-- Every slot knows its index, has a descriptor or `-1`, and is held by exactly its node while
it is in use; nobody holds anything else. -/
structure HandleInv (h : List Entry) (d : Daemon) : Prop where
  id_eq : ∀ c, (d.table c).id = c
  fd_cases : ∀ c, (d.table c).fd = -1 ∨ 0 ≤ (d.table c).fd
  holds_iff : ∀ (c : Fin maxCallers) n, Holds h n c ↔ (d.table c).InUse ∧ (d.table c).node = n
  holds_lt : ∀ n c, Holds h n c → c < maxCallers

theorem HandleInv.slotsHeld {h : List Entry} {d : Daemon} (hi : HandleInv h d) : SlotsHeld h d := by
  intro c
  constructor
  · intro hu
    exact ⟨(d.table c).node, (hi.holds_iff c _).mpr ⟨hu, rfl⟩⟩
  · rintro ⟨n, hn⟩
    exact ((hi.holds_iff c n).mp hn).1

/-- The state after `storage_init`. -/
def Daemon.init (rmem : RmtfsMem) (storageRoot : Option String) (readOnly usePartitions : Bool) :
    Daemon :=
  ⟨(storageInit storageRoot readOnly usePartitions).2, rmem⟩

theorem handleInv_init (rmem : RmtfsMem) (root : Option String) (ro parts : Bool) :
    HandleInv [] (Daemon.init rmem root ro parts) := by
  refine ⟨fun c => rfl, fun c => Or.inl rfl, ?_, fun n c hn => absurd hn (not_holds_nil n c)⟩
  intro c n
  constructor
  · intro hn
    exact absurd hn (not_holds_nil n c)
  · rintro ⟨hfd | hbuf, _⟩
    · exact absurd rfl hfd
    · cases hbuf

section Preservation

variable {h : List Entry} {d d' : Daemon} {e : Entry}

theorem holds_snoc_same (ho : ∀ n c, Opened e n c → Holds h n c) (hc : ∀ n c, ¬ Closed e n c)
    (n c : ℕ) : Holds (h ++ [e]) n c ↔ Holds h n c := by
  rw [holds_snoc]
  constructor
  · rintro (hopen | ⟨hh, _⟩)
    · exact ho n c hopen
    · exact hh
  · intro hh
    exact Or.inr ⟨hh, hc n c⟩

theorem HandleInv.snoc_same (hi : HandleInv h d) (ho : ∀ n c, Opened e n c → Holds h n c)
    (hc : ∀ n c, ¬ Closed e n c) (hsame : ∀ c, SameButShadow (d.table c) (d'.table c))
    (huse : ∀ c, (d'.table c).InUse → (d.table c).InUse) : HandleInv (h ++ [e]) d' := by
  refine ⟨fun c => (hsame c).id.trans (hi.id_eq c), fun c => ?_, fun c n => ?_, fun n c hn => ?_⟩
  · rw [(hsame c).fd]
    exact hi.fd_cases c
  · rw [holds_snoc_same ho hc, hi.holds_iff, (hsame c).node]
    exact and_congr_left fun _ => ⟨(hsame c).inUse, huse c⟩
  · exact hi.holds_lt n c ((holds_snoc_same ho hc n c).mp hn)

theorem HandleInv.snoc_open (hi : HandleInv h d) {c : Fin maxCallers} {r : RmtFd}
    (hfree : ¬ (d.table c).InUse) (huse : r.InUse) (hid : r.id = (d.table c).id)
    (hfd : r.fd = (d.table c).fd ∨ 0 ≤ r.fd)
    (ho : ∀ n k, Opened e n k ↔ r.node = n ∧ (c : ℕ) = k) (hc : ∀ n k, ¬ Closed e n k) :
    HandleInv (h ++ [e]) { d with table := Function.update d.table c r } := by
  have hsnoc : ∀ n k, Holds (h ++ [e]) n k ↔ (r.node = n ∧ (c : ℕ) = k) ∨ Holds h n k := by
    intro n k
    rw [holds_snoc, ho, and_iff_left (hc n k)]
  refine ⟨fun k => ?_, fun k => ?_, fun k n => ?_, fun n k hn => ?_⟩
  · by_cases hk : k = c
    · subst hk
      simp only [Function.update_self, hid, hi.id_eq]
    · simp only [Function.update_of_ne hk, hi.id_eq]
  · by_cases hk : k = c
    · subst hk
      simp only [Function.update_self]
      rcases hfd with hfd | hfd
      · rw [hfd]
        exact hi.fd_cases k
      · exact Or.inr hfd
    · simp only [Function.update_of_ne hk]
      exact hi.fd_cases k
  · rw [hsnoc, hi.holds_iff]
    by_cases hk : k = c
    · subst hk
      simp only [Function.update_self, hfree, huse, false_and, or_false, true_and, and_true]
    · have hck : (c : ℕ) ≠ k := fun hval => hk (Fin.ext hval.symm)
      simp only [Function.update_of_ne hk, hck, and_false, false_or]
  · rcases (hsnoc n k).mp hn with ⟨_, hck⟩ | hh
    · exact hck ▸ c.isLt
    · exact hi.holds_lt n k hh

theorem HandleInv.snoc_close (hi : HandleInv h d) {c : Fin maxCallers}
    (ho : ∀ n k, ¬ Opened e n k) (hc : ∀ n k, Closed e n k ↔ (d.table c).node = n ∧ (c : ℕ) = k) :
    HandleInv (h ++ [e])
      { d with table := Function.update d.table c (storageClose (d.table c)) } := by
  have hsnoc : ∀ n k, Holds (h ++ [e]) n k ↔ Holds h
      n k ∧ ¬ ((d.table c).node = n ∧ (c : ℕ) = k) := by
    intro n k
    rw [holds_snoc, hc, or_iff_right (ho n k)]
  have hclosed : (storageClose (d.table c)).fd = -1 := by
    rcases hi.fd_cases c with hfd | hfd
    · simp [storageClose, hfd]
    · simp [storageClose, hfd]
  refine ⟨fun k => ?_, fun k => ?_,
    fun k n => ?_, fun n k hn => hi.holds_lt n k ((hsnoc n k).mp hn).1⟩
  · by_cases hk : k = c
    · subst hk
      simp only [Function.update_self, storageClose, hi.id_eq]
    · simp only [Function.update_of_ne hk, hi.id_eq]
  · by_cases hk : k = c
    · subst hk
      simp only [Function.update_self]
      exact Or.inl hclosed
    · simp only [Function.update_of_ne hk]
      exact hi.fd_cases k
  · rw [hsnoc, hi.holds_iff]
    by_cases hk : k = c
    · subst hk
      have hfree : ¬ (storageClose (d.table k)).InUse := by
        rintro (hfd | hbuf)
        · exact hfd hclosed
        · cases hbuf
      simp only [Function.update_self, hfree, false_and, and_true, iff_false]
      rintro ⟨⟨_, hn⟩, hne⟩
      exact hne hn
    · have hck : (c : ℕ) ≠ k := fun hval => hk (Fin.ext hval.symm)
      simp only [Function.update_of_ne hk, hck, and_false, not_false_eq_true, and_true]

end Preservation

/-! ### The requests -/

section Requests

variable {cfg : Config} {h : List Entry} {d : Daemon} {i : Input}

theorem handleInv_open {path : String} (hi : HandleInv h d) (hreq : i.req = .open path) :
    HandleInv (h ++ [(i, (rmtfsOpen cfg i d path).1)]) (rmtfsOpen cfg i d path).2 := by
  have hclose : ∀ (rep : Reply) (n k : ℕ), ¬ Closed (i, rep) n k := by
    rintro rep n k ⟨_, hk, _⟩
    simp [hreq] at hk
  have hopen : ∀ (k' n k : ℕ), Opened (i, { Reply.success with callerId := some k' }) n k ↔
      i.node = n ∧ k' = k := by
    intro k' n k
    simp [Opened, hreq, Reply.success]
  unfold rmtfsOpen
  rcases storageOpen_cases cfg i.fs d.table i.node path with
    hcase | ⟨c, hcase, huse, hnode⟩ | ⟨c, r, hcase, hfree, huse, hnode, hid, hfd⟩
  · rw [hcase]
    refine hi.snoc_same ?_ (hclose _) (fun c => SameButShadow.refl _) (fun c => id)
    rintro n k ⟨_, _, hres, _⟩
    simp [Reply.failure] at hres
  · rw [hcase]
    refine hi.snoc_same ?_ (hclose _) (fun c => SameButShadow.refl _) (fun c => id)
    intro n k hn
    obtain ⟨rfl, rfl⟩ := (hopen _ n k).mp hn
    rw [hi.id_eq, hi.holds_iff]
    exact ⟨huse, hnode⟩
  · rw [hcase]
    refine hi.snoc_open hfree huse hid hfd ?_ (hclose _)
    intro n k
    rw [hopen, Function.update_self, hid, hi.id_eq, hnode]

/-- What `storage_get` gives for an id that is not stale: the slot to its holder, else NULL. -/
theorem storageGet_cases {callerId : ℕ} (hi : HandleInv h d) (hs : NotStale d i.node callerId) :
    (storageGet d.table i.node (toInt32 callerId) = .null ∧ ¬ Holds h i.node callerId ∧
      ¬ ∃ hc : callerId < maxCallers, (d.table ⟨callerId, hc⟩).node = i.node) ∨
    (∃ c : Fin maxCallers, callerId = c ∧ storageGet d.table i.node (toInt32 callerId) = .slot c ∧
      Holds h i.node c ∧ (d.table c).InUse ∧ (d.table c).node = i.node) := by
  rw [storageGet_eq hs.1]
  by_cases hc : callerId < maxCallers
  · rw [dif_pos hc]
    by_cases hn : (d.table ⟨callerId, hc⟩).node = i.node
    · rw [if_pos hn]
      have huse := hs.2 hc hn
      exact Or.inr ⟨⟨callerId, hc⟩, rfl, rfl, (hi.holds_iff _ _).mpr ⟨huse, hn⟩, huse, hn⟩
    · rw [if_neg hn]
      exact Or.inl ⟨rfl, fun hh => hn ((hi.holds_iff ⟨callerId, hc⟩ _).mp hh).2,
        fun ⟨_, hn'⟩ => hn hn'⟩
  · rw [dif_neg hc]
    exact Or.inl ⟨rfl, fun hh => hc (hi.holds_lt _ _ hh), fun ⟨hc', _⟩ => hc hc'⟩

/-- A step under the condition is answered; it keeps the invariant and is authorised. -/
structure Served (cfg : Config) (h : List Entry) (d : Daemon) (i : Input) (rep : Reply)
    (d' : Daemon) :
    Prop where
  step_eq : step cfg d i = .ok (rep, d')
  inv : HandleInv (h ++ [(i, rep)]) d'
  holder : ∀ c, i.req.names = some c → rep.result = 0 → Holds h i.node c
  refused : ∀ c, i.req.names = some c → ¬ Holds h i.node c → rep.result = 1 ∧ d'.table = d.table

theorem handleInv_failure (hi : HandleInv h d) (error : ℕ) :
    HandleInv (h ++ [(i, Reply.failure error)]) d := by
  refine hi.snoc_same ?_ ?_ (fun c => SameButShadow.refl _) (fun c => id)
  · rintro n k ⟨_, _, hres, _⟩
    simp [Reply.failure] at hres
  · rintro n k ⟨_, _, hres⟩
    simp [Reply.failure] at hres

theorem served_close {callerId : ℕ} (hi : HandleInv h d) (hreq : i.req = .close callerId)
    (hs : NotStale d i.node callerId) : ∃ rep d', Served cfg h d i rep d' := by
  rcases storageGet_cases hi hs with ⟨hget, hnot, _⟩ | ⟨c, rfl, hget, hheld, _, hnode⟩
  · refine ⟨.failure errInternal, d, ?_, handleInv_failure hi _, ?_, fun c _ _ => ⟨rfl, rfl⟩⟩
    · simp only [step, hreq, rmtfsClose, hget]
    · intro c _ hres
      simp [Reply.failure] at hres
  · refine ⟨.success, _, ?_, hi.snoc_close (c := c) ?_ ?_, ?_, ?_⟩
    · simp only [step, hreq, rmtfsClose, hget]
    · rintro n k ⟨_, ⟨path, hp⟩, _⟩
      simp [hreq] at hp
    · intro n k
      simp [Closed, hreq, hnode, Reply.success]
    · intro k hk _
      simp only [hreq, Req.names, Option.some.injEq] at hk
      exact hk ▸ hheld
    · intro k hk hnot
      simp only [hreq, Req.names, Option.some.injEq] at hk
      exact absurd (hk ▸ hheld) hnot

theorem served_iovec {r : IovecReq} (hi : HandleInv h d) (hreq : i.req = .iovec r)
    (hm : Meets cfg d i) : ∃ rep d', Served cfg h d i rep d' := by
  simp only [Meets, hreq] at hm
  obtain ⟨hs, hwrite⟩ := hm
  have hclose : ∀ (rep : Reply) (n k : ℕ), ¬ Closed (i, rep) n k := by
    rintro rep n k ⟨_, hk, _⟩
    simp [hreq] at hk
  have hopen : ∀ (rep : Reply) (n k : ℕ), ¬ Opened (i, rep) n k := by
    rintro rep n k ⟨_, ⟨path, hp⟩, _⟩
    simp [hreq] at hp
  rcases storageGet_cases hi hs with ⟨hget, hnot, hnone⟩ | ⟨c, hcid, hget, hheld, huse, hnode⟩
  · refine ⟨.failure errInternal, d, ?_, handleInv_failure hi _, ?_, fun c _ _ => ⟨rfl, rfl⟩⟩
    · have hsync : ¬ (r.direction ≠ 0 ∧ ¬ cfg.readOnly) := by
        rintro ⟨hdir, hro⟩
        rcases hwrite with h | h | h
        · exact hro h
        · exact hdir h
        · exact hnone h
      simp only [step, hreq, rmtfsIovec, hget, if_neg hsync]
    · intro c _ hres
      simp [Reply.failure] at hres
  · obtain ⟨r', hsame, htab⟩ := iovecLoop_table cfg i.io (r.direction ≠ 0) c
      (iovecSectors r.iovec) 0 i.stack d
    set s := iovecLoop cfg i.io (r.direction ≠ 0) c 0 (iovecSectors r.iovec) i.stack d with hloop
    refine ⟨if s.1 then .success else .failure errInternal, s.2, ?_,
      hi.snoc_same (fun n k ho => absurd ho (hopen _ n k)) (hclose _) ?_ ?_, ?_, ?_⟩
    · simp only [step, hreq, rmtfsIovec, hget, hloop]
    · intro k
      rw [htab]
      by_cases hk : k = c
      · subst hk
        rw [Function.update_self]
        exact hsame
      · rw [Function.update_of_ne hk]
        exact SameButShadow.refl _
    · intro k hk
      rw [htab] at hk
      by_cases hkc : k = c
      · exact hkc ▸ huse
      · rwa [Function.update_of_ne hkc] at hk
    · intro k hk _
      simp only [hreq, Req.names, Option.some.injEq] at hk
      exact (hk.symm.trans hcid) ▸ hheld
    · intro k hk hnot
      simp only [hreq, Req.names, Option.some.injEq] at hk
      exact absurd ((hk.symm.trans hcid) ▸ hheld) hnot

theorem served (hi : HandleInv h d) (hm : Meets cfg d i) : ∃ rep d', Served cfg h d i rep d' := by
  cases hreq : i.req with
  | «open» path =>
      refine ⟨_, _, ?_, @handleInv_open cfg h d i path hi hreq, ?_, ?_⟩
      · simp only [step, hreq]
      · intro c hc
        simp [hreq, Req.names] at hc
      · intro c hc
        simp [hreq, Req.names] at hc
  | close callerId =>
      simp only [Meets, hreq] at hm
      exact served_close hi hreq hm
  | iovec r => exact served_iovec hi hreq hm

end Requests

/-! ### Every run -/

section Runs

variable {rmem : RmtfsMem} {root : Option String} {ro parts : Bool} {h : List Entry} {d : Daemon}

/-- The runs of the daemon, from `storage_init` in a given mode, whose requests satisfy `P`. -/
abbrev RunFrom (rmem : RmtfsMem) (root : Option String) (ro parts : Bool)
    (P : Config → Daemon → Input → Prop) (h : List Entry) (d : Daemon) : Prop :=
  Run (step (storageInit root ro parts).1) (P (storageInit root ro parts).1)
    (Daemon.init rmem root ro parts) h d

theorem handleInv_of_run (hrun : RunFrom rmem root ro parts Meets h d) : HandleInv h d := by
  refine hrun.invariant (handleInv_init rmem root ro parts) ?_
  intro h d i rep d' hi hm hstep
  obtain ⟨rep', d'', hserved⟩ := served hi hm
  obtain ⟨rfl, rfl⟩ : rep' = rep ∧ d'' = d' := by
    have heq := hserved.step_eq.symm.trans hstep
    simpa using heq
  exact hserved.inv

/-- **Handles are held**: after every run of requests that meet the condition, a slot is in use
exactly when some node holds it, and the next such request is served only to a holder. -/
theorem handles_of_run (hrun : RunFrom rmem root ro parts Meets h d) :
    SlotsHeld h d ∧ ∀ i, Meets (storageInit root ro parts).1 d i →
      Authorised (storageInit root ro parts).1 h d i := by
  have hi := handleInv_of_run hrun
  refine ⟨hi.slotsHeld, fun i hm c hc => ?_⟩
  obtain ⟨rep, d', hserved⟩ := served hi hm
  exact ⟨rep, d', hserved.step_eq, hserved.holder c hc, hserved.refused c hc⟩

/-- A request that finds every file and touches no sector. -/
def ask (node : ℕ) (req : Req) : Input :=
  ⟨node, req, ⟨fun _ => 3, fun _ => .contents 1 [7]⟩, fun _ => ⟨(0, []), 0, (0, []), ⟨0, none⟩⟩, []⟩

/-- Node 1 opens a partition. -/
def openedByOne : List Entry := [(ask 1 (.open "/boot/modem_fs1"), ⟨0, 0, some 0⟩)]

/-- Node 1 opens a partition and closes it. -/
def openClose : List Entry :=
  [(ask 1 (.open "/boot/modem_fs1"), ⟨0, 0, some 0⟩), (ask 1 (.close 0), .success)]

theorem handles_of_openClose : ∃ d, RunFrom ⟨0, 0, false, []⟩ none true false Meets openClose d ∧
    SlotsHeld openClose d := by
  have hrun : ∃ d, RunFrom ⟨0, 0, false, []⟩ none true false Meets openClose d :=
    ⟨_, .snoc (.snoc .nil trivial rfl) ⟨by decide, fun _ _ => Or.inr rfl⟩ rfl⟩
  obtain ⟨d, hd⟩ := hrun
  exact ⟨d, hd, (handles_of_run hd).1⟩

theorem not_holds_openClose : ¬ Holds openClose 1 0 := by
  have hlast : openClose = ([] ++ [(ask 1 (.open "/boot/modem_fs1"), ⟨0, 0, some 0⟩)]) ++
    [(ask 1 (.close 0), .success)] := rfl
  rw [hlast, holds_snoc]
  rintro (⟨_, ⟨path, hpath⟩, _⟩ | ⟨_, hclosed⟩)
  · cases hpath
  · exact hclosed ⟨rfl, rfl, rfl⟩

/-- The slot is free after the CLOSE, and a second CLOSE of it succeeds. -/
theorem not_authorised_closed : ∃ d,
    RunFrom ⟨0, 0, false, []⟩ none true false (fun _ _ _ => True) openClose d ∧
    ¬ Authorised (storageInit none true false).1 openClose d (ask 1 (.close 0)) := by
  refine ⟨_, .snoc (.snoc .nil trivial rfl) trivial rfl, ?_⟩
  intro hauth
  obtain ⟨rep, d', hstep, hholds, -⟩ := hauth 0 rfl
  have hrep : rep = .success := by
    cases hstep
    rfl
  exact not_holds_openClose (hholds (by rw [hrep]; rfl))

end Runs

end Imola.Rmtfs
