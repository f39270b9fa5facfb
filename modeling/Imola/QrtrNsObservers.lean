import Imola.QrtrNsIsolation

/-! # What observers know

An observer that replays the notifications it gets, adding the servers it is told are new and
dropping those it is told are gone, knows the servers that are registered and match its lookup
(`observers_know`), as long as every server that is registered is acceptable: a server that it
replaces is the same one, or nobody observes it, and no marker makes `map_reput` miss the server
that is there (`View.Accepts`). -/

namespace Imola.Qrtr

open Imola.Runs

/-! ### Replaying notifications -/

/-- What is known after a notification. -/
def Notice.apply (x : Notice) (A : Finset Server) : Finset Server :=
  if x.new then insert x.srv A else A.erase x.srv

/-- What a client knows from the notifications on account of a lookup. -/
def replay (id : ℕ) (ns : List Notice) : Finset Server :=
  ns.foldl (fun A x => if x.lookup = id then x.apply A else A) ∅

section Replay

variable {id : ℕ} {ns : List Notice}

theorem replay_snoc (id : ℕ) (ns : List Notice) (x : Notice) :
    replay id (ns ++ [x]) = if x.lookup = id then x.apply (replay id ns) else replay id ns := by
  rw [replay, List.foldl_append, List.foldl_cons, List.foldl_nil, ← replay]

theorem replay_append_of_ne {xs : List Notice} (h : ∀ x ∈ xs, x.lookup ≠ id) :
    replay id (ns ++ xs) = replay id ns := by
  induction xs using List.reverseRecOn with
  | nil => rw [List.append_nil]
  | append_singleton xs x ih =>
      rw [← List.append_assoc, replay_snoc, if_neg (h x (by simp)),
        ih fun y hy => h y (by simp [hy])]

/-- A notification that is repeated says nothing new. -/
theorem Notice.apply_apply (x : Notice) (A : Finset Server) : x.apply (x.apply A) = x.apply A := by
  unfold Notice.apply
  split_ifs
  · exact Finset.insert_idem _ _
  · exact Finset.erase_idem

theorem replay_tell_list (new : Bool) (srv : Server) (ls : List Lookup) :
    replay id (ns ++ tell ls new srv) =
    if ∃ l ∈ ls, l.id = id ∧ l.observes srv = true then Notice.apply ⟨id, new, srv⟩ (replay id ns)
      else replay id ns := by
  induction ls using List.reverseRecOn with
  | nil => simp [tell]
  | append_singleton ls l ih =>
      have hmore : (∃ l' ∈ ls ++ [l], l'.id = id ∧ l'.observes srv = true) ↔
          (∃ l' ∈ ls, l'.id = id ∧ l'.observes srv = true) ∨
          (l.id = id ∧ l.observes srv = true) := by
        simp [or_and_right, exists_or]
      rw [tell, List.filter_append, List.map_append, ← tell, ← List.append_assoc]
      by_cases hobs : l.observes srv = true
      · rw [List.filter_singleton, hobs, cond_true, List.map_singleton, replay_snoc, ih]
        by_cases hid : l.id = id
        · rw [if_pos hid, if_pos (hmore.mpr (Or.inr ⟨hid, hobs⟩)), hid]
          split_ifs
          · exact Notice.apply_apply _ _
          · rfl
        · have hiff : (∃ l' ∈ ls ++ [l], l'.id = id ∧ l'.observes srv = true) ↔
              ∃ l' ∈ ls, l'.id = id ∧ l'.observes srv = true :=
            hmore.trans (or_iff_left fun h => hid h.1)
          rw [if_neg hid, if_congr hiff rfl rfl]
      · have hiff : (∃ l' ∈ ls ++ [l], l'.id = id ∧ l'.observes srv = true) ↔
            ∃ l' ∈ ls, l'.id = id ∧ l'.observes srv = true :=
          hmore.trans (or_iff_left fun h => hobs h.2)
        rw [List.filter_singleton, Bool.eq_false_iff.mpr hobs, cond_false, List.map_nil,
          List.append_nil, ih,
          if_congr hiff rfl rfl]

theorem mem_replay_listing {q : Server} (listed : List Server) :
    q ∈ replay id (ns ++ listed.map fun q => ⟨id, true, q⟩) ↔ q ∈ replay id ns ∨ q ∈ listed := by
  induction listed using List.reverseRecOn with
  | nil => simp
  | append_singleton listed x ih =>
      rw [List.map_append, ← List.append_assoc, List.map_singleton, replay_snoc, if_pos rfl,
        Notice.apply, if_pos rfl,
        Finset.mem_insert, ih, List.mem_append, List.mem_singleton]
      tauto

end Replay

/-! ### The invariant -/

/-- A server can be registered without anybody missing the one it replaces. -/
def View.Accepts (v : View) (srv : Server) : Prop :=
  (v.table srv.node).Clear Server.key srv.key ∧
  ∀ q ∈ mapItems (v.table srv.node), q.port = srv.port → q = srv ∨
    ∀ l ∈ v.lookups, l.observes q = false

/-- The notifications so far tell every lookup about the servers that it observes. -/
structure Told (v : View) (ns : List Notice) : Prop where
  inv : v.Inv
  unique : ∀ n, (v.table n).Unique Server.key
  past : ∀ x ∈ ns, x.lookup < v.registered
  knows : ∀ l ∈ v.lookups, ∀ q, q ∈ replay l.id ns ↔ q ∈ mapItems (v.table q.node) ∧
    l.observes q = true

section Told

variable {v v' : View} {ns ns' : List Notice} {n : UInt32}

/-- What a lookup knows after everybody has been told of a server. -/
theorem replay_tell (h : v.Inv) {l : Lookup} (hl : l ∈ v.lookups) (new : Bool) (srv : Server) :
    replay l.id (ns ++ tell v.lookups new srv) =
      if l.observes srv then Notice.apply ⟨l.id, new, srv⟩ (replay l.id ns)
        else replay l.id ns := by
  rw [replay_tell_list]
  refine if_congr ⟨?_, fun hobs => ⟨l, hl, rfl, hobs⟩⟩ rfl rfl
  rintro ⟨l', hl', hid, hobs⟩
  rwa [← List.inj_on_of_nodup_map h.ids hl' hl hid]

theorem past_append_tell (h : v.Inv) (hpast : ∀ x ∈ ns, x.lookup < v.registered) (new : Bool)
    (srv : Server) :
    ∀ x ∈ ns ++ tell v.lookups new srv, x.lookup < v.registered := by
  intro x hx
  rcases List.mem_append.mp hx with hx | hx
  · exact hpast x hx
  · obtain ⟨l, hl, rfl⟩ := List.mem_map.mp hx
    exact h.fresh l (List.mem_of_mem_filter hl)

theorem View.unique_setTable (h : ∀ n, (v.table n).Unique Server.key) {m : Map Server}
    (hm : m.Unique Server.key) :
    ∀ n', ((v.setTable n m).table n').Unique Server.key := by
  intro n'
  by_cases hn : n' = n
  · rw [hn, v.table_setTable]
    exact hm
  · rw [v.table_setTable_of_ne hn]
    exact h n'

theorem Told.add (h : Told v ns) {srv : Server} {calloc : Bool} {old : Option Server}
    {m : Map Server}
    (hG : v.Accepts srv) (hnode : srv.node = n)
    (hreput : mapReput Server.key calloc (v.table n) srv.key srv = some (old, m))
    (hinv : (v.setTable n m).Inv) :
    Told (v.setTable n m) (ns ++ tell v.lookups true srv) := by
  subst hnode
  obtain ⟨hclear, hreplace⟩ := hG
  rcases mapReput_unique (h.inv.wf srv.node) (h.unique srv.node) hclear (fun _ => rfl) rfl
    (fun _ _ => rfl) calloc with
    ⟨-, hnone⟩ | ⟨m', hput, -, hu, -, hitems⟩
  · rw [hnone] at hreput
    cases hreput
  rw [hput] at hreput
  cases hreput
  refine ⟨hinv, View.unique_setTable h.unique hu, past_append_tell h.inv h.past true srv, ?_⟩
  intro l hl q
  rw [replay_tell h.inv hl]
  have hmem : q ∈ (if l.observes srv = true then Notice.apply ⟨l.id, true, srv⟩ (replay l.id ns)
      else replay l.id ns) ↔
      (q = srv ∨ q ∈ mapItems (v.table q.node)) ∧ l.observes q = true := by
    split_ifs with hobs
    · rw [Notice.apply, if_pos rfl, Finset.mem_insert, h.knows l hl]
      constructor
      · rintro (rfl | hq)
        · exact ⟨Or.inl rfl, hobs⟩
        · exact ⟨Or.inr hq.1, hq.2⟩
      · rintro ⟨rfl | hq, hq'⟩
        · exact Or.inl rfl
        · exact Or.inr ⟨hq, hq'⟩
    · rw [h.knows l hl]
      constructor
      · exact fun hq => ⟨Or.inr hq.1, hq.2⟩
      · rintro ⟨rfl | hq, hq'⟩
        · exact absurd hq' hobs
        · exact ⟨hq, hq'⟩
  rw [hmem]
  refine and_congr_left fun hq => ?_
  by_cases hnode : q.node = srv.node
  · rw [hnode, v.table_setTable, hitems]
    constructor
    · rintro (rfl | hitem)
      · exact Or.inl rfl
      by_cases hkey : q.key = srv.key
      · rcases hreplace q hitem (hashU32_injective hkey) with hsame | hnobody
        · exact Or.inl hsame
        · rw [hnobody l hl] at hq
          cases hq
      · exact Or.inr ⟨hitem, hkey⟩
    · exact Or.imp_right And.left
  · rw [v.table_setTable_of_ne hnode]
    refine or_iff_right ?_
    rintro rfl
    exact hnode rfl

theorem Told.del (h : Told v ns) {port : UInt32} {srv : Server}
    (hget : mapGet Server.key (v.table n) (hashU32 port) = some srv)
    (hinv : (v.setTable n (mapRemove Server.key (v.table n) srv.key).2).Inv) :
    Told (v.setTable n (mapRemove Server.key (v.table n) srv.key).2)
      (ns ++ tell v.lookups false srv) := by
  obtain ⟨hsrv, -⟩ := mem_of_mapGet (h.inv.wf n) hget
  have hnode : srv.node = n := h.inv.owned n srv hsrv
  obtain ⟨-, -, hu, hitems⟩ := mapRemove_unique (h.inv.wf n) (h.unique n) srv.key
  refine ⟨hinv, View.unique_setTable h.unique hu, past_append_tell h.inv h.past false srv, ?_⟩
  intro l hl q
  rw [replay_tell h.inv hl]
  have hmem : q ∈ (if l.observes srv = true then Notice.apply ⟨l.id, false, srv⟩ (replay l.id ns)
      else replay l.id ns) ↔
      (q ≠ srv ∧ q ∈ mapItems (v.table q.node)) ∧ l.observes q = true := by
    split_ifs with hobs
    · rw [Notice.apply, if_neg Bool.false_ne_true, Finset.mem_erase, h.knows l hl, and_assoc]
    · rw [h.knows l hl]
      constructor
      · rintro ⟨hq, hq'⟩
        refine ⟨⟨?_, hq⟩, hq'⟩
        rintro rfl
        exact hobs hq'
      · exact fun hq => ⟨hq.1.2, hq.2⟩
  rw [hmem]
  refine and_congr_left fun _ => ?_
  by_cases hq : q.node = n
  · rw [hq, v.table_setTable, hitems, and_comm]
    refine and_congr_right fun hitem => not_congr ⟨fun heq => heq ▸ rfl, fun hkey => ?_⟩
    have hone := (mapGet_eq_some_iff (h.inv.wf n) (h.unique n)).mpr ⟨hitem, hkey⟩
    rw [(mapGet_eq_some_iff (h.inv.wf n) (h.unique n)).mpr ⟨hsrv, rfl⟩] at hone
    exact (Option.some.inj hone).symm
  · rw [v.table_setTable_of_ne hq]
    refine and_iff_right ?_
    rintro rfl
    exact hq hnode

theorem Told.observe (h : Told v ns) {l : Lookup} {listed : List Server} (hid : l.id = v.registered)
    (hlisted : ∀ q, q ∈ listed ↔ (∃ m, q ∈ mapItems (v.table m)) ∧ l.observes q = true)
    (hinv : View.Inv { v with lookups := v.lookups ++ [l], registered := v.registered + 1 }) :
    Told { v with lookups := v.lookups ++ [l], registered := v.registered + 1 }
      (ns ++ listed.map fun q => ⟨l.id, true, q⟩) := by
  refine ⟨hinv, h.unique, ?_, ?_⟩
  · intro x hx
    rcases List.mem_append.mp hx with hx | hx
    · exact (h.past x hx).trans (Nat.lt_succ_self _)
    · obtain ⟨q, -, rfl⟩ := List.mem_map.mp hx
      exact hid.trans_lt (Nat.lt_succ_self _)
  · intro l' hl' q
    rcases List.mem_append.mp hl' with hl' | hl'
    · have hne : l'.id ≠ l.id := by
        have := h.inv.fresh l' hl'
        omega
      rw [replay_append_of_ne, h.knows l' hl']
      intro x hx
      obtain ⟨q, -, rfl⟩ := List.mem_map.mp hx
      exact hne.symm
    · obtain rfl := List.mem_singleton.mp hl'
      have hnothing : replay l'.id ns = ∅ := by
        have hskip := @replay_append_of_ne l'.id [] ns fun x hx => by
          have := h.past x hx
          omega
        rwa [List.nil_append] at hskip
      rw [mem_replay_listing, hnothing, hlisted]
      simp only [Finset.notMem_empty, false_or]
      refine and_congr_left fun _ => ⟨?_, fun hq => ⟨_, hq⟩⟩
      rintro ⟨m, hq⟩
      rwa [h.inv.owned m q hq]

/-- **Every change tells the lookups what they have to know.** -/
theorem Change.told (hc : Change View.Accepts n v ns' v') :
    ∀ {ns}, Told v ns → Told v' (ns ++ ns') := by
  induction hc with
  | refl v =>
      intro ns h
      rwa [List.append_nil]
  | add hG hnode hreput =>
      exact fun h => h.add hG hnode hreput ((Change.add hG hnode hreput).inv h.inv)
  | del hget => exact fun h => h.del hget ((@Change.del View.Accepts _ _ _ _ hget).inv h.inv)
  | forget hkeep =>
      intro ns h
      rw [List.append_nil]
      refine ⟨(@Change.forget View.Accepts _ _ _ hkeep).inv h.inv, h.unique, h.past, ?_⟩
      exact fun l hl => h.knows l (List.mem_of_mem_filter hl)
  | observe hid hnode hlisted =>
      exact fun h => h.observe hid hlisted
        ((@Change.observe View.Accepts _ _ _ _ hid hnode hlisted).inv h.inv)
  | trans _ _ ih₁ ih₂ =>
      intro ns h
      rw [← List.append_assoc]
      exact ih₂ (ih₁ h)

end Told

/-! ### Runs -/

section Runs

variable {localNode : UInt32} {h : List (Input × List Sent)} {s : Ns}

theorem told_of_run
    (hrun : Run ctrlPortFn (fun s i => ∀ srv, i.newServer? s = some srv → s.view.Accepts srv)
    (nsInit localNode) h s) : s.Inv ∧ Told s.view (notices (h.flatMap Prod.snd)) := by
  refine @Run.invariant _ _ _ _ _ _ _ (fun h s => s.Inv ∧
    Told s.view (notices (h.flatMap Prod.snd))) ?_ ?_ _ _ hrun
  · exact ⟨inv_nsInit localNode, view_nsInit localNode, fun _ => unique_mapCreate,
      fun x hx => (by cases hx),
      fun l hl => (by cases hl)⟩
  · rintro h s i out s' ⟨hinv, htold⟩ hG hstep
    obtain ⟨n, hhandles⟩ := handles_of_ok hinv hstep hG
    refine ⟨hhandles.inv, ?_⟩
    rw [List.flatMap_append, notices_append, List.flatMap_singleton]
    exact hhandles.change.told htold

/-- **Observers know the registry**: after every run in which the servers that are registered are
acceptable, replaying the notifications of a lookup gives the servers that match its filter. -/
theorem observers_know
    (hrun : Run ctrlPortFn (fun s i => ∀ srv, i.newServer? s = some srv → s.view.Accepts srv)
    (nsInit localNode) h s) :
    ∀ l ∈ s.lookups, ∀ q, q ∈ replay l.id (notices (h.flatMap Prod.snd)) ↔
      q ∈ serverQuery ⟨l.service, l.inst, 0⟩ s := by
  obtain ⟨hinv, htold⟩ := told_of_run hrun
  intro l hl q
  rw [htold.knows l hl, mem_serverQuery hinv, serverMatch_eq_observes]
  refine and_congr_left fun _ => ⟨fun hq => ⟨_, hq⟩, ?_⟩
  rintro ⟨m, hq⟩
  have hnode : q.node = m := htold.inv.owned m q hq
  rw [hnode]
  exact hq

/-- A lookup for the service 1, which the node 2 registers then. -/
theorem observers_know_newServer :
    ∃ (h : List (Input × List Sent)) (s : Ns), s.lookups = [⟨0, 1, 0, ⟨1, 9⟩⟩] ∧
    replay 0 (notices (h.flatMap Prod.snd)) = {⟨1, 0, 2, 5⟩} ∧
    ∀ l ∈ s.lookups, ∀ q, q ∈ replay l.id (notices (h.flatMap Prod.snd)) ↔
      q ∈ serverQuery ⟨l.service, l.inst, 0⟩ s := by
  have h₁ : Run ctrlPortFn (fun s i => ∀ srv, i.newServer? s = some srv → s.view.Accepts srv)
    (nsInit 1)
      [(packet ⟨1, 9⟩ [10, 1, 0, 0, 0], [.notify 0 ⟨1, 9⟩ true none])] _ :=
    Run.nil.snoc (fun srv hsrv => by cases hsrv) rfl
  have h₂ := h₁.snoc (i := packet ⟨2, 5⟩ [4, 1, 0, 2, 5])
      (o := [.notify 0 ⟨1, 9⟩ true (some ⟨1, 0, 2, 5⟩)])
    (fun srv hsrv => by
      cases hsrv
      exact ⟨fun j hj => absurd hj (Nat.not_lt_zero j), fun q hq => by cases hq⟩) rfl
  exact ⟨_, _, rfl, by decide, observers_know h₂⟩

/-- The node 2 registers the service 2 at the port where it had the service 1: the observer of the
service 1 is not told that it is gone. -/
theorem not_observers_know_replaced : ∃ h s, Run ctrlPortFn (fun _ _ => True) (nsInit 1) h s ∧
    ∃ l ∈ s.lookups, ∃ q, q ∈ replay l.id (notices (h.flatMap Prod.snd)) ∧
      q ∉ serverQuery ⟨l.service, l.inst, 0⟩ s := by
  have h₁ : Run ctrlPortFn (fun _ _ => True) (nsInit 1)
      [(packet ⟨1, 9⟩ [10, 1, 0, 0, 0], [.notify 0 ⟨1, 9⟩ true none])] _ := Run.nil.snoc trivial rfl
  have h₂ := h₁.snoc (i := packet ⟨2, 5⟩ [4, 1, 0, 2, 5])
      (o := [.notify 0 ⟨1, 9⟩ true (some ⟨1, 0, 2, 5⟩)]) trivial rfl
  have h₃ := h₂.snoc (i := packet ⟨2, 5⟩ [4, 2, 0, 2, 5]) (o := []) trivial rfl
  exact ⟨_, _, h₃, ⟨0, 1, 0, ⟨1, 9⟩⟩, by decide, ⟨1, 0, 2, 5⟩, by decide, by decide⟩

end Runs

end Imola.Qrtr
