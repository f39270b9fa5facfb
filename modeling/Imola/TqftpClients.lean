import Imola.TqftpWriter

/-! # The clients of `tqftpserv`

The main loop keeps the clients in two lists.  Two things are meant to keep them apart from the rest
of the world: a packet that does not come from the client of a session is dropped, and a control
packet says that a node or a client is gone.

`handle_reader` and `handle_writer` drop a foreign packet by returning -1, which makes the main loop
close the session.  So a session ignores foreign packets only if none arrives
(`foreign_ignored_iff`).

For a control packet the main loop looks at the writers only, and compares them with the address the
packet was received from in place of the one that it names (`forgets_iff`). -/

namespace Imola.Tqftp

open Imola.CStrings Imola.Bytes Imola.Splice Imola.Runs Imola.Sessions

/-! ### Foreign packets -/

/-- A packet that does not come from the client. -/
def Recv.foreign (c : TftpClient) : Recv → Bool
  | .error => false
  | .datagram sq _ => sq ≠ c.sq

/-- A packet for a reader.  `handle_reader` keeps no state; the main loop keeps the client if it
gives a positive number, and nothing goes on if it does not come back. -/
def readerStep (c : TftpClient) (_ : Unit) (io : ReaderIo) : Answer (List UInt8) Unit :=
  ⟨(handleReader io.file io.sendOk io.stack io.fuel c io.recv).sent, (),
    match readerResult c io with
    | .ok ret => 0 < ret
    | .error _ => false⟩

section Foreign

variable {c : TftpClient} {sq : Addr}

theorem foreign_iff {bytes : List UInt8} :
    (Recv.datagram sq bytes).foreign c = true ↔ sq.node ≠ c.sq.node ∨ sq.port ≠ c.sq.port := by
  rw [Recv.foreign, decide_eq_true_iff, ne_eq, Addr.mk.injEq, not_and_or]

theorem writerStep_foreign {f : OpenFile} {io : WriterInput} (h : io.recv.foreign c = true) :
    writerStep c f io = ⟨[], f, false⟩ := by
  cases hrecv : io.recv with
  | error =>
      rw [hrecv] at h
      cases h
  | datagram sq bytes =>
      rw [hrecv, foreign_iff] at h
      simp [writerStep, writerEffects, handleWriter, writing, hrecv, h]

theorem readerStep_foreign {io : ReaderIo} (h : io.recv.foreign c = true) :
    readerStep c () io = ⟨[], (), false⟩ := by
  cases hrecv : io.recv with
  | error =>
      rw [hrecv] at h
      cases h
  | datagram sq bytes =>
      rw [hrecv, foreign_iff] at h
      simp [readerStep, readerResult, handleReader, hrecv, h]

end Foreign

/-- **Foreign packets are ignored exactly when none arrives** while the session is open, for writers
and for readers. -/
theorem foreign_ignored_iff (c : TftpClient) (f : OpenFile) (ws : List WriterInput)
    (rs : List ReaderIo) :
    (Ignores (writerStep c) (fun io => io.recv.foreign c) f ws ↔
      ¬ Arrives (writerStep c) (fun io => io.recv.foreign c) f ws) ∧
    (Ignores (readerStep c) (fun io => io.recv.foreign c) () rs ↔
      ¬ Arrives (readerStep c) (fun io => io.recv.foreign c) () rs) := by
  constructor
  · refine ignores_iff_of_closes (fun f io hio => ?_) ws
    rw [writerStep_foreign hio]
  · refine ignores_iff_of_closes (fun _ io hio => ?_) rs
    rw [readerStep_foreign hio]

/-- An empty packet from another port ends an upload before its only block. -/
theorem not_foreign_ignored_writer :
    feed (writerStep sampleWriter) (.openWrite none)
      [⟨⟨.datagram ⟨0, 8⟩ [], fun _ => 0, 0⟩, true⟩, blockInput sampleWriter (1, [1])] =
        ⟨[], .openWrite none, false⟩ ∧
    feed (writerStep sampleWriter) (.openWrite none) [blockInput sampleWriter (1, [1])] =
      ⟨[ackOf (1, [1])], (OpenFile.openWrite none).write [1], false⟩ :=
  ⟨rfl, rfl⟩

/-! ### Control packets -/

/-- The node that `qrtr_decode` finds in a BYE or DEL_CLIENT packet. -/
def ctrlNode (bytes : List UInt8) : ℕ := ofLE (slice bytes 4 4)

/-- The port that `qrtr_decode` finds in a DEL_CLIENT packet. -/
def ctrlPort (bytes : List UInt8) : ℕ := ofLE (slice bytes 8 4)

/-- The packet says that the client is gone. -/
def saysGone (bytes : List UInt8) (c : TftpClient) : Bool :=
  (ctrlType bytes = some typeBye && c.sq.node = ctrlNode bytes) ||
    (ctrlType bytes = some typeDelClient && c.sq = ⟨ctrlNode bytes, ctrlPort bytes⟩)

/-- The clients that are gone are forgotten, and the others are kept. -/
structure Forgets (bytes : List UInt8) (s s' : Tqftpserv) : Prop where
  writers : s'.writers = s.writers.filter fun c => !saysGone bytes c
  readers : s'.readers = s.readers.filter fun c => !saysGone bytes c

section Control

variable {b : Build} {s s' : Tqftpserv} {io : ServiceIo} {sq : Addr}

theorem reap_ok (gone : TftpClient → Bool) (cs : List TftpClient) : ∀ t,
    ∃ t', reap (fun c => .ok (gone c)) cs t = .ok (cs.filter (fun c => !gone c), t') := by
  induction cs with
  | nil => exact fun t => ⟨t, rfl⟩
  | cons c cs ih =>
      intro t
      cases hgone : gone c with
      | true =>
          obtain ⟨t', hrest⟩ := ih (clientClose t c)
          refine ⟨t', ?_⟩
          rw [reap, hgone, List.filter_cons_of_neg (by simp [hgone])]
          exact hrest
      | false =>
          obtain ⟨t', hrest⟩ := ih t
          refine ⟨t', ?_⟩
          rw [reap, hgone, List.filter_cons_of_pos (by simp [hgone])]
          simp only [hrest]

theorem reap_sublist {done : TftpClient → Except End Bool} (cs : List TftpClient) : ∀ {t kept t'},
    reap done cs t = .ok (kept, t') → kept.Sublist cs := by
  induction cs with
  | nil =>
      intro t kept t' h
      cases h
      exact List.Sublist.refl _
  | cons c cs ih =>
      intro t kept t' h
      rw [reap] at h
      rcases hdone : done c with e | _ | _
      · rw [hdone] at h
        cases h
      · rw [hdone] at h
        rcases hrest : reap done cs t with e | ⟨kept', t''⟩
        · simp only [hrest] at h
          cases h
        · simp only [hrest] at h
          cases h
          exact (ih hrest).cons_cons c
      · rw [hdone] at h
        exact (ih h).cons c

theorem serve_control {datagram : List UInt8} (hrecv : io.recv = .datagram sq datagram)
    (hport : sq.port = portCtrl)
    (h : serve b s io = .ok s') : ∃ type, ctrlType (datagram.take rrqBufSize) = some type ∧
    s'.readers = s.readers ∧
      s'.writers = s.writers.filter fun c =>
        !((type = typeBye && c.sq.node = sq.node) || (type = typeDelClient && c.sq = sq)) := by
  simp only [serve, hrecv] at h
  rw [if_pos hport] at h
  cases htype : ctrlType (datagram.take rrqBufSize) with
  | none =>
      rw [htype] at h
      cases h
  | some type =>
      simp only [htype] at h
      obtain ⟨t, hreap⟩ := reap_ok
        (fun c => (type = typeBye && c.sq.node = sq.node) || (type = typeDelClient && c.sq = sq))
        s.writers s.fds
      rw [hreap] at h
      cases h
      exact ⟨type, rfl, rfl, rfl⟩

theorem serveRrq_writers {buf : ℕ → UInt8} {len : ℕ} (h : serveRrq b io s buf len sq = .ok s') :
    s'.writers = s.writers := by
  unfold serveRrq at h
  rcases hparse : parseRrq buf len with f | _ | r
  · rw [hparse] at h
    cases h
  · rw [hparse] at h
    cases h
    rfl
  rw [hparse] at h
  rcases hopen : qrtrOpen io s.fds with ⟨_ | sock, t⟩
  · simp only [hopen] at h
    cases h
    rfl
  simp only [hopen] at h
  by_cases hconnect : io.connect = true
  swap
  · rw [if_neg hconnect] at h
    cases h
    rfl
  rw [if_pos hconnect] at h
  split at h
  · cases h
  · cases h
    rfl
  split_ifs at h
  · cases h
    rfl
  split at h
  · cases h
  · cases h
    rfl

theorem serveWrq_writers {buf : ℕ → UInt8} (h : serveWrq b io s buf sq = .ok s') :
    s'.writers = s.writers ∨ ∃ c, c.sq = sq ∧ s'.writers = s.writers ++ [c] := by
  unfold serveWrq at h
  split at h
  · cases h
  · cases h
    exact Or.inl rfl
  dsimp only at h
  split at h
  · cases h
  · cases h
    exact Or.inl rfl
  split at h
  · cases h
    exact Or.inl rfl
  split_ifs at h
  · cases h
    exact Or.inr ⟨_, rfl, rfl⟩
  · cases h
    exact Or.inl rfl
  · cases h
    exact Or.inl rfl

/-- A writer is not on the control port. -/
def Tqftpserv.NoCtrl (s : Tqftpserv) : Prop := ∀ c ∈ s.writers, c.sq.port ≠ portCtrl

theorem Tqftpserv.NoCtrl.serve (hs : s.NoCtrl) (h : serve b s io = .ok s') : s'.NoCtrl := by
  cases hrecv : io.recv with
  | error =>
      simp only [Tqftp.serve, hrecv] at h
      cases h
  | datagram sq datagram =>
      by_cases hport : sq.port = portCtrl
      · obtain ⟨type, -, -, hwriters⟩ := serve_control hrecv hport h
        intro c hc
        rw [hwriters] at hc
        exact hs c (List.mem_of_mem_filter hc)
      · simp only [Tqftp.serve, hrecv] at h
        rw [if_neg hport] at h
        split_ifs at h
        · cases h
          exact hs
        · rw [NoCtrl, serveRrq_writers h]
          exact hs
        · rcases serveWrq_writers h with hsame | ⟨c, hsq, hadded⟩
          · rw [NoCtrl, hsame]
            exact hs
          · intro c' hc'
            rw [hadded, List.mem_append, List.mem_singleton] at hc'
            rcases hc' with hc' | rfl
            · exact hs c' hc'
            · rw [hsq]
              exact hport
        · cases h
          exact hs

/-- What a round does: the clients first, then the service socket. -/
theorem mainLoop_cases {i : Round} (h : mainLoop b s i = .ok ((), s')) :
    (i.select = .interrupted ∧ s' = s) ∨ (i.select = .ready ∧ ∃ s₁,
      mainLoop b s { i with service := none } = .ok ((), s₁) ∧ s₁.writers.Sublist s.writers ∧
      ((i.service = none ∧ s' = s₁) ∨ ∃ io, i.service = some io ∧ serve b s₁ io = .ok s')) := by
  obtain ⟨select, writer, reader, service⟩ := i
  cases select with
  | interrupted =>
      cases h
      exact Or.inl ⟨rfl, rfl⟩
  | failed => cases h
  | ready =>
      refine Or.inr ⟨rfl, ?_⟩
      rcases hwriters : reap (Round.writerDone ⟨.ready, writer, reader, service⟩) s.writers s.fds
        with e | ⟨writers, t⟩
      · simp only [mainLoop, bind, Except.bind, hwriters] at h
        cases h
      rcases hreaders : reap (Round.readerDone ⟨.ready, writer, reader, service⟩) s.readers t
        with e | ⟨readers, t'⟩
      · simp only [mainLoop, bind, Except.bind, hwriters, hreaders] at h
        cases h
      have hwriters' : reap (Round.writerDone ⟨.ready, writer, reader, none⟩) s.writers s.fds =
          .ok (writers, t) :=
        hwriters
      have hreaders' : reap (Round.readerDone ⟨.ready, writer, reader, none⟩) s.readers t =
          .ok (readers, t') :=
        hreaders
      simp only [mainLoop, bind, Except.bind, hwriters, hreaders] at h
      refine ⟨{ s with fds := t', writers := writers, readers := readers }, ?_,
        reap_sublist _ hwriters, ?_⟩
      · simp only [mainLoop, bind, Except.bind, hwriters', hreaders']
        rfl
      cases service with
      | none =>
          cases h
          exact Or.inl ⟨rfl, rfl⟩
      | some io =>
          dsimp only at h
          split at h
          · cases h
          · rename_i s'' hserve
            cases h
            exact Or.inr ⟨io, rfl, hserve⟩

theorem Tqftpserv.NoCtrl.mainLoop {i : Round} (hs : s.NoCtrl) (h : mainLoop b s i = .ok ((), s')) :
    s'.NoCtrl := by
  obtain ⟨-, rfl⟩ | ⟨-, s₁, -, hsub, hrest⟩ := mainLoop_cases h
  · exact hs
  have hs₁ : s₁.NoCtrl := fun c hc => hs c (hsub.subset hc)
  obtain ⟨-, rfl⟩ | ⟨io, -, hserve⟩ := hrest
  · exact hs₁
  · exact hs₁.serve hserve

theorem noCtrl_of_run {inherited : Finset ℕ} {h : List (Round × Unit)}
    (hrun : Run (mainLoop b) (fun _ _ => True) (tqftpservInit inherited) h s) : s.NoCtrl := by
  refine @Run.invariant _ _ _ _ _ _ _ (fun _ s => s.NoCtrl) (fun c hc => (by cases hc)) ?_ _ _ hrun
  intro h s i o s' hs _ hstep
  exact hs.mainLoop hstep

theorem filter_eq_filter_iff {α : Type} {p q : α → Bool} {l : List α} :
    l.filter p = l.filter q ↔ ∀ x ∈ l, p x = q x := by
  constructor
  · intro h x hx
    rw [Bool.eq_iff_iff]
    constructor
    · intro hp
      exact List.of_mem_filter (h ▸ List.mem_filter.mpr ⟨hx, hp⟩)
    · intro hq
      exact List.of_mem_filter (h.symm ▸ List.mem_filter.mpr ⟨hx, hq⟩)
  · exact List.filter_congr

end Control

/-- **Dead peers are forgotten exactly when** none of the readers is said to be gone, and the
writers that are said to be gone are those on the node that a BYE was received from. -/
theorem forgets_iff (b : Build) (inherited : Finset ℕ) (h : List (Round × Unit))
    (s s' : Tqftpserv) (i : Round)
    (io : ServiceIo) (sq : Addr) (datagram : List UInt8)
    (hrun : Run (mainLoop b) (fun _ _ => True) (tqftpservInit inherited) h s)
    (hstep : mainLoop b s i = .ok ((), s')) (hready : i.select = .ready)
    (hservice : i.service = some io)
    (hrecv : io.recv = .datagram sq datagram) (hport : sq.port = portCtrl) :
    ∃ s₁, mainLoop b s { i with service := none } = .ok ((), s₁) ∧
      (Forgets (datagram.take rrqBufSize) s₁ s' ↔
        (∀ c ∈ s₁.readers, saysGone (datagram.take rrqBufSize) c = false) ∧
        ∀ c ∈ s₁.writers, (saysGone (datagram.take rrqBufSize) c = true ↔
          ctrlType (datagram.take rrqBufSize) = some typeBye ∧ c.sq.node = sq.node)) := by
  obtain ⟨hselect, -⟩ | ⟨-, s₁, hstep₁, hsub, hrest⟩ := mainLoop_cases hstep
  · rw [hready] at hselect
    cases hselect
  obtain ⟨hnone, -⟩ | ⟨io', hservice', hserve⟩ := hrest
  · rw [hservice] at hnone
    cases hnone
  obtain rfl : io = io' := Option.some.inj (hservice.symm.trans hservice')
  refine ⟨s₁, hstep₁, ?_⟩
  obtain ⟨type, htype, hreaders, hwriters⟩ := serve_control hrecv hport hserve
  have hctrl : ∀ c ∈ s₁.writers, c.sq ≠ sq := by
    intro c hc hsq
    refine noCtrl_of_run hrun c (hsub.subset hc) ?_
    rw [hsq, hport]
  have hR : s'.readers = s₁.readers.filter (fun c => !saysGone (datagram.take rrqBufSize) c) ↔
      ∀ c ∈ s₁.readers, saysGone (datagram.take rrqBufSize) c = false := by
    rw [hreaders, eq_comm, List.filter_eq_self]
    simp
  have hW : s'.writers = s₁.writers.filter (fun c => !saysGone (datagram.take rrqBufSize) c) ↔
      ∀ c ∈ s₁.writers, (saysGone (datagram.take rrqBufSize) c = true ↔
        ctrlType (datagram.take rrqBufSize) = some typeBye ∧ c.sq.node = sq.node) := by
    rw [hwriters, filter_eq_filter_iff]
    refine forall₂_congr fun c hc => ?_
    rw [Bool.not_inj_iff, eq_comm, Bool.eq_iff_iff, htype]
    simp [hctrl c hc]
  rw [← hR, ← hW]
  exact ⟨fun hf => ⟨hf.readers, hf.writers⟩, fun hf => ⟨hf.2, hf.1⟩⟩

/-- A round with a packet on the service socket only. -/
def serviceRound (io : ServiceIo) : Round := ⟨.ready, fun _ => none, fun _ => none, some io⟩

/-- A BYE for the node 0. -/
def byePacket : List UInt8 := toLE 4 typeBye ++ List.replicate 16 0

/-- It is received from the node 0. -/
def byeIo : ServiceIo := { wrqIo with recv := .datagram ⟨0, portCtrl⟩ byePacket }

/-- A writer on the node 0 is forgotten. -/
theorem forgets_writer :
    ∃ s s₁ s', Run (mainLoop .android) (fun _ _ => True) (tqftpservInit {0, 1, 2})
    [(serviceRound wrqIo, ())] s ∧ mainLoop .android s { serviceRound byeIo with service := none } =
      .ok ((), s₁) ∧
    mainLoop .android s (serviceRound byeIo) = .ok ((), s') ∧ s₁.writers = [sampleWriter] ∧
    Forgets byePacket s₁ s' := by
  have hrun : Run (mainLoop .android) (fun _ _ => True) (tqftpservInit {0, 1, 2})
      [(serviceRound wrqIo, ())] _ :=
    Run.nil.snoc trivial rfl
  obtain ⟨s₁, hstep₁, hiff⟩ :=
    forgets_iff .android {0, 1, 2} _ _ _ (serviceRound byeIo) byeIo ⟨0, portCtrl⟩ byePacket
    hrun rfl rfl rfl rfl rfl
  have hs₁ := hstep₁
  cases hs₁
  refine ⟨_, _, _, hrun, hstep₁, rfl, rfl, hiff.mpr ⟨?_, ?_⟩⟩
  · intro c hc
    cases hc
  · intro c hc
    cases List.mem_singleton.mp hc
    decide

/-- A reader on the node 0 is not. -/
theorem not_forgets_reader :
    ∃ s s', Run (mainLoop .android) (fun _ _ => True) (tqftpservInit {0, 1, 2})
    [(rrqRound true, ())] s ∧ mainLoop .android s (serviceRound byeIo) = .ok ((), s') ∧
    s'.readers = s.readers ∧ s.readers.map (fun c => saysGone byePacket c) = [true] ∧
    ¬ Forgets byePacket s s' := by
  have hrun : Run (mainLoop .android) (fun _ _ => True) (tqftpservInit {0, 1, 2})
      [(rrqRound true, ())] _ :=
    Run.nil.snoc trivial rfl
  refine ⟨_, _, hrun, rfl, rfl, rfl, fun h => ?_⟩
  have hreaders := congrArg List.length h.readers
  revert hreaders
  decide

end Imola.Tqftp
