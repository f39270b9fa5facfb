import Imola.Runs
import Imola.QrtrNs

/-! # The main loop of the name service

`main` of `ns.c` gives a waiter a ticket for the control socket, with `ctrl_port_fn` as its
callback, and waits until the socket is closed.  `waiter_wait` of `waiter.c` polls the descriptors
of all tickets until the first timer runs out, and then marks the tickets that are due and calls
their callbacks.  A ticket that is marked is not called again before it is cleared.

The other modules speak of the runs of `ctrlPortFn`.  By `main_serves` such a run is found in every
run of the main loop: each report of the socket is answered by one datagram handled, in the order of
their arrival. -/

namespace Imola.Qrtr

open Imola.Runs

variable {κ σ : Type}

/-! ### The array of descriptors -/

/-- `enum waiter_type`, with the field of the union that belongs to it. -/
inductive TicketKind where
  | null
  | fd (filedes : ℤ)
  | timeout (interval : UInt32)
deriving DecidableEq, Repr

/-- `struct waiter_ticket`; the callback is named by a `κ`. -/
structure Ticket (κ : Type) where
  kind : TicketKind
  callback : Option κ
  start : UInt64
  updated : Bool
deriving DecidableEq, Repr

/-- `struct pollset`, with the number of descriptors that it has room for.  No cause is `-1`. -/
structure Pollset where
  room : ℕ
  fds : List ℤ
  cause : Option ℕ
deriving DecidableEq, Repr

/-- `struct waiter`.  A ticket is found by its place. -/
structure Waiter (κ : Type) where
  tickets : List (Ticket κ)
  pollset : Option Pollset
  count : ℕ
deriving DecidableEq, Repr

inductive WaitFault where
  /-- The waiter has no array of descriptors. -/
  | nullPollset
  /-- A descriptor is stored behind the end of the array. -/
  | overrun
  /-- A callback is set in a ticket that was not allocated. -/
  | nullTicket
deriving DecidableEq, Repr

/-- `pollset_create`. -/
def pollsetCreate (count : ℕ) : Pollset := ⟨count, [], some 0⟩

/-- `pollset_reset`. -/
def pollsetReset (ps : Pollset) : Pollset := { ps with fds := [] }

/-- `pollset_add_fd`. -/
def pollsetAddFd (ps : Pollset) (fd : ℤ) : Except WaitFault Pollset :=
  if ps.fds.length < ps.room then .ok { ps with fds := ps.fds ++ [fd] } else .error .overrun

/-- What one wait meets: the clock, the result of `poll`, and the clock afterwards. -/
structure WaitIo where
  now : UInt64
  rc : ℤ
  revents : ℕ → UInt16
  later : UInt64

/-- `pollset_wait`; `POLLERR | POLLIN` is 9. -/
def pollsetWait (ps : Pollset) (io : WaitIo) : ℤ × Pollset :=
  if io.rc ≤ 0 then (io.rc, ps)
  else (io.rc,
    { ps with cause := (List.range ps.fds.length).find? fun i => io.revents i &&& 9 ≠ 0 })

/-- `pollset_cause_fd`. -/
def pollsetCauseFd (ps : Pollset) (fd : ℤ) : Bool :=
  match ps.cause with
  | none => false
  | some i => ps.fds[i]? = some fd

/-! ### `waiter_wait` -/

/-- When a ticket with an interval is due; the sum is one of 64 bits. -/
def Ticket.deadline (t : Ticket κ) (interval : UInt32) : UInt64 := t.start + interval.toUInt64

/-- The first loop: the array and `term_time`. -/
def scanTickets : Pollset → UInt64 → List (Ticket κ) → Except WaitFault (Pollset × UInt64)
  | ps, term, [] => .ok (ps, term)
  | ps, term, t :: rest =>
      match t.kind with
      | .timeout interval =>
          scanTickets ps (if t.deadline interval < term then t.deadline interval else term) rest
      | .fd filedes =>
          match pollsetAddFd ps filedes with
          | .ok ps => scanTickets ps term rest
          | .error e => .error e
      | .null => scanTickets ps term rest

/-- Whether a ticket is due, and the ticket with its new start. -/
def due (ps : Pollset) (rc : ℤ) (now : UInt64) (t : Ticket κ) : Bool × Ticket κ :=
  match t.kind with
  | .timeout interval =>
      if now ≥ t.deadline interval then (true, { t with start := now }) else (false, t)
  | .fd filedes => (decide (rc ≠ 0) && pollsetCauseFd ps filedes, t)
  | .null => (false, t)

/-- The second loop, for one ticket. -/
def fire (call : κ → Ticket κ → σ → Ticket κ × σ) (ps : Pollset) (rc : ℤ) (now : UInt64)
    (t : Ticket κ) (s : σ) :
    Ticket κ × σ :=
  let d := due ps rc now t
  if d.1 && !d.2.updated then
    let t' := { d.2 with updated := true }
    match t'.callback with
    | none => (t', s)
    | some k => call k t' s
  else (d.2, s)

/-- The second loop. -/
def fireAll (call : κ → Ticket κ → σ → Ticket κ × σ) (ps : Pollset) (rc : ℤ) (now : UInt64) :
    List (Ticket κ) → σ → List (Ticket κ) × σ
  | [], s => ([], s)
  | t :: rest, s =>
      let f := fire call ps rc now t s
      let r := fireAll call ps rc now rest f.2
      (f.1 :: r.1, r.2)

/-- `waiter_wait`, for callbacks that change their own ticket only.  Without a timer, or before the
first one runs out, `poll` is called. -/
def waiterWait (call : κ → Ticket κ → σ → Ticket κ × σ) (io : WaitIo) (w : Waiter κ) (s : σ) :
    Except WaitFault (Waiter κ × σ) :=
  match w.pollset with
  | none => .error .nullPollset
  | some ps =>
      match scanTickets (pollsetReset ps) 0xffffffffffffffff w.tickets with
      | .error e => .error e
      | .ok (ps, term) =>
          let r := if term = 0xffffffffffffffff ∨ io.now < term then pollsetWait ps io else (0, ps)
          if r.1 < 0 then .ok ({ w with pollset := some r.2 }, s)
          else
            let f := fireAll call r.2 r.1 io.later w.tickets s
            .ok ({ w with tickets := f.1, pollset := some r.2 }, f.2)

/-- `waiter_create`. -/
def waiterCreate : Waiter κ := ⟨[], none, 0⟩

/-- `waiter_add_null`, given whether the ticket and the array can be allocated: whether the caller
gets the ticket, which is the last one.  Without an array the ticket stays in the list. -/
def waiterAddNull (ticket pollset : Bool) (w : Waiter κ) : Bool × Waiter κ :=
  if ticket = false then (false, w)
  else
    let tickets := w.tickets ++ [⟨.null, none, 0, false⟩]
    if w.count % 32 = 0 then
      if pollset then (true, ⟨tickets, some (pollsetCreate (w.count + 33)), w.count + 1⟩)
      else (false, ⟨tickets, none, w.count⟩)
    else (true, ⟨tickets, w.pollset, w.count + 1⟩)

/-- The ticket at a place is changed. -/
def Waiter.modify (w : Waiter κ) (i : ℕ) (f : Ticket κ → Ticket κ) : Waiter κ :=
  { w with tickets := w.tickets.modify i f }

/-- `waiter_add_fd`. -/
def waiterAddFd (ticket pollset : Bool) (fd : ℤ) (w : Waiter κ) : Bool × Waiter κ :=
  let r := waiterAddNull ticket pollset w
  if r.1 then (true, r.2.modify w.tickets.length fun t => { t with kind := .fd fd }) else r

/-- `waiter_ticket_callback`. -/
def Ticket.setCallback (k : κ) (t : Ticket κ) : Ticket κ := { t with callback := some k }

/-- `waiter_ticket_clear`. -/
def Ticket.clear (t : Ticket κ) : Ticket κ := { t with updated := false }

/-! ### The main loop -/

/-- `struct context` and the map of the nodes, with the datagrams that were handled and what was
sent. -/
structure Context where
  ns : Ns
  sock : ℤ
  log : List (Input × List Sent)

/-- `ctrl_port_fn`; `inputs` are the results of the calls of `recvfrom`. -/
def Context.serve (inputs : ℕ → Input) (ctx : Context) : Context :=
  match ctrlPortFn ctx.ns (inputs ctx.log.length) with
  | .ok (out, ns) => ⟨ns, ctx.sock, ctx.log ++ [(inputs ctx.log.length, out)]⟩
  | .error _ => { ctx with sock := -1 }

/-- `ctrl_port_fn` as a callback, which clears its ticket at the end. -/
def ctrlPortCallback (inputs : ℕ → Input) (_ : Unit) (t : Ticket Unit) (ctx : Context) :
    Ticket Unit × Context :=
  (t.clear, ctx.serve inputs)

/-- `while (ctx.sock >= 0) waiter_wait(w)`, for the given results of `poll`. -/
def mainLoop (inputs : ℕ → Input) :
    List WaitIo → Waiter Unit → Context → Except WaitFault (Waiter Unit × Context)
  | [], w, ctx => .ok (w, ctx)
  | io :: ios, w, ctx =>
      if ctx.sock ≥ 0 then
        match waiterWait (ctrlPortCallback inputs) io w ctx with
        | .error e => .error e
        | .ok (w, ctx) => mainLoop inputs ios w ctx
      else .ok (w, ctx)

/-- `main`, from where it has said hello and is in the background. -/
def nsMain (ticket pollset : Bool) (localNode : UInt32) (sock : ℤ) (inputs : ℕ → Input)
    (ios : List WaitIo) :
    Except WaitFault (Waiter Unit × Context) :=
  let r := waiterAddFd ticket pollset sock waiterCreate
  if r.1 then mainLoop inputs ios (r.2.modify 0 (Ticket.setCallback ()))
    ⟨nsInit localNode, sock, []⟩
  else .error .nullTicket

/-! ### One wait -/

/-- `poll` reports the socket. -/
def ready (io : WaitIo) : Bool := decide (0 < io.rc) && decide (io.revents 0 &&& 9 ≠ 0)

/-- The waiter of the main loop between two waits: its ticket is not marked. -/
structure Waits (sock : ℤ) (w : Waiter Unit) : Prop where
  tickets : w.tickets = [⟨.fd sock, some (), 0, false⟩]
  pollset : ∃ ps, w.pollset = some ps ∧ 0 < ps.room

section Loop

variable {sock : ℤ} {w : Waiter Unit} {ctx : Context} {inputs : ℕ → Input}
    {localNode : UInt32} {k : ℕ}

theorem fireAll_sock (ps : Pollset) (hfds : ps.fds = [sock]) (rc : ℤ) (now : UInt64)
    (ctx : Context) :
    fireAll (ctrlPortCallback inputs) ps rc now [⟨.fd sock, some (), 0, false⟩] ctx =
      ([⟨.fd sock, some (), 0, false⟩], if rc ≠ 0 ∧ ps.cause = some 0 then ctx.serve inputs
        else ctx) := by
  have hcause : pollsetCauseFd ps sock = decide (ps.cause = some 0) := by
    unfold pollsetCauseFd
    cases ps.cause with
    | none => rfl
    | some i =>
        rw [hfds]
        cases i with
        | zero => simp
        | succ i => simp
  simp only [fireAll, fire, due, hcause, Bool.not_false, Bool.and_true]
  by_cases hfires : rc ≠ 0 ∧ ps.cause = some 0
  · rw [if_pos hfires, if_pos (by simpa using hfires)]
    rfl
  · rw [if_neg hfires, if_neg (by simpa using hfires)]

/-- **One wait** handles one datagram if the socket is reported, and else nothing. -/
theorem Waits.wait (h : Waits sock w) (io : WaitIo) (ctx : Context) : ∃ w',
    waiterWait (ctrlPortCallback inputs) io w ctx =
      .ok (w', if ready io then ctx.serve inputs else ctx) ∧ Waits sock w' := by
  obtain ⟨ps, hps, hroom⟩ := h.pollset
  have hscan : scanTickets (pollsetReset ps) 0xffffffffffffffff w.tickets =
      .ok (⟨ps.room, [sock], ps.cause⟩, 0xffffffffffffffff) := by
    simp [h.tickets, scanTickets, pollsetReset, pollsetAddFd, hroom]
  simp only [waiterWait, hps, hscan, true_or, if_true]
  by_cases hrc : io.rc ≤ 0
  · have hready : ready io = false := by
      rw [ready, decide_eq_false (not_lt.mpr hrc), Bool.false_and]
    simp only [pollsetWait, if_pos hrc, hready, Bool.false_eq_true, if_false]
    by_cases hneg : io.rc < 0
    · rw [if_pos hneg]
      exact ⟨_, rfl, h.tickets, _, rfl, hroom⟩
    · have hidle : ¬(io.rc ≠ 0 ∧ ps.cause = some 0) :=
        fun hno => hno.1 (le_antisymm hrc (not_lt.mp hneg))
      rw [if_neg hneg, h.tickets, fireAll_sock _ rfl, if_neg hidle]
      exact ⟨_, rfl, rfl, _, rfl, hroom⟩
  · have hcause : ((List.range 1).find? fun i => decide (io.revents i &&& 9 ≠ 0)) =
        some 0 ↔ io.revents 0 &&& 9 ≠ 0 := by
      by_cases hev : io.revents 0 &&& 9 ≠ 0
      · simp [List.range_succ, hev]
      · simp [List.range_succ, not_not.mp hev]
    have hready : ready io = true ↔ io.rc ≠ 0 ∧ io.revents 0 &&& 9 ≠ 0 := by
      rw [ready, Bool.and_eq_true, decide_eq_true_iff, decide_eq_true_iff]
      exact and_congr_left fun _ => ⟨fun hpos => hpos.ne', fun _ => not_le.mp hrc⟩
    simp only [pollsetWait, if_neg hrc, List.length_singleton]
    rw [if_neg fun hneg => hrc hneg.le, h.tickets, fireAll_sock _ rfl]
    simp only [hcause, ← hready]
    exact ⟨_, rfl, rfl, _, rfl, hroom⟩

/-! ### The run of the name service -/

/-- After `k` reports of the socket: the datagrams are handled in their order, one for each report,
until no datagram can be received. -/
structure Served (localNode : UInt32) (sock : ℤ) (inputs : ℕ → Input) (k : ℕ) (ctx : Context) :
    Prop where
  run : Run ctrlPortFn (fun _ _ => True) (nsInit localNode) ctx.log ctx.ns
  order : ctx.log.map Prod.fst = (List.range ctx.log.length).map inputs
  reports : ctx.sock = sock ∧ ctx.log.length = k ∨
    ctx.sock = -1 ∧ ctrlPortFn ctx.ns (inputs ctx.log.length) = .error .closed ∧ ctx.log.length < k

theorem Served.serve (h : Served localNode sock inputs k ctx) (hsock : 0 ≤ ctx.sock) :
    Served localNode sock inputs (k + 1) (ctx.serve inputs) := by
  have hopen : ctx.sock = sock ∧ ctx.log.length = k := by
    rcases h.reports with hopen | ⟨hclosed, -⟩
    · exact hopen
    · rw [hclosed] at hsock
      exact absurd hsock (by decide)
  cases hstep : ctrlPortFn ctx.ns (inputs ctx.log.length) with
  | ok r =>
      simp only [Context.serve, hstep]
      refine ⟨h.run.snoc trivial hstep, ?_, Or.inl ⟨hopen.1, ?_⟩⟩
      · rw [List.map_append, h.order, List.length_append, List.length_singleton, List.range_succ,
          List.map_append]
        rfl
      · rw [List.length_append, hopen.2]
        rfl
  | error e =>
      simp only [Context.serve, hstep]
      exact ⟨h.run, h.order, Or.inr ⟨rfl, hstep, hopen.2.trans_lt (Nat.lt_succ_self k)⟩⟩

/-- After the socket is closed, reports do not matter. -/
theorem Served.closed (h : Served localNode sock inputs k ctx) (hsock : 0 ≤ sock)
    (hclosed : ¬ ctx.sock ≥ 0) (n : ℕ) :
    Served localNode sock inputs (k + n) ctx := by
  refine ⟨h.run, h.order, Or.inr ?_⟩
  rcases h.reports with ⟨hopen, -⟩ | ⟨hneg, hstep, hlt⟩
  · exact absurd (hopen.symm ▸ hsock) hclosed
  · exact ⟨hneg, hstep, Nat.lt_add_right n hlt⟩

theorem mainLoop_served (hsock : 0 ≤ sock) (ios : List WaitIo) :
    ∀ {w : Waiter Unit} {ctx : Context} {k : ℕ}, Waits sock w →
    Served localNode sock inputs k ctx → ∃ w' ctx', mainLoop inputs ios w ctx = .ok (w', ctx') ∧
      Served localNode sock inputs (k + (ios.filter ready).length) ctx' := by
  induction ios with
  | nil => exact fun _ hserved => ⟨_, _, rfl, hserved⟩
  | cons io ios ih =>
      intro w ctx k hwaits hserved
      rw [mainLoop]
      by_cases hopen : ctx.sock ≥ 0
      · obtain ⟨w', hwait, hwaits'⟩ := @Waits.wait sock w inputs hwaits io ctx
        rw [if_pos hopen, hwait]
        cases hready : ready io with
        | false =>
            rw [List.filter_cons_of_neg (by rw [hready]; exact Bool.false_ne_true)]
            exact ih hwaits' hserved
        | true =>
            rw [List.filter_cons_of_pos hready, List.length_cons, Nat.add_comm _ 1, ← Nat.add_assoc]
            exact ih hwaits' (hserved.serve hopen)
      · rw [if_neg hopen]
        exact ⟨w, ctx, rfl, hserved.closed hsock hopen _⟩

/-- **The main loop serves**: whatever `poll` and `recvfrom` return, it comes to no fault, the
datagrams that are handled make a run of `ctrl_port_fn` and are those received first, and there are
as many of them as the socket was reported, or less, and then the socket was closed because none
could be received. -/
theorem main_serves (localNode : UInt32) (hsock : 0 ≤ sock) (inputs : ℕ → Input)
    (ios : List WaitIo) :
    ∃ w ctx, nsMain true true localNode sock inputs ios = .ok (w, ctx) ∧
      Served localNode sock inputs (ios.filter ready).length ctx := by
  have hwaits : Waits sock ((waiterAddFd true true sock waiterCreate).2.modify 0
      (Ticket.setCallback ())) :=
    ⟨rfl, _, rfl, Nat.succ_pos 32⟩
  have hserved : Served localNode sock inputs 0 ⟨nsInit localNode, sock, []⟩ :=
    ⟨.nil, rfl, Or.inl ⟨rfl, rfl⟩⟩
  have hloop := mainLoop_served hsock ios hwaits hserved
  rw [Nat.zero_add] at hloop
  exact hloop

/-- The socket is reported, a wait is interrupted, and the socket is reported again. -/
def threeWaits : List WaitIo :=
  [⟨0, 1, fun _ => 1, 0⟩, ⟨0, -1, fun _ => 0, 0⟩, ⟨0, 1, fun _ => 1, 0⟩]

theorem main_serves_threeWaits : ∃ w ctx, nsMain true true 1 3
    (fun _ => packet ⟨2, 7⟩ [4, 1, 0, 2, 7]) threeWaits = .ok (w, ctx) ∧
    Served 1 3 (fun _ => packet ⟨2, 7⟩ [4, 1, 0, 2, 7]) 2 ctx :=
  main_serves 1 (by decide) _ threeWaits

end Loop

end Imola.Qrtr
