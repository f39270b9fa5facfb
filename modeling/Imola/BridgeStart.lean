import Imola.BridgeRequests

/-! # The start of `imola-bridge`

After `$/register` has been sent, `main` takes whatever one `read` returns for the reply, and enters
the request loop with an empty buffer.  `bridgeMain` is that read followed by the loop.

A request whose first bytes come with that read is lost.  `replies_of_suffix_ne` says that nothing
makes up for it: from a proper end of a list of requests the loop never answers all of them.  What
the first read leaves of the reply is skipped if it holds no `0x94 0x00`.  So the requests are then
all executed and answered exactly when the first read stops within the reply
(`bridgeMain_served_iff`). With a `0x94 0x00` the loop may answer bytes of the reply
(`not_served_of_request`). -/

namespace Imola.Bridge

open Imola.Streams Imola.Bytes

/-- `main` from the registration on, on the results of successive reads. -/
def bridgeMain : List (List UInt8) → LoopState
  | [] => .init
  | _ :: cs => mainLoop .init cs

/-- The results the read of the reply and the reads of the loop can have. -/
def StartReads : List (List UInt8) → Prop
  | [] => True
  | c :: cs => c ≠ [] ∧ c.length ≤ bufSize ∧ Reads .init cs

/-- A request `[0, id, "set_pin_by_name", [pin, v]]`. -/
structure PinRequest where
  format : IdFormat
  id : ℕ
  id_lt : id < format.bound
  pin : FixStr
  val : WireVal
deriving Repr

namespace PinRequest

def wire (q : PinRequest) : WireRequest :=
  ⟨q.format, q.id, q.id_lt, ⟨setPinByName, setPinByName_length_le, setPinByName_nul_free⟩,
    .pinVal q.pin q.val⟩

/-- The requests, one after the other. -/
def bytes (qs : List PinRequest) : List UInt8 := qs.flatMap fun q => q.wire.encode

/-- The requests are executed and answered, each once and in order. -/
def Served (qs : List PinRequest) (log : List Event) : Prop :=
  log.filterMap Event.pinAction? = qs.map (fun q => (q.pin.bytes, q.val.val)) ∧
    log.filterMap Event.reply? = qs.map fun q => encodeResponse q.id

instance (qs : List PinRequest) (log : List Event) : Decidable (Served qs log) :=
  inferInstanceAs (Decidable (_ ∧ _))

/-- The bytes of a request in front of its value. -/
def front (q : PinRequest) : List UInt8 := 0xaf :: (setPinByName ++ 0x92 :: q.pin.encode)

/-- The bytes of a request behind its id. -/
def body (q : PinRequest) : List UInt8 := q.front ++ q.val.encode

theorem encode_eq (q : PinRequest) :
    q.wire.encode = 0x94 :: 0x00 :: (q.format.encode q.id ++ q.body) := by
  have hheader : (0xa0 : UInt8) ||| UInt8.ofNat setPinByName.length = 0xaf := by decide
  simp [wire, WireRequest.encode, FixStr.encode, Params.encode, body, front, hheader]

theorem bytes_cons (q : PinRequest) (qs : List PinRequest) :
    bytes (q :: qs) = 0x94 :: 0x00 :: (q.format.encode q.id ++ (q.body ++ bytes qs)) := by
  rw [bytes, List.flatMap_cons, encode_eq]
  simp [bytes]

theorem head_bytes {qs : List PinRequest} {a : UInt8} {r : List UInt8} (h : bytes qs = a :: r) :
    a = 0x94 := by
  cases qs with
  | nil => cases h
  | cons q qs =>
      rw [bytes_cons] at h
      cases h
      rfl

theorem processBuffer_bytes (qs : List PinRequest) :
    (processBuffer (bytes qs)).1 = qs.map fun q => q.wire.request := by
  have h := processBuffer_stream (qs.map fun q => (⟨[], .nil⟩, q.wire))
  rw [Stream.bytes, List.flatMap_map, List.map_map] at h
  exact h

end PinRequest

open PinRequest

/-! ### What follows the id of a request -/

section Ends

variable {q : PinRequest} {qs : List PinRequest}

theorem suffix_append_cases {t u v : List UInt8} (h : t <:+ u ++ v) :
    t <:+ v ∨ ∃ s, s <:+ u ∧ t = s ++ v := by
  obtain ⟨w, hw⟩ := h
  cases List.append_eq_append_iff.mp hw with
  | inl h =>
      obtain ⟨s, rfl, rfl⟩ := h
      exact .inr ⟨s, List.suffix_append _ _, rfl⟩
  | inr h =>
      obtain ⟨s, -, rfl⟩ := h
      exact .inl (List.suffix_append _ _)

theorem mem_or_suffix_of_cons_suffix_append {b : UInt8} {r u v : List UInt8}
    (h : b :: r <:+ u ++ v) :
    b ∈ u ∨ b :: r <:+ v := by
  obtain hv | ⟨s, hs, heq⟩ := suffix_append_cases h
  · exact .inr hv
  · cases s with
    | nil => exact .inr (heq ▸ List.suffix_refl _)
    | cons c s =>
        cases heq
        exact .inl (hs.subset List.mem_cons_self)

theorem zero_not_mem_front (q : PinRequest) : 0 ∉ q.front := by
  have hheader : ∀ n < 32, (0xa0 : UInt8) ||| UInt8.ofNat n ≠ 0 := by decide
  have hle := q.pin.length_le
  simp only [front, FixStr.encode, List.mem_cons, List.mem_append, not_or]
  exact ⟨by decide, setPinByName_nul_free, by decide, (hheader _ (by omega)).symm, q.pin.nul_free⟩

/-- Behind the id, a mark can only be made by the last two bytes. -/
theorem body_mark {a b : UInt8} {r : List UInt8} (h : a :: b :: r <:+ q.body)
    (hmark : syncMark a b = true) : r = [] := by
  obtain ⟨rfl, rfl⟩ : a = 0x94 ∧ b = 0x00 := by simpa [syncMark] using hmark
  cases mem_or_suffix_of_cons_suffix_append ((List.suffix_cons _ _).trans h) with
  | inl hmem => exact absurd hmem (zero_not_mem_front q)
  | inr hval =>
      cases hv : q.val <;> simp_all [WireVal.encode, List.suffix_cons_iff]

/-- A mark directly in front of the requests is dropped: `0x94` is no message id. -/
theorem processBuffer_mark_bytes :
    (processBuffer (0x94 :: 0x00 :: bytes qs)).1 = (processBuffer (0x00 :: bytes qs)).1 := by
  cases qs with
  | nil => rfl
  | cons q qs =>
      apply parseRpcRequest_framed.drain_reject_cons
      rw [bytes_cons, parseRpcRequest_long (by simp)]
      rfl

theorem processBuffer_body {t : List UInt8} (ht : t <:+ q.body) :
    (processBuffer (t ++ bytes qs)).1 = (processBuffer (bytes qs)).1 := by
  induction t with
  | nil => rfl
  | cons a t ih =>
      rw [← ih ((List.suffix_cons a t).trans ht), List.cons_append]
      cases hrest : t ++ bytes qs with
      | nil => rfl
      | cons b r =>
          by_cases hmark : syncMark a b = true
          · obtain ⟨rfl, rfl⟩ : a = 0x94 ∧ b = 0x00 := by simpa [syncMark] using hmark
            cases t with
            | nil => exact absurd (head_bytes hrest) (by decide)
            | cons b t =>
                cases hrest
                rw [body_mark ht hmark]
                exact processBuffer_mark_bytes
          · exact parseRpcRequest_framed.drain_unmarked r (by simpa using hmark)

/-! ### Marks inside the id -/

theorem decodeMsgId_done {b : UInt8} {r s : List UInt8} {id : ℕ}
    (h : decodeMsgId (b :: r) = .done id s) :
    (b ≤ 0x7f ∧ id = b.toNat) ∨ (b = 0xcc ∧ id = ofBE (r.take 1)) ∨
      (b = 0xcd ∧ id = ofBE (r.take 2)) ∨ (b = 0xce ∧ id = ofBE (r.take 4)) := by
  have htake : ∀ {n : ℕ}, (do return ofBE (← Parser.takeN n) : Parser UInt8 ℕ) r = .done id s →
      id = ofBE (r.take n) := by
    intro n hn
    obtain ⟨x, s', hx, hid⟩ := bind_done.mp hn
    unfold Parser.takeN at hx
    split_ifs at hx
    cases hx
    cases hid
    rfl
  rw [decodeMsgId, bind_of_done (rfl : Parser.item (b :: r) = _)] at h
  split_ifs at h with h₁ h₂ h₃ h₄
  · cases h
    exact .inl ⟨h₁, rfl⟩
  · exact .inr (.inl ⟨h₂, htake h⟩)
  · exact .inr (.inr (.inl ⟨h₃, htake h⟩))
  · exact .inr (.inr (.inr ⟨h₄, htake h⟩))
  · cases h

theorem decodeMsgId_lt {x s : List UInt8} {id : ℕ} (h : decodeMsgId x = .done id s) :
    id < 2 ^ 32 := by
  have htake : ∀ (n : ℕ) (r : List UInt8), n ≤ 4 → ofBE (r.take n) < 2 ^ 32 := by
    intro n r hn
    have hlen : (r.take n).length ≤ 4 := (List.length_take_le n r).trans hn
    calc ofBE (r.take n) < 256 ^ (r.take n).length := ofBE_lt _
      _ ≤ 256 ^ 4 := Nat.pow_le_pow_right (by decide) hlen
  cases x with
  | nil => cases h
  | cons b r =>
      obtain ⟨-, rfl⟩ | ⟨-, rfl⟩ | ⟨-, rfl⟩ | ⟨-, rfl⟩ := decodeMsgId_done h
      · exact b.toNat_lt.trans (by decide)
      · exact htake 1 r (by decide)
      · exact htake 2 r (by decide)
      · exact htake 4 r (by decide)

theorem decodeMsgId_length_lt {x s : List UInt8} {id : ℕ} (h : decodeMsgId x = .done id s) :
    s.length < x.length := by
  refine item_bind_length_lt (fun b => ?_) h
  split_ifs
  · exact Stable.pure _
  · exact (Stable.takeN 1).bind fun _ => Stable.pure _
  · exact (Stable.takeN 2).bind fun _ => Stable.pure _
  · exact (Stable.takeN 4).bind fun _ => Stable.pure _
  · exact Stable.fail

/-- Where a mark can lie in the bytes of an id, and what this says about the id. -/
theorem IdFormat.encode_mark {f : IdFormat} {id : ℕ} {v : List UInt8} (hid : id < f.bound)
    (h : 0x94 :: 0x00 :: v <:+ 0x00 :: f.encode id) :
    v = [] ∨ (∃ b, v = [b] ∧ id % 2 ^ 24 = 0x940000 + b.toNat) ∨
      ∃ b c, v = [b, c] ∧ id = 0x94000000 + b.toNat * 256 + c.toNat := by
  have hbyte : ∀ {a : UInt8} {n : ℕ}, a = UInt8.ofNat n → n % 256 = a.toNat := by
    rintro _ n rfl
    simp
  cases f with
  | fixint => simp [IdFormat.encode, List.suffix_cons_iff] at h
  | uint8 => simp [IdFormat.encode, toBE, toLE, List.suffix_cons_iff] at h
  | uint16 =>
      simp [IdFormat.encode, toBE, toLE, List.suffix_cons_iff] at h
      exact .inl h.2.2
  | uint32 =>
      simp only [IdFormat.bound] at hid
      simp [IdFormat.encode, toBE, toLE, List.suffix_cons_iff] at h
      obtain ⟨h₁, h₂, rfl⟩ | ⟨h₁, h₂, rfl⟩ | ⟨-, -, rfl⟩ := h
      · have h₁ := hbyte h₁
        have h₂ := hbyte h₂
        refine .inr (.inr ⟨_, _, rfl, ?_⟩)
        simp at h₁ h₂ ⊢
        omega
      · have h₁ := hbyte h₁
        have h₂ := hbyte h₂
        refine .inr (.inl ⟨_, rfl, ?_⟩)
        simp at h₁ h₂ ⊢
        omega
      · exact .inl rfl

/-- An id read from a mark inside the id of a request is another one. -/
theorem decodeMsgId_mark_ne {v y s : List UInt8} {id : ℕ}
    (hmark : 0x94 :: 0x00 :: v <:+ 0x00 :: q.format.encode q.id)
    (h : decodeMsgId (v ++ (q.body ++ y)) = .done id s) : v.length ≤ 2 ∧ id ≠ q.id := by
  obtain ⟨z, hz⟩ : ∃ z, q.body ++ y = 0xaf :: 0x73 :: 0x65 :: 0x74 :: z := ⟨_, rfl⟩
  rw [hz] at h
  obtain rfl | ⟨b, rfl, hid⟩ | ⟨b, c, rfl, hid⟩ := IdFormat.encode_mark q.id_lt hmark
  · cases h
  · refine ⟨by simp, ?_⟩
    obtain ⟨hb, rfl⟩ | ⟨rfl, rfl⟩ | ⟨rfl, rfl⟩ | ⟨rfl, rfl⟩ := decodeMsgId_done h
    · have := b.toNat_lt
      omega
    · simp [ofBE, ofLE] at hid ⊢
      omega
    · simp [ofBE, ofLE] at hid ⊢
      omega
    · simp [ofBE, ofLE] at hid ⊢
      omega
  · refine ⟨le_rfl, ?_⟩
    have hb := b.toNat_lt
    have hc := c.toNat_lt
    obtain ⟨-, rfl⟩ | ⟨rfl, rfl⟩ | ⟨rfl, rfl⟩ | ⟨rfl, rfl⟩ := decodeMsgId_done h
    · omega
    · simp [ofBE, ofLE] at hid ⊢
      omega
    · simp [ofBE, ofLE] at hid ⊢
      omega
    · simp [ofBE, ofLE] at hid ⊢
      omega

theorem parseRpcRequest_done {m n : ℕ} {a b : UInt8} {z r : List UInt8} {p : Request}
    (h : parseRpcRequest m n (a :: b :: z) = .done p r) :
    ∃ s, decodeMsgId z = .done p.msgId s ∧ r <:+ z ∧ r.length + 2 ≤ z.length := by
  have hguard : ∀ {c : Bool} {x s : List UInt8}, Parser.guard c x = .done () s → s = x := by
    intro c x s hc
    unfold Parser.guard at hc
    split_ifs at hc
    cases hc
    rfl
  by_cases hlen : 4 ≤ (a :: b :: z).length
  · rw [parseRpcRequest_long hlen] at h
    obtain ⟨_, _, h₁, h⟩ := bind_done.mp h
    rw [hguard h₁, bind_of_done (rfl : Parser.item (b :: z) = _)] at h
    obtain ⟨_, _, h₂, h⟩ := bind_done.mp h
    rw [hguard h₂] at h
    obtain ⟨id, s, hid, h⟩ := bind_done.mp h
    obtain ⟨method, t, hmethod, h⟩ := bind_done.mp h
    obtain ⟨count, u, hcount, h⟩ := bind_done.mp h
    obtain ⟨pin, v, hpin, h⟩ := bind_done.mp h
    obtain ⟨val, w, hval, h⟩ := bind_done.mp h
    cases h
    have hrest : r <:+ t := ((decodeParamVal_stable _).rest_suffix hval).trans
      (((decodePin_stable _ _).rest_suffix hpin).trans (decodeFixarray_stable.rest_suffix hcount))
    have hstr : t.length < s.length := item_bind_length_lt (fun _ => (Stable.guard _).bind fun _ =>
      (Stable.takeN _).bind fun _ => Stable.pure _) hmethod
    have hnum : s.length < z.length := decodeMsgId_length_lt hid
    refine ⟨s, hid, ?_, by have := hrest.length_le; omega⟩
    exact hrest.trans (((decodeFixstr_stable _).rest_suffix hmethod).trans
      (decodeMsgId_stable.rest_suffix hid))
  · rw [parseRpcRequest_short (by omega)] at h
    cases h

/-- **Bytes of an id in front of the rest of its request**: they are dropped, or they make the loop
wait, or they make up a request with another id that ends somewhere in what follows. -/
theorem processBuffer_id {w y : List UInt8} (hw : w <:+ 0x00 :: q.format.encode q.id) :
    (processBuffer (w ++ (q.body ++ y))).1 = (processBuffer (q.body ++ y)).1 ∨
      (processBuffer (w ++ (q.body ++ y))).1 = [] ∨
      ∃ p r, (processBuffer (w ++ (q.body ++ y))).1 = p :: (processBuffer r).1 ∧
        p.msgId < 2 ^ 32 ∧ p.msgId ≠ q.id ∧ r <:+ q.body ++ y := by
  induction w with
  | nil => exact .inl rfl
  | cons a w ih =>
      have hih := ih ((List.suffix_cons a w).trans hw)
      rw [List.cons_append]
      cases hrest : w ++ (q.body ++ y) with
      | nil => exact .inr (.inl rfl)
      | cons b z =>
          rw [hrest] at hih
          by_cases hmark : syncMark a b = true
          · obtain ⟨rfl, rfl⟩ : a = 0x94 ∧ b = 0x00 := by simpa [syncMark] using hmark
            cases w with
            | nil => cases hrest
            | cons b w =>
                rw [List.cons_append] at hrest
                obtain ⟨rfl, rfl⟩ := List.cons.inj hrest
                cases hp : parseRpcRequest 32 32 (0x94 :: 0x00 :: (w ++ (q.body ++ y))) with
                | more => exact .inr (.inl (by rw [processBuffer, drain_more hp]))
                | reject =>
                    have hdrop := parseRpcRequest_framed.drain_reject_cons hp
                    simp only [processBuffer] at hih ⊢
                    rwa [hdrop]
                | done p r =>
                    obtain ⟨s, hid, hr, hlen⟩ := parseRpcRequest_done hp
                    obtain ⟨hshort, hne⟩ := decodeMsgId_mark_ne hw hid
                    refine .inr (.inr ⟨p, r, ?_, decodeMsgId_lt hid, hne, ?_⟩)
                    · rw [processBuffer, parseRpcRequest_framed.drain_done hp]
                      rfl
                    · refine List.suffix_of_suffix_length_le hr (List.suffix_append _ _) ?_
                      rw [List.length_append] at hlen
                      omega
          · have hdrop := parseRpcRequest_framed.drain_unmarked z (by simpa using hmark)
            simp only [processBuffer] at hih ⊢
            rwa [hdrop]

/-! ### From a proper end of the requests -/

/-- An end of a request and the requests behind it: it starts with the request, in its mark or id,
behind its id, or behind the request. -/
theorem suffix_bytes_cons {t : List UInt8} (h : t <:+ bytes (q :: qs)) :
    t = bytes (q :: qs) ∨
      (∃ w, w <:+ 0x00 :: q.format.encode q.id ∧ t = w ++ (q.body ++ bytes qs)) ∨
      (∃ s, s <:+ q.body ∧ t = s ++ bytes qs) ∨ t <:+ bytes qs := by
  rw [bytes_cons] at h ⊢
  cases List.suffix_cons_iff.mp h with
  | inl h => exact .inl h
  | inr h =>
      obtain h | hid := suffix_append_cases (u := 0x00 :: q.format.encode q.id) h
      · obtain h | hbody := suffix_append_cases h
        · exact .inr (.inr (.inr h))
        · exact .inr (.inr (.inl hbody))
      · exact .inr (.inl hid)

theorem processBuffer_length_le {t : List UInt8} (h : t <:+ bytes qs) :
    (processBuffer t).1.length ≤ qs.length := by
  induction qs generalizing t with
  | nil =>
      obtain rfl : t = [] := List.suffix_nil.mp h
      exact le_rfl
  | cons q qs ih =>
      have hbehind : ∀ {r : List UInt8}, r <:+ q.body ++ bytes qs →
          (processBuffer r).1.length ≤ qs.length := by
        intro r hr
        obtain hr | ⟨s, hs, rfl⟩ := suffix_append_cases hr
        · exact ih hr
        · rw [processBuffer_body hs]
          exact ih (List.suffix_refl _)
      rw [List.length_cons]
      obtain rfl | ⟨w, hw, rfl⟩ | ⟨s, hs, rfl⟩ | h := suffix_bytes_cons h
      · rw [processBuffer_bytes, List.length_map, List.length_cons]
      · obtain heq | heq | ⟨p, r, heq, -, -, hr⟩ := processBuffer_id (y := bytes qs) hw
        · rw [heq]
          have := hbehind (List.suffix_refl _)
          omega
        · rw [heq]
          exact Nat.zero_le _
        · rw [heq, List.length_cons]
          have := hbehind hr
          omega
      · rw [processBuffer_body hs]
        have := ih (List.suffix_refl _)
        omega
      · have := ih h
        omega

theorem encodeResponse_inj {i j : ℕ} (hi : i < 2 ^ 32) (hj : j < 2 ^ 32)
    (h : encodeResponse i = encodeResponse j) : i = j := by
  have hid : encodeMsgId i = encodeMsgId j := by simpa [encodeResponse] using h
  have hdec := decodeMsgId_encodeMsgId hi
  rw [hid, decodeMsgId_encodeMsgId hj] at hdec
  cases hdec
  rfl

/-- **Lost bytes are never made up for**: from a proper end of the requests the loop does not answer
all of them. -/
theorem replies_of_suffix_ne {t : List UInt8} (h : t <:+ bytes qs) (hne : t ≠ bytes qs) :
    ((processBuffer t).1.map fun p => encodeResponse p.msgId) ≠ qs.map fun q =>
    encodeResponse q.id := by
  intro heq
  have hlen : (processBuffer t).1.length = qs.length := by simpa using congrArg List.length heq
  cases qs with
  | nil => exact hne (List.suffix_nil.mp h)
  | cons q qs =>
      rw [List.length_cons] at hlen
      obtain rfl | ⟨w, hw, rfl⟩ | ⟨s, hs, rfl⟩ | h := suffix_bytes_cons h
      · exact hne rfl
      · obtain hid | hid | ⟨p, r, hid, hlt, hpid, -⟩ := processBuffer_id (y := bytes qs) hw
        · rw [hid, processBuffer_body (List.suffix_refl _), processBuffer_bytes,
            List.length_map] at hlen
          omega
        · rw [hid] at hlen
          cases hlen
        · rw [hid, List.map_cons, List.map_cons] at heq
          exact hpid (encodeResponse_inj hlt q.wire.id_lt_two_pow (List.cons.inj heq).1)
      · rw [processBuffer_body hs, processBuffer_bytes, List.length_map] at hlen
        omega
      · have := processBuffer_length_le h
        omega

end Ends

/-! ### The start-up -/

variable {c : List UInt8} {cs : List (List UInt8)}

theorem bridgeMain_log (hr : StartReads (c :: cs)) :
    (bridgeMain (c :: cs)).log = (processBuffer cs.flatten).1.flatMap handle := by
  obtain ⟨-, -, hr⟩ := hr
  exact mainLoop_log LoopState.init_drained hr

theorem flatMap_handle_reply (ps : List Request) :
    (ps.flatMap handle).filterMap Event.reply? = ps.map fun p => encodeResponse p.msgId := by
  rw [List.filterMap_flatMap, List.map_eq_flatMap]
  exact List.flatMap_congr fun p _ => handle_reply p

theorem served_requests (qs : List PinRequest) :
    Served qs ((qs.map fun q => q.wire.request).flatMap handle) := by
  constructor
  · rw [List.flatMap_map, List.filterMap_flatMap, List.map_eq_flatMap]
    exact List.flatMap_congr fun q _ => handle_pinAction q.wire
  · rw [flatMap_handle_reply, List.map_map]
    rfl

/-- The loop finds the requests behind the rest of a reply that holds no `0x94 0x00`. -/
theorem served_of_unmarked {rest : List UInt8} (h : rest.IsChain fun a b => ¬ (a = 0x94 ∧ b = 0x00))
    (qs : List PinRequest) : Served qs ((processBuffer (rest ++ bytes qs)).1.flatMap handle) := by
  have hdrop : (processBuffer (rest ++ bytes qs)).1 = (processBuffer (bytes qs)).1 := by
    apply parseRpcRequest_framed.drain_junk
    rw [List.isChain_append]
    refine ⟨h.imp fun a b hab => by simpa [syncMark] using hab, ?_, ?_⟩
    · cases bytes qs <;> simp
    · intro a _ b hb
      cases hqs : bytes qs with
      | nil => simp [hqs] at hb
      | cons d r =>
          obtain rfl : d = b := by simpa [hqs] using hb
          rw [head_bytes hqs]
          simp [syncMark]
  rw [hdrop, processBuffer_bytes]
  exact served_requests qs

/-- A request in the rest of a reply is answered too, so the answers are not those to `qs` if they
do not begin with its id. -/
theorem not_served_of_request {rest : List UInt8} {p : Request} {ps : List Request}
    {qs : List PinRequest} (hrest : (processBuffer rest).1 = p :: ps) (hp : p.msgId < 2 ^ 32)
    (hid : ∀ q ∈ qs.head?, q.id ≠ p.msgId) :
    ¬ Served qs ((processBuffer (rest ++ bytes qs)).1.flatMap handle) := by
  rintro ⟨-, hreplies⟩
  have happend : (processBuffer (rest ++ bytes qs)).1 = (processBuffer rest).1 ++
      (processBuffer ((processBuffer rest).2 ++ bytes qs)).1 :=
    parseRpcRequest_framed.drain_append rest (bytes qs)
  rw [flatMap_handle_reply, happend, hrest, List.cons_append, List.map_cons] at hreplies
  cases qs with
  | nil => cases hreplies
  | cons q qs =>
      have hsame := encodeResponse_inj hp q.wire.id_lt_two_pow (List.cons.inj hreplies).1
      exact hid q rfl hsame.symm

/-- **Start-up**: for every list of requests behind the reply to `$/register`, and every way of
reading them, with no `0x94 0x00` in what the first read leaves of the reply, each request is
executed and answered once, in order, exactly when the first read stops within the reply. -/
theorem bridgeMain_served_iff (reply : List UInt8) (qs : List PinRequest)
    (hr : StartReads (c :: cs)) (h : c ++ cs.flatten = reply ++ bytes qs)
    (hrest : (reply.drop c.length).IsChain fun a b => ¬ (a = 0x94 ∧ b = 0x00)) :
    Served qs (bridgeMain (c :: cs)).log ↔ c.length ≤ reply.length := by
  rw [bridgeMain_log hr]
  have hflat : cs.flatten = (reply ++ bytes qs).drop c.length := by rw [← h, List.drop_left]
  by_cases hle : c.length ≤ reply.length
  · rw [hflat, List.drop_append_of_le_length hle]
    exact iff_of_true (served_of_unmarked hrest qs) hle
  · have hend : cs.flatten = (bytes qs).drop (c.length - reply.length) := by
      rw [hflat, List.drop_append, List.drop_of_length_le (by omega), List.nil_append]
    have hsuffix : cs.flatten <:+ bytes qs := hend ▸ List.drop_suffix _ _
    have hproper : cs.flatten ≠ bytes qs := by
      intro heq
      have hlen := congrArg List.length h
      rw [heq, List.length_append, List.length_append] at hlen
      omega
    refine iff_of_false ?_ hle
    rintro ⟨-, hreplies⟩
    rw [flatMap_handle_reply] at hreplies
    exact replies_of_suffix_ne hsuffix hproper hreplies

/-- `[1, 1, nil, true]`, the reply of the router. -/
def registerReply : List UInt8 := [0x94, 0x01, 0x01, 0xc0, 0xc3]

theorem sampleId_lt : 200 < IdFormat.uint8.bound := by decide

theorem samplePin_length_le : ([0x44, 0x31, 0x33] : List UInt8).length ≤ 31 := by decide

theorem samplePin_nul_free : (0 : UInt8) ∉ [0x44, 0x31, 0x33] := by decide

/-- `[0, 200, "set_pin_by_name", ["D13", true]]`. -/
def samplePinRequest : PinRequest :=
  ⟨.uint8, 200, sampleId_lt, ⟨[0x44, 0x31, 0x33], samplePin_length_le, samplePin_nul_free⟩, .true⟩

/-- The reply cut in two, and the request in two reads behind it. -/
theorem bridgeMain_served_split :
    Served [samplePinRequest] (bridgeMain [[0x94, 0x01, 0x01], [0xc0, 0xc3, 0x94, 0x00, 0xcc],
      (bytes [samplePinRequest]).drop 3]).log :=
  (bridgeMain_served_iff registerReply [samplePinRequest] ⟨by decide, by decide, by decide⟩
    (by decide) (by decide)).mpr (by decide)

/-- Behind `0x94 0x00 0xce` at the end of a reply the request is read with another id. -/
example : ¬ Served [samplePinRequest] (bridgeMain [[0x94, 0x01, 0x01, 0xc0, 0xc4, 0x03],
    0x94 :: 0x00 :: 0xce :: bytes [samplePinRequest]]).log := by decide +kernel

/-- The reply and the request in one read: the request is neither executed nor answered. -/
theorem bridgeMain_coalesced :
    StartReads [registerReply ++ bytes [samplePinRequest]] ∧
      (bridgeMain [registerReply ++ bytes [samplePinRequest]]).log = [] ∧
      ¬ Served [samplePinRequest] (bridgeMain [registerReply ++ bytes [samplePinRequest]]).log :=
  ⟨⟨by decide, by decide, trivial⟩, by decide, by decide⟩

end Imola.Bridge
