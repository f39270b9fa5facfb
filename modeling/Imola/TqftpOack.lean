import Imola.Decimals
import Imola.TqftpBuffers

/-! # Option negotiation

`handle_rrq` answers a request that has options with an OACK.  It should name exactly the options
that were asked for, once each, with the values that the transfer uses (`ExactOack`).

`tftp_send_oack` does not know what was asked for.  The block size and the timeout are always sent,
and the other three when they are not the value that stands for "not asked for", which is a value a
client can ask for too, and for `tsize` also the size of an empty file.  So the OACK is exact only
for requests with both of the former and no such value among the latter (`oacksExact_iff`).  The
values and the form of the packet are right in all cases. -/

namespace Imola.Tqftp

open Imola.CInts Imola.CStrings Imola.Splice

/-- The options that are negotiated. -/
inductive Setting where
  | blksize
  | timeoutms
  | tsize
  | wsize
  | rsize
deriving DecidableEq, Repr

namespace Setting

def name : Setting → String
  | blksize => "blksize"
  | timeoutms => "timeoutms"
  | tsize => "tsize"
  | wsize => "wsize"
  | rsize => "rsize"

/-- The order in which `tftp_send_oack` goes through them. -/
def all : List Setting := [blksize, timeoutms, tsize, wsize, rsize]

theorem mem_all (s : Setting) : s ∈ all := by
  cases s
  all_goals decide

theorem nodup_names : (all.map fun s => ascii s.name).Nodup := by decide +kernel

theorem name_ne_zero (s : Setting) : ∀ b ∈ ascii s.name, b ≠ 0 := by
  cases s
  all_goals decide +kernel

theorem length_name_le (s : Setting) : (ascii s.name).length ≤ 9 := by
  cases s
  all_goals decide +kernel

theorem eq_of_name_eq {s t : Setting} (h : ascii s.name = ascii t.name) : s = t :=
  List.inj_on_of_nodup_map nodup_names (mem_all s) (mem_all t) h

/-- A value that `handle_rrq` reads as what the transfer uses. -/
def Uses (f : File) (c : TftpClient) (value : List UInt8) : Setting → Prop
  | blksize => toSize (atoi value) = c.blksize
  | timeoutms => (atoi value % 2 ^ 32).toNat = c.timeoutms
  | tsize => strtol value = f.size
  | wsize => toSize (atoi value) = c.wsize
  | rsize => toSize (atoi value) = c.rsize

end Setting

/-- The answer to a request: exactly what was asked for, once each, with the values in use. -/
structure Answers (f : File) (r : ReadRequest) (c : TftpClient)
    (pairs : List (List UInt8 × List UInt8)) : Prop where
  once : (pairs.map Prod.fst).Nodup
  known : ∀ p ∈ pairs, ∃ s : Setting, p.1 = ascii s.name
  asked : ∀ s : Setting, ascii s.name ∈ pairs.map Prod.fst ↔ (r.value s.name).isSome
  used : ∀ (s : Setting) (value : List UInt8), (ascii s.name, value) ∈ pairs → s.Uses f c value

/-- A packet whose options, read as `handle_rrq` reads those of a request, answer the request. -/
def ExactOack (f : File) (r : ReadRequest) (c : TftpClient) (packet : List UInt8) : Prop :=
  ∃ pairs, (∀ stack, optionPairs (recvBuf rrqBufSize stack packet) packet.length packet.length 2 =
    .ok pairs) ∧
    Answers f r c pairs

/-! ### The options of the packet -/

namespace Setting

/-- Whether an option is sent. -/
def Sent (c : TftpClient) (size : ℤ) : Setting → Prop
  | blksize => True
  | timeoutms => True
  | tsize => size ≠ 0 ∧ size ≠ -1
  | wsize => c.wsize ≠ 0
  | rsize => c.rsize ≠ 0

instance (c : TftpClient) (size : ℤ) : DecidablePred (Sent c size)
  | blksize => inferInstanceAs (Decidable True)
  | timeoutms => inferInstanceAs (Decidable True)
  | tsize => inferInstanceAs (Decidable (size ≠ 0 ∧ size ≠ -1))
  | wsize => inferInstanceAs (Decidable (c.wsize ≠ 0))
  | rsize => inferInstanceAs (Decidable (c.rsize ≠ 0))

/-- The number that is printed. -/
def shown (c : TftpClient) (size : ℤ) : Setting → ℤ
  | blksize => signed 64 c.blksize
  | timeoutms => signed 32 c.timeoutms
  | tsize => size
  | wsize => signed 64 c.wsize
  | rsize => signed 64 c.rsize

end Setting

/-- The options with their values, for those of `settings` that are sent. -/
def settingPairs (c : TftpClient) (size : ℤ) (settings : List Setting) :
    List (List UInt8 × List UInt8) :=
  (settings.filter (Setting.Sent c size ·)).map fun s => (ascii s.name, decimal (s.shown c size))

def oackPairs (c : TftpClient) (size : ℤ) : List (List UInt8 × List UInt8) :=
  settingPairs c size Setting.all

theorem optionBytes_settingPairs_cons (c : TftpClient) (size : ℤ) (s : Setting)
    (settings : List Setting) :
    optionBytes (settingPairs c size (s :: settings)) =
      (if s.Sent c size then oackOption s.name (s.shown c size) else []) ++
        optionBytes (settingPairs c size settings) := by
  unfold settingPairs
  by_cases hs : s.Sent c size
  · rw [List.filter_cons_of_pos (by simpa using hs), if_pos hs]
    simp [optionBytes, oackOption]
  · rw [List.filter_cons_of_neg (by simpa using hs), if_neg hs, List.nil_append]

theorem oackPacket_eq (c : TftpClient) (size : ℤ) :
    oackPacket c size = [0, UInt8.ofNat Op.oack.code] ++ optionBytes (oackPairs c size) := by
  have hnil : optionBytes (settingPairs c size []) = [] := rfl
  rw [oackPairs, Setting.all, optionBytes_settingPairs_cons, optionBytes_settingPairs_cons,
    optionBytes_settingPairs_cons, optionBytes_settingPairs_cons,
    optionBytes_settingPairs_cons, hnil,
    if_pos (show Setting.Sent c size .blksize from trivial),
    if_pos (show Setting.Sent c size .timeoutms from trivial),
    oackPacket]
  simp only [List.append_assoc, List.append_nil]
  rfl

theorem mem_oackPairs {c : TftpClient} {size : ℤ} {p : List UInt8 × List UInt8} :
    p ∈ oackPairs c size ↔ ∃ s : Setting, s.Sent c size ∧
    p = (ascii s.name, decimal (s.shown c size)) := by
  simp only [oackPairs, settingPairs, List.mem_map, List.mem_filter, decide_eq_true_eq]
  constructor
  · rintro ⟨s, ⟨-, hs⟩, rfl⟩
    exact ⟨s, hs, rfl⟩
  · rintro ⟨s, hs, rfl⟩
    exact ⟨s, ⟨s.mem_all, hs⟩, rfl⟩

theorem nodup_oackPairs (c : TftpClient) (size : ℤ) : ((oackPairs c size).map Prod.fst).Nodup := by
  rw [oackPairs, settingPairs, List.map_map]
  exact Setting.nodup_names.sublist (List.filter_sublist.map _)

theorem name_mem_oackPairs {c : TftpClient} {size : ℤ} (s : Setting) :
    ascii s.name ∈ (oackPairs c size).map Prod.fst ↔ s.Sent c size := by
  rw [List.mem_map]
  constructor
  · rintro ⟨p, hp, hname⟩
    obtain ⟨t, ht, rfl⟩ := mem_oackPairs.mp hp
    rwa [← Setting.eq_of_name_eq hname]
  · intro hs
    exact ⟨_, mem_oackPairs.mpr ⟨s, hs, rfl⟩, rfl⟩

theorem length_flatMap_le {α β : Type} {g : α → List β} {n : ℕ} {l : List α}
    (h : ∀ a ∈ l, (g a).length ≤ n) :
    (l.flatMap g).length ≤ n * l.length := by
  rw [List.length_flatMap]
  calc (l.map fun a => (g a).length).sum ≤ (l.map fun a => (g a).length).length • n :=
        List.sum_le_card_nsmul _ _ (by simpa using h)
    _ = n * l.length := by rw [List.length_map, smul_eq_mul, Nat.mul_comm]

theorem shown_range (c : TftpClient) {size : ℤ} (hmin : -1 ≤ size) (hmax : size < 2 ^ 63)
    (s : Setting) :
    -2 ^ 63 ≤ s.shown c size ∧ s.shown c size < 2 ^ 63 := by
  cases s with
  | timeoutms => exact signed_range (by omega) (by omega) _
  | tsize => exact ⟨le_trans (by norm_num) hmin, hmax⟩
  | _ => exact signed_range (by omega) le_rfl _

/-- **The packet is read as it was meant.** -/
theorem optionPairs_oackPacket (c : TftpClient) {size : ℤ} (hmin : -1 ≤ size) (hmax : size < 2 ^ 63)
    (stack : ℕ → UInt8) :
    optionPairs (recvBuf rrqBufSize stack (oackPacket c size))
      (oackPacket c size).length (oackPacket c size).length 2 =
      .ok (oackPairs c size) := by
  have hne : ∀ o ∈ oackPairs c size, (∀ b ∈ o.1, b ≠ 0) ∧ ∀ b ∈ o.2, b ≠ 0 := by
    intro o ho
    obtain ⟨s, -, rfl⟩ := mem_oackPairs.mp ho
    exact ⟨s.name_ne_zero, decimal_ne_zero _⟩
  have hcount : (oackPairs c size).length ≤ 5 := by
    rw [oackPairs, settingPairs, List.length_map]
    exact List.length_filter_le _ _
  have hbytes : (optionBytes (oackPairs c size)).length ≤ 31 * (oackPairs c size).length := by
    apply length_flatMap_le
    intro o ho
    obtain ⟨s, -, rfl⟩ := mem_oackPairs.mp ho
    obtain ⟨hlo, hhi⟩ := shown_range c hmin hmax s
    have hname := s.length_name_le
    have hvalue := length_decimal_le hlo hhi
    simp only [List.length_append, List.length_cons, List.length_nil]
    omega
  have hrounds := length_le_optionBytes (oackPairs c size)
  rw [oackPacket_eq]
  apply optionPairs_bytes hne
  · rw [List.length_append, rrqBufSize]
    simp only [List.length_cons, List.length_nil]
    omega
  · rw [List.length_append]
    omega

/-! ### What is asked for and what is sent -/

/-- An `int` that was stored in a `size_t` is printed, and read back. -/
theorem toSize_atoi_decimal {n : ℕ} {v : ℤ} (h : -2 ^ 31 ≤ v ∧ v < 2 ^ 31) (hn : n = toSize v) :
    toSize (atoi (decimal (signed 64 n))) = n := by
  have hsigned : signed 64 (toSize v) = v := signed_emod (by omega) h
  rw [hn, hsigned, atoi_decimal h.1 h.2]

theorem toNat_atoi_decimal {n : ℕ} {v : ℤ} (h : -2 ^ 31 ≤ v ∧ v < 2 ^ 31)
    (hn : n = (v % 2 ^ 32).toNat) :
    (atoi (decimal (signed 32 n)) % 2 ^ 32).toNat = n := by
  rw [hn, signed_emod le_rfl h, atoi_decimal h.1 h.2]

namespace ReadRequest

variable (r : ReadRequest) (f : File) (io : RrqIo) (sq : Addr)

/-- The size that `handle_rrq` hands to `tftp_send_oack`. -/
def size : ℤ := if r.rrq.options.tsize ≠ -1 then f.size else -1

theorem size_range (hsize : f.size < 2 ^ 63) : -1 ≤ r.size f ∧ r.size f < 2 ^ 63 := by
  unfold size
  split_ifs
  · omega
  · omega

/-- The conditions under which the OACK names what was asked for. -/
structure Echoed : Prop where
  blksize : (r.value "blksize").isSome
  timeoutms : (r.value "timeoutms").isSome
  tsize : ∀ v, r.value "tsize" = some v → atoi v ≠ -1 ∧ f.size ≠ 0
  wsize : ∀ v, r.value "wsize" = some v → atoi v ≠ 0
  rsize : ∀ v, r.value "rsize" = some v → atoi v ≠ 0

variable {r f io sq}

/-- An option whose default stands for "not asked for" is told apart unless that value was asked
for. -/
theorem asked_ne_iff (r : ReadRequest) (name : String) (d : ℤ) (P : Prop) :
    ((r.asked name d ≠ d ∧ P) ↔ (r.value name).isSome) ↔
    ∀ v, r.value name = some v → atoi v ≠ d ∧ P := by
  unfold asked
  cases hv : r.value name with
  | none => simp
  | some v => simp

theorem sent_client (s : Setting) : s.Sent (r.client io sq) (r.size f) ↔
    match s with
    | .blksize => True
    | .timeoutms => True
    | .tsize => r.asked "tsize" (-1) ≠ -1 ∧ f.size ≠ 0
    | .wsize => r.asked "wsize" 0 ≠ 0
    | .rsize => r.asked "rsize" 0 ≠ 0 := by
  cases s with
  | blksize => exact Iff.rfl
  | timeoutms => exact Iff.rfl
  | tsize =>
      show r.size f ≠ 0 ∧ r.size f ≠ -1 ↔ _
      unfold size
      rw [r.rrq_tsize]
      split_ifs with h
      · simp only [ne_eq, h, not_false_eq_true, true_and, Nat.cast_eq_zero]
        omega
      · simp only [not_not.mp h]
        simp
  | wsize =>
      show r.rrq.options.wsize ≠ 0 ↔ _
      rw [r.rrq_wsize, ne_eq, toSize_eq_zero r.wsize_range]
      exact Iff.rfl
  | rsize =>
      show r.rrq.options.rsize ≠ 0 ↔ _
      rw [r.rrq_rsize, ne_eq, toSize_eq_zero (r.asked_range "rsize" (by norm_num))]

theorem echoed_iff (io : RrqIo) (sq : Addr) :
    r.Echoed f ↔ ∀ s : Setting, s.Sent (r.client io sq) (r.size f) ↔ (r.value s.name).isSome := by
  have htsize := r.asked_ne_iff "tsize" (-1) (f.size ≠ 0)
  have hzero : ∀ name, (r.asked name 0 ≠ 0 ↔ (r.value name).isSome) ↔
      ∀ v, r.value name = some v → atoi v ≠ 0 := by
    intro name
    have h := r.asked_ne_iff name 0 True
    simpa only [and_true] using h
  constructor
  · intro h s
    rw [sent_client]
    cases s with
    | blksize => exact iff_of_true trivial h.blksize
    | timeoutms => exact iff_of_true trivial h.timeoutms
    | tsize => exact htsize.mpr h.tsize
    | wsize => exact (hzero "wsize").mpr h.wsize
    | rsize => exact (hzero "rsize").mpr h.rsize
  · intro h
    simp only [sent_client] at h
    exact ⟨(h .blksize).mp trivial, (h .timeoutms).mp trivial, htsize.mp (h .tsize),
      (hzero "wsize").mp (h .wsize),
      (hzero "rsize").mp (h .rsize)⟩

theorem uses_shown (hsize : f.size < 2 ^ 63) {s : Setting}
    (hs : s.Sent (r.client io sq) (r.size f)) :
    s.Uses f (r.client io sq) (decimal (s.shown (r.client io sq) (r.size f))) := by
  cases s with
  | blksize => exact toSize_atoi_decimal r.blksize_range r.rrq_blksize
  | timeoutms => exact toNat_atoi_decimal (r.asked_range "timeoutms" (by norm_num)) r.rrq_timeoutms
  | tsize =>
      obtain ⟨hasked, -⟩ := (sent_client _).mp hs
      show strtol (decimal (r.size f)) = f.size
      rw [size, if_pos (by rwa [r.rrq_tsize])]
      exact strtol_decimal (by omega) (by omega)
  | wsize => exact toSize_atoi_decimal r.wsize_range r.rrq_wsize
  | rsize => exact toSize_atoi_decimal (r.asked_range "rsize" (by norm_num)) r.rrq_rsize

/-- What is wrong with an OACK, if anything, is which options it names. -/
theorem exactOack_client (r : ReadRequest) (io : RrqIo) (sq : Addr) (hsize : f.size < 2 ^ 63) :
    ExactOack f r (r.client io sq) (oackPacket (r.client io sq) (r.size f)) ↔ r.Echoed f := by
  obtain ⟨hmin, hmax⟩ := r.size_range f hsize
  have hread := optionPairs_oackPacket (r.client io sq) hmin hmax
  rw [echoed_iff io sq]
  constructor
  · rintro ⟨pairs, hpairs, hans⟩ s
    obtain rfl : oackPairs _ _ = pairs := Except.ok.inj ((hread fun _ => 0).symm.trans (hpairs _))
    rw [← hans.asked s, name_mem_oackPairs]
  · intro h
    refine ⟨_, hread, nodup_oackPairs _ _, ?_, ?_, ?_⟩
    · intro p hp
      obtain ⟨s, -, rfl⟩ := mem_oackPairs.mp hp
      exact ⟨s, rfl⟩
    · intro s
      rw [name_mem_oackPairs, h s]
    · intro s value hmem
      obtain ⟨t, ht, heq⟩ := mem_oackPairs.mp hmem
      obtain ⟨hname, rfl⟩ := Prod.mk.inj heq
      obtain rfl := Setting.eq_of_name_eq hname
      exact uses_shown hsize ht

end ReadRequest

/-! ### The packets that are sent -/

theorem take_tftpSendData {f : File} {blksize block offset : ℕ} {sendOk : Bool} {n : ℤ}
    {sent : List (List UInt8)}
    (h : tftpSendData f blksize sendOk block offset = .ok (n, sent)) :
    ∀ packet ∈ sent, packet.take 2 = [0, 3] := by
  unfold tftpSendData at h
  dsimp only at h
  split_ifs at h with hnull hshort
  all_goals split at h
  all_goals cases h
  all_goals intro packet hmem
  all_goals cases hmem
  all_goals trivial

/-- Every OACK among the packets is exact. -/
def OacksExact (f : File) (r : ReadRequest) (c : TftpClient) (sent : List (List UInt8)) : Prop :=
  ∀ packet ∈ sent, packet.take 2 = [0, 6] → ExactOack f r c packet

section Accepted

variable {r : ReadRequest} {f : File} {io : RrqIo} {stack : ℕ → UInt8} {sq : Addr} {c : TftpClient}
  (haccept : (handleRrq f io (recvBuf rrqBufSize stack r.bytes) r.bytes.length sq).1 = some c)

include haccept

theorem oacksExact_of_nil (hnil : r.options = []) :
    OacksExact f r c (handleRrq f io (recvBuf rrqBufSize stack r.bytes) r.bytes.length
      sq).2.sent := by
  obtain ⟨rfl, hsent⟩ := handleRrq_request haccept
  rw [hsent, ReadRequest.answer, if_pos hnil]
  intro packet hmem hop
  split at hmem
  · cases hmem
  · next n sent hdata =>
      rw [take_tftpSendData hdata packet hmem] at hop
      exact absurd hop (by decide)

theorem oacksExact_of_unsent (hopts : r.options ≠ []) (hfail : io.sendOk = false) :
    OacksExact f r c (handleRrq f io (recvBuf rrqBufSize stack r.bytes) r.bytes.length
      sq).2.sent := by
  obtain ⟨rfl, hsent⟩ := handleRrq_request haccept
  rw [hsent, ReadRequest.answer, if_neg hopts, hfail]
  intro packet hmem
  cases hmem

theorem oacksExact_of_sent (hsize : f.size < 2 ^ 63) (hopts : r.options ≠ [])
    (hok : io.sendOk = true) :
    OacksExact f r c (handleRrq f io (recvBuf rrqBufSize stack r.bytes) r.bytes.length sq).2.sent ↔
    r.Echoed f := by
  obtain ⟨rfl, hsent⟩ := handleRrq_request haccept
  rw [hsent, ReadRequest.answer, if_neg hopts, hok, if_pos rfl, ← r.exactOack_client io sq hsize]
  constructor
  · intro h
    exact h _ (List.mem_singleton_self _) rfl
  · intro h packet hmem _
    obtain rfl := List.mem_singleton.mp hmem
    exact h

/-- **An OACK is exact when its request asked for what is always sent and for no value that stands
for "not asked for".** -/
theorem oacksExact_iff (hsize : f.size < 2 ^ 63) :
    OacksExact f r c (handleRrq f io (recvBuf rrqBufSize stack r.bytes) r.bytes.length sq).2.sent ↔
      r.options = [] ∨ io.sendOk = false ∨ r.Echoed f := by
  by_cases hnil : r.options = []
  · exact iff_of_true (oacksExact_of_nil haccept hnil) (Or.inl hnil)
  cases hok : io.sendOk with
  | false => exact iff_of_true (oacksExact_of_unsent haccept hnil hok) (Or.inr (Or.inl rfl))
  | true =>
      rw [oacksExact_of_sent haccept hsize hnil hok]
      constructor
      · intro h
        exact Or.inr (Or.inr h)
      · rintro (h | h | h)
        · exact absurd h hnil
        · cases h
        · exact h

end Accepted

/-- All five options. -/
def sampleSettings : List (List UInt8 × List UInt8) :=
  [(ascii "blksize", ascii "4"), (ascii "timeoutms", ascii "100"), (ascii "tsize", ascii "0"),
    (ascii "rsize", ascii "8"), (ascii "wsize", ascii "2")]

theorem sampleSettings_ne : ∀ o ∈ sampleSettings, (∀ b ∈ o.1, b ≠ 0) ∧ ∀ b ∈ o.2, b ≠ 0 := by
  decide +kernel

theorem sampleSettings_fits :
    (rrqBytes (ascii "f") (ascii "octet") sampleSettings).length ≤ rrqBufSize := by
  decide +kernel

/-- A request for all five. -/
def settingsRequest : ReadRequest where
  filename := ascii "f"
  mode := ascii "octet"
  options := sampleSettings
  filename_ne := sampleName_ne
  mode_octet := caseEq_octet
  options_ne := sampleSettings_ne
  fits := sampleSettings_fits

/-- The answer of `handle_rrq` to a request for a file of `size` zeros. -/
def sampleAnswer (r : ReadRequest) (size : ℕ) : Option TftpClient × Handled :=
  handleRrq ⟨size, fun _ => 0⟩ sampleIo (recvBuf rrqBufSize (fun _ => 0) r.bytes)
    r.bytes.length ⟨1, 2⟩

theorem oacksExact_settings :
    (sampleAnswer settingsRequest 10).1 = some (settingsRequest.client sampleIo ⟨1, 2⟩) ∧
    OacksExact ⟨10, fun _ => 0⟩ settingsRequest (settingsRequest.client sampleIo ⟨1, 2⟩)
      (sampleAnswer settingsRequest 10).2.sent := by
  refine ⟨accepts_sample _ _, (oacksExact_iff (accepts_sample _ _) (by norm_num)).mpr ?_⟩
  right
  right
  exact ⟨by decide +kernel, by decide +kernel, by decide +kernel, by decide +kernel, by decide +kernel⟩

/-- The size of an empty file is left out, and a timeout that was not asked for is sent. -/
theorem not_oacksExact_empty :
    ((sampleAnswer settingsRequest 0).1 = some (settingsRequest.client sampleIo ⟨1, 2⟩) ∧
      ¬ OacksExact ⟨0, fun _ => 0⟩ settingsRequest (settingsRequest.client sampleIo ⟨1, 2⟩)
        (sampleAnswer settingsRequest 0).2.sent) ∧
    ∃ hne hlen, (sampleAnswer (blksizeRequest (ascii "4") hne hlen) 10).1 =
        some ((blksizeRequest (ascii "4") hne hlen).client sampleIo ⟨1, 2⟩) ∧
      ¬ OacksExact ⟨10, fun _ => 0⟩ (blksizeRequest (ascii "4") hne hlen)
        ((blksizeRequest (ascii "4") hne hlen).client sampleIo ⟨1, 2⟩)
        (sampleAnswer (blksizeRequest (ascii "4") hne hlen) 10).2.sent := by
  refine ⟨⟨accepts_sample _ _, ?_⟩, by decide +kernel, by decide +kernel, accepts_sample _ _, ?_⟩
  · intro h
    have hecho :=
      (oacksExact_of_sent (accepts_sample _ _) (by norm_num) (by decide +kernel) rfl).mp h
    exact (hecho.tsize (ascii "0") (by decide +kernel)).2 rfl
  · intro h
    have hecho :=
      (oacksExact_of_sent (accepts_sample _ _) (by norm_num) (List.cons_ne_nil _ _) rfl).mp h
    exact absurd hecho.timeoutms (by decide +kernel)

end Imola.Tqftp
