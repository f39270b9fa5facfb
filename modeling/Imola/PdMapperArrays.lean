import Imola.PdMapperReply

/-! # The arrays of a response of `pd-mapper`

The limits of the parser and of the response do not meet: a string of a JSON file has at most 127
bytes, so the name of a domain, three strings with two separators, has up to 383; an entry of the
response has room for 255.  And no limit is set to the number of services, while the response has
255 entries.

So `handle_get_domain_list` stays in the response for every request exactly when the table has at
most 255 rows for a service and no longer name (`keepsArrays_iff`). -/

namespace Imola.PdMapper

open Imola.CStrings Imola.Progs Imola.Qmi

/-- Neither an entry behind `domain_list` nor a name behind its entry is stored. -/
def KeepsArrays (table : List PdMap) (loc : Locals) (pkt : Packet) : Prop :=
  handlePacket table loc pkt ≠ .error .entries ∧ handlePacket table loc pkt ≠ .error .name

/-- The table fits in a response. -/
structure Bounded (table : List PdMap) : Prop where
  entries : ∀ service, (rowsOf table service).length ≤ 255
  name : ∀ row ∈ table, row.domain.length ≤ 255

section Collect

variable {name : List UInt8} {table : List PdMap}

/-- The loop fails only for the two arrays. -/
theorem fault_of_collect {f : Fault} : ∀ {n : ℕ} {resp : ℕ → UInt8},
    collect name table n resp = .error f → f = .entries ∨ f = .name := by
  induction table with
  | nil =>
      intro n resp h
      cases h
  | cons row table ih =>
      intro n resp h
      rw [collect] at h
      split_ifs at h
      · exact Or.inl (Except.error.inj h).symm
      · exact Or.inr (Except.error.inj h).symm
      · exact ih h
      · exact ih h

theorem bounded_of_collect {n : ℕ} {resp : ℕ → UInt8}
    (h : collect name table 0 successResp = .ok (n, resp)) :
    (rowsOf table name).length ≤ 255 ∧ ∀ row ∈ rowsOf table name, row.domain.length ≤ 255 := by
  have hfilled := filled_collect h
  refine ⟨hfilled.room, fun row hrow => ?_⟩
  obtain ⟨i, hi⟩ := List.mem_iff_getElem?.mp hrow
  exact (hfilled.entries i row hi).1

end Collect

theorem respond_ne {loc : Locals} {pkt : Packet} {resp : ℕ → UInt8} {f : Fault}
    (hf : f ≠ .encoder) :
    respond loc pkt resp ≠ .error f := by
  intro h
  rw [respond] at h
  split_ifs at h
  · split at h
    · cases h
    · cases h
  · exact hf (Except.error.inj h).symm

/-- **A table that fits** is handled inside the response, whatever the packet is. -/
theorem Bounded.keepsArrays {table : List PdMap} (h : Bounded table) (loc : Locals) (pkt : Packet) :
    KeepsArrays table loc pkt := by
  have hhandle : ∀ f, f ≠ .decoder → f ≠ .encoder → handleGetDomainList table loc pkt ≠
      .error f := by
    intro f hdecoder hencoder hfault
    rw [handleGetDomainList] at hfault
    split_ifs at hfault
    · obtain ⟨n, resp, hcollect⟩ := @collect_isOk (reqName pkt) table
        (fun row hrow => h.name row (List.mem_of_mem_filter hrow)) 0 successResp
        (by rw [Nat.zero_add]; exact h.entries _)
      rw [hcollect] at hfault
      split at hfault
      · exact respond_ne hencoder hfault
      · exact respond_ne hencoder hfault
    · exact hdecoder (Except.error.inj hfault).symm
  have hpacket : ∀ f, f ≠ .decoder → f ≠ .encoder → handlePacket table loc pkt ≠ .error f := by
    intro f hdecoder hencoder hfault
    rw [handlePacket] at hfault
    split at hfault
    · cases hfault
    · split_ifs at hfault
      exact hhandle f hdecoder hencoder hfault
  exact ⟨hpacket _ (by decide) (by decide), hpacket _ (by decide) (by decide)⟩

/-- Every service with a name of at most 255 bytes can be asked for. -/
theorem exists_request {service : List UInt8} (hlen : service.length ≤ 255) (hnul : NoNul service) :
    ∃ r : Request, r.service = service ∧ r.packet.length ≤ recvSize := by
  have hwf : ∀ x ∈ [(⟨1, service⟩ : Tlv)], x.Wf servregLocGetDomainListReqEi := by
    intro x hx
    have hknown : Tlv.known servregLocGetDomainListReqEi ⟨1, service⟩ = true := rfl
    rw [List.mem_singleton.mp hx]
    refine ⟨show service.length <
      65536 by omega, fun _ => show service.length < 256 by omega, fun hunknown => ?_⟩
    rw [hknown] at hunknown
    cases hunknown
  have hbytes : (tlvBytes [⟨1, service⟩]).length = 3 + service.length := by
    simp [tlvBytes, Tlv.bytes]
    omega
  refine ⟨⟨1, 2, 7, [⟨1, service⟩], service, hwf, ?_, List.mem_singleton.mpr rfl,
    hnul, by decide, by omega⟩, rfl, ?_⟩
  · exact (List.nodup_singleton _).sublist (List.filter_sublist.map _)
  · rw [Request.packet, tlvPacket_length, hbytes]
    unfold recvSize
    omega

theorem bounded_of_request {table : List PdMap} {loc : Locals} {r : Request}
    (hfits : r.packet.length ≤ recvSize)
    (h : KeepsArrays table loc (receive loc r.node r.port r.packet)) :
    (rowsOf table r.service).length ≤ 255 ∧
    ∀ row ∈ rowsOf table r.service, row.domain.length ≤ 255 := by
  obtain ⟨hentries, hname⟩ := h
  rw [handlePacket_receive, if_pos hfits, handleGetDomainList_receive table hfits] at hentries hname
  cases hcollect : collect r.service table 0 successResp with
  | ok v => exact bounded_of_collect hcollect
  | error f =>
      rw [hcollect] at hentries hname
      rcases fault_of_collect hcollect with rfl | rfl
      · exact absurd rfl hentries
      · exact absurd rfl hname

/-- **The arrays of a response**: for every table that was loaded, every request is handled inside
them exactly when the table fits. -/
theorem keepsArrays_iff {ν : Type} (strtod : List UInt8 → ν) (toInt : ν → Int32) (depth : ℕ)
    (files : List (UInt8 × List UInt8)) (table : List PdMap)
    (hload : pdLoadMaps strtod toInt depth files = some table) :
    (∀ loc node port bytes, KeepsArrays table loc (receive loc node port bytes)) ↔
    Bounded table := by
  constructor
  · intro h
    have hrow : ∀ row ∈ table, (rowsOf table row.service).length ≤ 255 ∧
        ∀ row' ∈ rowsOf table row.service, row'.domain.length ≤ 255 := by
      intro row hrow
      obtain ⟨r, hr, hfits⟩ :=
        exists_request (length_of_load hload row hrow).1 (noNul_of_load hload row hrow).1
      rw [← hr]
      exact bounded_of_request hfits (h zeroLocals r.node r.port r.packet)
    refine ⟨fun service => ?_,
      fun row hmem => (hrow row hmem).2 row (List.mem_filter.mpr ⟨hmem, by simp⟩)⟩
    cases hrows : rowsOf table service with
    | nil => exact Nat.zero_le _
    | cons row rows =>
        have hmem : row ∈ rowsOf table service := by
          rw [hrows]
          exact List.mem_cons_self
        obtain ⟨hin, hservice⟩ := List.mem_filter.mp hmem
        have hle := (hrow row hin).1
        rwa [of_decide_eq_true hservice, hrows] at hle
  · exact fun h loc node port bytes => h.keepsArrays loc _

theorem keepsArrays_sample : pdLoadMaps digits Int32.ofNat 4 [sampleFile] = some [sampleRow] ∧
    ∀ loc node port bytes, KeepsArrays [sampleRow] loc (receive loc node port bytes) := by
  have hload : pdLoadMaps digits Int32.ofNat 4 [sampleFile] = some [sampleRow] := by decide +kernel
  refine ⟨hload,
    (keepsArrays_iff digits Int32.ofNat 4 [sampleFile] [sampleRow]
      hload).mpr ⟨fun service => ?_, ?_⟩⟩
  · exact (List.length_filter_le _ _).trans (by decide)
  · decide +kernel

/-- A file with the service `"s/t"` in a domain with a name of 257 bytes. -/
def longFile : UInt8 × List UInt8 :=
  (0, ascii "\x7b\"sr_domain\":\x7b\"soc\":\"" ++ List.replicate 127 97 ++
    ascii "\",\"domain\":\"" ++ List.replicate 127 98 ++
    ascii "\",\"subdomain\":\"c\",\"qmi_instance_id\":74\x7d," ++
    ascii "\"sr_service\":[\x7b\"provider\":\"s\",\"service\":\"t\"\x7d]\x7d")

/-- Its row. -/
def longRow : PdMap :=
  ⟨ascii "s/t", List.replicate 127 97 ++ 47 :: (List.replicate 127 98 ++ 47 :: ascii "c"), 74⟩

/-- The name of the domain is copied behind its entry. -/
theorem not_keepsArrays_long : pdLoadMaps digits Int32.ofNat 4 [longFile] = some [longRow] ∧
    handlePacket [longRow] zeroLocals (receive zeroLocals 1 2 sampleServiceRequest.packet) =
      .error .name ∧
    ¬ KeepsArrays [longRow] zeroLocals (receive zeroLocals 1 2 sampleServiceRequest.packet) := by
  have hfault : handlePacket [longRow] zeroLocals
      (receive zeroLocals 1 2 sampleServiceRequest.packet) = .error .name := by
    decide +kernel
  exact ⟨by decide +kernel, hfault, fun h => h.2 hfault⟩

end Imola.PdMapper
