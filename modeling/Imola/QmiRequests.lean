import Imola.QmiDecodeBounds
import Imola.QmiOrder

/-! # Requests without arrays

The elements of such a request are strings and single values.  When every TLV has the length that
its descriptor implies, the decoder finds each value in full, so that it does not read behind the
packet (`decode_packet_readsBelow`), and what it stores are the bytes of the values. -/

namespace Imola.Qmi

open Imola.Bytes Imola.Splice Imola.Progs Imola.Streams

/-- A string, or a single value that is no structure. -/
@[mk_iff] structure Field.Plain (f : Field) : Prop where
  len : f.len = none
  data : f.data.dataType = .string ∨ f.data.dataType.isBasic = true

instance (f : Field) : Decidable f.Plain := decidable_of_iff _ f.plain_iff.symm

section Elements

variable {f : Field} {v : List UInt8}

theorem consumes_string (hf : f.IsText) (v : List UInt8) :
    Consumes (wireString 1 f.data v.length) v := by
  have hstring : Consumes (wireString 1 f.data v.length) ([] ++ v) := by
    unfold wireString
    simp only [if_true, Nat.zero_add]
    refine (Consumes.takeN List.length_nil).bind fun _ => ?_
    by_cases hlen : v.length > f.data.elemLen
    · rw [if_pos hlen]
      exact Consumes.fail v
    · rw [if_neg hlen, if_neg (lt_irrefl _), hf.char, Nat.mul_one]
      exact (Consumes.takeN rfl).map _
  exact hstring

theorem consumes_count (e : ElemInfo) (dataLen : ℕ) : Consumes (wireCount e dataLen) [] := by
  unfold wireCount
  cases e.arrayType with
  | noArray => exact Consumes.pure 1
  | staticArray => exact Consumes.pure e.elemLen
  | varLenArray =>
      dsimp only
      split_ifs
      · exact Consumes.fail []
      · exact Consumes.pure dataLen

theorem wireValue_basic {e : ElemInfo} (h : e.dataType.isBasic = true) (struct : ℕ → Parser UInt8 ℕ)
    (level count tlvLen : ℕ) : wireValue struct level e count tlvLen = (do
      let _ ← Parser.takeN (count * e.elemSize)
      pure (count * e.elemSize)) := by
  obtain ⟨hflag, hlen, hstruct, hstring⟩ := ElemType.ne_of_isBasic h
  unfold wireValue
  split
  · rename_i htype
    exact absurd htype hflag
  · rename_i htype
    exact absurd htype hlen
  · rename_i htype
    exact absurd htype hstruct
  · rename_i htype
    exact absurd htype hstring
  · rfl

theorem wireElems_data {e : ElemInfo} (h : e.dataType ≠ .optFlag) (h' : e.dataType ≠ .dataLen)
    (sub rest : Table)
    (stage : Stage) (tlvLen dataLen : ℕ) :
    wireElems (.cons e sub rest) 1 0 stage tlvLen dataLen = (do
      let count ← wireCount e dataLen
      let n ← wireValue
        (fun len => do
          let r ← wireElems sub (1 + 1) len .first 0 0
          pure r.1)
        1 e count tlvLen
      pure (n, count)) := by
  have hlevel : ¬ 1 ≥ 2 := by omega
  rw [wireElems, if_neg (by omega)]
  simp only [h, h', hlevel, false_and, and_false, if_false]

theorem consumes_text (hf : f.IsText) (rest : Table) (v : List UInt8) (dataLen : ℕ) :
    Consumes (wireElems (f.consTable rest) 1 0 .first v.length dataLen) v := by
  rw [Field.consTable, hf.flag, hf.len, consLen,
    wireElems_data (by simp [hf.string]) (by simp [hf.string])]
  refine (consumes_count f.data dataLen).bind fun count => ?_
  have hvalue := (consumes_string hf v).map fun n => (n, count)
  simpa only [wireValue, hf.string] using hvalue

theorem consumes_single (hf : f.IsPacked) (hlen : f.len = none)
    (hbasic : f.data.dataType.isBasic = true)
    (hv : f.Takes v) (rest : Table) (dataLen : ℕ) :
    Consumes (wireElems (f.consTable rest) 1 0 .first v.length dataLen) v := by
  rw [Field.Takes, if_neg hf.not_string, f.splitValue_none hlen] at hv
  have hdata : ∀ stage dataLen, Consumes
      (wireElems (.cons f.data f.sub.toTable rest) 1 0 stage v.length dataLen) v := by
    intro stage dataLen
    have hcount : wireCount f.data dataLen = pure 1 := by
      rw [wireCount, (hf.single hlen).1]
    rw [wireElems_data (hf.wf.data_wf.ne_flag) (hf.wf.data_wf.ne_len), hcount]
    have hvalue : Consumes (wireValue
        (fun len => do
          let r ← wireElems f.sub.toTable (1 + 1) len .first 0 0
          pure r.1) 1 f.data 1 v.length) v := by
      rw [wireValue_basic hbasic]
      exact (Consumes.takeN hv.2).map _
    exact hvalue.map fun n => (n, 1)
  rw [Field.consTable, hlen, consLen]
  cases hflag : f.flag with
  | none => exact hdata .first dataLen
  | some g =>
      dsimp only
      rw [wireElems, if_neg (by omega)]
      simp only [(hf.wf.flag_type g hflag).1, and_self, if_true]
      exact hdata .flagged dataLen

end Elements

section Messages

variable {fs : List Field} {xs : List Tlv}

/-- **The body of a well-formed request does not end inside an element.** -/
theorem wireTlvs_ne_more (hfs : RequestWf fs) (hplain : ∀ f ∈ fs, f.Plain)
    (hxs : ∀ x ∈ xs, x.Wf (toTable fs)) :
    ∀ rounds dataLen, wireTlvs (toTable fs) rounds dataLen (tlvBytes xs) ≠ .more := by
  induction xs with
  | nil =>
      intro rounds dataLen
      cases rounds with
      | zero => exact fun hmore => by cases hmore
      | succ rounds => exact fun hmore => by cases hmore
  | cons x xs ih =>
      intro rounds dataLen
      have hrest := ih fun y hy => hxs y (List.mem_cons_of_mem _ hy)
      have hx := hxs x List.mem_cons_self
      cases rounds with
      | zero => exact fun hmore => by cases hmore
      | succ rounds =>
          have hbytes : tlvBytes (x :: xs) =
              (x.type :: toLE 2 x.value.length) ++ (x.value ++ tlvBytes xs) := by
            rw [tlvBytes_cons, Tlv.bytes, List.append_assoc]
          have hlen : ofLE (toLE 2 x.value.length) = x.value.length := ofLE_toLE hx.size
          rw [wireTlvs, Parser.orEnd, if_neg (by rw [hbytes]; simp), hbytes,
            bind_of_done (takeN_append (by simp) _)]
          simp only [List.headD_cons, List.drop_one, List.tail_cons, hlen]
          cases h : elementOf fs x with
          | none =>
              rw [findEi_of_none hfs h]
              dsimp only
              split_ifs
              · exact fun hmore => by cases hmore
              · exact (Consumes.skip rfl).bind_ne_more fun _ => map_ne_more (hrest rounds dataLen) _
          | some f =>
              obtain ⟨hmem, rest, hfind⟩ := findEi_of_some hfs h
              obtain ⟨e, sub, rest', hcons⟩ := consTable_eq_cons f rest
              have htakes := (hx.takes hfs h).2
              have hconsumes : Consumes
                  (wireElems (f.consTable rest) 1 0 .first x.value.length dataLen) x.value := by
                rcases hfs.fields f hmem with htext | hpacked
                · exact consumes_text htext rest x.value dataLen
                · have hbasic := (hplain f hmem).data.resolve_left hpacked.not_string
                  exact consumes_single hpacked (hplain f hmem).len hbasic htakes rest dataLen
              rw [hfind, hcons]
              rw [hcons] at hconsumes
              exact hconsumes.bind_ne_more fun r => map_ne_more (hrest rounds r.2) _

/-- The length in the header is that of the body, or the packet is dropped. -/
theorem decodeHeader_packet {inp : ℕ → UInt8} {type : UInt8} {txnId msgId msgLen : ℕ}
    {body : List UInt8}
    (hinp : window inp 0 (qmiHeader type txnId msgId msgLen ++ body).length =
      qmiHeader type txnId msgId msgLen ++ body)
    (hlen : msgLen < 65536) (hbody : body.length < 65536) :
    (qmiDecodeHeader (7 + body.length)).result inp =
      if body.length = msgLen then .ok (msgId % 65536) else .error .einval := by
  obtain ⟨-, -, hid, hmsgLen, -⟩ := window_packet hinp
  have hsub : (7 + body.length + (2 ^ 64 - 7)) % 2 ^ 64 = body.length := by omega
  rw [qmiDecodeHeader, Prog.result_bind_ok (Prog.result_readN 5 2 inp), hmsgLen,
    ofLE_toLE (by omega), hsub]
  by_cases heq : body.length = msgLen
  · rw [if_neg (not_not.mpr heq.symm), if_pos heq, Prog.result_bind_ok (Prog.result_readN 3 2 inp),
      hid, ofLE_toLE_mod]
    rfl
  · rw [if_pos (Ne.symm heq), if_neg heq]
    rfl

theorem tlvPacket_length (type : UInt8) (txnId msgId : ℕ) (xs : List Tlv) :
    (tlvPacket type txnId msgId xs).length = 7 + (tlvBytes xs).length := by
  simp only [tlvPacket, qmiHeader, List.length_append, List.length_cons, toLE_length]

/-- **A well-formed request is decoded from its own bytes.** -/
theorem decode_packet_readsBelow (hfs : RequestWf fs) (hplain : ∀ f ∈ fs, f.Plain)
    (hxs : ∀ x ∈ xs, x.Wf (toTable fs)) (hsize : (tlvBytes xs).length < 65536) {type : UInt8}
    {txnId msgId : ℕ}
    {inp : ℕ → UInt8} (hinp : window inp 0 (tlvPacket type txnId msgId xs).length =
      tlvPacket type txnId msgId xs)
    (wantType wantId : ℕ) : (qmiDecodeMessage (tlvPacket type txnId msgId xs).length wantType wantId
      (toTable fs)).ReadsBelow inp (tlvPacket type txnId msgId xs).length := by
  have hheader := decodeHeader_packet hinp hsize hsize
  obtain ⟨-, -, -, -, hbody⟩ := window_packet hinp
  rw [if_pos rfl] at hheader
  rw [tlvPacket_length]
  refine ((decode_packetOnly_iff (by omega) hheader wantType wantId (toTable fs)).mpr (Or.inr
    (Or.inr ?_))).2
  rw [Nat.add_sub_cancel_left, hbody, wireMessage]
  exact wireTlvs_ne_more hfs hplain hxs _ _

end Messages

end Imola.Qmi
