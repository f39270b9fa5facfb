import Imola.CInts
import Imola.StateTriples
import Imola.PdMapperJson

/-! # The cursor of the JSON parser of `pd-mapper`

The parsers of `json.c` with the cursor as an integer, and with the cursors at which `input` is
called. The buffer is a memory: what is read at a cursor outside of the text is a byte all the
same.  A run that does not come to an end is cut off (`deep`), and the calls up to there are those
of the run.

The results are those of the parsers of `PdMapperJson.lean`, for texts whose length is an `int`
(`jsonParse_agrees`).

`unput` follows a call of `input`, and after that the cursor is behind the first byte of the text,
if there is one.  So the cursor stays in a text that is not empty, whatever it is; in an empty one
it is moved in front of the buffer by the first `json_skip_whitespace` (`staysInText_iff`). -/

namespace Imola.PdMapper.Calls

open Imola.CInts Imola.CStrings Imola.JsonText Imola.StateTriples

/-- `input_pos`, and the cursors at the calls of `input` so far. -/
structure Cursor where
  pos : ℤ
  calls : List ℤ

/-- What a parser returns: 1 with a tree, 0 or -1.  `deep` is a run that was cut off. -/
inductive Code (α : Type) where
  | one (a : α)
  | zero
  | minus
  | deep

def Code.map {α β : Type} (g : α → β) : Code α → Code β
  | one a => one (g a)
  | zero => zero
  | minus => minus
  | deep => deep

section Parsers

variable (buf : ℤ → UInt8) (len : ℤ)

/-- `input`. -/
def input : StateM Cursor UInt8 := fun c =>
  if len ≤ c.pos then (0, ⟨c.pos, c.calls ++ [c.pos]⟩)
    else (buf c.pos, ⟨c.pos + 1, c.calls ++ [c.pos]⟩)

/-- `unput`. -/
def unput : StateM Cursor Unit := fun c => ((), ⟨c.pos - 1, c.calls⟩)

/-- The loop of `json_skip_whitespace`. -/
def skipLoop : ℕ → StateM Cursor Unit
  | 0 => pure ()
  | rounds + 1 => do
      let ch ← input buf len
      if ch ≠ 0 ∧ isSpace ch then skipLoop rounds else pure ()

/-- `json_skip_whitespace`.  The loop ends at the latest when the cursor is at the end of the
text. -/
def jsonSkipWhitespace : StateM Cursor Unit := do
  let c ← get
  skipLoop buf len ((len - c.pos).toNat + 1)
  unput

/-- `while ((ch = input()) && p(ch) && b - buf < room) *b++ = ch;`: the bytes stored, and `ch`. -/
def readLoop (p : UInt8 → Bool) : ℕ → StateM Cursor (List UInt8 × UInt8)
  | 0 => do
      let ch ← input buf len
      pure ([], ch)
  | room + 1 => do
      let ch ← input buf len
      if ch ≠ 0 ∧ p ch then do
        let r ← readLoop p room
        pure (ch :: r.1, r.2)
      else pure ([], ch)

/-- `json_parse_string`. -/
def jsonParseString : StateM Cursor (Code (List UInt8)) := do
  let ch ← input buf len
  if ch ≠ 34 then do
    unput
    pure .zero
  else do
    let r ← readLoop buf len (fun ch => ch ≠ 34) 127
    pure (if r.2 = 0 then .minus else .one r.1)

variable {ν : Type} (strtod : List UInt8 → ν)

/-- `json_parse_number`. -/
def jsonParseNumber : StateM Cursor (Code ν) := do
  let r ← readLoop buf len isDigit 19
  unput
  pure (if r.1 = [] then .zero else .one (strtod r.1))

/-- `while (*m && *m++ == ch) ch = input();`: `m` after it. -/
def matchLoop : List UInt8 → UInt8 → StateM Cursor (List UInt8)
  | [], _ => pure []
  | x :: m, ch =>
      if x = ch then do
        let ch ← input buf len
        matchLoop m ch
      else pure m

/-- `json_parse_keyword`. -/
def jsonParseKeyword : StateM Cursor (Code (Json ν)) := do
  let ch ← input buf len
  match keywordOf ch with
  | none => do
      unput
      pure .zero
  | some (word, v) => do
      let m ← matchLoop buf len word ch
      unput
      pure (if m = [] then .one v else .minus)

/-- The loop of `json_parse_array` and `json_parse_object`, with at most `rounds` items. -/
def itemLoop {α : Type} (close : UInt8) (item : StateM Cursor (Code α)) :
    ℕ → StateM Cursor (Code (List α))
  | 0 => pure .deep
  | rounds + 1 => do
      let ret ← item
      match ret with
      | .one a => do
          let ch ← input buf len
          if ch = close then pure (.one [a])
          else if ch = 44 then do
            let rest ← itemLoop close item rounds
            pure (rest.map (a :: ·))
          else pure .minus
      | .deep => pure .deep
      | _ => pure .minus

/-- The beginning of `json_parse_array` and `json_parse_object`. -/
def opened {α : Type} (bracket : UInt8) (items : StateM Cursor (Code α)) :
    StateM Cursor (Code α) := do
  let ch ← input buf len
  if ch ≠ bracket then do
    unput
    pure .zero
  else items

/-- `json_parse_array`; `value` is `json_parse_value`. -/
def jsonParseArray (rounds : ℕ) (value : StateM Cursor (Code (Json ν))) :
    StateM Cursor (Code (Json ν)) :=
  opened buf len 91 do
    let ret ← itemLoop buf len 93 value rounds
    pure (ret.map .array)

/-- `json_parse_property`. -/
def jsonParseProperty (value : StateM Cursor (Code (Json ν))) :
    StateM Cursor (Code (List UInt8 × Json ν)) := do
  jsonSkipWhitespace buf len
  let ret ← jsonParseString buf len
  match ret with
  | .one key => do
      jsonSkipWhitespace buf len
      let ch ← input buf len
      if ch ≠ 58 then pure .minus
      else do
        let ret ← value
        pure (match ret with
          | .one v => .one (key, v)
          | .deep => .deep
          | _ => .minus)
  | .deep => pure .deep
  | _ => pure .minus

/-- `json_parse_object`. -/
def jsonParseObject (rounds : ℕ) (value : StateM Cursor (Code (Json ν))) :
    StateM Cursor (Code (Json ν)) :=
  opened buf len 123 do
    let ret ← itemLoop buf len 125 (jsonParseProperty buf len value) rounds
    pure (ret.map .object)

/-- `if (ret) goto out;`: the next parser is tried when this one returns 0. -/
def orElse {α : Type} (m next : StateM Cursor (Code α)) : StateM Cursor (Code α) := do
  let ret ← m
  match ret with
  | .zero => next
  | ret => pure ret

/-- The end of `json_parse_value`.  White space is skipped after -1 as well, but not when no parser
has matched. -/
def valueEnd (ret : Code (Json ν)) : StateM Cursor (Code (Json ν)) :=
  match ret with
  | .zero => pure .minus
  | .deep => pure .deep
  | ret => do
      jsonSkipWhitespace buf len
      pure ret

/-- `json_parse_value`, with at most `depth` calls of it open at a time. -/
def jsonParseValue (rounds : ℕ) : ℕ → StateM Cursor (Code (Json ν))
  | 0 => pure .deep
  | depth + 1 => do
      jsonSkipWhitespace buf len
      let ret ← orElse (jsonParseObject buf len rounds (jsonParseValue rounds depth)) <|
        orElse (jsonParseArray buf len rounds (jsonParseValue rounds depth)) <|
        orElse (do
          let ret ← jsonParseString buf len
          pure (ret.map .string)) <|
        orElse (do
          let ret ← jsonParseNumber buf len strtod
          pure (ret.map .number)) <|
        jsonParseKeyword buf len
      valueEnd buf len ret

/-- The cursors at the calls of `input` in a run of `json_parse_value` from the beginning of the
text. -/
def inputCalls (rounds depth : ℕ) : List ℤ :=
  (jsonParseValue buf len strtod rounds depth ⟨0, []⟩).2.calls

end Parsers

/-- The bytes of a text, and others around it. -/
def memory (outside : ℤ → UInt8) (s : List UInt8) (i : ℤ) : UInt8 :=
  if 0 ≤ i then (s[i.toNat]?).getD (outside i) else outside i

section Entry

variable {ν : Type} (strtod : List UInt8 → ν) (outside : ℤ → UInt8)

/-- The calls of `input` in `json_parse` on the string `json`. -/
def jsonParseCalls (json : List UInt8) (rounds depth : ℕ) : List ℤ :=
  inputCalls (memory outside json) (toInt json.length) strtod rounds depth

/-- The calls of `input` in `json_parse_file`, where `read` gives `ret`. -/
def jsonParseFileCalls (file : List UInt8) (ret : ℤ) (rounds depth : ℕ) : List ℤ :=
  if ret = toInt file.length then
    inputCalls (memory outside file) (toInt file.length) strtod rounds depth
  else []

end Entry

/-- `input` is called only with the cursor in the text, however long the run is. -/
def StaysInText (len : ℤ) (calls : ℕ → ℕ → List ℤ) : Prop :=
  ∀ rounds depth, ∀ pos ∈ calls rounds depth, 0 ≤ pos ∧ pos ≤ len

/-! ### What `input` and `unput` keep, the parsers keep -/

section Keeps

variable {buf : ℤ → UInt8} {len : ℤ} {ν : Type} {strtod : List UInt8 → ν}

/-- `I` holds before a call of `input`, and `R` after it, when a byte may be put back. -/
structure Guards (buf : ℤ → UInt8) (len : ℤ) (I R : Cursor → Prop) : Prop where
  input : Triple I (input buf len) fun _ => R
  unput : Triple R unput fun _ => I
  weaken : ∀ c, R c → I c

variable {I R : Cursor → Prop} (h : Guards buf len I R)

include h

theorem Guards.skipLoop (rounds : ℕ) : Triple I (skipLoop buf len (rounds + 1)) fun _ => R := by
  induction rounds with
  | zero =>
      refine h.input.bind fun ch => ?_
      exact Triple.ite (fun _ => Triple.pure () fun _ hc => hc) fun _ =>
        Triple.pure () fun _ hc => hc
  | succ rounds ih =>
      refine h.input.bind fun ch => ?_
      exact Triple.ite (fun _ => ih.pre h.weaken) fun _ => Triple.pure () fun _ hc => hc

theorem Guards.skip : Keeps I (jsonSkipWhitespace buf len) :=
  fun c hc => ((h.skipLoop _).bind fun _ => h.unput) c hc

theorem Guards.readLoop (p : UInt8 → Bool) (room : ℕ) :
    Triple I (readLoop buf len p room) fun _ => R := by
  induction room with
  | zero => exact h.input.bind fun ch => Triple.pure _ fun _ hc => hc
  | succ room ih =>
      refine h.input.bind fun ch => Triple.ite (fun _ => ?_) fun _ => Triple.pure _ fun _ hc => hc
      exact (ih.pre h.weaken).bind fun r => Triple.pure _ fun _ hc => hc

theorem Guards.putBack {α : Type} (a : α) : Triple R (do Calls.unput; pure a) fun _ => I :=
  h.unput.bind fun _ => Triple.pure a fun _ hc => hc

theorem Guards.string : Keeps I (jsonParseString buf len) := by
  refine h.input.bind fun ch => Triple.ite (fun _ => h.putBack _) fun _ => ?_
  exact ((h.readLoop _ 127).pre h.weaken).bind fun r => Triple.pure _ h.weaken

theorem Guards.number : Keeps I (jsonParseNumber buf len strtod) :=
  (h.readLoop _ 19).bind fun _ => h.putBack _

theorem Guards.matchLoop (word : List UInt8) (ch : UInt8) :
    Triple R (matchLoop buf len word ch) fun _ => R := by
  induction word generalizing ch with
  | nil => exact Triple.pure _ fun _ hc => hc
  | cons x m ih =>
      exact Triple.ite (fun _ => (h.input.pre h.weaken).bind fun ch => ih ch) fun _ =>
        Triple.pure _ fun _ hc => hc

theorem Guards.keyword : Keeps I (jsonParseKeyword buf len : StateM Cursor (Code (Json ν))) := by
  refine h.input.bind fun ch => ?_
  cases keywordOf ch with
  | none => exact h.putBack _
  | some wv => exact (h.matchLoop _ ch).bind fun _ => h.putBack _

theorem Guards.itemLoop {α : Type} (close : UInt8) {item : StateM Cursor (Code α)}
    (hitem : Keeps I item) (rounds : ℕ) :
    Keeps I (itemLoop buf len close item rounds) := by
  induction rounds with
  | zero => exact Keeps.pure _
  | succ rounds ih =>
      refine hitem.bind fun ret => ?_
      cases ret with
      | one a =>
          refine h.input.bind fun ch => Triple.pre ?_ h.weaken
          refine Triple.ite (fun _ => Keeps.pure _) fun _ => Triple.ite (fun _ => ?_) fun _ =>
            Keeps.pure _
          exact ih.bind fun _ => Keeps.pure _
      | _ => exact Keeps.pure _

theorem Guards.opened {α : Type} (bracket : UInt8) {items : StateM Cursor (Code α)}
    (hitems : Keeps I items) :
    Keeps I (opened buf len bracket items) :=
  h.input.bind fun _ => Triple.ite (fun _ => h.putBack _) fun _ => hitems.pre h.weaken

theorem Guards.array (rounds : ℕ) {value : StateM Cursor (Code (Json ν))} (hvalue : Keeps I value) :
    Keeps I (jsonParseArray buf len rounds value) :=
  h.opened 91 ((h.itemLoop 93 hvalue rounds).bind fun _ => Keeps.pure _)

theorem Guards.property {value : StateM Cursor (Code (Json ν))} (hvalue : Keeps I value) :
    Keeps I (jsonParseProperty buf len value) := by
  refine h.skip.bind fun _ => h.string.bind fun ret => ?_
  cases ret with
  | one key =>
      refine h.skip.bind fun _ => h.input.bind fun ch => Triple.pre ?_ h.weaken
      exact Triple.ite (fun _ => Keeps.pure _) fun _ => hvalue.bind fun _ => Keeps.pure _
  | _ => exact Keeps.pure _

theorem Guards.object (rounds : ℕ) {value : StateM Cursor (Code (Json ν))}
    (hvalue : Keeps I value) :
    Keeps I (jsonParseObject buf len rounds value) :=
  h.opened 123 ((h.itemLoop 125 (h.property hvalue) rounds).bind fun _ => Keeps.pure _)

omit h in
theorem keeps_orElse {P : Cursor → Prop} {α : Type} {Q : Cursor → Prop}
    {m next : StateM Cursor (Code α)}
    (hm : Triple P m fun _ => Q) (hnext : Keeps Q next) : Triple P (orElse m next) fun _ => Q := by
  refine hm.bind fun ret => ?_
  cases ret with
  | zero => exact hnext
  | _ => exact Keeps.pure _

theorem Guards.valueEnd (ret : Code (Json ν)) : Keeps I (valueEnd buf len ret) := by
  cases ret with
  | one a => exact h.skip.bind fun _ => Keeps.pure _
  | minus => exact h.skip.bind fun _ => Keeps.pure _
  | _ => exact Keeps.pure _

theorem Guards.others (rounds : ℕ) {value : StateM Cursor (Code (Json ν))}
    (hvalue : Keeps I value) :
    Keeps I (orElse (jsonParseArray buf len rounds value) <|
      orElse (do
        let ret ← jsonParseString buf len
        pure (ret.map .string)) <|
      orElse (do
        let ret ← jsonParseNumber buf len strtod
        pure (ret.map .number)) <|
      jsonParseKeyword buf len) := by
  refine keeps_orElse (h.array rounds hvalue) (keeps_orElse ?_ (keeps_orElse ?_ h.keyword))
  · exact h.string.bind fun _ => Keeps.pure _
  · exact h.number.bind fun _ => Keeps.pure _

/-- **The parsers keep** what `input` and `unput` keep. -/
theorem Guards.value (rounds depth : ℕ) : Keeps I (jsonParseValue buf len strtod rounds depth) := by
  induction depth with
  | zero => exact Keeps.pure _
  | succ depth ih =>
      refine h.skip.bind fun _ => Keeps.bind ?_ h.valueEnd
      exact keeps_orElse (h.object rounds ih) (h.others rounds ih)

end Keeps

/-! ### The cursor -/

section Cursor

variable {buf : ℤ → UInt8} {len : ℤ} {ν : Type} {strtod : List UInt8 → ν}

/-- The cursor is and was in the text. -/
def Inside (len : ℤ) (c : Cursor) : Prop :=
  0 ≤ c.pos ∧ c.pos ≤ len ∧ ∀ pos ∈ c.calls, 0 ≤ pos ∧ pos ≤ len

/-- A call was made with the cursor outside of the text. -/
def Outside (len : ℤ) (c : Cursor) : Prop := ∃ pos ∈ c.calls, ¬ (0 ≤ pos ∧ pos ≤ len)

theorem guards_inside (hlen : 0 < len) :
    Guards buf len (Inside len) fun c => Inside len c ∧ 1 ≤ c.pos := by
  refine ⟨fun c hc => ?_, fun c hc => ?_, fun c hc => hc.1⟩
  · obtain ⟨hpos, hle, hcalls⟩ := hc
    have hlog : ∀ pos ∈ c.calls ++ [c.pos], 0 ≤ pos ∧ pos ≤ len := by
      intro pos hmem
      rcases List.mem_append.mp hmem with hold | hnew
      · exact hcalls pos hold
      · rw [List.mem_singleton.mp hnew]
        exact ⟨hpos, hle⟩
    by_cases hend : len ≤ c.pos
    · have hrun : (input buf len).run c = (0, ⟨c.pos, c.calls ++ [c.pos]⟩) := if_pos hend
      rw [hrun]
      exact ⟨⟨hpos, hle, hlog⟩, show 1 ≤ c.pos by omega⟩
    · have hrun : (input buf len).run c = (buf c.pos, ⟨c.pos + 1, c.calls ++ [c.pos]⟩) :=
        if_neg hend
      rw [hrun]
      exact ⟨⟨show 0 ≤ c.pos + 1 by omega, show c.pos + 1 ≤ len by omega, hlog⟩,
        show 1 ≤ c.pos + 1 by omega⟩
  · obtain ⟨⟨hpos, hle, hcalls⟩, hone⟩ := hc
    exact ⟨show 0 ≤ c.pos - 1 by omega, show c.pos - 1 ≤ len by omega, hcalls⟩

theorem calls_input (c : Cursor) : ((input buf len).run c).2.calls = c.calls ++ [c.pos] := by
  by_cases hend : len ≤ c.pos
  · rw [show (input buf len).run c = (0, ⟨c.pos, c.calls ++ [c.pos]⟩) from if_pos hend]
  · rw [show (input buf len).run c = (buf c.pos, ⟨c.pos + 1, c.calls ++ [c.pos]⟩) from if_neg hend]

theorem guards_outside : Guards buf len (Outside len) (Outside len) := by
  refine ⟨fun c hc => ?_, fun c hc => hc, fun c hc => hc⟩
  obtain ⟨pos, hmem, hout⟩ := hc
  refine ⟨pos, ?_, hout⟩
  rw [calls_input]
  exact List.mem_append_left _ hmem

/-- The white space in front of an empty text moves the cursor in front of the buffer. -/
theorem skip_empty (hlen : len ≤ 0) :
    Triple (fun c => c = ⟨0, []⟩) (jsonSkipWhitespace buf len) fun _ c => c = ⟨-1, [0]⟩ := by
  have hinput : Triple (fun c => c = ⟨0, []⟩) (input buf len) fun ch c => ch = 0 ∧
      c = ⟨0, [0]⟩ := by
    rintro c rfl
    rw [show (input buf len).run ⟨0, []⟩ = (0, ⟨0, [0]⟩) from if_pos hlen]
    exact ⟨rfl, rfl⟩
  have hloop : Triple (fun c => c = ⟨0, []⟩) (skipLoop buf len 1) fun _ c => c = ⟨0, [0]⟩ :=
    hinput.bind fun ch => Triple.ite (fun hch _ hc => absurd hc.1 hch.1) fun _ =>
      Triple.pure () fun _ hc => hc.2
  have hrounds : (len - 0).toNat + 1 = 1 := by omega
  have hskip : Triple (fun c => c = ⟨0, []⟩) (do skipLoop buf len ((len - 0).toNat + 1); unput)
      fun _ c => c = ⟨-1, [0]⟩ := by
    rw [hrounds]
    refine hloop.bind fun _ => ?_
    rintro c rfl
    rfl
  rintro c rfl
  exact hskip _ rfl

/-- So the next call of `input` is made there. -/
theorem outside_of_empty (hlen : len ≤ 0) (rounds depth : ℕ) :
    Outside len ((jsonParseValue buf len strtod rounds (depth + 1)).run ⟨0, []⟩).2 := by
  have hout : Guards buf len (Outside len) (Outside len) := guards_outside
  have hvalue : Keeps (Outside len) (jsonParseValue buf len strtod rounds depth) :=
    hout.value rounds depth
  have hinput : Triple (fun c => c = ⟨-1, [0]⟩) (input buf len) fun _ => Outside len := by
    rintro c rfl
    refine ⟨-1, ?_, by omega⟩
    rw [calls_input]
    exact List.mem_append_right _ (List.mem_singleton.mpr rfl)
  have hobject : Triple (fun c => c = ⟨-1, [0]⟩)
    (jsonParseObject buf len rounds (jsonParseValue buf len strtod rounds depth))
      fun _ => Outside len := by
    refine hinput.bind fun ch => Triple.ite (fun _ => hout.putBack _) fun _ => ?_
    exact (hout.itemLoop 125 (hout.property hvalue) rounds).bind fun _ => Keeps.pure _
  exact ((skip_empty hlen).bind fun _ =>
    (keeps_orElse hobject (hout.others rounds hvalue)).bind hout.valueEnd) _ rfl

/-- **The cursor stays in the text** exactly when the text is not empty. -/
theorem staysInText_inputCalls : StaysInText len (inputCalls buf len strtod) ↔ 0 < len := by
  constructor
  · intro h
    by_contra hlen
    obtain ⟨pos, hmem, hout⟩ := @outside_of_empty buf len ν strtod (by omega) 0 0
    exact hout (h 0 1 pos hmem)
  · intro hlen rounds depth
    exact ((guards_inside hlen).value rounds depth ⟨0, []⟩
      ⟨le_rfl, hlen.le, fun pos hmem => by cases hmem⟩).2.2

/-- **`json_parse` and `json_parse_file`.** -/
theorem staysInText_iff (strtod : List UInt8 → ν) (outside : ℤ → UInt8) (s : List UInt8) (ret : ℤ) :
    (StaysInText (toInt s.length) (jsonParseCalls strtod outside s) ↔ 0 < toInt s.length) ∧
    (StaysInText (toInt s.length) (jsonParseFileCalls strtod outside s ret) ↔
      (ret = toInt s.length → 0 < toInt s.length)) := by
  refine ⟨staysInText_inputCalls, ?_⟩
  by_cases hret : ret = toInt s.length
  · have hcalls : jsonParseFileCalls strtod outside s ret =
        inputCalls (memory outside s) (toInt s.length) strtod := by
      funext rounds depth
      rw [jsonParseFileCalls, if_pos hret]
    rw [hcalls, staysInText_inputCalls]
    exact ⟨fun h _ => h, fun h => h hret⟩
  · refine iff_of_true (fun rounds depth pos hmem => ?_) fun h => absurd h hret
    rw [jsonParseFileCalls, if_neg hret] at hmem
    cases hmem

/-- On the empty string the byte in front of it is read. -/
theorem not_staysInText_empty :
    jsonParseCalls (fun _ => ()) (fun _ => 32) [] 1 1 = [0, -1, -1, -1, -1, -1] ∧
    ¬ StaysInText (toInt 0) (jsonParseCalls (fun _ => ()) (fun _ => 32) []) := by
  refine ⟨?_, fun h => ?_⟩
  · decide
  · have hlen := staysInText_inputCalls.mp h
    revert hlen
    decide

end Cursor

/-! ### The same results -/

section Agrees

/-- The bytes of `text` are the byte in front of the buffer and the buffer. -/
structure Loaded (text : List UInt8) (buf : ℤ → UInt8) (len : ℤ) : Prop where
  length : len + 1 = text.length
  pos : 0 < text.length
  byte : ∀ (n : ℕ) (b : UInt8), text[n]? = some b → buf ((n : ℤ) - 1) = b

/-- The cursor is at the position `n`, counted from the byte in front of the buffer. -/
def AtPos (n : ℕ) (c : Cursor) : Prop := c.pos = (n : ℤ) - 1

/-- The same result, and where it matters the same cursor. -/
def Agrees {α : Type} (text : List UInt8) (x : Ret α) (ret : Code α) (c : Cursor) : Prop :=
  match x with
  | .ok a n => ret = .one a ∧ AtPos n c ∧ n ≤ text.length
  | .no n => ret = .zero ∧ AtPos n c ∧ n ≤ text.length
  | .error => ret = .minus
  | .deep => ret = .deep

section Rules

variable {text : List UInt8} {α β : Type} {P : Cursor → Prop}
    {m : StateM Cursor (Code α)} {x : Ret α}

theorem agrees_ok {n : ℕ} (hn : n ≤ text.length) (a : α) :
    Triple (AtPos n) (pure (.one a) : StateM Cursor (Code α)) (Agrees text (.ok a n)) :=
  Triple.pure _ fun _ hc => ⟨rfl, hc, hn⟩

theorem agrees_map (h : Triple P m (Agrees text x)) (g : α → β) :
    Triple P (do let ret ← m; pure (ret.map g)) (Agrees text (x.map g)) := by
  refine h.bind fun ret => Triple.pure _ fun c hc => ?_
  cases x with
  | ok a n =>
      obtain ⟨rfl, hrest⟩ := hc
      exact ⟨rfl, hrest⟩
  | no n =>
      obtain ⟨rfl, hrest⟩ := hc
      exact ⟨rfl, hrest⟩
  | error =>
      obtain rfl : ret = .minus := hc
      rfl
  | deep =>
      obtain rfl : ret = .deep := hc
      rfl

theorem agrees_orElse {next : StateM Cursor (Code α)} {f : ℕ → Ret α}
    (h : Triple P m (Agrees text x))
    (hnext : ∀ n ≤ text.length, Triple (AtPos n) next (Agrees text (f n))) :
    Triple P (orElse m next) (Agrees text (x.orElse f)) := by
  refine h.bind fun ret => ?_
  cases x with
  | ok a n =>
      rintro c ⟨rfl, hrest⟩
      exact ⟨rfl, hrest⟩
  | no n =>
      rintro c ⟨rfl, hpos, hn⟩
      exact hnext n hn c hpos
  | error =>
      rintro c (rfl : ret = .minus)
      rfl
  | deep =>
      rintro c (rfl : ret = .deep)
      rfl

theorem agrees_andThen {f : Code α → StateM Cursor (Code β)} {g : α → ℕ → Ret β}
    (h : Triple P m (Agrees text x))
    (hone : ∀ a, ∀ n ≤ text.length, Triple (AtPos n) (f (.one a)) (Agrees text (g a n)))
    (hzero : f .zero = pure .minus)
    (hminus : Triple (fun _ => True) (f .minus) fun ret _ => ret = .minus)
    (hdeep : f .deep = pure .deep) : Triple P (m >>= f) (Agrees text (x.andThen g)) := by
  refine h.bind fun ret => ?_
  cases x with
  | ok a n =>
      rintro c ⟨rfl, hpos, hn⟩
      exact hone a n hn c hpos
  | no n =>
      rintro c ⟨rfl, -⟩
      rw [hzero]
      rfl
  | error =>
      rintro c (rfl : ret = .minus)
      exact hminus c trivial
  | deep =>
      rintro c (rfl : ret = .deep)
      rw [hdeep]
      rfl

end Rules

variable {text : List UInt8} {buf : ℤ → UInt8} {len : ℤ} {n : ℕ} {ν : Type}
    {strtod : List UInt8 → ν}

theorem input_of_drop_nil (h : text.drop n = []) : PdMapper.input text n = (0, n) := by
  rw [PdMapper.input, h]

theorem input_of_drop_cons {b : UInt8} {r : List UInt8} (h : text.drop n = b :: r) :
    PdMapper.input text n = (b, n + 1) := by
  rw [PdMapper.input, h]

theorem drop_succ_of_cons {b : UInt8} {r : List UInt8} (h : text.drop n = b :: r) :
    text.drop (n + 1) = r := by
  rw [← List.drop_drop, h]
  rfl

theorem length_of_drop_cons {b : UInt8} {r : List UInt8} (h : text.drop n = b :: r) :
    n + 1 + r.length = text.length := by
  have hlen := congrArg List.length h
  rw [List.length_drop, List.length_cons] at hlen
  omega

variable (h : Loaded text buf len)

include h

theorem input_agrees (hn : n ≤ text.length) : Triple (AtPos n) (input buf len)
    fun ch c => ch = (PdMapper.input text n).1 ∧ AtPos (PdMapper.input text n).2 c := by
  intro c (hc : c.pos = (n : ℤ) - 1)
  have hlen := h.length
  cases hdrop : text.drop n with
  | nil =>
      have hend : text.length ≤ n := List.drop_eq_nil_iff.mp hdrop
      rw [input_of_drop_nil hdrop, show (input buf len).run c = (0, ⟨c.pos, c.calls ++ [c.pos]⟩)
        from if_pos (by omega)]
      exact ⟨rfl, hc⟩
  | cons b r =>
      have hroom := length_of_drop_cons hdrop
      have hget : text[n]? = some b := by
        have hhead := congrArg List.head? hdrop
        rwa [List.head?_drop, List.head?_cons] at hhead
      rw [input_of_drop_cons hdrop,
        show (input buf len).run c = (buf c.pos, ⟨c.pos + 1, c.calls ++ [c.pos]⟩)
          from if_neg (by omega)]
      refine ⟨?_, ?_⟩
      · rw [hc]
        exact h.byte n b hget
      · show c.pos + 1 = ((n + 1 : ℕ) : ℤ) - 1
        omega

theorem input_bounds (hn : n ≤ text.length) :
    1 ≤ (PdMapper.input text n).2 ∧ (PdMapper.input text n).2 ≤ text.length := by
  have hpos := h.pos
  cases hdrop : text.drop n with
  | nil =>
      rw [List.drop_eq_nil_iff] at hdrop
      rw [input_of_drop_nil (List.drop_eq_nil_iff.mpr hdrop)]
      omega
  | cons b r =>
      have hroom := length_of_drop_cons hdrop
      rw [input_of_drop_cons hdrop]
      omega

omit h in
theorem unput_agrees (hn : 1 ≤ n) : Triple (AtPos n) unput fun _ => AtPos (PdMapper.unput n) := by
  intro c (hc : c.pos = (n : ℤ) - 1)
  show c.pos - 1 = ((n - 1 : ℕ) : ℤ) - 1
  omega

theorem putBack_agrees {α : Type} (hn : n ≤ text.length) : Triple (AtPos (PdMapper.input text n).2)
    (do unput; pure .zero : StateM Cursor (Code α))
    (Agrees text (.no (PdMapper.unput (PdMapper.input text n).2))) := by
  obtain ⟨hone, hle⟩ := input_bounds h hn
  refine (unput_agrees hone).bind fun _ => Triple.pure _ fun c hc => ⟨rfl, hc, ?_⟩
  rw [PdMapper.unput]
  omega

theorem skipLoop_agrees (rounds : ℕ) : ∀ n ≤ text.length, text.length < n + rounds →
    Triple (AtPos n) (skipLoop buf len rounds) fun _ c =>
    AtPos (PdMapper.skipLoop (text.drop n) n) c ∧
      1 ≤ PdMapper.skipLoop (text.drop n) n ∧ PdMapper.skipLoop (text.drop n) n ≤ text.length := by
  induction rounds with
  | zero =>
      intro n hn hrounds
      omega
  | succ rounds ih =>
      intro n hn hrounds
      have hpos := h.pos
      refine (input_agrees h hn).bind_eq ?_
      cases hdrop : text.drop n with
      | nil =>
          rw [input_of_drop_nil hdrop, if_neg (by simp)]
          rw [List.drop_eq_nil_iff] at hdrop
          exact Triple.pure () fun c hc => ⟨hc, show 1 ≤ n by omega, hn⟩
      | cons b r =>
          have hroom := length_of_drop_cons hdrop
          rw [input_of_drop_cons hdrop, PdMapper.skipLoop]
          by_cases hb : b ≠ 0 ∧ isSpace b = true
          · rw [if_pos hb, if_pos hb]
            have hrest := ih (n + 1) (by omega) (by omega)
            rwa [drop_succ_of_cons hdrop] at hrest
          · rw [if_neg hb, if_neg hb]
            exact Triple.pure () fun c hc => ⟨hc, by omega, by omega⟩

theorem skip_le (hn : n ≤ text.length) : PdMapper.jsonSkipWhitespace text n ≤ text.length := by
  have hloop := (skipLoop_agrees h (text.length + 1) n hn (by omega) ⟨(n : ℤ) - 1, []⟩ rfl).2.2
  rw [PdMapper.jsonSkipWhitespace, PdMapper.unput]
  omega

theorem skip_agrees (hn : n ≤ text.length) : Triple (AtPos n) (jsonSkipWhitespace buf len)
    fun _ => AtPos (PdMapper.jsonSkipWhitespace text n) := by
  intro c (hc : c.pos = (n : ℤ) - 1)
  have hlen := h.length
  have hloop := skipLoop_agrees h ((len - c.pos).toNat + 1) n hn (by omega)
  refine (hloop.bind fun _ =>
    ?_ : Triple (AtPos n) (do skipLoop buf len ((len - c.pos).toNat + 1); unput)
    fun _ => AtPos (PdMapper.jsonSkipWhitespace text n)) c hc
  rintro c ⟨hpos, hone, -⟩
  exact unput_agrees hone c hpos

theorem readLoop_agrees (p : UInt8 → Bool) (room : ℕ) : ∀ n ≤ text.length,
    Triple (AtPos n) (readLoop buf len p room) fun r c =>
      r = ((PdMapper.readLoop p room (text.drop n) n).1,
        (PdMapper.readLoop p room (text.drop n) n).2.1) ∧
      AtPos (PdMapper.readLoop p room (text.drop n) n).2.2 c ∧
      1 ≤ (PdMapper.readLoop p room (text.drop n) n).2.2 ∧
        (PdMapper.readLoop p room (text.drop n) n).2.2 ≤ text.length := by
  induction room with
  | zero =>
      intro n hn
      have hpos := h.pos
      refine (input_agrees h hn).bind_eq (Triple.pure _ fun c hc => ?_)
      cases hdrop : text.drop n with
      | nil =>
          rw [input_of_drop_nil hdrop] at hc ⊢
          rw [List.drop_eq_nil_iff] at hdrop
          exact ⟨rfl, hc, show 1 ≤ n by omega, hn⟩
      | cons b r =>
          have hroom := length_of_drop_cons hdrop
          rw [input_of_drop_cons hdrop] at hc ⊢
          exact ⟨rfl, hc, show 1 ≤ n + 1 by omega, show n + 1 ≤ text.length by omega⟩
  | succ room ih =>
      intro n hn
      have hpos := h.pos
      refine (input_agrees h hn).bind_eq ?_
      cases hdrop : text.drop n with
      | nil =>
          rw [input_of_drop_nil hdrop, if_neg (by simp)]
          rw [List.drop_eq_nil_iff] at hdrop
          exact Triple.pure _ fun c hc => ⟨rfl, hc, show 1 ≤ n by omega, hn⟩
      | cons b r =>
          have hroom := length_of_drop_cons hdrop
          rw [input_of_drop_cons hdrop, PdMapper.readLoop]
          by_cases hb : b ≠ 0 ∧ p b = true
          · rw [if_pos hb, if_pos hb]
            have hrest := ih (n + 1) (by omega)
            rw [drop_succ_of_cons hdrop] at hrest
            exact hrest.bind_eq (Triple.pure _ fun c hc => ⟨rfl, hc⟩)
          · rw [if_neg hb, if_neg hb]
            exact Triple.pure _ fun c hc => ⟨rfl, hc,
              show 1 ≤ n + 1 by omega, show n + 1 ≤ text.length by omega⟩

theorem string_agrees (hn : n ≤ text.length) :
    Triple (AtPos n) (jsonParseString buf len) (Agrees text (PdMapper.jsonParseString text n)) := by
  obtain ⟨-, hle⟩ := input_bounds h hn
  refine (input_agrees h hn).bind_eq ?_
  rw [PdMapper.jsonParseString]
  by_cases hq : (PdMapper.input text n).1 ≠ 34
  · rw [if_pos hq]
    simp only [if_pos hq]
    exact putBack_agrees h hn
  · rw [if_neg hq]
    simp only [if_neg hq]
    refine (readLoop_agrees h _ 127 _ hle).bind_eq (Triple.pure _ fun c hc => ?_)
    dsimp only
    split_ifs
    · rfl
    · exact ⟨rfl, hc.1, hc.2.2⟩

theorem number_agrees (hn : n ≤ text.length) :
    Triple (AtPos n) (jsonParseNumber buf len strtod)
      (Agrees text (PdMapper.jsonParseNumber strtod text n)) := by
  refine (readLoop_agrees h _ 19 n hn).bind_eq ?_
  rw [PdMapper.jsonParseNumber]
  refine Triple.bind (R := fun _ c =>
    AtPos (PdMapper.unput (PdMapper.readLoop isDigit 19 (text.drop n) n).2.2) c ∧
    PdMapper.unput (PdMapper.readLoop isDigit 19 (text.drop n) n).2.2 ≤ text.length) ?_ fun _ =>
    Triple.pure _ fun c hc => ?_
  · rintro c ⟨hpos, hone, hle⟩
    refine ⟨unput_agrees hone c hpos, ?_⟩
    rw [PdMapper.unput]
    omega
  · dsimp only
    split_ifs
    · exact ⟨rfl, hc⟩
    · exact ⟨rfl, hc⟩

theorem matchLoop_agrees (word : List UInt8) : ∀ (ch : UInt8) (n : ℕ), 1 ≤ n → n ≤ text.length →
    Triple (AtPos n) (matchLoop buf len word ch) fun m c =>
    m = (PdMapper.matchLoop text word ch n).1 ∧
      AtPos (PdMapper.matchLoop text word ch n).2 c ∧ 1 ≤ (PdMapper.matchLoop text word ch n).2 ∧
      (PdMapper.matchLoop text word ch n).2 ≤ text.length := by
  induction word with
  | nil => exact fun ch n hone hn => Triple.pure _ fun c hc => ⟨rfl, hc, hone, hn⟩
  | cons x m ih =>
      intro ch n hone hn
      obtain ⟨hone', hle⟩ := input_bounds h hn
      rw [matchLoop, PdMapper.matchLoop]
      by_cases hx : x = ch
      · rw [if_pos hx, if_pos hx]
        exact (input_agrees h hn).bind_eq (ih _ _ hone' hle)
      · rw [if_neg hx, if_neg hx]
        exact Triple.pure _ fun c hc => ⟨rfl, hc, hone, hn⟩

theorem keyword_agrees (hn : n ≤ text.length) : Triple (AtPos n) (jsonParseKeyword buf len)
    (Agrees text (PdMapper.jsonParseKeyword text n : Ret (Json ν))) := by
  obtain ⟨hone, hle⟩ := input_bounds h hn
  refine (input_agrees h hn).bind_eq ?_
  rw [PdMapper.jsonParseKeyword]
  cases hk : (keywordOf (PdMapper.input text n).1 : Option (_ × Json ν)) with
  | none =>
      dsimp only
      exact putBack_agrees h hn
  | some wv =>
      obtain ⟨word, v⟩ := wv
      dsimp only
      refine (matchLoop_agrees h word _ _ hone hle).bind_eq ?_
      refine Triple.bind (R := fun _ c =>
        AtPos
          (PdMapper.unput (PdMapper.matchLoop text word
            (PdMapper.input text n).1 (PdMapper.input text n).2).2) c ∧
        PdMapper.unput (PdMapper.matchLoop text word
          (PdMapper.input text n).1 (PdMapper.input text n).2).2 ≤ text.length)
        ?_ fun _ => Triple.pure _ fun c hc => ?_
      · rintro c ⟨hpos, hone', hle'⟩
        refine ⟨unput_agrees hone' c hpos, ?_⟩
        rw [PdMapper.unput]
        omega
      · split_ifs
        · exact ⟨rfl, hc⟩
        · rfl

theorem itemLoop_agrees {α : Type} (close : UInt8) {item : StateM Cursor (Code α)} {x : ℕ → Ret α}
    (hitem : ∀ n ≤ text.length, Triple (AtPos n) item (Agrees text (x n))) (rounds : ℕ) :
    ∀ n ≤ text.length,
    Triple (AtPos n) (itemLoop buf len close item rounds)
      (Agrees text (PdMapper.itemLoop text close x rounds n)) := by
  induction rounds with
  | zero => exact fun n _ => Triple.pure _ fun _ _ => rfl
  | succ rounds ih =>
      intro n hn
      refine agrees_andThen (hitem n hn) (fun a n hn => ?_) rfl (fun _ _ => rfl) rfl
      obtain ⟨-, hle⟩ := input_bounds h hn
      refine (input_agrees h hn).bind_eq ?_
      by_cases hclose : (PdMapper.input text n).1 = close
      · simp only [if_pos hclose]
        exact agrees_ok hle _
      · simp only [if_neg hclose]
        by_cases hcomma : (PdMapper.input text n).1 = 44
        · simp only [if_pos hcomma]
          exact agrees_map (ih _ hle) _
        · simp only [if_neg hcomma]
          exact Triple.pure _ fun _ _ => rfl

theorem opened_agrees {α : Type} {bracket : UInt8} {items : StateM Cursor (Code α)} {x : ℕ → Ret α}
    (hitems : ∀ n ≤ text.length, Triple (AtPos n) items (Agrees text (x n)))
    (hn : n ≤ text.length) :
    Triple (AtPos n) (opened buf len bracket items) (Agrees text
      (if (PdMapper.input text n).1 ≠ bracket then .no (PdMapper.unput (PdMapper.input text n).2)
        else x (PdMapper.input text n).2)) := by
  obtain ⟨-, hle⟩ := input_bounds h hn
  refine (input_agrees h hn).bind_eq ?_
  by_cases hb : (PdMapper.input text n).1 ≠ bracket
  · rw [if_pos hb, if_pos hb]
    exact putBack_agrees h hn
  · rw [if_neg hb, if_neg hb]
    exact hitems _ hle

theorem property_agrees {value : StateM Cursor (Code (Json ν))} {x : ℕ → Ret (Json ν)}
    (hvalue : ∀ n ≤ text.length, Triple (AtPos n) value (Agrees text (x n)))
    (hn : n ≤ text.length) :
    Triple (AtPos n) (jsonParseProperty buf len value)
      (Agrees text (PdMapper.jsonParseProperty text x n)) := by
  refine (skip_agrees h hn).bind fun _ => ?_
  refine agrees_andThen (string_agrees h (skip_le h hn)) (fun key n hn => ?_) rfl
    (fun _ _ => rfl) rfl
  have hskip := skip_le h hn
  obtain ⟨-, hle⟩ := input_bounds h hskip
  refine (skip_agrees h hn).bind fun _ => (input_agrees h hskip).bind_eq ?_
  by_cases hcolon : (PdMapper.input text (PdMapper.jsonSkipWhitespace text n)).1 ≠ 58
  · simp only [if_pos hcolon]
    exact Triple.pure _ fun _ _ => rfl
  · simp only [if_neg hcolon]
    exact agrees_andThen (hvalue _ hle) (fun v n hn => agrees_ok hn _) rfl (fun _ _ => rfl) rfl

/-- **The results of `json_parse_value`.** -/
theorem jsonParseValue_agrees (depth : ℕ) : ∀ n ≤ text.length, Triple (AtPos n)
    (jsonParseValue buf len strtod (text.length + 1) depth)
    (Agrees text (PdMapper.jsonParseValue strtod text depth n)) := by
  induction depth with
  | zero => exact fun n _ => Triple.pure _ fun _ _ => rfl
  | succ depth ih =>
      intro n hn
      refine (skip_agrees h hn).bind fun _ => ?_
      refine agrees_andThen (agrees_orElse ?_ fun n hn => agrees_orElse ?_ fun n hn =>
        agrees_orElse ?_ fun n hn =>
        agrees_orElse ?_ fun n hn => keyword_agrees h hn) (fun v n hn => ?_) rfl ?_ rfl
      · exact opened_agrees h (fun n hn => agrees_map
          (itemLoop_agrees h 125 (fun n hn => property_agrees h ih hn) (text.length + 1) n hn) _)
          (skip_le h hn)
      · exact opened_agrees h (fun n hn =>
          agrees_map (itemLoop_agrees h 93 ih (text.length + 1) n hn) _) hn
      · exact agrees_map (string_agrees h hn) _
      · exact agrees_map (number_agrees h hn) _
      · exact (skip_agrees h hn).bind fun _ => agrees_ok (skip_le h hn) v
      · exact Triple.bind (R := fun _ _ => True) (fun _ _ => trivial) fun _ =>
          Triple.pure _ fun _ _ => rfl

omit h in
/-- **`json_parse` and `json_parse_file`** with the calls give what they give without. -/
theorem jsonParse_agrees (strtod : List UInt8 → ν) (outside : ℤ → UInt8) (depth : ℕ)
    {s : List UInt8}
    (hlen : s.length < 2 ^ 31) :
    jsonParse strtod (outside (-1)) depth s =
      match ((jsonParseValue (memory outside s) (toInt s.length) strtod (s.length + 2)
        depth).run ⟨0, []⟩).1 with
      | .one v => some (some v)
      | .zero => some none
      | .minus => some none
      | .deep => none := by
  have hint : toInt s.length = s.length := toInt_of_lt hlen
  have hloaded : Loaded (outside (-1) :: s) (memory outside s) (toInt s.length) := by
    refine ⟨by rw [hint, List.length_cons]; rfl, by simp, fun n b hb => ?_⟩
    cases n with
    | zero =>
        rw [List.getElem?_cons_zero, Option.some.injEq] at hb
        exact hb
    | succ n =>
        rw [List.getElem?_cons_succ] at hb
        have hcast : ((n + 1 : ℕ) : ℤ) - 1 = n := by omega
        rw [hcast, memory, if_pos (by omega), Int.toNat_natCast, hb]
        rfl
  have hagrees := @jsonParseValue_agrees _ _ _ ν strtod hloaded depth 1 (by simp) ⟨0, []⟩ rfl
  rw [List.length_cons] at hagrees
  rw [jsonParse]
  cases hx : PdMapper.jsonParseValue strtod (outside (-1) :: s) depth 1 with
  | ok v n =>
      rw [hx] at hagrees
      rw [hagrees.1]
  | no n =>
      rw [hx] at hagrees
      rw [hagrees.1]
  | error =>
      rw [hx] at hagrees
      rw [show ((jsonParseValue _ _ strtod _ depth).run _).1 = _ from hagrees]
  | deep =>
      rw [hx] at hagrees
      rw [show ((jsonParseValue _ _ strtod _ depth).run _).1 = _ from hagrees]

end Agrees

end Imola.PdMapper.Calls
