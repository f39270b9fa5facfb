import Imola.PdMapperCursor

/-! # What the parser of `pd-mapper` accepts

A run without slips has read a text of the grammar, and its result is the tree of that text
(`prints_of_scanValue`).  In the other direction the scanner follows a text of the grammar whose
strings have at most 127 bytes up to a number of more than 19 digits (`tracks`).

So every printed tree is read back, and an accepted text is one of the grammar unless the run made a
slip: the last byte read again, the last letter of a word or the closing quote of a long string not
checked, or bytes left behind the tree. -/

namespace Imola.PdMapper

open Imola.CStrings Imola.JsonText

variable {ν : Type} {strtod : List UInt8 → ν} {last : UInt8} {rounds : ℕ}

/-! ### A run without slips -/

/-- The digits of a number that fits its buffer. -/
def num19 (strtod : List UInt8 → ν) (ds : List UInt8) (x : ν) : Prop :=
  strtod ds = x ∧ ds.length ≤ 19

/-- The string fits its buffer. -/
def str127 (s : List UInt8) : Prop := s.length ≤ 127

section Sound

theorem prints_keyword {b : UInt8} {word : List UInt8} {v : Json ν}
    (h : keywordOf b = some (word, v))
    (num : List UInt8 → ν → Prop) (str : List UInt8 → Prop) : Prints num str (.value v) word := by
  obtain ⟨-, rfl, rfl⟩ | ⟨-, rfl, rfl⟩ | ⟨-, rfl, rfl⟩ := keywordOf_eq_some h
  · exact Prints.true
  · exact Prints.false
  · exact Prints.null

theorem ItemsRead.text {α : Type} {close : UInt8} {item : List UInt8 → Scan α}
    {text : α → List UInt8 → Prop}
    (texts : List α → List UInt8 → Prop) (hone : ∀ {a t}, text a t → texts [a] t)
    (hmore : ∀ {a as t t'}, text a t → texts as t' → texts (a :: as) (t ++ 44 :: t'))
    (hitem : ∀ {r a r'}, item r = .ok a [] r' → ∃ t, r = t ++ r' ∧ ∀ w, Blank w → text a (t ++ w))
    {r r' : List UInt8} {as : List α} {σ : List Slip} (h : ItemsRead last close item r as σ r') :
    σ = [] → ∃ t, r = t ++ close :: r' ∧ texts as t := by
  induction h with
  | one hok hclose =>
      intro hσ
      obtain ⟨rfl, hfresh⟩ := List.append_eq_nil_iff.mp hσ
      obtain ⟨t, rfl, ht⟩ := hitem hok
      obtain ⟨w, hw, hr⟩ := eq_append_of_fresh (Peek.slips_eq_nil.mp hfresh)
      refine ⟨t ++ w, ?_, hone (ht w hw)⟩
      rw [← hclose, List.append_assoc, ← hr]
  | more hok hcomma _ ih =>
      intro hσ
      obtain ⟨rfl, hσ'⟩ := List.append_eq_nil_iff.mp hσ
      obtain ⟨hfresh, rfl⟩ := List.append_eq_nil_iff.mp hσ'
      obtain ⟨t, rfl, ht⟩ := hitem hok
      obtain ⟨w, hw, hr⟩ := eq_append_of_fresh (Peek.slips_eq_nil.mp hfresh)
      obtain ⟨t', ht', htexts⟩ := ih rfl
      refine ⟨(t ++ w) ++ 44 :: t', ?_, hmore (ht w hw) htexts⟩
      rw [ht', hcomma] at hr
      rw [hr]
      simp

/-- The run of `value` without slips reads a text. -/
def Reads (strtod : List UInt8 → ν) (value : List UInt8 → Scan (Json ν)) : Prop :=
  ∀ {r v r'}, value r = .ok v [] r' →
    ∃ w txt, Blank w ∧ r = w ++ (txt ++ r') ∧ Prints (num19 strtod) str127 (.value v) txt

theorem Reads.element {value : List UInt8 → Scan (Json ν)} (hvalue : Reads strtod value)
    {r r' : List UInt8}
    {v : Json ν} (h : value r = .ok v [] r') :
    ∃ t, r = t ++ r' ∧ ∀ w, Blank w → Prints (num19 strtod) str127 (.element v) (t ++ w) := by
  obtain ⟨w, txt, hw, rfl, htxt⟩ := hvalue h
  refine ⟨w ++ txt, by simp, fun w' hw' => ?_⟩
  rw [List.append_assoc]
  exact Prints.element hw htxt hw'

theorem Reads.member {value : List UInt8 → Scan (Json ν)} (hvalue : Reads strtod value)
    {r r' : List UInt8}
    {m : List UInt8 × Json ν} (h : scanProperty last value r = .ok m [] r') :
    ∃ t, r = t ++ r' ∧ ∀ w, Blank w → Prints (num19 strtod) str127 (.member m) (t ++ w) := by
  obtain ⟨σ₁, r₁, σ₂, hquote, hkey, hcolon, hv, hσ⟩ := scanProperty_read h
  obtain ⟨hfresh, hkeyClean⟩ := List.append_eq_nil_iff.mp hσ.symm
  obtain ⟨rfl, hvalueClean⟩ := List.append_eq_nil_iff.mp hkeyClean
  obtain ⟨hfresh', rfl⟩ := List.append_eq_nil_iff.mp hvalueClean
  obtain ⟨w, hw, hr⟩ := eq_append_of_fresh (Peek.slips_eq_nil.mp hfresh)
  obtain ⟨w', hw', hr₁⟩ := eq_append_of_fresh (Peek.slips_eq_nil.mp hfresh')
  obtain ⟨q, hrest, hquot, hlen, hclosed⟩ := scanString_read hkey
  obtain ⟨t, ht, htext⟩ := hvalue.element hv
  refine ⟨w ++ (quoted m.1 ++ (w' ++ 58 :: t)), ?_, fun w'' hw'' => ?_⟩
  · rw [hr, hquote, hrest, hclosed rfl, hr₁, hcolon, ht]
    simp [quoted]
  · have hmember := Prints.member hw hquot hlen hw' (htext w'' hw'')
    simpa using hmember

/-- **A run without slips has read a text of the grammar.** -/
theorem prints_of_scanValue (d : ℕ) : Reads strtod (scanValue strtod last rounds d) := by
  induction d with
  | zero => exact fun h => nomatch h
  | succ d ih =>
      intro r v r' h
      obtain ⟨σ, hσ, hread⟩ := scanValue_read h
      obtain ⟨hfresh, rfl⟩ := List.append_eq_nil_iff.mp hσ.symm
      obtain ⟨w, hw, hr⟩ := eq_append_of_fresh (Peek.slips_eq_nil.mp hfresh)
      generalize peek last r = p at hread hr
      rw [hr]
      cases hread with
      | object hbyte hitems =>
          obtain ⟨t, ht, htext⟩ :=
            hitems.text (fun ms => Prints (num19 strtod) str127 (.members ms))
            Prints.oneMember Prints.moreMembers ih.member rfl
          exact ⟨w, _, hw, by rw [hbyte, ht]; simp, Prints.object htext⟩
      | array hbyte hitems =>
          obtain ⟨t, ht, htext⟩ :=
            hitems.text (fun vs => Prints (num19 strtod) str127 (.elements vs))
            Prints.oneElement Prints.moreElements ih.element rfl
          exact ⟨w, _, hw, by rw [hbyte, ht]; simp, Prints.array htext⟩
      | string hbyte hstring =>
          obtain ⟨q, hrest, hquot, hlen, hclosed⟩ := scanString_read hstring
          exact ⟨w, _,
            hw, by rw [hbyte, hrest, hclosed rfl]; simp [quoted], Prints.string hquot hlen⟩
      | number hdigit hnumber =>
          obtain ⟨hrest, hnumeral, hlen⟩ := scanNumber_read hdigit hnumber
          exact ⟨w, _, hw, by rw [hrest], Prints.number hnumeral ⟨rfl, hlen⟩⟩
      | keyword hk hword =>
          obtain ⟨m, hrest, hm⟩ := scanWord_read hword
          exact ⟨w, _, hw, by rw [hrest, hm rfl], prints_keyword hk _ _⟩

end Sound

/-! ### The run on a text -/

/-- The bytes do not go on with a digit. -/
def NoDigit (r : List UInt8) : Prop := ∀ b ∈ r.head?, ¬ isDigit b

theorem NoDigit.cons {b : UInt8} (hb : ¬ isDigit b) (r : List UInt8) : NoDigit (b :: r) := by
  intro c hc
  obtain rfl : b = c := Option.some.inj hc
  exact hb

theorem NoDigit.blank_append {w r : List UInt8} (hr : NoDigit r) (hw : Blank w) :
    NoDigit (w ++ r) := by
  cases w with
  | nil => exact hr
  | cons b w =>
      exact NoDigit.cons (fun hb => not_isSpace_of_isDigit hb (hw b (List.mem_cons_self ..))) _

section Follow

theorem scanString_append {s : List UInt8} (hs : Quotable s) {room : ℕ} (hlen : s.length ≤ room)
    (tail : List UInt8) : scanString room (s ++ 34 :: tail) = .ok s [] tail := by
  induction s generalizing room with
  | nil =>
      cases room with
      | _ => rfl
  | cons b s ih =>
      obtain ⟨room, rfl⟩ : ∃ k, room = k + 1 := ⟨room - 1, by rw [List.length_cons] at hlen; omega⟩
      obtain ⟨h0, hq⟩ := hs b (List.mem_cons_self ..)
      rw [List.cons_append, scanString, if_neg h0, if_neg hq,
        ih (fun c hc => hs c (List.mem_cons_of_mem b hc)) (Nat.le_of_succ_le_succ hlen)]
      rfl

theorem scanNumber_append {ds tail : List UInt8} (hds : ∀ d ∈ ds, isDigit d)
    (htail : NoDigit tail) :
    scanNumber (ds ++ tail) = .ok (ds.take 19) [] (ds.drop 19 ++ tail) := by
  have hstop : tail.takeWhile isDigit = [] := by
    cases tail with
    | nil => rfl
    | cons b tail => exact List.takeWhile_cons_of_neg (htail b rfl)
  have hdrop : (ds ++ tail).drop (ds.take 19).length = ds.drop 19 ++ tail := by
    rw [List.length_take]
    by_cases hlen : 19 ≤ ds.length
    · rw [Nat.min_eq_left hlen, List.drop_append_of_le_length hlen]
    · rw [Nat.min_eq_right (by omega), List.drop_left, List.drop_eq_nil_of_le (by omega),
        List.nil_append]
  rw [scanNumber, List.takeWhile_append_of_pos hds, hstop, List.append_nil, hdrop]

theorem scanWord_append (word tail : List UInt8) :
    scanWord word (word ++ tail) = .ok () [] tail := by
  induction word with
  | nil => rfl
  | cons x m ih => rw [List.cons_append, scanWord, if_pos rfl, ih]

theorem scanValue_append {d : ℕ} {w : List UInt8} (hw : Blank w) {b : UInt8} (hb : ¬ isSpace b)
    (r : List UInt8) :
    scanValue strtod last rounds (d + 1) (w ++ b :: r) =
      if b = 123 then
        (scanItems last 125 (scanProperty last (scanValue strtod last rounds d)) rounds r).map
          .object
      else if b = 91 then (scanItems last 93 (scanValue strtod last rounds d) rounds r).map .array
      else if b = 34 then (scanString 127 r).map .string
      else if isDigit b then (scanNumber (b :: r)).map fun ds => .number (strtod ds)
      else
        match keywordOf b with
        | none => .fail
        | some (word, v) => (scanWord word (b :: r)).map fun _ => v := by
  rw [scanValue, peek_append hw hb]
  exact Scan.after_nil _

/-- A number with a text of more than 19 digits. -/
def LongText (num : List UInt8 → ν → Prop) : Prop := ∃ ds x, num ds x ∧ 19 < ds.length

/-- The scanner reads the item, or fails behind 19 digits of a longer number. -/
def TracksItem {α : Type} (long : Prop) (item : List UInt8 → Scan α) (a : α)
    (txt tail : List UInt8) : Prop :=
  (∃ w, Blank w ∧ item (txt ++ tail) = .ok a [] (w ++ tail)) ∨
    (long ∧ (item (txt ++ tail) = .fail ∨ ∃ a' b r, isDigit b ∧
      item (txt ++ tail) = .ok a' [] (b :: r)))

/-- The scanner reads the items up to the closing bracket, or fails. -/
def TracksItems {α : Type} (last : UInt8) (long : Prop) (close : UInt8) (item : List UInt8 → Scan α)
    (as : List α)
    (txt : List UInt8) : Prop :=
  ∀ n tail, txt.length < n → scanItems last close item n (txt ++ close :: tail) = .ok as [] tail ∨
    (long ∧ scanItems last close item n (txt ++ close :: tail) = .fail)

section Items

variable {α : Type} {long : Prop} {close : UInt8} {item : List UInt8 → Scan α} {a : α} {as : List α}
  {txt txt' : List UInt8}

theorem scanItems_cut (hclose : ¬ isDigit close) {r r' : List UInt8} {b : UInt8} (hb : isDigit b)
    (h : item r = .ok a [] (b :: r')) (n : ℕ) : scanItems last close item (n + 1) r = .fail := by
  have hpeek := @peek_append last [] r' b (fun c hc => nomatch hc) (not_isSpace_of_isDigit hb)
  rw [List.nil_append] at hpeek
  have hne : b ≠ close := fun hbc => hclose (hbc ▸ hb)
  have hcomma : b ≠ 44 := by
    rintro rfl
    revert hb
    decide
  rw [scanItems, h, Scan.andThen]
  dsimp only
  rw [hpeek, if_neg hne, if_neg hcomma]
  rfl

theorem TracksItems.one (hspace : ¬ isSpace close) (hdigit : ¬ isDigit close)
    (h : ∀ tail, NoDigit tail → TracksItem long item a txt tail) :
    TracksItems last long close item [a] txt := by
  intro n tail hn
  obtain ⟨n, rfl⟩ : ∃ k, n = k + 1 := ⟨n - 1, by omega⟩
  cases h (close :: tail) (NoDigit.cons hdigit tail) with
  | inl hok =>
      obtain ⟨w, hw, hok⟩ := hok
      refine Or.inl ?_
      rw [scanItems, hok, Scan.andThen, Scan.after_nil]
      dsimp only
      rw [peek_append hw hspace, if_pos rfl]
      rfl
  | inr hlong =>
      refine Or.inr ⟨hlong.1, ?_⟩
      cases hlong.2 with
      | inl hfail => rw [scanItems, hfail, Scan.andThen]
      | inr hcut =>
          obtain ⟨a', b, r, hb, hcut⟩ := hcut
          exact scanItems_cut hdigit hb hcut n

theorem TracksItems.more (hdigit : ¬ isDigit close) (hclose : close ≠ 44)
    (h : ∀ tail, NoDigit tail → TracksItem long item a txt tail)
    (hrest : TracksItems last long close item as txt') :
    TracksItems last long close item (a :: as) (txt ++ 44 :: txt') := by
  intro n tail hn
  obtain ⟨n, rfl⟩ : ∃ k, n = k + 1 := ⟨n - 1, by omega⟩
  rw [List.length_append, List.length_cons] at hn
  rw [List.append_assoc, List.cons_append]
  cases h (44 :: (txt' ++ close :: tail)) (NoDigit.cons (by decide) _) with
  | inl hok =>
      obtain ⟨w, hw, hok⟩ := hok
      rw [scanItems, hok, Scan.andThen, Scan.after_nil]
      dsimp only
      rw [peek_append hw (by decide), if_neg hclose.symm, if_pos rfl]
      cases hrest n tail (by omega) with
      | inl hrest =>
          rw [hrest]
          exact Or.inl rfl
      | inr hrest =>
          rw [hrest.2]
          exact Or.inr ⟨hrest.1, rfl⟩
  | inr hlong =>
      refine Or.inr ⟨hlong.1, ?_⟩
      cases hlong.2 with
      | inl hfail => rw [scanItems, hfail, Scan.andThen]
      | inr hcut =>
          obtain ⟨a', b, r, hb, hcut⟩ := hcut
          exact scanItems_cut hdigit hb hcut n

end Items

/-- A number of more than 19 digits is cut behind the 19th. -/
def Cut (strtod : List UInt8 → ν) (v : Json ν) (txt tail : List UInt8) (x : Scan (Json ν)) : Prop :=
  Numeral txt ∧ 19 < txt.length ∧ v = .number (strtod txt) ∧
    x = .ok (.number (strtod (txt.take 19))) [] (txt.drop 19 ++ tail)

/-- The run on a text of a phrase, with enough depth and rounds. -/
def Tracks (strtod : List UInt8 → ν) (last : UInt8) (rounds : ℕ) (long : Prop) (phrase : Phrase ν)
    (txt : List UInt8) : Prop :=
  ∀ d, txt.length ≤ d → txt.length ≤ rounds →
    match phrase with
    | .value v => ∀ w tail, Blank w → NoDigit tail →
        scanValue strtod last rounds d (w ++ (txt ++ tail)) = .ok v [] tail ∨
        (long ∧ (scanValue strtod last rounds d (w ++ (txt ++ tail)) = .fail ∨
          Cut strtod v txt tail (scanValue strtod last rounds d (w ++ (txt ++ tail)))))
    | .element v =>
        ∀ tail, NoDigit tail → TracksItem long (scanValue strtod last rounds d) v txt tail
    | .member m => ∀ tail, NoDigit tail →
        TracksItem long (scanProperty last (scanValue strtod last rounds d)) m txt tail
    | .elements vs => TracksItems last long 93 (scanValue strtod last rounds d) vs txt
    | .members ms =>
        TracksItems last long 125 (scanProperty last (scanValue strtod last rounds d)) ms txt

section Values

variable {long : Prop} {txt : List UInt8}

theorem tracks_word {b : UInt8} {word : List UInt8} {v : Json ν}
    (h : keywordOf b = some (b :: word, v)) :
    Tracks strtod last rounds long (.value v) (b :: word) := by
  intro d hd _ w tail hw _
  obtain ⟨d, rfl⟩ : ∃ k, d = k + 1 := ⟨d - 1, by rw [List.length_cons] at hd; omega⟩
  have hb : ¬ isSpace b ∧ b ≠ 123 ∧ b ≠ 91 ∧ b ≠ 34 ∧ ¬ isDigit b := by
    obtain ⟨rfl, -⟩ | ⟨rfl, -⟩ | ⟨rfl, -⟩ := keywordOf_eq_some h
    · decide
    · decide
    · decide
  refine Or.inl ?_
  rw [List.cons_append, scanValue_append hw hb.1, if_neg hb.2.1, if_neg hb.2.2.1, if_neg hb.2.2.2.1,
    if_neg hb.2.2.2.2, h]
  dsimp only
  rw [← List.cons_append, scanWord_append]
  rfl

theorem tracks_number {num : List UInt8 → ν → Prop}
    (hnum : ∀ ds x, Numeral ds → num ds x → strtod ds = x) {ds : List UInt8}
    {x : ν} (hds : Numeral ds) (hx : num ds x) :
    Tracks strtod last rounds (LongText num) (.value (.number x)) ds := by
  obtain ⟨hne, hdigits⟩ := hds
  intro d hd _ w tail hw htail
  obtain ⟨b, bs, rfl⟩ := List.exists_cons_of_ne_nil hne
  obtain ⟨d, rfl⟩ : ∃ k, d = k + 1 := ⟨d - 1, by rw [List.length_cons] at hd; omega⟩
  have hb := hdigits b (List.mem_cons_self ..)
  have hbyte : b ≠ 123 ∧ b ≠ 91 ∧ b ≠ 34 := by
    refine ⟨?_, ?_, ?_⟩
    all_goals
      rintro rfl
      revert hb
      decide
  have hscan : scanValue strtod last rounds (d + 1) (w ++ (b :: bs ++ tail)) =
      .ok (.number (strtod ((b :: bs).take 19))) [] ((b :: bs).drop 19 ++ tail) := by
    rw [List.cons_append, scanValue_append hw (not_isSpace_of_isDigit hb), if_neg hbyte.1,
      if_neg hbyte.2.1,
      if_neg hbyte.2.2, if_pos hb, ← List.cons_append, scanNumber_append hdigits htail]
    rfl
  by_cases hlen : (b :: bs).length ≤ 19
  · rw [List.take_of_length_le hlen, List.drop_eq_nil_of_le hlen,
      hnum _ x ⟨hne, hdigits⟩ hx] at hscan
    exact Or.inl hscan
  · refine Or.inr ⟨⟨_, x, hx, by omega⟩,
      Or.inr ⟨⟨hne, hdigits⟩, by omega, by rw [hnum _ x ⟨hne, hdigits⟩ hx], hscan⟩⟩

theorem tracks_string {s : List UInt8} (hs : Quotable s) (hlen : s.length ≤ 127) :
    Tracks strtod last rounds long (.value (.string s)) (quoted s) := by
  intro d hd _ w tail hw _
  obtain ⟨d, rfl⟩ : ∃ k, d = k + 1 := ⟨d - 1, by rw [quoted, List.length_cons] at hd; omega⟩
  refine Or.inl ?_
  rw [quoted, List.cons_append, scanValue_append hw (by decide), if_neg (by decide),
    if_neg (by decide), if_pos rfl,
    List.append_assoc, List.singleton_append, scanString_append hs hlen]
  rfl

theorem tracks_items {α : Type} {opening close : UInt8} {build : List α → Json ν} {as : List α}
    {item : ℕ → List UInt8 → Scan α}
    (hbranch : ∀ d w r, Blank w → scanValue strtod last rounds (d + 1) (w ++ opening :: r) =
      (scanItems last close (item d) rounds r).map build)
    (hitems : ∀ d, txt.length ≤ d → txt.length ≤ rounds →
      TracksItems last long close (item d) as txt) :
    Tracks strtod last rounds long (.value (build as)) (opening :: (txt ++ [close])) := by
  intro d hd hrounds w tail hw _
  rw [List.length_cons, List.length_append] at hd hrounds
  obtain ⟨d, rfl⟩ : ∃ k, d = k + 1 := ⟨d - 1, by omega⟩
  rw [List.cons_append, hbranch d w _ hw, List.append_assoc, List.singleton_append]
  cases hitems d (by omega) (by omega) rounds tail (by omega) with
  | inl hok =>
      rw [hok]
      exact Or.inl rfl
  | inr hfail =>
      rw [hfail.2]
      exact Or.inr ⟨hfail.1, Or.inl rfl⟩

theorem tracks_element {v : Json ν} {w w' : List UInt8} (hw : Blank w) (hw' : Blank w')
    (h : Tracks strtod last rounds long (.value v) txt) :
    Tracks strtod last rounds long (.element v) (w ++ (txt ++ w')) := by
  intro d hd hrounds tail htail
  rw [List.length_append, List.length_append] at hd hrounds
  have htext : w ++ (txt ++ w') ++ tail = w ++ (txt ++ (w' ++ tail)) := by simp
  rw [TracksItem, htext]
  cases h d (by omega) (by omega) w (w' ++ tail) hw (htail.blank_append hw') with
  | inl hok => exact Or.inl ⟨w', hw', hok⟩
  | inr hlong =>
      refine Or.inr ⟨hlong.1, ?_⟩
      cases hlong.2 with
      | inl hfail => exact Or.inl hfail
      | inr hcut =>
          obtain ⟨⟨-, hdigits⟩, hlen, -, hcut⟩ := hcut
          have hne : txt.drop 19 ≠ [] := by
            rw [Ne, List.drop_eq_nil_iff]
            omega
          obtain ⟨b, bs, hbs⟩ := List.exists_cons_of_ne_nil hne
          have hb : isDigit b :=
            hdigits b (List.mem_of_mem_drop (by rw [hbs]; exact List.mem_cons_self ..))
          rw [hbs] at hcut
          exact Or.inr ⟨_, b, _, hb, hcut⟩

theorem tracks_member {k : List UInt8} {v : Json ν} {w w' : List UInt8} (hw : Blank w)
    (hk : Quotable k)
    (hlen : k.length ≤ 127) (hw' : Blank w') (h : Tracks strtod last rounds long (.element v) txt) :
    Tracks strtod last rounds long (.member (k, v)) (w ++ (quoted k ++ (w' ++ 58 :: txt))) := by
  intro d hd hrounds tail htail
  simp only [List.length_append, List.length_cons] at hd hrounds
  have htext : w ++ (quoted k ++ (w' ++ 58 :: txt)) ++ tail =
      w ++ 34 :: (k ++ 34 :: (w' ++ 58 :: (txt ++ tail))) := by
    simp [quoted]
  have hscan : scanProperty last (scanValue strtod last rounds d)
      (w ++ (quoted k ++ (w' ++ 58 :: txt)) ++ tail) =
      (scanValue strtod last rounds d (txt ++ tail)).map fun v => (k, v) := by
    rw [htext, scanProperty, peek_append hw (by decide)]
    dsimp only
    rw [if_neg (not_not.mpr rfl), scanString_append hk hlen, Scan.andThen,
      peek_append hw' (by decide)]
    dsimp only
    rw [if_neg (not_not.mpr rfl)]
    simp only [Peek.slips, if_true, Scan.after_nil]
  rw [TracksItem, hscan]
  cases h d (by omega) (by omega) tail htail with
  | inl hok =>
      obtain ⟨w'', hw'', hok⟩ := hok
      exact Or.inl ⟨w'', hw'', by rw [hok]; rfl⟩
  | inr hlong =>
      refine Or.inr ⟨hlong.1, ?_⟩
      cases hlong.2 with
      | inl hfail => exact Or.inl (by rw [hfail]; rfl)
      | inr hcut =>
          obtain ⟨v', b, r, hb, hcut⟩ := hcut
          exact Or.inr ⟨(k, v'), b, r, hb, by rw [hcut]; rfl⟩

end Values

/-- **The scanner follows a text.** -/
theorem tracks {num : List UInt8 → ν → Prop} (hnum : ∀ ds x, Numeral ds → num ds x → strtod ds = x)
    {str : List UInt8 → Prop} (hstr : ∀ s, str s → s.length ≤ 127) {phrase : Phrase ν}
    {txt : List UInt8}
    (h : Prints num str phrase txt) : Tracks strtod last rounds (LongText num) phrase txt := by
  induction h with
  | true => exact tracks_word (b := 116) rfl
  | false => exact tracks_word (b := 102) rfl
  | null => exact tracks_word (b := 110) rfl
  | number hds hx => exact tracks_number hnum hds hx
  | string hs hlen => exact tracks_string hs (hstr _ hlen)
  | array _ ih =>
      exact tracks_items (fun d w r hw => by rw [scanValue_append hw (by decide)]; rfl) ih
  | object _ ih =>
      exact tracks_items (fun d w r hw => by rw [scanValue_append hw (by decide)]; rfl) ih
  | element hw _ hw' ih => exact tracks_element hw hw' ih
  | member hw hk hlen hw' _ ih => exact tracks_member hw hk (hstr _ hlen) hw' ih
  | oneElement _ ih =>
      intro d hd hrounds
      exact TracksItems.one (by decide) (by decide) (ih d hd hrounds)
  | moreElements _ _ ih ih' =>
      intro d hd hrounds
      rw [List.length_append, List.length_cons] at hd hrounds
      exact TracksItems.more (by decide) (by decide) (ih d (by omega) (by omega))
        (ih' d (by omega) (by omega))
  | oneMember _ ih =>
      intro d hd hrounds
      exact TracksItems.one (by decide) (by decide) (ih d hd hrounds)
  | moreMembers _ _ ih ih' =>
      intro d hd hrounds
      rw [List.length_append, List.length_cons] at hd hrounds
      exact TracksItems.more (by decide) (by decide) (ih d (by omega) (by omega))
        (ih' d (by omega) (by omega))

end Follow

/-! ### Completeness -/

/-- The text of an unsigned integer below `2 ^ 53`; `ofNat` is its `double`. -/
def numBelow53 (ofNat : ℕ → ν) (ds : List UInt8) (x : ν) : Prop :=
  ds.length ≤ 19 ∧ digits ds < 2 ^ 53 ∧ x = ofNat (digits ds)

/-- **The parser returns the tree that a text prints.** -/
theorem jsonParse_prints {ofNat : ℕ → ν}
    (hexact : ∀ ds, Numeral ds → ds.length ≤ 19 → digits ds < 2 ^ 53 →
      strtod ds = ofNat (digits ds))
    (front : UInt8) {t : Json ν} {s : List UInt8}
    (h : Prints (numBelow53 ofNat) str127 (.element t) s) {depth : ℕ}
    (hdepth : s.length ≤ depth) : jsonParse strtod front depth s = some (some t) := by
  have hnum : ∀ ds x, Numeral ds → numBelow53 ofNat ds x → strtod ds = x := by
    rintro ds x hds ⟨hlen, hlt, rfl⟩
    exact hexact ds hds hlen hlt
  have hshort : ¬ LongText (numBelow53 ofNat) := by
    rintro ⟨ds, x, hx, hlen⟩
    have hle := hx.1
    omega
  have htracks := @tracks ν strtod (s.getLastD front) (s.length + 2) _ hnum _ (fun _ hs => hs) _ _ h
    depth hdepth
    (by omega) [] (fun b hb => nomatch hb)
  rw [jsonParse_eq, scanText]
  cases htracks with
  | inl hok =>
      obtain ⟨w, -, hok⟩ := hok
      rw [List.append_nil] at hok
      rw [hok]
  | inr hlong => exact absurd hlong.1 hshort

/-- The text `[12, {"a":true}]`, with `digits` for `strtod`. -/
theorem jsonParse_prints_sample :
    jsonParse digits 0 30 [91, 49, 50, 44, 32, 123, 34, 97, 34, 58, 116, 114, 117, 101, 125, 93] =
      some (some (.array [.number 12, .object [([97], .true)]])) := by
  have hnumber : Prints (numBelow53 id) str127 (.element (.number 12)) ([] ++ ([49, 50] ++ [])) :=
    .element (by decide) (.number (by decide) ⟨by decide, by decide, rfl⟩) (by decide)
  have htrue : Prints (numBelow53 id) str127 (.element .true)
      ([] ++ ([116, 114, 117, 101] ++ [])) :=
    .element (by decide) .true (by decide)
  have hnil : Blank [] := by decide
  have hspace : Blank [32] := by decide
  have hmember : Prints (numBelow53 id) str127 (.member ([97], .true)) _ :=
    .member hnil (by decide) (show _ ≤ _ by decide) hnil htrue
  have hobject : Prints (numBelow53 id) str127 (.element (.object [([97], .true)])) _ :=
    .element hspace (.object (.oneMember hmember)) hnil
  have harray := Prints.array (.moreElements hnumber (.oneElement hobject))
  exact jsonParse_prints (fun _ _ _ _ => rfl) 0 (.element hnil harray hnil) (by decide)

/-! ### Soundness -/

/-- `s` is a text, with white space around it, and `t` its tree. -/
def IsText (strtod : List UInt8 → ν) (s : List UInt8) (t : Json ν) : Prop :=
  Prints (fun ds x => strtod ds = x) (fun _ => True) (.element t) s

/-- A number of more than 19 digits whose value is that of its first 19 digits. -/
def LongNumber (strtod : List UInt8 → ν) (s : List UInt8) : Prop :=
  ∃ w ds w', s = w ++ (ds ++ w') ∧ Blank w ∧ Blank w' ∧ Numeral ds ∧ 19 < ds.length ∧
    strtod (ds.take 19) = strtod ds

section Strings

theorem ItemsRead.forall {α : Type} {close : UInt8} {item : List UInt8 → Scan α} {P : α → Prop}
    (hitem : ∀ r a σ r', item r = .ok a σ r' → P a) {r r' : List UInt8} {as : List α}
    {σ : List Slip}
    (h : ItemsRead last close item r as σ r') : ∀ a ∈ as, P a := by
  induction h with
  | one hok _ => exact fun b hb => List.mem_singleton.mp hb ▸ hitem _ _ _ _ hok
  | more hok _ _ ih =>
      intro b hb
      cases List.mem_cons.mp hb with
      | inl hfirst => exact hfirst ▸ hitem _ _ _ _ hok
      | inr hrest => exact ih b hrest

/-- The strings of a result fit their buffers and have no NUL. -/
theorem strings_of_scanValue {P : List UInt8 → Prop}
    (hP : ∀ s, Quotable s → str127 s → P s) (d : ℕ) :
    ∀ (r : List UInt8) (v : Json ν) (σ : List Slip) (r' : List UInt8),
      scanValue strtod last rounds d r = .ok v σ r' → Strings P (.element v) := by
  induction d with
  | zero => exact fun _ _ _ _ h => nomatch h
  | succ d ih =>
      intro r v σ r' h
      have hproperty : ∀ r m σ r', scanProperty last (scanValue strtod last rounds d) r =
          .ok m σ r' →
          Strings P (.member m) := by
        intro r m σ r' h
        obtain ⟨σ₁, r₁, σ₂, -, hkey, -, hv, -⟩ := scanProperty_read h
        obtain ⟨q, -, hquotable, hlen, -⟩ := scanString_read hkey
        exact .member (hP _ hquotable hlen) (ih _ _ _ _ hv)
      obtain ⟨σ', -, hread⟩ := scanValue_read h
      refine .element ?_
      cases hread with
      | object _ hitems => exact .object (.members (hitems.forall hproperty))
      | array _ hitems => exact .array (.elements (hitems.forall ih))
      | string _ hstring =>
          obtain ⟨q, -, hquotable, hlen, -⟩ := scanString_read hstring
          exact .string (hP _ hquotable hlen)
      | number _ _ => exact .number _
      | keyword hk _ => exact (prints_keyword hk (fun _ _ => True) P).strings fun _ hs => hs

end Strings

theorem scanText_of_jsonParse {front : UInt8} {depth : ℕ} {s : List UInt8} {t : Json ν}
    (h : jsonParse strtod front depth s = some (some t)) :
    ∃ σ r, scanText strtod front depth s = .ok t σ r := by
  rw [jsonParse_eq] at h
  cases hscan : scanText strtod front depth s with
  | ok v σ r =>
      rw [hscan] at h
      cases h
      exact ⟨σ, r, rfl⟩
  | fail =>
      rw [hscan] at h
      cases h
  | deep =>
      rw [hscan] at h
      cases h

theorem scanText_of_prints {front : UInt8} {depth : ℕ} {s w txt w' : List UInt8} {t v : Json ν}
    {σ : List Slip}
    {r : List UInt8} (hscan : scanText strtod front depth s = .ok t σ r) (hs : s = w ++ (txt ++ w'))
    (hw : Blank w) (hw' : Blank w')
    (hv : Prints (fun ds x => strtod ds = x) str127 (.value v) txt) :
    (t = v ∧ σ = [] ∧ r = w') ∨
      (Numeral txt ∧ 19 < txt.length ∧ v = .number (strtod txt) ∧
        t = .number (strtod (txt.take 19))) := by
  have hnoDigit : NoDigit w' := by
    have hend : NoDigit (w' ++ []) := NoDigit.blank_append (fun b hb => nomatch hb) hw'
    rwa [List.append_nil] at hend
  have hlen := congrArg List.length hs
  rw [List.length_append, List.length_append] at hlen
  have hmax : scanText strtod front (max depth s.length) s = .ok t σ r := by
    rw [← hscan]
    exact scanValue_le (Nat.le_max_left _ _) s (by rw [scanText] at hscan; rw [hscan]; simp)
  have htracks := @tracks ν strtod (s.getLastD front) (s.length + 2) (fun ds x => strtod ds = x)
    (fun _ _ _ hx => hx) str127 (fun _ hs => hs) _ _ hv (max depth s.length) (by omega) (by omega) w
      w' hw hnoDigit
  rw [← hs] at htracks
  rw [scanText] at hmax
  rw [hmax] at htracks
  cases htracks with
  | inl hok =>
      cases hok
      exact Or.inl ⟨rfl, rfl, rfl⟩
  | inr hlong =>
      cases hlong.2 with
      | inl hfail => cases hfail
      | inr hcut =>
          obtain ⟨hnumeral, hdigits, hv, hok⟩ := hcut
          cases hok
          exact Or.inr ⟨hnumeral, hdigits, hv, rfl⟩

/-- The run that returns the tree of a text makes no slip, unless it cuts a number. -/
theorem slips_of_isText {front : UInt8} {depth : ℕ} {s : List UInt8} {t : Json ν}
    (h : jsonParse strtod front depth s = some (some t)) (htext : IsText strtod s t) :
    slips strtod front depth s = [] ∨ LongNumber strtod s := by
  obtain ⟨σ, r, hscan⟩ := scanText_of_jsonParse h
  have hshort : Prints (fun ds x => strtod ds = x) str127 (.element t) s :=
    Prints.mono (fun _ _ hx => hx) htext
      (strings_of_scanValue (fun _ _ hs => hs) depth s t σ r hscan)
  rw [slips, hscan]
  cases hshort with
  | element hw hv hw' =>
      cases scanText_of_prints hscan rfl hw hw' hv with
      | inl hclean =>
          obtain ⟨-, rfl, rfl⟩ := hclean
          dsimp only
          rw [peek_blank hw']
          exact Or.inl rfl
      | inr hcut =>
          obtain ⟨hnumeral, hlong, hv, hcut⟩ := hcut
          rw [hv] at hcut
          exact Or.inr ⟨_, _, _, rfl, hw, hw', hnumeral, hlong, (Json.number.inj hcut).symm⟩

/-- A run without slips returns the tree of a text. -/
theorem isText_of_no_slips {front : UInt8} {depth : ℕ} {s : List UInt8} {t : Json ν}
    (h : jsonParse strtod front depth s = some (some t))
    (hclean : slips strtod front depth s = []) :
    IsText strtod s t := by
  obtain ⟨σ, r, hscan⟩ := scanText_of_jsonParse h
  rw [slips, hscan] at hclean
  dsimp only at hclean
  split_ifs at hclean with hfresh
  · exact absurd hclean (by simp)
  · subst hclean
    obtain ⟨w, txt, hw, rfl, htxt⟩ := prints_of_scanValue depth hscan
    have hr : Blank r := blank_of_not_fresh (Bool.eq_false_of_not_eq_true hfresh)
    have htext := Prints.element hw htxt hr
    exact htext.mono (fun _ _ hx => hx.1) (htext.strings fun _ _ => trivial)

/-- **An accepted text is a text of the grammar, and the result its tree**, exactly when the run on
it makes no slip, or the text is a number whose digits behind the 19th do not matter. -/
theorem isText_iff_no_slips {front : UInt8} {depth : ℕ} {s : List UInt8} {t : Json ν}
    (h : jsonParse strtod front depth s = some (some t)) :
    IsText strtod s t ↔ slips strtod front depth s = [] ∨ LongNumber strtod s := by
  constructor
  · exact slips_of_isText h
  · intro hcases
    cases hcases with
    | inl hclean => exact isText_of_no_slips h hclean
    | inr hnumber =>
        obtain ⟨σ, r, hscan⟩ := scanText_of_jsonParse h
        obtain ⟨w, ds, w', hs, hw, hw', hnumeral, hlong, hvalue⟩ := hnumber
        have hv : ∀ str : List UInt8 → Prop, Prints (fun ds x => strtod ds = x) str
            (.value (.number (strtod ds))) ds :=
          fun str => .number hnumeral rfl
        have ht : t = .number (strtod ds) := by
          cases scanText_of_prints hscan hs hw hw' (hv _) with
          | inl hclean => exact hclean.1
          | inr hcut => rw [hcut.2.2.2, hvalue]
        rw [ht, hs]
        exact .element hw (hv _) hw'

/-- The text `[1]`. -/
theorem isText_array : IsText digits [91, 49, 93] (.array [.number 1]) :=
  (isText_iff_no_slips (rfl : jsonParse digits 0 3 [91, 49, 93] =
    some (some (.array [.number 1])))).mpr (Or.inl rfl)

/-- The text `[[1]` is accepted: its last byte closes both arrays. -/
theorem not_isText_unbalanced :
    jsonParse digits 0 4 [91, 91, 49, 93] = some (some (.array [.array [.number 1]])) ∧
      ¬ IsText digits [91, 91, 49, 93] (.array [.array [.number 1]]) := by
  have hparse : jsonParse digits 0 4 [91, 91, 49, 93] = some (some (.array [.array [.number 1]])) :=
    rfl
  refine ⟨hparse, fun htext => ?_⟩
  cases slips_of_isText hparse htext with
  | inl hclean =>
      have hslips : slips digits 0 4 [91, 91, 49, 93] = [.reread] := rfl
      rw [hslips] at hclean
      cases hclean
  | inr hlong =>
      obtain ⟨w, ds, w', hs, -, -, -, hlen, -⟩ := hlong
      have hlength := congrArg List.length hs
      simp only [List.length_append, List.length_cons, List.length_nil] at hlength
      omega

end Imola.PdMapper
