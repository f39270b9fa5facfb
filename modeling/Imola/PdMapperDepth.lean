import Imola.PdMapperCursor

/-! # How deep the parser of `pd-mapper` goes

A call of `json_parse_value` inside another one follows a bracket, so the calls open at a time are
no more than the brackets of the text and the first call, but for one case.  At the end of the text
the last byte is read again; if it opens an array there, its first element begins with the same
byte, and so on without end.

`Awaits` describes how a run comes to that place.  Such a run needs more than any number of calls
(`endless_of_awaits`), and a run that needs more calls than the text has brackets is such a run
(`awaits_of_deep`). -/

namespace Imola.PdMapper

open Imola.CStrings Imola.JsonText

/-- The number of bytes `[` and `{` of a text. -/
def brackets (s : List UInt8) : ℕ := s.countP fun b => b = 91 ∨ b = 123

/-- What the bytes left are read as. -/
inductive Place where
  | value
  | elements
  | members
deriving DecidableEq, Repr

/-- The run comes to the end of the text in front of a value, and the last byte of the text is
`[`. -/
inductive Awaits {ν : Type} (strtod : List UInt8 → ν) (last : UInt8) (rounds : ℕ) :
    Place → List UInt8 → Prop
  | atEnd : last = 91 → Awaits strtod last rounds .value []
  | array {r : List UInt8} : (peek last r).byte = 91 →
      Awaits strtod last rounds .elements (peek last r).rest → Awaits strtod last rounds .value r
  | object {r : List UInt8} : (peek last r).byte = 123 →
      Awaits strtod last rounds .members (peek last r).rest → Awaits strtod last rounds .value r
  | element {r : List UInt8} : Awaits strtod last rounds .value r →
      Awaits strtod last rounds .elements r
  | nextElement {r r' : List UInt8} {d : ℕ} {v : Json ν} {σ : List Slip} :
      scanValue strtod last rounds d r = .ok v σ r' → (peek last r').byte = 44 →
      Awaits strtod last rounds .elements (peek last r').rest →
      Awaits strtod last rounds .elements r
  | member {r r' key : List UInt8} {σ : List Slip} : (peek last r).byte = 34 →
      scanString 127 (peek last r).rest = .ok key σ r' → (peek last r').byte = 58 →
      Awaits strtod last rounds .value (peek last r').rest → Awaits strtod last rounds .members r
  | nextMember {r r' : List UInt8} {d : ℕ} {m : List UInt8 × Json ν} {σ : List Slip} :
      scanProperty last (scanValue strtod last rounds d) r = .ok m σ r' → (peek last r').byte = 44 →
      Awaits strtod last rounds .members (peek last r').rest → Awaits strtod last rounds .members r

namespace Scan

variable {α β : Type} {x : Scan α}

theorem after_eq_deep {σ : List Slip} : x.after σ = deep ↔ x = deep := by
  cases x with
  | _ => simp [after]

theorem map_eq_deep {h : α → β} : x.map h = deep ↔ x = deep := by
  cases x with
  | _ => simp [map]

theorem andThen_eq_deep {f : α → List UInt8 → Scan β} :
    x.andThen f = deep ↔ x = deep ∨ ∃ a σ r, x = ok a σ r ∧ f a r = deep := by
  cases x with
  | ok a σ r =>
      simp only [andThen, after_eq_deep]
      constructor
      · exact fun hf => Or.inr ⟨a, σ, r, rfl, hf⟩
      · rintro (hx | ⟨_, _, _, hx, hf⟩)
        · cases hx
        · cases hx
          exact hf
  | fail => simp [andThen]
  | deep => simp [andThen]

/-- A run that ends with one bound ends in the same way with another, or goes too deep. -/
theorem eq_deep_or_eq {item : ℕ → Scan α} (hmono : ∀ d d', d ≤ d' → (item d).Le (item d')) {d : ℕ}
    (hne : item d ≠ deep) (d' : ℕ) : item d' = deep ∨ item d' = item d := by
  cases Nat.le_total d d' with
  | inl hle => exact Or.inr (hmono d d' hle hne)
  | inr hle =>
      by_cases hdeep : item d' = deep
      · exact Or.inl hdeep
      · exact Or.inr (hmono d' d hle hdeep).symm

end Scan

variable {ν : Type} {strtod : List UInt8 → ν} {last : UInt8} {rounds : ℕ}

/-! ### The run without end -/

section Endless

theorem scanItems_eq_deep {α : Type} {close : UInt8} {item : List UInt8 → Scan α} {n : ℕ}
    {r : List UInt8} :
    scanItems last close item (n + 1) r = .deep ↔ item r = .deep ∨ ∃ a σ r', item r = .ok a σ r' ∧
      (peek last r').byte ≠ close ∧ (peek last r').byte = 44 ∧
        scanItems last close item n (peek last r').rest = .deep := by
  rw [scanItems, Scan.andThen_eq_deep]
  refine or_congr Iff.rfl (exists_congr fun a => exists_congr fun σ => exists_congr fun r' =>
    and_congr Iff.rfl ?_)
  rw [Scan.after_eq_deep]
  split_ifs with hclose hcomma
  · exact ⟨fun h => (by cases h), fun h => absurd hclose h.1⟩
  · rw [Scan.map_eq_deep]
    exact ⟨fun h => ⟨hclose, hcomma, h⟩, fun h => h.2.2⟩
  · exact ⟨fun h => (by cases h), fun h => absurd h.2.1 hcomma⟩

theorem scanItems_deep {α : Type} {close : UInt8} {item : List UInt8 → Scan α} {r : List UInt8}
    (h : item r = .deep) (n : ℕ) : scanItems last close item n r = .deep := by
  cases n with
  | zero => rfl
  | succ n => exact scanItems_eq_deep.mpr (Or.inl h)

theorem scanItems_deep_of_next {α : Type} {close : UInt8} (hclose : close ≠ 44)
    {item : ℕ → List UInt8 → Scan α} (hmono : ∀ r d d', d ≤ d' → (item d r).Le (item d' r))
    {d : ℕ} {a : α}
    {σ : List Slip} {r r' : List UInt8} (hok : item d r = .ok a σ r')
    (hcomma : (peek last r').byte = 44)
    (hnext : ∀ d n, scanItems last close (item d) n (peek last r').rest = .deep) (d' n : ℕ) :
    scanItems last close (item d') n r = .deep := by
  cases Scan.eq_deep_or_eq (hmono r) (fun hdeep => by rw [hdeep] at hok; cases hok) d' with
  | inl hdeep => exact scanItems_deep hdeep n
  | inr heq =>
      cases n with
      | zero => rfl
      | succ n =>
          rw [hok] at heq
          refine scanItems_eq_deep.mpr (Or.inr ⟨a, σ, r', heq, ?_, hcomma, hnext d' n⟩)
          rw [hcomma]
          exact hclose.symm

theorem scanValue_array {r : List UInt8} (hbyte : (peek last r).byte = 91) (d : ℕ) :
    scanValue strtod last rounds (d + 1) r = .deep ↔
      scanItems last 93 (scanValue strtod last rounds d) rounds (peek last r).rest = .deep := by
  rw [scanValue, Scan.after_eq_deep, if_neg (by rw [hbyte]; decide), if_pos hbyte, Scan.map_eq_deep]

theorem scanValue_object {r : List UInt8} (hbyte : (peek last r).byte = 123) (d : ℕ) :
    scanValue strtod last rounds (d + 1) r = .deep ↔
      scanItems last 125 (scanProperty last (scanValue strtod last rounds d)) rounds
        (peek last r).rest = .deep := by
  rw [scanValue, Scan.after_eq_deep, if_pos hbyte, Scan.map_eq_deep]

theorem scanProperty_eq_deep {value : List UInt8 → Scan (Json ν)} {r : List UInt8} :
    scanProperty last value r = .deep ↔ (peek last r).byte = 34 ∧
    (scanString 127 (peek last r).rest = .deep ∨
      ∃ key σ r', scanString 127 (peek last r).rest = .ok key σ r' ∧
        (peek last r').byte = 58 ∧ value (peek last r').rest = .deep) := by
  rw [scanProperty, Scan.after_eq_deep]
  split_ifs with hquote
  · exact ⟨fun h => (by cases h), fun h => absurd h.1 hquote⟩
  · rw [Scan.andThen_eq_deep, and_iff_right (not_not.mp hquote)]
    refine or_congr Iff.rfl (exists_congr fun a => exists_congr fun σ => exists_congr fun r' =>
      and_congr Iff.rfl ?_)
    rw [Scan.after_eq_deep]
    split_ifs with hcolon
    · exact ⟨fun h => (by cases h), fun h => absurd h.1 hcolon⟩
    · rw [Scan.map_eq_deep, and_iff_right (not_not.mp hcolon)]

/-- At the end of a text whose last byte is `[`, every value begins with a value. -/
theorem scanValue_nil_deep (d : ℕ) : scanValue strtod 91 rounds d [] = .deep := by
  induction d with
  | zero => rfl
  | succ d ih => exact (scanValue_array rfl d).mpr (scanItems_deep ih rounds)

/-- What `Awaits` says of the scanner. -/
def Endless (strtod : List UInt8 → ν) (last : UInt8) (rounds : ℕ) : Place → List UInt8 → Prop
  | .value, r => ∀ d, scanValue strtod last rounds d r = .deep
  | .elements, r => ∀ d n, scanItems last 93 (scanValue strtod last rounds d) n r = .deep
  | .members, r =>
      ∀ d n, scanItems last 125 (scanProperty last (scanValue strtod last rounds d)) n r = .deep

theorem endless_of_awaits {place : Place} {r : List UInt8} (h : Awaits strtod last rounds place r) :
    Endless strtod last rounds place r := by
  induction h with
  | atEnd hlast =>
      subst hlast
      exact scanValue_nil_deep
  | array hbyte _ ih =>
      intro d
      cases d with
      | zero => rfl
      | succ d => exact (scanValue_array hbyte d).mpr (ih d rounds)
  | object hbyte _ ih =>
      intro d
      cases d with
      | zero => rfl
      | succ d => exact (scanValue_object hbyte d).mpr (ih d rounds)
  | element _ ih => exact fun d n => scanItems_deep (ih d) n
  | nextElement hok hcomma _ ih =>
      exact scanItems_deep_of_next (by decide) (fun r _ _ hd => scanValue_le hd r) hok hcomma ih
  | member hquote hkey hcolon _ ih =>
      intro d n
      exact scanItems_deep (scanProperty_eq_deep.mpr ⟨hquote, Or.inr ⟨_, _, _, hkey, hcolon, ih d⟩⟩)
        n
  | nextMember hok hcomma _ ih =>
      exact scanItems_deep_of_next (by decide) (fun r _ _ hd => scanProperty_le (scanValue_le hd) r)
        hok hcomma ih

end Endless

/-! ### The bytes left -/

section Left

theorem peek_rest_suffix (last : UInt8) (r : List UInt8) : (peek last r).rest <:+ r := by
  unfold peek
  cases hd : r.dropWhile isSpace with
  | nil => exact List.nil_suffix
  | cons b rest =>
      have hdrop : b :: rest <:+ r := by
        rw [← hd]
        exact List.dropWhile_suffix _
      exact (List.suffix_cons b rest).trans hdrop

theorem scanString_suffix {room : ℕ} {r bs r' : List UInt8} {σ : List Slip}
    (h : scanString room r = .ok bs σ r') : r' <:+ r := by
  obtain ⟨q, hr, -⟩ := scanString_read h
  exact ⟨bs ++ [q], by rw [hr, List.append_assoc]; rfl⟩

theorem keywordOf_head {b : UInt8} {word : List UInt8} {v : Json ν}
    (h : keywordOf b = some (word, v)) :
    ∃ m, word = b :: m := by
  obtain ⟨rfl, rfl, -⟩ | ⟨rfl, rfl, -⟩ | ⟨rfl, rfl, -⟩ := keywordOf_eq_some h
  · exact ⟨_, rfl⟩
  · exact ⟨_, rfl⟩
  · exact ⟨_, rfl⟩

theorem ItemsRead.suffix {α : Type} {close : UInt8} {item : List UInt8 → Scan α}
    (hitem : ∀ r a σ r', item r = .ok a σ r' → r' <:+ r) {r r' : List UInt8} {as : List α}
    {σ : List Slip}
    (h : ItemsRead last close item r as σ r') : r' <:+ r := by
  induction h with
  | one hok _ => exact (peek_rest_suffix last _).trans (hitem _ _ _ _ hok)
  | more hok _ _ ih => exact ih.trans ((peek_rest_suffix last _).trans (hitem _ _ _ _ hok))

theorem scanProperty_suffix {value : List UInt8 → Scan (Json ν)}
    (hvalue : ∀ r v σ r', value r = .ok v σ r' → r' <:+ r) (r : List UInt8)
    (m : List UInt8 × Json ν)
    (σ : List Slip) (r' : List UInt8) (h : scanProperty last value r = .ok m σ r') : r' <:+ r := by
  obtain ⟨σ₁, r₁, σ₂, -, hkey, -, hv, -⟩ := scanProperty_read h
  have hafterKey := (scanString_suffix hkey).trans (peek_rest_suffix last r)
  exact (hvalue _ _ _ _ hv).trans ((peek_rest_suffix last r₁).trans hafterKey)

theorem scanValue_suffix (d : ℕ) :
    ∀ (r : List UInt8) (v : Json ν) (σ : List Slip) (r' : List UInt8),
    scanValue strtod last rounds d r = .ok v σ r' → r' <:+ r := by
  induction d with
  | zero => exact fun _ _ _ _ h => by cases h
  | succ d ih =>
      intro r v σ r' h
      obtain ⟨σ', -, hread⟩ := scanValue_read h
      refine List.IsSuffix.trans ?_ (peek_rest_suffix last r)
      generalize peek last r = p at hread
      cases hread with
      | object _ hitems => exact hitems.suffix (scanProperty_suffix ih)
      | array _ hitems => exact hitems.suffix ih
      | string _ hstring => exact scanString_suffix hstring
      | number hdigit hnumber =>
          obtain ⟨hrest, ⟨hne, -⟩, -⟩ := scanNumber_read hdigit hnumber
          obtain ⟨c, ds, rfl⟩ := List.exists_cons_of_ne_nil hne
          exact ⟨ds, (List.cons.inj hrest).2.symm⟩
      | keyword hk hword =>
          obtain ⟨m, rfl⟩ := keywordOf_head hk
          rw [scanWord, if_pos rfl] at hword
          obtain ⟨m', hrest, -⟩ := scanWord_read hword
          exact ⟨m', hrest.symm⟩

end Left

/-! ### The run that goes too deep -/

section Deep

theorem scanString_ne_deep (room : ℕ) (r : List UInt8) : scanString room r ≠ .deep := by
  induction r generalizing room with
  | nil =>
      cases room with
      | _ => exact fun h => by cases h
  | cons b r ih =>
      cases room with
      | zero =>
          rw [scanString]
          split_ifs
          all_goals exact fun h => by cases h
      | succ room =>
          rw [scanString]
          split_ifs
          · exact fun h => by cases h
          · exact fun h => by cases h
          · exact fun h => ih room (Scan.map_eq_deep.mp h)

theorem scanWord_ne_deep (word r : List UInt8) : scanWord word r ≠ .deep := by
  induction word generalizing r with
  | nil => exact fun h => by cases h
  | cons x m ih =>
      cases r with
      | nil =>
          rw [scanWord]
          split_ifs
          all_goals exact fun h => by cases h
      | cons b r =>
          rw [scanWord]
          split_ifs
          · exact ih r
          · exact fun h => by cases h
          · exact fun h => by cases h

/-- Only a bracket leads deeper. -/
theorem byte_of_scanValue_deep {d : ℕ} {r : List UInt8}
    (h : scanValue strtod last rounds (d + 1) r = .deep) :
    (peek last r).byte = 91 ∨ (peek last r).byte = 123 := by
  rw [scanValue, Scan.after_eq_deep] at h
  split_ifs at h with h123 h91 h34 hdigit
  · exact Or.inr h123
  · exact Or.inl h91
  · exact absurd (Scan.map_eq_deep.mp h) (scanString_ne_deep _ _)
  · cases h
  · cases hk : (keywordOf (peek last r).byte : Option (_ × Json ν)) with
    | none =>
        rw [hk] at h
        cases h
    | some wv =>
        rw [hk] at h
        exact absurd (Scan.map_eq_deep.mp h) (scanWord_ne_deep _ _)

/-- Where items go too deep and the rounds are enough, one of them does.  Each comma that is read
for the first time uses up a byte, and no item begins with a comma that is read again. -/
theorem of_scanItems_deep {α : Type} {close : UInt8} {item : List UInt8 → Scan α}
    {goal : List UInt8 → Prop}
    (hsuffix : ∀ r a σ r', item r = .ok a σ r' → r' <:+ r) (hcomma : last = 44 → item [] = .fail)
    (hnext : ∀ r a σ r', item r = .ok a σ r' → (peek last r').byte = 44 →
      goal (peek last r').rest → goal r)
    (n : ℕ) : ∀ r, r.length + 2 ≤ n → (∀ r', r' <:+ r → item r' = .deep → goal r') →
      scanItems last close item n r = .deep → goal r := by
  induction n with
  | zero => exact fun r hn => absurd hn (by omega)
  | succ n ih =>
      intro r hn hitem h
      cases scanItems_eq_deep.mp h with
      | inl hdeep => exact hitem r List.suffix_rfl hdeep
      | inr hmore =>
          obtain ⟨a, σ, r', hok, -, hbyte, hrest⟩ := hmore
          have hr' := hsuffix _ _ _ _ hok
          refine hnext r a σ r' hok hbyte (ih _ ?_ (fun r'' hr'' => hitem r'' ?_) hrest)
          · cases hfresh : (peek last r').fresh with
            | true =>
                obtain ⟨w, -, hw⟩ := eq_append_of_fresh hfresh
                have hlen := congrArg List.length hw
                rw [List.length_append, List.length_cons] at hlen
                have := hr'.length_le
                omega
            | false =>
                rw [peek_blank (blank_of_not_fresh hfresh)] at hbyte hrest
                obtain ⟨k, rfl⟩ : ∃ k, n = k + 1 := ⟨n - 1, by omega⟩
                rw [scanItems, hcomma hbyte] at hrest
                cases hrest
          · exact hr''.trans ((peek_rest_suffix last r').trans hr')

theorem brackets_le_of_suffix {r r' : List UInt8} (h : r' <:+ r) : brackets r' ≤ brackets r :=
  h.sublist.countP_le

theorem getLast_of_suffix {r r' : List UInt8} (hlast : ∀ hne, r.getLast hne = last) (h : r' <:+ r)
    (hne : r' ≠ []) : r'.getLast hne = last := by
  rw [← hlast (h.ne_nil hne)]
  exact h.getLast hne

theorem awaits_of_not_fresh {d : ℕ} {r : List UInt8} (hrounds : 2 ≤ rounds)
    (hlast : ∀ hne, r.getLast hne = last)
    (hfresh : (peek last r).fresh = false) (h : scanValue strtod last rounds (d + 1) r = .deep) :
    Awaits strtod last rounds .value r := by
  have hblank := blank_of_not_fresh hfresh
  have hbyte := byte_of_scanValue_deep h
  rw [peek_blank hblank] at hbyte
  obtain ⟨k, rfl⟩ : ∃ k, rounds = k + 1 := ⟨rounds - 1, by omega⟩
  cases hbyte with
  | inl h91 =>
      cases r with
      | nil => exact .atEnd h91
      | cons b r =>
          have hspace := hblank _ (List.getLast_mem (List.cons_ne_nil b r))
          rw [hlast, show last = 91 from h91] at hspace
          exact absurd hspace (by decide)
  | inr h123 =>
      have hobject := (scanValue_object (by rw [peek_blank hblank]; exact h123) d).mp h
      rw [peek_blank hblank, show last = 123 from h123] at hobject
      cases hobject

/-- **A run that needs more calls than the text has brackets** comes to the end of the text in front
of a value. -/
theorem awaits_of_deep (k : ℕ) : ∀ (r : List UInt8) (d : ℕ), r.length < k → r.length + 2 ≤ rounds →
    (∀ hne, r.getLast hne = last) → brackets r < d → scanValue strtod last rounds d r = .deep →
      Awaits strtod last rounds .value r := by
  induction k with
  | zero => exact fun r d hk => absurd hk (Nat.not_lt_zero _)
  | succ k ih =>
      intro r d hk hrounds hlast hd h
      obtain ⟨d, rfl⟩ : ∃ e, d = e + 1 := ⟨d - 1, by omega⟩
      cases hfresh : (peek last r).fresh with
      | false => exact awaits_of_not_fresh (by omega) hlast hfresh h
      | true =>
          obtain ⟨w, -, hr⟩ := eq_append_of_fresh hfresh
          have hbyte := byte_of_scanValue_deep h
          have hsuffix := peek_rest_suffix last r
          have hlen : (peek last r).rest.length < r.length := by
            have hlen := congrArg List.length hr
            rw [List.length_append, List.length_cons] at hlen
            omega
          have hbrackets : brackets (peek last r).rest < d := by
            have hcount : brackets ((peek last r).byte :: (peek last r).rest) ≤ brackets r :=
              brackets_le_of_suffix ⟨w, hr.symm⟩
            rw [brackets, List.countP_cons_of_pos (by simpa using hbyte)] at hcount
            rw [brackets]
            omega
          have hvalue : ∀ r', r' <:+ (peek last r).rest →
              scanValue strtod last rounds d r' = .deep →
              Awaits strtod last rounds .value r' := by
            intro r' hr' hdeep
            have hlen' := hr'.length_le
            have hbrackets' := brackets_le_of_suffix hr'
            exact ih r' d (by omega) (by omega)
              (fun hne => getLast_of_suffix hlast (hr'.trans hsuffix) hne)
              (by omega) hdeep
          cases hbyte with
          | inl h91 =>
              refine .array h91 (of_scanItems_deep (scanValue_suffix d) ?_
                (fun _ _ _ _ => .nextElement) rounds _
                (by omega) (fun r' hr' hdeep => .element (hvalue r' hr' hdeep))
                ((scanValue_array h91 d).mp h))
              obtain ⟨d, rfl⟩ : ∃ e, d = e + 1 := ⟨d - 1, by omega⟩
              rintro rfl
              rfl
          | inr h123 =>
              refine .object h123 (of_scanItems_deep (scanProperty_suffix (scanValue_suffix d)) ?_
                (fun _ _ _ _ => .nextMember) rounds _ (by omega) (fun r' hr' hdeep => ?_)
                ((scanValue_object h123 d).mp h))
              · rintro rfl
                rfl
              · obtain ⟨hquote, hkey | ⟨key, σ, r₁, hkey, hcolon, hdeep⟩⟩ :=
                  scanProperty_eq_deep.mp hdeep
                · exact absurd hkey (scanString_ne_deep _ _)
                · have hr₁ :=
                    (peek_rest_suffix last r₁).trans
                      ((scanString_suffix hkey).trans (peek_rest_suffix last r'))
                  exact .member hquote hkey hcolon (hvalue _ (hr₁.trans hr') hdeep)

end Deep

theorem jsonParse_eq_none {front : UInt8} {depth : ℕ} {s : List UInt8} :
    jsonParse strtod front depth s = none ↔ scanText strtod front depth s = .deep := by
  rw [jsonParse_eq]
  cases scanText strtod front depth s with
  | _ => simp

/-- The run on the whole text `s`, with the byte `front` before it, comes to the end of the text in
front of a value, where the last byte is `[`. -/
def AwaitsAtEnd (strtod : List UInt8 → ν) (front : UInt8) (s : List UInt8) : Prop :=
  Awaits strtod (s.getLastD front) (s.length + 2) .value s

theorem jsonParse_of_awaitsAtEnd {front : UInt8} {s : List UInt8} (h : AwaitsAtEnd strtod front s)
    (depth : ℕ) :
    jsonParse strtod front depth s = none :=
  jsonParse_eq_none.mpr (endless_of_awaits h depth)

theorem isSome_of_not_awaitsAtEnd {front : UInt8} {s : List UInt8}
    (h : ¬ AwaitsAtEnd strtod front s) :
    (jsonParse strtod front (brackets s + 1) s).isSome := by
  rw [← Option.ne_none_iff_isSome]
  intro hnone
  refine h (awaits_of_deep (s.length + 1) s _ (Nat.lt_succ_self _) le_rfl ?_ (Nat.lt_succ_self _)
    (jsonParse_eq_none.mp hnone))
  intro hne
  rw [List.getLastD_eq_getLast?, List.getLast?_eq_getLast_of_ne_nil hne]
  rfl

theorem last_of_awaits {place : Place} {r : List UInt8} (h : Awaits strtod last rounds place r) :
    last = 91 := by
  induction h with
  | atEnd hlast => exact hlast
  | array _ _ ih => exact ih
  | object _ _ ih => exact ih
  | element _ ih => exact ih
  | nextElement _ _ _ ih => exact ih
  | member _ _ _ _ ih => exact ih
  | nextMember _ _ _ ih => exact ih

/-- A text whose last byte is not `[` is read with no more calls than it has brackets, and the
first. -/
theorem isSome_of_last_ne {front : UInt8} {s : List UInt8} (h : s.getLastD front ≠ 91) :
    (jsonParse strtod front (brackets s + 1) s).isSome :=
  isSome_of_not_awaitsAtEnd fun hawaits => h (last_of_awaits hawaits)

/-- **The parser ends, and its recursion is no deeper than the number of brackets of the text**,
exactly when it does not come to the end of the text in front of a value with `[` as the last byte.
Otherwise it does not end. -/
theorem depth_le_brackets_iff (strtod : List UInt8 → ν) (front : UInt8) (s : List UInt8) :
    ((jsonParse strtod front (brackets s + 1) s).isSome ↔ ¬ AwaitsAtEnd strtod front s) ∧
      (AwaitsAtEnd strtod front s → ∀ depth, jsonParse strtod front depth s = none) := by
  refine ⟨⟨fun hsome hawaits => ?_, isSome_of_not_awaitsAtEnd⟩, jsonParse_of_awaitsAtEnd⟩
  rw [jsonParse_of_awaitsAtEnd hawaits] at hsome
  cases hsome

/-- The text `[` has one bracket, and no number of calls is enough for it. -/
theorem jsonParse_bracket : brackets [91] = 1 ∧ ∀ depth, jsonParse digits 0 depth [91] = none :=
  ⟨rfl, jsonParse_of_awaitsAtEnd (.array rfl (.element (.atEnd rfl)))⟩

end Imola.PdMapper
