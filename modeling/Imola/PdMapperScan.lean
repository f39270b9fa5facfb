import Imola.PdMapperJson

/-! # The parser of `pd-mapper` as a scanner

The cursor of `json.c` is a way to say which bytes are left.  Here the parser is a function of the
bytes left, `rest`, and of the last byte of the text: that byte is what `input` gives when the
cursor was moved back at the end of the text.  A byte that is read again is not `fresh`.

The scanner makes explicit where the parser is more lenient than it should be.  Each such place in
a run is a `Slip`, and a successful run gives the list of its slips.  `PdMapperCursor.lean` connects
the scanner with the parser. -/

namespace Imola.PdMapper

open Imola.CStrings Imola.JsonText

/-! ### The scanner -/

/-- Where a run is too lenient. -/
inductive Slip where
  /-- The last byte of the text is read again. -/
  | reread
  /-- The last letter of a word is missing. -/
  | keyword
  /-- The 128th byte of a string is taken for its closing quote. -/
  | string
  /-- Something is left behind the tree. -/
  | trailing
deriving DecidableEq, Repr

/-- A run: the slips and the bytes left. -/
inductive Scan (α : Type) where
  | ok (a : α) (slips : List Slip) (rest : List UInt8)
  | fail
  | deep

namespace Scan

variable {α β : Type}

/-- A run after some slips. -/
def after (σ : List Slip) : Scan α → Scan α
  | ok a σ' r => ok a (σ ++ σ') r
  | fail => fail
  | deep => deep

def andThen (x : Scan α) (f : α → List UInt8 → Scan β) : Scan β :=
  match x with
  | ok a σ r => (f a r).after σ
  | fail => fail
  | deep => deep

def map (g : α → β) : Scan α → Scan β
  | ok a σ r => ok (g a) σ r
  | fail => fail
  | deep => deep

variable {x y : Scan α} {f g : α → List UInt8 → Scan β} {a : α} {b : β} {σ τ : List Slip}
    {r : List UInt8}

theorem after_nil (x : Scan α) : x.after [] = x := by
  cases x with
  | _ => rfl

theorem after_eq_ok : x.after σ = ok a τ r ↔ ∃ σ', x = ok a σ' r ∧ τ = σ ++ σ' := by
  cases x with
  | ok a' σ' r' =>
      simp only [after, ok.injEq]
      constructor
      · rintro ⟨rfl, rfl, rfl⟩
        exact ⟨σ', ⟨rfl, rfl, rfl⟩, rfl⟩
      · rintro ⟨_, ⟨rfl, rfl, rfl⟩, rfl⟩
        exact ⟨rfl, rfl, rfl⟩
  | fail => simp [after]
  | deep => simp [after]

theorem map_eq_ok {h : α → β} : x.map h = ok b σ r ↔ ∃ a, x = ok a σ r ∧ h a = b := by
  cases x with
  | ok a' σ' r' =>
      simp only [map, ok.injEq]
      constructor
      · rintro ⟨rfl, rfl, rfl⟩
        exact ⟨a', ⟨rfl, rfl, rfl⟩, rfl⟩
      · rintro ⟨_, ⟨rfl, rfl, rfl⟩, rfl⟩
        exact ⟨rfl, rfl, rfl⟩
  | fail => simp [map]
  | deep => simp [map]

theorem andThen_eq_ok : x.andThen f = ok b τ r ↔
    ∃ a σ r' σ', x = ok a σ r' ∧ f a r' = ok b σ' r ∧ τ = σ ++ σ' := by
  cases x with
  | ok a' σ r' =>
      simp only [andThen, after_eq_ok, ok.injEq]
      constructor
      · rintro ⟨σ', hf, rfl⟩
        exact ⟨a', σ, r', σ', ⟨rfl, rfl, rfl⟩, hf, rfl⟩
      · rintro ⟨_, _, _, σ', ⟨rfl, rfl, rfl⟩, hf, rfl⟩
        exact ⟨σ', hf, rfl⟩
  | fail => simp [andThen]
  | deep => simp [andThen]

/-- `y` is `x`, unless `x` went too deep. -/
def Le (x y : Scan α) : Prop := x ≠ deep → y = x

theorem Le.after (h : Le x y) (σ : List Slip) : Le (x.after σ) (y.after σ) := by
  intro hne
  rw [h fun hx => hne (by rw [hx]; rfl)]

theorem Le.map (h : Le x y) (k : α → β) : Le (x.map k) (y.map k) := by
  intro hne
  rw [h fun hx => hne (by rw [hx]; rfl)]

theorem Le.andThen (h : Le x y) (hfg : ∀ a r, Le (f a r) (g a r)) :
    Le (x.andThen f) (y.andThen g) := by
  intro hne
  rw [h fun hx => hne (by rw [hx]; rfl)]
  cases x with
  | ok a σ r => exact (hfg a r).after σ hne
  | fail => rfl
  | deep => exact absurd rfl hne

end Scan

/-- The byte at the cursor after white space was skipped, the bytes behind it, and whether it was
not read before. -/
structure Peek where
  byte : UInt8
  rest : List UInt8
  fresh : Bool
deriving DecidableEq, Repr

def Peek.slips (p : Peek) : List Slip := if p.fresh then [] else [.reread]

/-- `scanString room`: a string behind its quote, of at most `room` bytes. -/
def scanString : ℕ → List UInt8 → Scan (List UInt8)
  | _, [] => .fail
  | 0, b :: r => if b = 0 then .fail else if b = 34 then .ok [] [] r else .ok [] [.string] r
  | room + 1, b :: r =>
      if b = 0 then .fail
      else if b = 34 then .ok [] [] r
      else (scanString room r).map (b :: ·)

/-- A number of at most 19 digits. -/
def scanNumber (r : List UInt8) : Scan (List UInt8) :=
  let ds := (r.takeWhile isDigit).take 19
  .ok ds [] (r.drop ds.length)

/-- A word, or the word without its last letter. -/
def scanWord : List UInt8 → List UInt8 → Scan Unit
  | [], r => .ok () [] r
  | x :: m, b :: r =>
      if x = b then scanWord m r else if m = [] then .ok () [.keyword] (b :: r) else .fail
  | _ :: m, [] => if m = [] then .ok () [.keyword] [] else .fail

section Scanner

variable {ν : Type} (strtod : List UInt8 → ν) (last : UInt8) (rounds : ℕ)

def peek (r : List UInt8) : Peek :=
  match r.dropWhile isSpace with
  | [] => ⟨last, [], false⟩
  | b :: rest => ⟨b, rest, true⟩

/-- Items, each followed by a comma or, the last one, by the closing bracket. -/
def scanItems {α : Type} (close : UInt8) (item : List UInt8 → Scan α) :
    ℕ → List UInt8 → Scan (List α)
  | 0, _ => .deep
  | n + 1, r => (item r).andThen fun a r =>
      let p := peek last r
      .after p.slips
        (if p.byte = close then .ok [a] [] p.rest
        else if p.byte = 44 then (scanItems close item n p.rest).map (a :: ·)
        else .fail)

/-- A key, a colon and a tree. -/
def scanProperty (value : List UInt8 → Scan (Json ν)) (r : List UInt8) :
    Scan (List UInt8 × Json ν) :=
  let p := peek last r
  .after p.slips
    (if p.byte ≠ 34 then .fail
    else (scanString 127 p.rest).andThen fun key r =>
      let q := peek last r
      .after q.slips (if q.byte ≠ 58 then .fail else (value q.rest).map fun v => (key, v)))

/-- A tree. -/
def scanValue : ℕ → List UInt8 → Scan (Json ν)
  | 0, _ => .deep
  | depth + 1, r =>
      let p := peek last r
      .after p.slips
        (if p.byte = 123 then
          (scanItems last 125 (scanProperty last (scanValue depth)) rounds p.rest).map .object
        else if p.byte = 91 then (scanItems last 93 (scanValue depth) rounds p.rest).map .array
        else if p.byte = 34 then (scanString 127 p.rest).map .string
        else if isDigit p.byte then
          (scanNumber (p.byte :: p.rest)).map fun ds => .number (strtod ds)
        else
          match keywordOf p.byte with
          | none => .fail
          | some (word, v) => (scanWord word (p.byte :: p.rest)).map fun _ => v)

end Scanner

/-! ### The byte seen -/

section Peek

variable {last : UInt8} {w r : List UInt8}

theorem peek_blank (hw : Blank w) : peek last w = ⟨last, [], false⟩ := by
  rw [peek, List.dropWhile_eq_nil_iff.mpr hw]

theorem peek_append {b : UInt8} (hw : Blank w) (hb : ¬ isSpace b) :
    peek last (w ++ b :: r) = ⟨b, r, true⟩ := by
  rw [peek, List.dropWhile_append_of_pos hw, List.dropWhile_cons_of_neg hb]

theorem eq_append_of_fresh (h : (peek last r).fresh) : ∃ w, Blank w ∧
    r = w ++ (peek last r).byte :: (peek last r).rest := by
  refine ⟨r.takeWhile isSpace, fun b hb => List.mem_takeWhile_imp hb, ?_⟩
  conv_lhs => rw [← List.takeWhile_append_dropWhile (p := isSpace) (l := r)]
  unfold peek at h ⊢
  cases hd : r.dropWhile isSpace with
  | nil =>
      rw [hd] at h
      cases h
  | cons b rest => rfl

theorem blank_of_not_fresh (h : (peek last r).fresh = false) : Blank r := by
  unfold peek at h
  cases hd : r.dropWhile isSpace with
  | nil => exact List.dropWhile_eq_nil_iff.mp hd
  | cons b rest =>
      rw [hd] at h
      cases h

theorem Peek.slips_eq_nil {p : Peek} : p.slips = [] ↔ p.fresh := by
  cases hf : p.fresh with
  | _ => simp [Peek.slips, hf]

end Peek

/-! ### What a run has read

One lemma for each scanner says all that a successful run can have done. -/

section Read

theorem keywordOf_eq_some {ν : Type} {b : UInt8} {word : List UInt8} {v : Json ν}
    (h : keywordOf b = some (word, v)) :
    (b = 116 ∧ word = ascii "true" ∧ v = .true) ∨ (b = 102 ∧ word = ascii "false" ∧ v = .false) ∨
      (b = 110 ∧ word = ascii "null" ∧ v = .null) := by
  unfold keywordOf at h
  split_ifs at h with ht hf hn
  · cases h
    exact Or.inl ⟨ht, rfl, rfl⟩
  · cases h
    exact Or.inr (Or.inl ⟨hf, rfl, rfl⟩)
  · cases h
    exact Or.inr (Or.inr ⟨hn, rfl, rfl⟩)

theorem scanString_read {room : ℕ} {r bs r' : List UInt8} {σ : List Slip}
    (h : scanString room r = .ok bs σ r') :
    ∃ q, r = bs ++ q :: r' ∧ Quotable bs ∧ bs.length ≤ room ∧ (σ = [] → q = 34) := by
  have hnil : Quotable [] := fun c hc => nomatch hc
  induction r generalizing room bs with
  | nil =>
      cases room with
      | _ => cases h
  | cons b r ih =>
      cases room with
      | zero =>
          rw [scanString] at h
          split_ifs at h with h0 hq
          · cases h
            exact ⟨b, rfl, hnil, le_rfl, fun _ => hq⟩
          · cases h
            exact ⟨b, rfl, hnil, le_rfl, fun hσ => nomatch hσ⟩
      | succ room =>
          rw [scanString] at h
          split_ifs at h with h0 hq
          · cases h
            exact ⟨b, rfl, hnil, Nat.zero_le _, fun _ => hq⟩
          · obtain ⟨bs', hbs, rfl⟩ := Scan.map_eq_ok.mp h
            obtain ⟨q, rfl, hquot, hlen, hclosed⟩ := ih hbs
            refine ⟨q, rfl, fun c hc => ?_, Nat.succ_le_succ hlen, hclosed⟩
            cases List.mem_cons.mp hc with
            | inl hcb =>
                rw [hcb]
                exact ⟨h0, hq⟩
            | inr hcr => exact hquot c hcr

theorem scanNumber_read {b : UInt8} (hb : isDigit b) {r ds r' : List UInt8} {σ : List Slip}
    (h : scanNumber (b :: r) = .ok ds σ r') : b :: r = ds ++ r' ∧ Numeral ds ∧ ds.length ≤ 19 := by
  have hpre : ((b :: r).takeWhile isDigit).take 19 <+: b :: r :=
    (List.take_prefix _ _).trans (List.takeWhile_prefix _)
  cases h
  refine ⟨List.prefix_append_drop hpre, ⟨?_, fun d hd => ?_⟩, List.length_take_le _ _⟩
  · rw [List.takeWhile_cons_of_pos hb]
    exact List.cons_ne_nil _ _
  · exact List.mem_takeWhile_imp (List.mem_of_mem_take hd)

theorem scanWord_read {word r r' : List UInt8} {σ : List Slip} (h : scanWord word r = .ok () σ r') :
    ∃ m, r = m ++ r' ∧ (σ = [] → m = word) := by
  induction word generalizing r with
  | nil =>
      cases h
      exact ⟨[], rfl, fun _ => rfl⟩
  | cons x m ih =>
      cases r with
      | nil =>
          rw [scanWord] at h
          split_ifs at h
          cases h
          exact ⟨[], rfl, fun hσ => nomatch hσ⟩
      | cons b r =>
          rw [scanWord] at h
          split_ifs at h with hx hm
          · obtain ⟨m', rfl, hm'⟩ := ih h
            refine ⟨b :: m', rfl, fun hσ => ?_⟩
            rw [hm' hσ, hx]
          · cases h
            exact ⟨[], rfl, fun hσ => nomatch hσ⟩

variable {ν : Type} {strtod : List UInt8 → ν} {last : UInt8} {rounds : ℕ}

/-- Items read, each with what stands behind it. -/
inductive ItemsRead {α : Type} (last close : UInt8) (item : List UInt8 → Scan α) :
    List UInt8 → List α → List Slip → List UInt8 → Prop
  | one {r r' : List UInt8} {a : α} {σ : List Slip} : item r = .ok a σ r' →
      (peek last r').byte = close →
      ItemsRead last close item r [a] (σ ++ (peek last r').slips) (peek last r').rest
  | more {r r' r'' : List UInt8} {a : α} {as : List α} {σ σ' : List Slip} : item r = .ok a σ r' →
      (peek last r').byte = 44 → ItemsRead last close item (peek last r').rest as σ' r'' →
      ItemsRead last close item r (a :: as) (σ ++ ((peek last r').slips ++ σ')) r''

theorem scanItems_read {α : Type} {close : UInt8} {item : List UInt8 → Scan α} (n : ℕ) :
    ∀ {r as σ r'},
    scanItems last close item n r = .ok as σ r' → ItemsRead last close item r as σ r' := by
  induction n with
  | zero => exact fun h => nomatch h
  | succ n ih =>
      intro r as σ r' h
      obtain ⟨a, σ₁, r₁, σ₂, hok, hnext, rfl⟩ := Scan.andThen_eq_ok.mp h
      obtain ⟨σ₃, hif, rfl⟩ := Scan.after_eq_ok.mp hnext
      split_ifs at hif with hclose hcomma
      · cases hif
        rw [List.append_nil]
        exact .one hok hclose
      · obtain ⟨as', has, rfl⟩ := Scan.map_eq_ok.mp hif
        exact .more hok hcomma (ih has)

theorem scanProperty_read {value : List UInt8 → Scan (Json ν)} {r r' : List UInt8}
    {m : List UInt8 × Json ν}
    {σ : List Slip} (h : scanProperty last value r = .ok m σ r') :
    ∃ σ₁ r₁ σ₂, (peek last r).byte = 34 ∧
      scanString 127 (peek last r).rest = .ok m.1 σ₁ r₁ ∧ (peek last r₁).byte = 58 ∧
      value (peek last r₁).rest = .ok m.2 σ₂ r' ∧
      σ = (peek last r).slips ++ (σ₁ ++ ((peek last r₁).slips ++ σ₂)) := by
  obtain ⟨σ', hif, rfl⟩ := Scan.after_eq_ok.mp h
  split_ifs at hif with hquote
  obtain ⟨key, σ₁, r₁, σ₃, hkey, hcolon, rfl⟩ := Scan.andThen_eq_ok.mp hif
  obtain ⟨σ₂, hif', rfl⟩ := Scan.after_eq_ok.mp hcolon
  split_ifs at hif' with h58
  obtain ⟨v, hv, rfl⟩ := Scan.map_eq_ok.mp hif'
  exact ⟨σ₁, r₁, σ₂, not_not.mp hquote, hkey, not_not.mp h58, hv, rfl⟩

/-- A value read, by the byte seen. -/
inductive ValueRead (strtod : List UInt8 → ν) (last : UInt8) (value : List UInt8 → Scan (Json ν))
    (p : Peek) :
    Json ν → List Slip → List UInt8 → Prop
  | object {ms : List (List UInt8 × Json ν)} {σ : List Slip} {r' : List UInt8} : p.byte = 123 →
      ItemsRead last 125 (scanProperty last value) p.rest ms σ r' →
      ValueRead strtod last value p (.object ms) σ r'
  | array {vs : List (Json ν)} {σ : List Slip} {r' : List UInt8} : p.byte = 91 →
      ItemsRead last 93 value p.rest vs σ r' → ValueRead strtod last value p (.array vs) σ r'
  | string {bs : List UInt8} {σ : List Slip} {r' : List UInt8} : p.byte = 34 →
      scanString 127 p.rest = .ok bs σ r' → ValueRead strtod last value p (.string bs) σ r'
  | number {ds : List UInt8} {σ : List Slip} {r' : List UInt8} : isDigit p.byte →
      scanNumber (p.byte :: p.rest) = .ok ds σ r' →
      ValueRead strtod last value p (.number (strtod ds)) σ r'
  | keyword {word : List UInt8} {v : Json ν} {σ : List Slip} {r' : List UInt8} :
      keywordOf p.byte = some (word, v) → scanWord word (p.byte :: p.rest) = .ok () σ r' →
      ValueRead strtod last value p v σ r'

theorem scanValue_read {d : ℕ} {r r' : List UInt8} {v : Json ν} {σ : List Slip}
    (h : scanValue strtod last rounds (d + 1) r = .ok v σ r') :
    ∃ σ', σ = (peek last r).slips ++ σ' ∧
      ValueRead strtod last (scanValue strtod last rounds d) (peek last r) v σ' r' := by
  obtain ⟨σ', hif, hσ⟩ := Scan.after_eq_ok.mp h
  refine ⟨σ', hσ, ?_⟩
  generalize peek last r = p at hif
  split_ifs at hif with h123 h91 h34 hdigit
  · obtain ⟨ms, hms, rfl⟩ := Scan.map_eq_ok.mp hif
    exact .object h123 (scanItems_read _ hms)
  · obtain ⟨vs, hvs, rfl⟩ := Scan.map_eq_ok.mp hif
    exact .array h91 (scanItems_read _ hvs)
  · obtain ⟨bs, hbs, rfl⟩ := Scan.map_eq_ok.mp hif
    exact .string h34 hbs
  · obtain ⟨ds, hds, rfl⟩ := Scan.map_eq_ok.mp hif
    exact .number hdigit hds
  · cases hk : (keywordOf p.byte : Option (_ × Json ν)) with
    | none =>
        rw [hk] at hif
        cases hif
    | some wv =>
        rw [hk] at hif
        obtain ⟨u, hu, rfl⟩ := Scan.map_eq_ok.mp hif
        exact .keyword hk hu

end Read

/-! ### More depth -/

section Depth

variable {ν : Type} {strtod : List UInt8 → ν} {last : UInt8} {rounds : ℕ}

theorem scanItems_le {α : Type} {close : UInt8} {item item' : List UInt8 → Scan α}
    (h : ∀ r, (item r).Le (item' r)) (n : ℕ) (r : List UInt8) :
    (scanItems last close item n r).Le (scanItems last close item' n r) := by
  induction n generalizing r with
  | zero => exact fun hne => absurd rfl hne
  | succ n ih =>
      refine (h r).andThen fun a r => Scan.Le.after ?_ _
      split_ifs
      · exact fun _ => rfl
      · exact (ih _).map _
      · exact fun _ => rfl

theorem scanProperty_le {value value' : List UInt8 → Scan (Json ν)}
    (h : ∀ r, (value r).Le (value' r))
    (r : List UInt8) : (scanProperty last value r).Le (scanProperty last value' r) := by
  refine Scan.Le.after ?_ _
  split_ifs
  · exact fun _ => rfl
  · refine Scan.Le.andThen (fun _ => rfl) fun key r => Scan.Le.after ?_ _
    split_ifs
    · exact fun _ => rfl
    · exact (h _).map _

/-- A run that ends does not depend on the bound of the depth. -/
theorem scanValue_le {d d' : ℕ} (hd : d ≤ d') (r : List UInt8) :
    (scanValue strtod last rounds d r).Le (scanValue strtod last rounds d' r) := by
  induction d generalizing d' r with
  | zero => exact fun hne => absurd rfl hne
  | succ d ih =>
      obtain ⟨d', rfl⟩ : ∃ k, d' = k + 1 := ⟨d' - 1, by omega⟩
      have hvalue := fun r => ih (by omega : d ≤ d') r
      refine Scan.Le.after ?_ _
      split_ifs
      · exact (scanItems_le (scanProperty_le hvalue) _ _).map _
      · exact (scanItems_le hvalue _ _).map _
      · exact fun _ => rfl
      · exact fun _ => rfl
      · exact fun _ => rfl

end Depth

/-- The scan of a whole text. -/
def scanText {ν : Type} (strtod : List UInt8 → ν) (front : UInt8) (depth : ℕ) (s : List UInt8) :
    Scan (Json ν) :=
  scanValue strtod (s.getLastD front) (s.length + 2) depth s

/-- The slips of the run on a text that is accepted. -/
def slips {ν : Type} (strtod : List UInt8 → ν) (front : UInt8) (depth : ℕ) (s : List UInt8) :
    List Slip :=
  match scanText strtod front depth s with
  | .ok _ σ r => if (peek (s.getLastD front) r).fresh then σ ++ [.trailing] else σ
  | _ => []

end Imola.PdMapper
