import Imola.Bdaddr

/-! # The argument of `bdaddr`

The argument should be six pairs of digits in base 16 with colons between them.  `main` tests its
length and that `sscanf` converts six numbers.  A conversion takes white space first, and then one
or two characters, one of which may be a sign; and nothing is read behind the last one.  So `sscanf`
also reads texts whose fields are shorter, if the length is made up elsewhere.

`parseAddr_eq_some_iff` says what is accepted, and `readsRight_iff` that the argument is treated as
it should be exactly when no field of it is read in one of these other ways. -/

namespace Imola.Bdaddr

open Imola.CStrings

/-! ### The addresses that are meant -/

/-- Two digits in base 16. -/
structure HexPair where
  high : UInt8
  low : UInt8
  hi : ℕ
  lo : ℕ
  hexVal_high : hexVal high = some hi
  hexVal_low : hexVal low = some lo

namespace HexPair

def text (p : HexPair) : List UInt8 := [p.high, p.low]

def value (p : HexPair) : UInt8 := UInt8.ofNat (16 * p.hi + p.lo)

end HexPair

/-- Pairs with colons between them. -/
def addressText : List HexPair → List UInt8
  | [] => []
  | p :: ps => p.text ++ ps.flatMap fun p => 58 :: p.text

/-- The argument is the address with the pairs `ps`. -/
def IsAddress (arg : List UInt8) (ps : List HexPair) : Prop := ps.length = 6 ∧ arg = addressText ps

/-- An argument is accepted when it is an address, and then `bdaddr[5 - i]` is the value of the pair
`i`. -/
structure ReadsRight (arg : List UInt8) : Prop where
  accepts : (parseAddr arg).isSome ↔ ∃ ps, IsAddress arg ps
  stores : ∀ ps octets, IsAddress arg ps → parseAddr arg = some octets → ∀ i p, ps[i]? = some p →
    octets.reverse[5 - i]? = some p.value

/-! ### What a conversion reads -/

/-- The characters of a number, and its value. -/
inductive Number : List UInt8 → UInt8 → Prop
  | pair {a b : UInt8} {d e : ℕ} : hexVal a = some d → hexVal b = some e →
      Number [a, b] (UInt8.ofNat (16 * d + e))
  | digit {a : UInt8} {d : ℕ} : hexVal a = some d → Number [a] (UInt8.ofNat d)
  | plus {a : UInt8} {d : ℕ} : hexVal a = some d → Number [43, a] (UInt8.ofNat d)
  | minus {a : UInt8} {d : ℕ} : hexVal a = some d → Number [45, a] (-UInt8.ofNat d)

/-- A number of one character is not continued by what follows. -/
def Stops (text rest : List UInt8) : Prop :=
  ∀ a b, text = [a] → rest.head? = some b → hexVal b = none ∧ ¬ (a = 48 ∧ (b = 120 ∨ b = 88))

/-- What one `%02hhx` reads. -/
structure Field where
  blanks : List UInt8
  text : List UInt8
  value : UInt8
  blank : ∀ b ∈ blanks, isSpace b = true
  number : Number text value

def Field.bytes (f : Field) : List UInt8 := f.blanks ++ f.text

/-- Fields, each behind a colon. -/
def fieldsBytes (fs : List Field) : List UInt8 := fs.flatMap fun f => 58 :: f.bytes

section Scan

theorem hexVal_plain {a : UInt8} {d : ℕ} (h : hexVal a = some d) :
    isSpace a = false ∧ a ≠ 43 ∧ a ≠ 45 ∧ a ≠ 58 ∧
    a ≠ 120 ∧ a ≠ 88 := by
  have hall : ∀ n < 256, (hexVal (UInt8.ofNat n)).isSome → isSpace (UInt8.ofNat n) = false ∧
      UInt8.ofNat n ≠ 43 ∧
      UInt8.ofNat n ≠ 45 ∧ UInt8.ofNat n ≠ 58 ∧ UInt8.ofNat n ≠ 120 ∧ UInt8.ofNat n ≠ 88 := by
        decide +kernel
  have ha := hall a.toNat a.toNat_lt
  rw [UInt8.ofNat_toNat] at ha
  exact ha (by rw [h]; rfl)

theorem scanOctet_of_number {blanks text rest : List UInt8} {v : UInt8}
    (hblank : ∀ b ∈ blanks, isSpace b = true)
    (hnumber : Number text v) (hstops : Stops text rest) :
    scanOctet (blanks ++ (text ++ rest)) = some (v, rest) := by
  have hdrop : ∀ {a : UInt8} {r : List UInt8}, isSpace a = false →
      (blanks ++ a :: r).dropWhile isSpace = a :: r := by
    intro a r ha
    rw [List.dropWhile_append_of_pos hblank, List.dropWhile_cons_of_neg (by simp [ha])]
  unfold scanOctet
  cases hnumber with
  | @pair a b d e ha hb =>
      obtain ⟨hspace, hplus, hminus, -⟩ := hexVal_plain ha
      obtain ⟨-, -, -, -, hx, hX⟩ := hexVal_plain hb
      simp [hdrop hspace, hplus, hminus, ha, hb, hx, hX]
  | @digit a d ha =>
      obtain ⟨hspace, hplus, hminus, -⟩ := hexVal_plain ha
      cases rest with
      | nil => simp [hdrop hspace, hplus, hminus, ha]
      | cons b rest =>
          obtain ⟨hb, hx⟩ := hstops a b rfl rfl
          simp [hdrop hspace, hplus, hminus, ha, hb, hx]
  | plus ha => simp [hdrop (by decide : isSpace 43 = false), ha]
  | minus ha => simp [hdrop (by decide : isSpace 45 = false), ha]

theorem number_of_scanOctet {s rest : List UInt8} {v : UInt8} (h : scanOctet s = some (v, rest)) :
    ∃ text, Number text v ∧ Stops text rest ∧ s.dropWhile isSpace = text ++ rest := by
  have hlong : ∀ {a b : UInt8}, Stops [a, b] rest := fun _ _ heq => by cases heq
  unfold scanOctet at h
  split at h
  · cases h
  · rename_i a r hdrop
    by_cases hsign : a = 43 ∨ a = 45
    · rw [if_pos hsign] at h
      cases r with
      | nil => cases h
      | cons b r' =>
          obtain ⟨d, hd, heq⟩ := Option.map_eq_some_iff.mp h
          obtain ⟨hv, rfl⟩ := Prod.mk.inj heq
          rcases hsign with rfl | rfl
          · obtain rfl : UInt8.ofNat d = v := hv
            exact ⟨_, .plus hd, hlong, hdrop⟩
          · obtain rfl : -UInt8.ofNat d = v := hv
            exact ⟨_, .minus hd, hlong, hdrop⟩
    rw [if_neg hsign] at h
    cases ha : hexVal a with
    | none =>
        rw [ha] at h
        cases h
    | some d =>
        rw [ha] at h
        cases r with
        | nil =>
            obtain ⟨rfl, rfl⟩ := Prod.mk.inj (Option.some.inj h)
            exact ⟨_, .digit ha, fun _ _ _ hhead => (by cases hhead), hdrop⟩
        | cons b r' =>
            dsimp only at h
            split_ifs at h with hx
            cases hb : hexVal b with
            | none =>
                rw [hb] at h
                obtain ⟨rfl, rfl⟩ := Prod.mk.inj (Option.some.inj h)
                refine ⟨_, .digit ha, fun a' b' htext hhead => ?_, hdrop⟩
                obtain rfl := (List.cons.inj htext).1
                obtain rfl := Option.some.inj hhead
                exact ⟨hb, hx⟩
            | some e =>
                rw [hb] at h
                obtain ⟨rfl, rfl⟩ := Prod.mk.inj (Option.some.inj h)
                exact ⟨_, .pair ha hb, hlong, hdrop⟩

/-- **What one conversion reads.** -/
theorem scanOctet_eq_some_iff {s rest : List UInt8} {v : UInt8} : scanOctet s = some (v, rest) ↔
    ∃ f : Field, f.value = v ∧ Stops f.text rest ∧ s = f.bytes ++ rest := by
  constructor
  · intro h
    obtain ⟨text, hnumber, hstops, hdrop⟩ := number_of_scanOctet h
    refine ⟨⟨s.takeWhile isSpace, text, v, fun b hb => List.mem_takeWhile_imp hb, hnumber⟩,
      rfl, hstops, ?_⟩
    rw [Field.bytes, List.append_assoc, ← hdrop]
    exact List.takeWhile_append_dropWhile.symm
  · rintro ⟨f, rfl, hstops, rfl⟩
    rw [Field.bytes, List.append_assoc]
    exact scanOctet_of_number f.blank f.number hstops

theorem stops_colon (text rest : List UInt8) : Stops text (58 :: rest) := by
  rintro a b - hb
  obtain rfl := Option.some.inj hb
  exact ⟨by decide, fun h => absurd h.2 (by decide)⟩

/-- Of several fields only the last one can be cut off wrongly. -/
theorem stops_last_cons {f : Field} {fs : List Field} {tail : List UInt8} :
    (∀ g ∈ (f :: fs).getLast?, Stops g.text tail) ↔
      Stops f.text (fieldsBytes fs ++ tail) ∧ ∀ g ∈ fs.getLast?, Stops g.text tail := by
  cases fs with
  | nil =>
      constructor
      · intro h
        exact ⟨h f rfl, fun g hg => by cases hg⟩
      · rintro ⟨h, -⟩ g ⟨⟩
        exact h
  | cons g fs =>
      rw [List.getLast?_cons_cons]
      exact (and_iff_right (stops_colon _ _)).symm

theorem scanOctets_eq_some_iff (k : ℕ) : ∀ {s octets : List UInt8}, scanOctets k s = some octets ↔
    ∃ fs tail, fs.length = k ∧ fs.map Field.value = octets ∧ s = fieldsBytes fs ++ tail ∧
      ∀ f ∈ fs.getLast?, Stops f.text tail := by
  induction k with
  | zero =>
      intro s octets
      constructor
      · intro h
        obtain rfl := Option.some.inj h
        exact ⟨[], s, rfl, rfl, rfl, fun f hf => by cases hf⟩
      · rintro ⟨fs, tail, hlen, rfl, -, -⟩
        rw [List.length_eq_zero_iff.mp hlen]
        rfl
  | succ k ih =>
      intro s octets
      constructor
      · intro h
        cases s with
        | nil => cases h
        | cons c s =>
            rw [scanOctets] at h
            split_ifs at h with hcolon
            obtain ⟨⟨o, r⟩, hfirst, h⟩ := Option.bind_eq_some_iff.mp h
            obtain ⟨os, hrest, h⟩ := Option.bind_eq_some_iff.mp h
            obtain rfl := Option.some.inj h
            obtain ⟨f, rfl, hstops, rfl⟩ := scanOctet_eq_some_iff.mp hfirst
            obtain ⟨fs, tail, hlen, rfl, rfl, hlast⟩ := ih.mp hrest
            refine ⟨f :: fs,
              tail, by rw [List.length_cons, hlen], rfl, ?_, stops_last_cons.mpr ⟨hstops, hlast⟩⟩
            rw [hcolon, fieldsBytes, fieldsBytes, List.flatMap_cons, List.cons_append,
              List.cons_append,
              List.append_assoc]
      · rintro ⟨fs, tail, hlen, rfl, rfl, hlast⟩
        cases fs with
        | nil => cases hlen
        | cons f fs =>
            obtain ⟨hstops, hlast⟩ := stops_last_cons.mp hlast
            have hfirst : scanOctet (f.bytes ++ (fieldsBytes fs ++ tail)) =
                some (f.value, fieldsBytes fs ++ tail) :=
              scanOctet_eq_some_iff.mpr ⟨f, rfl, hstops, rfl⟩
            have hrest : scanOctets k (fieldsBytes fs ++ tail) = some (fs.map Field.value) :=
              ih.mpr ⟨fs, tail, Nat.succ.inj hlen, rfl, rfl, hlast⟩
            rw [fieldsBytes, List.flatMap_cons, List.cons_append, List.cons_append,
              List.append_assoc]
            show scanOctets (k + 1) (58 :: (f.bytes ++ (fieldsBytes fs ++ tail))) = _
            rw [scanOctets, if_pos rfl, hfirst]
            simp [hrest]

/-- The argument is read as the fields `fs`, and `tail` is left. -/
def Reads (arg : List UInt8) (fs : List Field) (tail : List UInt8) : Prop :=
  fs.length = 6 ∧ 58 :: arg = fieldsBytes fs ++ tail ∧ ∀ f ∈ fs.getLast?, Stops f.text tail

/-- **What is accepted**: the length is right, and the argument begins with six fields. -/
theorem parseAddr_eq_some_iff {arg octets : List UInt8} : parseAddr arg = some octets ↔
    arg.length = 17 ∧ ∃ fs tail, Reads arg fs tail ∧ fs.map Field.value = octets := by
  have hscan : parseAddr arg = if arg.length ≠ 17 then none else scanOctets 6 (58 :: arg) := rfl
  rw [hscan]
  by_cases hlen : arg.length = 17
  · rw [if_neg (not_not.mpr hlen), scanOctets_eq_some_iff, and_iff_right hlen]
    refine exists_congr fun fs => exists_congr fun tail => ?_
    rw [Reads]
    tauto
  · rw [if_pos hlen]
    exact ⟨fun h => (by cases h), fun h => absurd h.1 hlen⟩

end Scan

/-! ### Addresses and other texts -/

/-- What is read of a pair of digits. -/
def HexPair.field (p : HexPair) : Field where
  blanks := []
  text := p.text
  value := p.value
  blank := List.forall_mem_nil _
  number := .pair p.hexVal_high p.hexVal_low

/-- Nothing but two digits. -/
def Field.Plain (f : Field) : Prop := ∃ p : HexPair, f = p.field

/-- The argument is accepted with a field that has white space, a sign or a single digit. -/
def Loose (arg : List UInt8) : Prop :=
  arg.length = 17 ∧ ∃ fs tail, Reads arg fs tail ∧ ∃ f ∈ fs, ¬ f.Plain

section Address

variable {arg : List UInt8} {ps : List HexPair}

theorem colon_addressText (p : HexPair) (ps : List HexPair) :
    58 :: addressText (p :: ps) = fieldsBytes ((p :: ps).map HexPair.field) := by
  have hrest : ∀ ps : List HexPair, fieldsBytes (ps.map HexPair.field) = ps.flatMap fun p =>
      58 :: p.text := by
    intro ps
    rw [fieldsBytes, List.flatMap_map]
    rfl
  rw [hrest]
  rfl

theorem length_fieldsBytes (ps : List HexPair) :
    (fieldsBytes (ps.map HexPair.field)).length = 3 * ps.length := by
  induction ps with
  | nil => rfl
  | cons p ps ih =>
      have hcons : fieldsBytes ((p :: ps).map HexPair.field) =
          58 :: p.high :: p.low :: fieldsBytes (ps.map HexPair.field) := rfl
      rw [hcons, List.length_cons, List.length_cons, List.length_cons, List.length_cons, ih]
      omega

theorem IsAddress.reads (h : IsAddress arg ps) :
    arg.length = 17 ∧ Reads arg (ps.map HexPair.field) [] := by
  obtain ⟨hlen, rfl⟩ := h
  cases ps with
  | nil => cases hlen
  | cons p ps =>
      have htext := colon_addressText p ps
      have hlength := congrArg List.length htext
      rw [length_fieldsBytes, List.length_cons, hlen] at hlength
      refine ⟨by omega, by rw [List.length_map, hlen], by rw [htext, List.append_nil],
        fun f _ a b _ hb => ?_⟩
      cases hb

theorem Reads.isAddress {fs : List Field} {tail : List UInt8} (h : Reads arg fs tail)
    (hlen : arg.length = 17)
    (hplain : ∀ f ∈ fs, f.Plain) : ∃ ps, IsAddress arg ps := by
  obtain ⟨hcount, harg, -⟩ := h
  obtain ⟨ps, rfl⟩ : ∃ ps : List HexPair, fs = ps.map HexPair.field := by
    clear hcount harg
    induction fs with
    | nil => exact ⟨[], rfl⟩
    | cons f fs ih =>
        obtain ⟨p, rfl⟩ := hplain f List.mem_cons_self
        obtain ⟨ps, rfl⟩ := ih fun f hf => hplain f (List.mem_cons_of_mem _ hf)
        exact ⟨p :: ps, rfl⟩
  rw [List.length_map] at hcount
  have hlength := congrArg List.length harg
  rw [List.length_append, length_fieldsBytes, List.length_cons, hlen, hcount] at hlength
  have htail : tail = [] := List.eq_nil_of_length_eq_zero (by omega)
  rw [htail, List.append_nil] at harg
  refine ⟨ps, hcount, ?_⟩
  cases ps with
  | nil => cases hcount
  | cons p ps =>
      rw [← colon_addressText] at harg
      exact (List.cons.inj harg).2

/-- A field in front of two digits takes both of them. -/
theorem Field.plain_of_digits {f : Field} {p : HexPair} {rest rest' : List UInt8}
    (hstops : Stops f.text rest)
    (h : f.bytes ++ rest = p.text ++ rest') : f.Plain ∧ rest = rest' := by
  obtain ⟨blanks, text, value, hblank, hnumber⟩ := f
  obtain ⟨hspace, hplus, hminus, -⟩ := hexVal_plain p.hexVal_high
  cases blanks with
  | cons b blanks =>
      obtain rfl : b = p.high := (List.cons.inj h).1
      rw [hblank _ List.mem_cons_self] at hspace
      cases hspace
  | nil =>
      cases hnumber with
      | @pair a b d e ha hb =>
          exact ⟨⟨⟨a, b, d, e, ha, hb⟩, rfl⟩, (List.cons.inj (List.cons.inj h).2).2⟩
      | @digit a d ha =>
          have hrest : rest = p.low :: rest' := (List.cons.inj h).2
          obtain ⟨hlow, -⟩ := hstops a p.low rfl (by rw [hrest]; rfl)
          rw [p.hexVal_low] at hlow
          cases hlow
      | plus ha => exact absurd (List.cons.inj h).1.symm hplus
      | minus ha => exact absurd (List.cons.inj h).1.symm hminus

theorem plain_of_fieldsBytes (fs : List Field) :
    ∀ {ps : List HexPair} {tail tail' : List UInt8}, fs.length = ps.length →
    fieldsBytes fs ++ tail = fieldsBytes (ps.map HexPair.field) ++ tail' →
    (∀ f ∈ fs.getLast?, Stops f.text tail) →
      ∀ f ∈ fs, f.Plain := by
  induction fs with
  | nil => exact fun _ _ _ f hf => by cases hf
  | cons f fs ih =>
      intro ps tail tail' hlen h hlast
      cases ps with
      | nil => cases hlen
      | cons p ps =>
          have hstops : Stops f.text (fieldsBytes fs ++ tail) := by
            cases fs with
            | nil => exact hlast f rfl
            | cons g fs => exact stops_colon _ _
          have heq : f.bytes ++ (fieldsBytes fs ++ tail) =
              p.text ++ (fieldsBytes (ps.map HexPair.field) ++ tail') := by
            rw [List.map_cons, fieldsBytes, fieldsBytes, List.flatMap_cons, List.flatMap_cons,
              List.append_assoc,
              List.append_assoc] at h
            exact (List.cons.inj h).2
          obtain ⟨hplain, hrest⟩ := Field.plain_of_digits hstops heq
          intro g hg
          rcases List.mem_cons.mp hg with rfl | hg
          · exact hplain
          · refine ih (Nat.succ.inj hlen) hrest (fun g' hg' => hlast g' ?_) g hg
            cases fs with
            | nil => cases hg'
            | cons g'' fs => rwa [List.getLast?_cons_cons]

/-- An address is not read in another way. -/
theorem IsAddress.not_loose (h : IsAddress arg ps) : ¬ Loose arg := by
  rintro ⟨-, fs, tail, ⟨hcount, harg, hlast⟩, f, hf, hnot⟩
  obtain ⟨-, hcount', harg', -⟩ := h.reads
  rw [List.length_map] at hcount'
  exact hnot (plain_of_fieldsBytes fs (hcount.trans hcount'.symm)
    (harg.symm.trans harg') hlast f hf)

end Address

/-- **Which arguments are treated as they should be**: those that are not read with white space,
signs or single digits. -/
theorem readsRight_iff (arg : List UInt8) : ReadsRight arg ↔ ¬ Loose arg := by
  constructor
  · rintro h ⟨hlen, fs, tail, hreads, f, hf, hnot⟩
    have haccept : (parseAddr arg).isSome := by
      rw [parseAddr_eq_some_iff.mpr ⟨hlen, fs, tail, hreads, rfl⟩]
      rfl
    obtain ⟨ps, haddress⟩ := h.accepts.mp haccept
    exact haddress.not_loose ⟨hlen, fs, tail, hreads, f, hf, hnot⟩
  · intro hloose
    have hparse : ∀ ps, IsAddress arg ps → parseAddr arg = some (ps.map HexPair.value) := by
      intro ps h
      refine parseAddr_eq_some_iff.mpr ⟨h.reads.1, _, _, h.reads.2, ?_⟩
      rw [List.map_map]
      rfl
    refine ⟨⟨fun haccept => ?_, ?_⟩, ?_⟩
    · obtain ⟨octets, hoctets⟩ := Option.isSome_iff_exists.mp haccept
      obtain ⟨hlen, fs, tail, hreads, -⟩ := parseAddr_eq_some_iff.mp hoctets
      refine hreads.isAddress hlen fun f hf => ?_
      by_contra hnot
      exact hloose ⟨hlen, fs, tail, hreads, f, hf, hnot⟩
    · rintro ⟨ps, h⟩
      rw [hparse ps h]
      rfl
    · intro ps octets h hoctets i p hp
      rw [hparse ps h] at hoctets
      obtain rfl := Option.some.inj hoctets
      obtain ⟨hi, -⟩ := List.getElem?_eq_some_iff.mp hp
      have hlen : (ps.map HexPair.value).length = 6 := by rw [List.length_map, h.1]
      rw [h.1] at hi
      rw [List.getElem?_reverse (by omega), hlen,
        show 6 - 1 - (5 - i) = i by omega, List.getElem?_map, hp]
      rfl

/-- Nine single digits with colons have the right length, and the first six are taken. -/
theorem not_readsRight_digits : parseAddr (ascii "1:2:3:4:5:6:7:8:9") = some [1, 2, 3, 4, 5, 6] ∧
    ¬ ReadsRight (ascii "1:2:3:4:5:6:7:8:9") := by
  have hparse : parseAddr (ascii "1:2:3:4:5:6:7:8:9") = some [1, 2, 3, 4, 5, 6] := by decide
  refine ⟨hparse, fun h => ?_⟩
  obtain ⟨ps, hlen, htext⟩ := h.accepts.mp (by rw [hparse]; rfl)
  cases ps with
  | nil => cases hlen
  | cons p ps =>
      have hlow : (58 : UInt8) = p.low := (List.cons.inj (List.cons.inj htext).2).1
      exact (hexVal_plain p.hexVal_low).2.2.2.1 hlow.symm

end Imola.Bdaddr
