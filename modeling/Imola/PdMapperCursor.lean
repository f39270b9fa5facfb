import Imola.PdMapperScan

/-! # Cursor and scanner

Every parser of `json.c` follows the scanner: from a cursor in front of the bytes `r` (`At`), it
ends as the scanner ends on `r`, with the cursor where the bytes left say (`Follows`).  A parser
that has read a byte too much puts it back, and at the end of the text puts back another one; white
space skipped from there comes to the same byte as from the end (`At.skip_unput`), so the bytes left
still determine the cursor.

`jsonParse_eq` is the result: same trees, same failures and same depth of calls, for every text. -/

namespace Imola.PdMapper

open Imola.CStrings Imola.JsonText

/-- The run of the parser ends as that of the scanner; `P` relates the cursor and the bytes left. -/
def Follows {α : Type} (P : ℕ → List UInt8 → Prop) (x : Ret α) (y : Scan α) : Prop :=
  match y with
  | .ok a _ r => ∃ pos, x = .ok a pos ∧ P pos r
  | .fail => x = .error
  | .deep => x = .deep

section Follows

variable {α β : Type} {P Q : ℕ → List UInt8 → Prop} {x : Ret α} {y : Scan α}

theorem Follows.after (h : Follows P x y) (σ : List Slip) : Follows P x (y.after σ) := by
  cases y with
  | ok a σ' r => exact h
  | fail => exact h
  | deep => exact h

theorem Follows.map (h : Follows P x y) (g : α → β) : Follows P (x.map g) (y.map g) := by
  cases y with
  | ok a σ r =>
      obtain ⟨pos, rfl, hpos⟩ := h
      exact ⟨pos, rfl, hpos⟩
  | fail =>
      obtain rfl : x = .error := h
      rfl
  | deep =>
      obtain rfl : x = .deep := h
      rfl

theorem Follows.andThen {f : α → ℕ → Ret β} {g : α → List UInt8 → Scan β} (h : Follows P x y)
    (hfg : ∀ a pos r, P pos r → Follows Q (f a pos) (g a r)) :
    Follows Q (x.andThen f) (y.andThen g) := by
  cases y with
  | ok a σ r =>
      obtain ⟨pos, rfl, hpos⟩ := h
      exact (hfg a pos r hpos).after σ
  | fail =>
      obtain rfl : x = .error := h
      rfl
  | deep =>
      obtain rfl : x = .deep := h
      rfl

theorem Follows.orElse (h : Follows P x y) (f : ℕ → Ret α) : x.orElse f = x := by
  cases y with
  | ok a σ r =>
      obtain ⟨pos, rfl, -⟩ := h
      rfl
  | fail =>
      obtain rfl : x = .error := h
      rfl
  | deep =>
      obtain rfl : x = .deep := h
      rfl

theorem Follows.move (h : Follows P x y) {move : ℕ → ℕ} (hPQ : ∀ pos r, P pos r → Q (move pos) r) :
    Follows Q (x.andThen fun a pos => .ok a (move pos)) y := by
  cases y with
  | ok a σ r =>
      obtain ⟨pos, rfl, hpos⟩ := h
      exact ⟨_, rfl, hPQ pos r hpos⟩
  | fail =>
      obtain rfl : x = .error := h
      rfl
  | deep =>
      obtain rfl : x = .deep := h
      rfl

theorem Follows.andThen_ok (h : Follows P x y) (g : α → β) :
    Follows P (x.andThen fun a pos => .ok (g a) pos) (y.map g) := by
  cases y with
  | ok a σ r =>
      obtain ⟨pos, rfl, hpos⟩ := h
      exact ⟨pos, rfl, hpos⟩
  | fail =>
      obtain rfl : x = .error := h
      rfl
  | deep =>
      obtain rfl : x = .deep := h
      rfl

end Follows

section Cursor

variable {text : List UInt8}

/-- The cursor is in front of the bytes `r`. -/
def At (text : List UInt8) (pos : ℕ) (r : List UInt8) : Prop :=
  pos ≤ text.length ∧ text.drop pos = r

theorem At.input_cons {pos : ℕ} {b : UInt8} {r : List UInt8} (h : At text pos (b :: r)) :
    input text pos = (b, pos + 1) ∧ At text (pos + 1) r := by
  obtain ⟨hpos, hdrop⟩ := h
  refine ⟨by rw [input, hdrop], ?_, ?_⟩
  · have hlen := congrArg List.length hdrop
    rw [List.length_drop, List.length_cons] at hlen
    omega
  · rw [← List.drop_drop, hdrop]
    rfl

theorem At.input_nil {pos : ℕ} (h : At text pos []) : input text pos = (0, pos) := by
  rw [input, h.2]

theorem At.drop {pos : ℕ} {r : List UInt8} (h : At text pos r) {n : ℕ} (hn : n ≤ r.length) :
    At text (pos + n) (r.drop n) := by
  obtain ⟨hpos, rfl⟩ := h
  rw [List.length_drop] at hn
  exact ⟨by omega, by rw [List.drop_drop]⟩

theorem At.getLast? {pos : ℕ} {r : List UInt8} (h : At text pos r) (hr : r ≠ []) :
    r.getLast? = text.getLast? := by
  obtain ⟨-, rfl⟩ := h
  conv_rhs => rw [← List.take_append_drop pos text]
  rw [List.getLast?_append_of_ne_nil _ hr]

variable {last : UInt8} (hlast : text.getLast? = some last)

/-- The cursor stands where white space skipped from the bytes `r` leads. -/
def Seen (text : List UInt8) (last : UInt8) (pos : ℕ) (r : List UInt8) : Prop :=
  At text pos ((peek last r).byte :: (peek last r).rest)

include hlast

theorem At.last_mem {pos : ℕ} {b : UInt8} {r : List UInt8} (h : At text pos (b :: r)) :
    last ∈ b :: r := by
  have hlast' := h.getLast? (List.cons_ne_nil b r)
  rw [hlast] at hlast'
  exact List.mem_of_getLast? hlast'

/-- The cursor moved back at the end of the text is on the last byte. -/
theorem At.unput_nil {pos : ℕ} (h : At text pos []) : At text (unput pos) [last] := by
  obtain ⟨hpos, hdrop⟩ := h
  obtain ⟨init, rfl⟩ := List.getLast?_eq_some_iff.mp hlast
  rw [List.drop_eq_nil_iff] at hdrop
  rw [List.length_append, List.length_singleton] at hpos hdrop
  have hunput : unput pos = init.length := by
    rw [unput]
    omega
  rw [hunput]
  exact ⟨by simp, by simp⟩

omit hlast in
theorem skipLoop_eq (r : List UInt8) (pos : ℕ) : skipLoop r pos =
    pos + (r.takeWhile isSpace).length + if r.dropWhile isSpace = [] then 0 else 1 := by
  induction r generalizing pos with
  | nil => rfl
  | cons b r ih =>
      by_cases hb : isSpace b
      · have hne : b ≠ 0 := by
          rintro rfl
          revert hb
          decide
        rw [skipLoop, if_pos ⟨hne, hb⟩, ih, List.takeWhile_cons_of_pos hb,
          List.dropWhile_cons_of_pos hb,
          List.length_cons]
        omega
      · rw [skipLoop, if_neg (fun h => hb h.2), List.takeWhile_cons_of_neg hb,
          List.dropWhile_cons_of_neg hb]
        rfl

theorem At.skip {pos : ℕ} {r : List UInt8} (h : At text pos r) :
    Seen text last (jsonSkipWhitespace text pos) r := by
  have hsplit : r.takeWhile isSpace ++ r.dropWhile isSpace = r := List.takeWhile_append_dropWhile
  have hlen := congrArg List.length hsplit
  rw [List.length_append] at hlen
  have hat := h.drop (n := (r.takeWhile isSpace).length) (by omega)
  have hdrop : r.drop (r.takeWhile isSpace).length = r.dropWhile isSpace :=
    (List.append_inj ((List.take_append_drop _ r).trans hsplit.symm)
      (by rw [List.length_take]; omega)).2
  rw [hdrop] at hat
  rw [Seen, jsonSkipWhitespace, h.2, skipLoop_eq, peek]
  cases hd : r.dropWhile isSpace with
  | nil =>
      rw [hd] at hat
      exact At.unput_nil hlast hat
  | cons b rest =>
      rw [hd] at hat
      exact hat

/-- A byte read too much is put back; at the end of the text, another one is. -/
theorem At.skip_unput {pos : ℕ} {r : List UInt8} (h : At text pos r)
    (hspace : r = [] → ¬ isSpace last) :
    Seen text last (jsonSkipWhitespace text (unput (input text pos).2)) r := by
  cases r with
  | cons b r =>
      rw [h.input_cons.1]
      exact At.skip hlast h
  | nil =>
      rw [h.input_nil]
      have hskip := At.skip hlast (At.unput_nil hlast h)
      have hpeek : peek last [last] = ⟨last, [], true⟩ := by
        rw [peek, List.dropWhile_cons_of_neg (hspace rfl)]
      rw [Seen, hpeek] at hskip
      exact hskip

end Cursor

/-! ### The parsers follow the scanner -/

section Parsers

variable {ν : Type} {strtod : List UInt8 → ν} {text : List UInt8} {last : UInt8}

theorem readLoop_string {pos : ℕ} {r : List UInt8} (h : At text pos r) (room : ℕ) :
    match scanString room r with
    | .ok bs _ r' => (readLoop (fun ch => ch ≠ 34) room r pos).1 = bs ∧
        (readLoop (fun ch => ch ≠ 34) room r pos).2.1 ≠ 0 ∧
        At text (readLoop (fun ch => ch ≠ 34) room r pos).2.2 r'
    | .fail => (readLoop (fun ch => ch ≠ 34) room r pos).2.1 = 0
    | .deep => False := by
  induction r generalizing pos room with
  | nil =>
      cases room with
      | _ => rfl
  | cons b r ih =>
      have hat := h.input_cons.2
      cases room with
      | zero =>
          rw [scanString, readLoop]
          split_ifs with h0 hq
          · exact h0
          · exact ⟨rfl, h0, hat⟩
          · exact ⟨rfl, h0, hat⟩
      | succ room =>
          by_cases h0 : b = 0
          · simp only [scanString, readLoop, h0, if_true, ne_eq, not_true_eq_false,
              false_and, if_false]
          · by_cases hq : b = 34
            · have hstop : ¬ (b ≠ 0 ∧ decide (b ≠ 34) = true) := by simp [hq]
              simp only [scanString, readLoop, if_neg h0, if_pos hq, if_neg hstop]
              exact ⟨trivial, h0, hat⟩
            · have hgo : b ≠ 0 ∧ decide (b ≠ 34) = true := ⟨h0, by simp [hq]⟩
              have hrest := ih hat room
              simp only [scanString, readLoop, if_neg h0, if_neg hq, if_pos hgo]
              cases hs : scanString room r with
              | ok bs σ r' =>
                  rw [hs] at hrest
                  exact ⟨by rw [hrest.1], hrest.2⟩
              | fail =>
                  rw [hs] at hrest
                  exact hrest
              | deep =>
                  rw [hs] at hrest
                  exact hrest

theorem jsonParseString_follows {pos : ℕ} {r : List UInt8} (h : At text pos (34 :: r)) :
    Follows (At text) (jsonParseString text pos) (scanString 127 r) := by
  obtain ⟨hinput, hat⟩ := h.input_cons
  have hloop := readLoop_string hat 127
  rw [jsonParseString, hinput]
  dsimp only
  rw [if_neg (by decide), hat.2]
  cases hs : scanString 127 r with
  | ok bs σ r' =>
      rw [hs] at hloop
      rw [if_neg hloop.2.1, hloop.1]
      exact ⟨_, rfl, hloop.2.2⟩
  | fail =>
      rw [hs] at hloop
      rw [if_pos hloop]
      rfl
  | deep =>
      rw [hs] at hloop
      exact hloop.elim

theorem readLoop_digits {pos : ℕ} {r : List UInt8} (h : At text pos r) (room : ℕ) :
    (readLoop isDigit room r pos).1 = (r.takeWhile isDigit).take room ∧
      (readLoop isDigit room r pos).2.2 =
        (input text (pos + ((r.takeWhile isDigit).take room).length)).2 := by
  induction r generalizing pos room with
  | nil =>
      have hin := h.input_nil
      cases room with
      | _ => simp [readLoop, hin]
  | cons b r ih =>
      obtain ⟨hinput, hat⟩ := h.input_cons
      cases room with
      | zero => simp [readLoop, hinput]
      | succ room =>
          by_cases hb : isDigit b
          · have hgo : b ≠ 0 ∧ isDigit b := by
              refine ⟨?_, hb⟩
              rintro rfl
              revert hb
              decide
            obtain ⟨h₁, h₂⟩ := ih hat room
            rw [readLoop, if_pos hgo, List.takeWhile_cons_of_pos hb, List.take_succ_cons,
              List.length_cons]
            dsimp only
            rw [h₁, h₂, Nat.add_assoc, Nat.add_comm 1]
            exact ⟨rfl, rfl⟩
          · rw [readLoop, if_neg (fun h => hb h.2), List.takeWhile_cons_of_neg hb]
            simp [hinput]

/-- The loop of `json_parse_keyword`, at a byte just read. -/
theorem matchLoop_follows {word : List UInt8} (hword : ∀ x ∈ word, x ≠ 0) {pos : ℕ} {r : List UInt8}
    (h : At text pos r) :
    match scanWord word r with
    | .ok _ _ r' => ∃ pos', matchLoop text word (input text pos).1 (input text pos).2 =
        ([], (input text pos').2) ∧ At text pos' r'
    | .fail => (matchLoop text word (input text pos).1 (input text pos).2).1 ≠ []
    | .deep => False := by
  induction word generalizing pos r with
  | nil => exact ⟨pos, rfl, h⟩
  | cons x m ih =>
      have hm := fun y hy => hword y (List.mem_cons_of_mem x hy)
      cases r with
      | nil =>
          have hne : x ≠ (input text pos).1 := by
            rw [h.input_nil]
            exact hword x (List.mem_cons_self ..)
          rw [scanWord, matchLoop, if_neg hne]
          split_ifs with hnil
          · exact ⟨pos, by rw [hnil], h⟩
          · exact hnil
      | cons b r =>
          obtain ⟨hinput, hat⟩ := h.input_cons
          by_cases hx : x = b
          · rw [scanWord, if_pos hx, matchLoop, hinput, if_pos hx]
            exact ih hm hat
          · rw [scanWord, if_neg hx, matchLoop, hinput, if_neg hx]
            split_ifs with hnil
            · exact ⟨pos, by rw [hnil, hinput], h⟩
            · exact hnil

theorem mem_of_scanWord {word r : List UInt8} {σ : List Slip} (h : scanWord word r = .ok () σ []) :
    ∀ b ∈ r, b ∈ word := by
  induction word generalizing r with
  | nil =>
      cases h
      exact fun b hb => hb
  | cons x m ih =>
      cases r with
      | nil => exact fun b hb => nomatch hb
      | cons b r =>
          rw [scanWord] at h
          split_ifs at h with hx hm
          · intro c hc
            cases List.mem_cons.mp hc with
            | inl hcb => exact List.mem_cons.mpr (Or.inl (hcb.trans hx.symm))
            | inr hcr => exact List.mem_cons_of_mem x (ih h c hcr)
          · cases h

theorem itemLoop_follows {α : Type} (close : UInt8) {item : ℕ → Ret α} {sitem : List UInt8 → Scan α}
    (hitem : ∀ {pos r}, At text pos r → Follows (Seen text last) (item pos) (sitem r))
    (rounds : ℕ) :
    ∀ {pos r}, At text pos r →
      Follows (At text) (itemLoop text close item rounds pos)
        (scanItems last close sitem rounds r) := by
  induction rounds with
  | zero => exact fun _ => rfl
  | succ n ih =>
      intro pos r h
      refine (hitem h).andThen fun a pos r hseen => ?_
      obtain ⟨hinput, hat⟩ := hseen.input_cons
      dsimp only
      rw [hinput]
      refine Follows.after ?_ _
      split_ifs
      · exact ⟨_, rfl, hat⟩
      · exact (ih hat).map _
      · rfl

variable (hlast : text.getLast? = some last)

include hlast

theorem jsonParseProperty_follows {value : ℕ → Ret (Json ν)} {svalue : List UInt8 → Scan (Json ν)}
    (hvalue : ∀ {pos r}, At text pos r → Follows (Seen text last) (value pos) (svalue r)) {pos : ℕ}
    {r : List UInt8} (h : At text pos r) :
    Follows (Seen text last) (jsonParseProperty text value pos) (scanProperty last svalue r) := by
  have hseen := At.skip hlast h
  obtain ⟨hinput, -⟩ := hseen.input_cons
  rw [scanProperty, jsonParseProperty]
  refine Follows.after ?_ _
  split_ifs with hq
  · have hno : jsonParseString text (jsonSkipWhitespace text pos) =
        .no (jsonSkipWhitespace text pos) := by
      rw [jsonParseString, hinput]
      exact if_pos hq
    rw [hno]
    rfl
  · rw [Seen, not_not.mp hq] at hseen
    refine (jsonParseString_follows hseen).andThen fun key pos r hat => ?_
    obtain ⟨hcolon, hat'⟩ := (At.skip hlast hat).input_cons
    dsimp only
    rw [hcolon]
    refine Follows.after ?_ _
    split_ifs
    · rfl
    · exact (hvalue hat').andThen_ok _

theorem jsonParseNumber_follows {pos : ℕ} {b : UInt8} {r : List UInt8} (h : At text pos (b :: r))
    (hb : isDigit b) :
    Follows (fun pos r => Seen text last (jsonSkipWhitespace text pos) r)
      (jsonParseNumber strtod text pos)
      ((scanNumber (b :: r)).map strtod) := by
  obtain ⟨hds, hpos⟩ := readLoop_digits h 19
  have hne : ((b :: r).takeWhile isDigit).take 19 ≠ [] := by
    rw [List.takeWhile_cons_of_pos hb]
    exact List.cons_ne_nil _ _
  have hpre : ((b :: r).takeWhile isDigit).take 19 <+: b :: r :=
    (List.take_prefix _ _).trans (List.takeWhile_prefix _)
  rw [jsonParseNumber, h.2, hds, hpos, if_neg hne, scanNumber]
  refine ⟨_, rfl, At.skip_unput hlast (h.drop hpre.length_le) fun hnil => ?_⟩
  have hall : ((b :: r).takeWhile isDigit).take 19 = b :: r :=
    hpre.eq_of_length_le (List.drop_eq_nil_iff.mp hnil)
  have hmem := At.last_mem hlast h
  rw [← hall] at hmem
  exact not_isSpace_of_isDigit (List.mem_takeWhile_imp (List.mem_of_mem_take hmem))

theorem jsonParseKeyword_follows {pos : ℕ} {b : UInt8} {r : List UInt8} (h : At text pos (b :: r))
    {word : List UInt8} {v : Json ν} (hb : keywordOf b = some (word, v)) :
    Follows (fun pos r => Seen text last (jsonSkipWhitespace text pos) r)
      (jsonParseKeyword text pos)
      ((scanWord word (b :: r)).map fun _ => v) := by
  have hword : ∀ x ∈ word, x ≠ 0 ∧ ¬ isSpace x := by
    obtain ⟨-, rfl, -⟩ | ⟨-, rfl, -⟩ | ⟨-, rfl, -⟩ := keywordOf_eq_some hb
    · decide +kernel
    · decide +kernel
    · decide +kernel
  have hloop := matchLoop_follows (fun x hx => (hword x hx).1) h
  have hinput := h.input_cons.1
  rw [jsonParseKeyword, hinput]
  dsimp only
  rw [hb]
  rw [hinput] at hloop
  cases hs : scanWord word (b :: r) with
  | ok a σ r' =>
      rw [hs] at hloop
      obtain ⟨pos', heq, hat⟩ := hloop
      dsimp only
      rw [heq, if_pos rfl]
      refine ⟨_, rfl, At.skip_unput hlast hat ?_⟩
      rintro rfl
      exact (hword last (mem_of_scanWord hs last (At.last_mem hlast h))).2
  | fail =>
      rw [hs] at hloop
      dsimp only
      rw [if_neg hloop]
      rfl
  | deep =>
      rw [hs] at hloop
      exact hloop.elim

omit hlast in
/-- A parser that does not find its first byte leaves the cursor where it was. -/
theorem no_of_byte {pos : ℕ} {b : UInt8} {r : List UInt8} (h : At text pos (b :: r)) :
    (b ≠ 123 → ∀ value : ℕ → Ret (Json ν), jsonParseObject text value pos = .no pos) ∧
    (b ≠ 91 → ∀ value : ℕ → Ret (Json ν), jsonParseArray text value pos = .no pos) ∧
    (b ≠ 34 → jsonParseString text pos = .no pos) ∧
    (¬ isDigit b → jsonParseNumber strtod text pos = .no pos) ∧
    ((keywordOf b : Option (_ × Json ν)) = none → (jsonParseKeyword text pos : Ret (Json ν)) =
      .no pos) := by
  have hinput := h.input_cons.1
  refine ⟨fun hb value => ?_, fun hb value => ?_, fun hb => ?_, fun hb => ?_, fun hb => ?_⟩
  · rw [jsonParseObject, hinput]
    exact if_pos hb
  · rw [jsonParseArray, hinput]
    exact if_pos hb
  · rw [jsonParseString, hinput]
    exact if_pos hb
  · have hloop : readLoop isDigit 19 (b :: r) pos = ([], b, pos + 1) := by
      rw [readLoop, if_neg fun hd => hb hd.2]
    rw [jsonParseNumber, h.2, hloop]
    exact if_pos rfl
  · rw [jsonParseKeyword, hinput]
    dsimp only
    rw [hb]
    rfl

/-- **The parser follows the scanner.** -/
theorem jsonParseValue_follows (depth : ℕ) : ∀ {pos r}, At text pos r →
    Follows (Seen text last) (jsonParseValue strtod text depth pos)
      (scanValue strtod last (text.length + 1) depth r) := by
  induction depth with
  | zero => exact fun _ => rfl
  | succ depth ih =>
      intro pos r h
      have hseen := At.skip hlast h
      rw [jsonParseValue, scanValue]
      refine Follows.after ?_ _
      rw [Seen] at hseen
      generalize peek last r = p at hseen ⊢
      generalize jsonSkipWhitespace text pos = pos₀ at hseen ⊢
      obtain ⟨hinput, hat⟩ := hseen.input_cons
      obtain ⟨hobject, harray, hstring, hnumber, hkeyword⟩ :=
        @no_of_byte ν strtod text pos₀ p.byte p.rest hseen
      have hskip : ∀ pos r, At text pos r → Seen text last (jsonSkipWhitespace text pos) r :=
        fun pos r => At.skip hlast
      by_cases h123 : p.byte = 123
      · have hparse : jsonParseObject text (jsonParseValue strtod text depth) pos₀ =
            (itemLoop text 125 (jsonParseProperty text (jsonParseValue strtod text depth))
              (text.length + 1)
              (pos₀ + 1)).map .object := by
          rw [jsonParseObject, hinput]
          exact if_neg (not_not.mpr h123)
        have hfollows :=
          (itemLoop_follows 125 (jsonParseProperty_follows hlast ih) (text.length + 1) hat).map
          Json.object
        rw [if_pos h123, hparse, hfollows.orElse]
        exact hfollows.move hskip
      rw [if_neg h123, hobject h123]
      by_cases h91 : p.byte = 91
      · have hparse : jsonParseArray text (jsonParseValue strtod text depth) pos₀ =
            (itemLoop text 93 (jsonParseValue strtod text depth) (text.length + 1)
              (pos₀ + 1)).map .array := by
          rw [jsonParseArray, hinput]
          exact if_neg (not_not.mpr h91)
        have hfollows := (itemLoop_follows 93 ih (text.length + 1) hat).map Json.array
        rw [if_pos h91, Ret.orElse, hparse, hfollows.orElse]
        exact hfollows.move hskip
      rw [if_neg h91, Ret.orElse, harray h91]
      by_cases h34 : p.byte = 34
      · rw [h34] at hseen
        have hfollows := (jsonParseString_follows hseen).map (Json.string : List UInt8 → Json ν)
        rw [if_pos h34, Ret.orElse, hfollows.orElse]
        exact hfollows.move hskip
      rw [if_neg h34, Ret.orElse, hstring h34]
      by_cases hd : isDigit p.byte
      · have hfollows :=
          (@jsonParseNumber_follows ν strtod text last hlast _ _ _ hseen hd).map Json.number
        rw [if_pos hd, Ret.map, Ret.orElse, hfollows.orElse]
        exact hfollows.move fun _ _ hpos => hpos
      rw [if_neg hd, Ret.map, Ret.orElse, hnumber hd, Ret.map, Ret.orElse]
      cases hk : (keywordOf p.byte : Option (_ × Json ν)) with
      | none =>
          rw [hkeyword hk]
          rfl
      | some wv => exact (jsonParseKeyword_follows hlast hseen hk).move fun _ _ hpos => hpos

end Parsers

/-- **The parser and the scanner agree** on every text. -/
theorem jsonParse_eq {ν : Type} (strtod : List UInt8 → ν) (front : UInt8) (depth : ℕ)
    (s : List UInt8) :
    jsonParse strtod front depth s =
      match scanText strtod front depth s with
      | .ok v _ _ => some (some v)
      | .fail => some none
      | .deep => none := by
  have hlast : (front :: s).getLast? = some (s.getLastD front) := by
    rw [List.getLast?_cons, List.getLastD_eq_getLast?]
  have hfollows := @jsonParseValue_follows ν strtod (front :: s) (s.getLastD front) hlast depth 1 s
    ⟨by simp, rfl⟩
  rw [jsonParse, scanText]
  rw [List.length_cons] at hfollows
  cases hscan : scanValue strtod (s.getLastD front) (s.length + 2) depth s with
  | ok v σ r =>
      rw [hscan] at hfollows
      obtain ⟨pos, hpos, -⟩ := hfollows
      rw [hpos]
  | fail =>
      rw [hscan] at hfollows
      rw [hfollows]
  | deep =>
      rw [hscan] at hfollows
      rw [hfollows]

end Imola.PdMapper
