import Imola.JsonText

/-! # The JSON parser of `pd-mapper`

`json.c` parses a text by recursive descent.  The parsers share a cursor, `input_pos`: `input` reads
the byte at the cursor and moves it on, or gives 0 at the end of the text without moving it, and
`unput` moves it back in both cases.  So a parser that ends at the end of the text leaves the cursor
on the last byte, and on an empty text in front of the buffer.

Here `text` is the buffer with the byte in front of it, and a position counts from there, so that
`input_pos = -1` is the position 0.  A parser returns 1 with a tree, 0 without having read anything,
or -1 (`Ret`).  `jsonParseValue` calls itself for the elements of arrays and objects; its first
argument bounds the depth of these calls, and a run that would go deeper gives `deep`.

`strtod` is a parameter.  Memory is never exhausted in the model, and a byte is a non-negative
`char`, as on the target.  `input_len` is an `int`; here it is the length of the text, as it is for
texts below `2 ^ 31` bytes.  `PdMapperInput.lean` has the parsers with the `int`s of the source and
shows that they agree for such texts (`jsonParse_agrees`). -/

namespace Imola.PdMapper

open Imola.CStrings Imola.JsonText

/-- What a parser returns: 1, 0 or -1, with the cursor where it matters.  `deep` is no result: the
depth of the calls exceeds the bound. -/
inductive Ret (α : Type) where
  | ok (a : α) (pos : ℕ)
  | no (pos : ℕ)
  | error
  | deep

namespace Ret

variable {α β : Type}

/-- Go on with a result of 1; 0 and -1 end in -1. -/
def andThen (r : Ret α) (f : α → ℕ → Ret β) : Ret β :=
  match r with
  | ok a pos => f a pos
  | no _ => error
  | error => error
  | deep => deep

/-- Go on with a result of 0. -/
def orElse (r : Ret α) (f : ℕ → Ret α) : Ret α :=
  match r with
  | no pos => f pos
  | r => r

/-- The tree built from a result of 1. -/
def map (g : α → β) : Ret α → Ret β
  | ok a pos => ok (g a) pos
  | no pos => no pos
  | error => error
  | deep => deep

end Ret

/-! ### The cursor -/

section Cursor

variable (text : List UInt8)

/-- `input`. -/
def input (pos : ℕ) : UInt8 × ℕ :=
  match text.drop pos with
  | [] => (0, pos)
  | b :: _ => (b, pos + 1)

/-- `unput`. -/
def unput (pos : ℕ) : ℕ := pos - 1

/-- The loop of `json_skip_whitespace` over the bytes at the cursor; `pos` after it. -/
def skipLoop : List UInt8 → ℕ → ℕ
  | [], pos => pos
  | b :: rest, pos => if b ≠ 0 ∧ isSpace b then skipLoop rest (pos + 1) else pos + 1

/-- `json_skip_whitespace`. -/
def jsonSkipWhitespace (pos : ℕ) : ℕ := unput (skipLoop (text.drop pos) pos)

/-- `while ((ch = input()) && p(ch) && b - buf < room) *b++ = ch;` over the bytes at the cursor: the
bytes stored, `ch` and `pos` after it. -/
def readLoop (p : UInt8 → Bool) : ℕ → List UInt8 → ℕ → List UInt8 × UInt8 × ℕ
  | _, [], pos => ([], 0, pos)
  | 0, b :: _, pos => ([], b, pos + 1)
  | room + 1, b :: rest, pos =>
      if b ≠ 0 ∧ p b then
        let r := readLoop p room rest (pos + 1)
        (b :: r.1, r.2)
      else ([], b, pos + 1)

end Cursor

/-! ### The parsers -/

section Parsers

variable {ν : Type} (strtod : List UInt8 → ν) (text : List UInt8)

/-- `json_parse_string`.  The buffer has 128 bytes. -/
def jsonParseString (pos : ℕ) : Ret (List UInt8) :=
  let i := input text pos
  if i.1 ≠ 34 then .no (unput i.2)
  else
    let r := readLoop (fun ch => ch ≠ 34) 127 (text.drop i.2) i.2
    if r.2.1 = 0 then .error else .ok r.1 r.2.2

/-- `json_parse_number`.  The buffer has 20 bytes. -/
def jsonParseNumber (pos : ℕ) : Ret ν :=
  let r := readLoop isDigit 19 (text.drop pos) pos
  if r.1 = [] then .no (unput r.2.2) else .ok (strtod r.1) (unput r.2.2)

/-- `while (*m && *m++ == ch) ch = input();`: `m` and `pos` after it. -/
def matchLoop : List UInt8 → UInt8 → ℕ → List UInt8 × ℕ
  | [], _, pos => ([], pos)
  | x :: m, ch, pos =>
      if x = ch then
        let i := input text pos
        matchLoop m i.1 i.2
      else (m, pos)

/-- The words of `json_parse_keyword`, by their first byte. -/
def keywordOf (ch : UInt8) : Option (List UInt8 × Json ν) :=
  if ch = 116 then some (ascii "true", .true)
  else if ch = 102 then some (ascii "false", .false)
  else if ch = 110 then some (ascii "null", .null)
  else none

/-- `json_parse_keyword`. -/
def jsonParseKeyword (pos : ℕ) : Ret (Json ν) :=
  let i := input text pos
  match keywordOf i.1 with
  | none => .no (unput i.2)
  | some (word, v) =>
      let r := matchLoop text word i.1 i.2
      if r.1 = [] then .ok v (unput r.2) else .error

/-- The loop of `json_parse_array` and `json_parse_object`: items, each followed by a comma or, the
last one, by the closing bracket.  No loop makes more rounds than the text has bytes. -/
def itemLoop {α : Type} (close : UInt8) (item : ℕ → Ret α) : ℕ → ℕ → Ret (List α)
  | 0, _ => .deep
  | rounds + 1, pos => (item pos).andThen fun a pos =>
      let i := input text pos
      if i.1 = close then .ok [a] i.2
      else if i.1 = 44 then (itemLoop close item rounds i.2).map (a :: ·)
      else .error

/-- `json_parse_array`; `value` is `json_parse_value`. -/
def jsonParseArray (value : ℕ → Ret (Json ν)) (pos : ℕ) : Ret (Json ν) :=
  let i := input text pos
  if i.1 ≠ 91 then .no (unput i.2) else (itemLoop text 93 value (text.length + 1) i.2).map .array

/-- `json_parse_property`. -/
def jsonParseProperty (value : ℕ → Ret (Json ν)) (pos : ℕ) : Ret (List UInt8 × Json ν) :=
  (jsonParseString text (jsonSkipWhitespace text pos)).andThen fun key pos =>
    let i := input text (jsonSkipWhitespace text pos)
    if i.1 ≠ 58 then .error else (value i.2).andThen fun v pos => .ok (key, v) pos

/-- `json_parse_object`. -/
def jsonParseObject (value : ℕ → Ret (Json ν)) (pos : ℕ) : Ret (Json ν) :=
  let i := input text pos
  if i.1 ≠ 123 then .no (unput i.2)
  else (itemLoop text 125 (jsonParseProperty text value) (text.length + 1) i.2).map .object

/-- `json_parse_value`, with at most `depth` calls of it open at a time. -/
def jsonParseValue : ℕ → ℕ → Ret (Json ν)
  | 0, _ => .deep
  | depth + 1, pos =>
      let value := jsonParseValue depth
      let ret := (jsonParseObject text value (jsonSkipWhitespace text pos)).orElse fun pos =>
        (jsonParseArray text value pos).orElse fun pos =>
        ((jsonParseString text pos).map .string).orElse fun pos =>
        ((jsonParseNumber strtod text pos).map .number).orElse fun pos =>
        jsonParseKeyword text pos
      ret.andThen fun v pos => .ok v (jsonSkipWhitespace text pos)

end Parsers

/-- `json_parse` and `json_parse_file` on the `input_len` bytes `s` (`strlen` and the size of the
file); `front` is the byte in front of the buffer.  NULL is `some none`, and `none` is a run that
needs more than `depth` open calls. -/
def jsonParse {ν : Type} (strtod : List UInt8 → ν) (front : UInt8) (depth : ℕ) (s : List UInt8) :
    Option (Option (Json ν)) :=
  match jsonParseValue strtod (front :: s) depth 1 with
  | .ok v _ => some (some v)
  | .no _ => some none
  | .error => some none
  | .deep => none

end Imola.PdMapper
