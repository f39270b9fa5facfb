import Imola.CStrings

/-! # JSON texts

The grammar of JSON texts without escapes, signs and fractions, as a relation between a tree and
the byte strings that print it.  What is a number and which strings are allowed are parameters:
`num ds x` says that the digits `ds` stand for `x`, and `str s` that the string `s` may occur.

The texts of trees, of lists of elements and of lists of members depend on each other; they are one
relation, over a `Phrase`. -/

namespace Imola.JsonText

open Imola.CStrings

/-- A tree. -/
inductive Json (ν : Type) where
  | true
  | false
  | null
  | number (x : ν)
  | string (s : List UInt8)
  | array (elements : List (Json ν))
  | object (members : List (List UInt8 × Json ν))

/-- What a text can print. -/
inductive Phrase (ν : Type) where
  /-- A tree, and nothing around it. -/
  | value (v : Json ν)
  /-- A tree and the white space around it. -/
  | element (v : Json ν)
  /-- A key, a colon and a tree, and the white space around them. -/
  | member (m : List UInt8 × Json ν)
  | elements (vs : List (Json ν))
  | members (ms : List (List UInt8 × Json ν))

/-- White space. -/
def Blank (w : List UInt8) : Prop := ∀ b ∈ w, isSpace b

/-- The string has no NUL and no quote. -/
def Quotable (s : List UInt8) : Prop := ∀ b ∈ s, b ≠ 0 ∧ b ≠ 34

/-- The string in quotes. -/
def quoted (s : List UInt8) : List UInt8 := 34 :: (s ++ [34])

/-- The digits of a number. -/
def Numeral (ds : List UInt8) : Prop := ds ≠ [] ∧ ∀ d ∈ ds, isDigit d

instance (w : List UInt8) : Decidable (Blank w) := List.decidableBAll _ w

instance (s : List UInt8) : Decidable (Quotable s) := List.decidableBAll _ s

instance (ds : List UInt8) : Decidable (Numeral ds) :=
  have : Decidable (∀ d ∈ ds, isDigit d) := List.decidableBAll _ ds
  inferInstanceAs (Decidable (_ ∧ _))

/-- The texts of a phrase. -/
inductive Prints {ν : Type} (num : List UInt8 → ν → Prop) (str : List UInt8 → Prop) :
    Phrase ν → List UInt8 → Prop
  | true : Prints num str (.value .true) (ascii "true")
  | false : Prints num str (.value .false) (ascii "false")
  | null : Prints num str (.value .null) (ascii "null")
  | number {ds : List UInt8} {x : ν} : Numeral ds → num ds x →
      Prints num str (.value (.number x)) ds
  | string {s : List UInt8} : Quotable s → str s → Prints num str (.value (.string s)) (quoted s)
  | array {vs : List (Json ν)} {txt : List UInt8} : Prints num str (.elements vs) txt →
      Prints num str (.value (.array vs)) (91 :: (txt ++ [93]))
  | object {ms : List (List UInt8 × Json ν)} {txt : List UInt8} : Prints num str (.members ms) txt →
      Prints num str (.value (.object ms)) (123 :: (txt ++ [125]))
  | element {v : Json ν} {w txt w' : List UInt8} : Blank w →
      Prints num str (.value v) txt → Blank w' →
      Prints num str (.element v) (w ++ (txt ++ w'))
  | member {k : List UInt8} {v : Json ν} {w w' txt : List UInt8} : Blank w → Quotable k →
      str k → Blank w' →
      Prints num str (.element v) txt →
      Prints num str (.member (k, v)) (w ++ (quoted k ++ (w' ++ 58 :: txt)))
  | oneElement {v : Json ν} {txt : List UInt8} : Prints num str (.element v) txt →
      Prints num str (.elements [v]) txt
  | moreElements {v : Json ν} {vs : List (Json ν)} {txt txt' : List UInt8} : Prints num str
      (.element v) txt →
      Prints num str (.elements vs) txt' → Prints num str (.elements (v :: vs)) (txt ++ 44 :: txt')
  | oneMember {m : List UInt8 × Json ν} {txt : List UInt8} : Prints num str (.member m) txt →
      Prints num str (.members [m]) txt
  | moreMembers {m : List UInt8 × Json ν} {ms : List (List UInt8 × Json ν)}
      {txt txt' : List UInt8} :
      Prints num str (.member m) txt → Prints num str (.members ms) txt' →
      Prints num str (.members (m :: ms)) (txt ++ 44 :: txt')

/-- All strings and keys satisfy `P`. -/
inductive Strings {ν : Type} (P : List UInt8 → Prop) : Phrase ν → Prop
  | true : Strings P (.value .true)
  | false : Strings P (.value .false)
  | null : Strings P (.value .null)
  | number (x : ν) : Strings P (.value (.number x))
  | string {s : List UInt8} : P s → Strings P (.value (.string s))
  | array {vs : List (Json ν)} : Strings P (.elements vs) → Strings P (.value (.array vs))
  | object {ms : List (List UInt8 × Json ν)} : Strings P (.members ms) →
      Strings P (.value (.object ms))
  | element {v : Json ν} : Strings P (.value v) → Strings P (.element v)
  | member {k : List UInt8} {v : Json ν} : P k → Strings P (.element v) → Strings P (.member (k, v))
  | elements {vs : List (Json ν)} : (∀ v ∈ vs, Strings P (.element v)) → Strings P (.elements vs)
  | members {ms : List (List UInt8 × Json ν)} : (∀ m ∈ ms, Strings P (.member m)) →
      Strings P (.members ms)

section Texts

variable {ν : Type} {num num' : List UInt8 → ν → Prop} {str str' : List UInt8 → Prop}
    {phrase : Phrase ν}
  {txt : List UInt8}

/-- A text stays one when more numbers are allowed, and the strings that it has. -/
theorem Prints.mono (hnum : ∀ ds x, num ds x → num' ds x) (h : Prints num str phrase txt)
    (hstr : Strings str' phrase) : Prints num' str' phrase txt := by
  induction h with
  | true => exact .true
  | false => exact .false
  | null => exact .null
  | number hds hx => exact .number hds (hnum _ _ hx)
  | string hs _ =>
      cases hstr with
      | string hstr => exact .string hs hstr
  | array _ ih =>
      cases hstr with
      | array hstr => exact .array (ih hstr)
  | object _ ih =>
      cases hstr with
      | object hstr => exact .object (ih hstr)
  | element hw _ hw' ih =>
      cases hstr with
      | element hstr => exact .element hw (ih hstr) hw'
  | member hw hk _ hw' _ ih =>
      cases hstr with
      | member hkey hstr => exact .member hw hk hkey hw' (ih hstr)
  | oneElement _ ih =>
      cases hstr with
      | elements hstr => exact .oneElement (ih (hstr _ (List.mem_cons_self ..)))
  | moreElements _ _ ih ih' =>
      cases hstr with
      | elements hstr =>
          exact .moreElements (ih (hstr _ (List.mem_cons_self ..)))
            (ih' (.elements fun v hv => hstr v (List.mem_cons_of_mem _ hv)))
  | oneMember _ ih =>
      cases hstr with
      | members hstr => exact .oneMember (ih (hstr _ (List.mem_cons_self ..)))
  | moreMembers _ _ ih ih' =>
      cases hstr with
      | members hstr =>
          exact .moreMembers (ih (hstr _ (List.mem_cons_self ..)))
            (ih' (.members fun m hm => hstr m (List.mem_cons_of_mem _ hm)))

theorem Prints.strings (hstr : ∀ s, str s → str' s) (h : Prints num str phrase txt) :
    Strings str' phrase := by
  induction h with
  | true => exact .true
  | false => exact .false
  | null => exact .null
  | number => exact .number _
  | string _ hs => exact .string (hstr _ hs)
  | array _ ih => exact .array ih
  | object _ ih => exact .object ih
  | element _ _ _ ih => exact .element ih
  | member _ _ hk _ _ ih => exact .member (hstr _ hk) ih
  | oneElement _ ih => exact .elements fun v hv => List.mem_singleton.mp hv ▸ ih
  | moreElements _ _ ih ih' =>
      cases ih' with
      | elements ih' =>
          refine .elements fun v hv => ?_
          cases List.mem_cons.mp hv with
          | inl hfirst => exact hfirst ▸ ih
          | inr hrest => exact ih' v hrest
  | oneMember _ ih => exact .members fun m hm => List.mem_singleton.mp hm ▸ ih
  | moreMembers _ _ ih ih' =>
      cases ih' with
      | members ih' =>
          refine .members fun m hm => ?_
          cases List.mem_cons.mp hm with
          | inl hfirst => exact hfirst ▸ ih
          | inr hrest => exact ih' m hrest

end Texts

end Imola.JsonText
