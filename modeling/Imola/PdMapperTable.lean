import Imola.PdMapperText

/-! # The table of `pd-mapper`

`pd_load_map` reads a JSON file: the object `sr_domain` names a protection domain, and each element
of the array `sr_service` a service in it.  Every service gives a row of `pd_maps`, with `"/"`
between the parts of its name and of the name of the domain.  `main` loads one file after the other
and gives up if one of them fails.

The rows of a table are strings of the parser, so they have no NUL (`noNul_of_load`).  The
conversion of a `double` to `int` is a parameter, as `strtod` is. -/

namespace Imola.PdMapper

open Imola.CStrings Imola.JsonText

/-- `struct pd_map`. -/
structure PdMap where
  service : List UInt8
  domain : List UInt8
  /-- The field `instance`. -/
  inst : Int32
deriving DecidableEq, Repr

section Load

variable {ν : Type}

/-- `json_get_child`. -/
def jsonGetChild (object : Json ν) (key : String) : Option (Json ν) :=
  match object with
  | .object members => (members.find? fun m => m.1 = ascii key).map Prod.snd
  | _ => none

/-- `json_get_string`; the object may be NULL. -/
def jsonGetString (object : Option (Json ν)) (key : String) : Option (List UInt8) :=
  match object.bind fun v => jsonGetChild v key with
  | some (.string s) => some s
  | _ => none

/-- `json_get_number`. -/
def jsonGetNumber (object : Option (Json ν)) (key : String) : Option ν :=
  match object.bind fun v => jsonGetChild v key with
  | some (.number x) => some x
  | _ => none

/-- The loop of `pd_load_map` over the services. -/
def pdLoadServices (domain : List UInt8) (inst : Int32) : List (Json ν) → Option (List PdMap)
  | [] => some []
  | it :: its => do
      let provider ← jsonGetString (some it) "provider"
      let service ← jsonGetString (some it) "service"
      let rows ← pdLoadServices domain inst its
      pure (⟨provider ++ 47 :: service, domain, inst⟩ :: rows)

/-- `pd_load_map` of a file that was parsed: the rows that are added to `pd_maps`, or `none` for an
error. -/
def pdLoadMap (toInt : ν → Int32) (root : Json ν) : Option (List PdMap) := do
  let srDomain := jsonGetChild root "sr_domain"
  let number ← jsonGetNumber srDomain "qmi_instance_id"
  let soc ← jsonGetString srDomain "soc"
  let domain ← jsonGetString srDomain "domain"
  let subdomain ← jsonGetString srDomain "subdomain"
  match jsonGetChild root "sr_service" with
  | some (.array services) =>
      pdLoadServices (soc ++ 47 :: (domain ++ 47 :: subdomain)) (toInt number) services
  | _ => none

/-- The loop of `pd_load_maps` over the files, each with the byte in front of its buffer. -/
def pdLoadFiles (strtod : List UInt8 → ν) (toInt : ν → Int32) (depth : ℕ) :
    List (UInt8 × List UInt8) → Option (List PdMap)
  | [] => some []
  | file :: files => do
      let root ← (jsonParse strtod file.1 depth file.2).join
      let rows ← pdLoadMap toInt root
      let rest ← pdLoadFiles strtod toInt depth files
      pure (rows ++ rest)

/-- `pd_maps` behind the checks of `main`; there is no table if there is no file. -/
def pdLoadMaps (strtod : List UInt8 → ν) (toInt : ν → Int32) (depth : ℕ)
    (files : List (UInt8 × List UInt8)) :
    Option (List PdMap) :=
  if files = [] then none else pdLoadFiles strtod toInt depth files

/-! ### No NUL in the table -/

/-- A C string. -/
def NoNul (s : List UInt8) : Prop := ∀ b ∈ s, b ≠ 0

theorem NoNul.join {s t : List UInt8} (hs : NoNul s) (ht : NoNul t) : NoNul (s ++ 47 :: t) := by
  intro b hb
  rcases List.mem_append.mp hb with hb | hb
  · exact hs b hb
  · rcases List.mem_cons.mp hb with rfl | hb
    · decide
    · exact ht b hb

theorem strings_child {P : List UInt8 → Prop} {v w : Json ν} {key : String}
    (hv : Strings P (.element v))
    (h : jsonGetChild v key = some w) : Strings P (.element w) := by
  cases v with
  | object members =>
      obtain ⟨m, hm, rfl⟩ := Option.map_eq_some_iff.mp h
      cases hv with
      | element hv =>
          cases hv with
          | object hmembers =>
              cases hmembers with
              | members hall =>
                  cases hall m (List.mem_of_find?_eq_some hm) with
                  | member _ hw => exact hw
  | _ => cases h

theorem strings_string {P : List UInt8 → Prop} {object : Option (Json ν)} {key : String}
    {s : List UInt8}
    (hobject : ∀ v ∈ object, Strings P (.element v)) (h : jsonGetString object key = some s) :
    P s := by
  unfold jsonGetString at h
  split at h
  · rename_i s' hchild
    cases h
    obtain ⟨v, hv, hchild⟩ := Option.bind_eq_some_iff.mp hchild
    cases strings_child (hobject v hv) hchild with
    | element hs =>
        cases hs with
        | string hs => exact hs
  · cases h

/-- The texts of a row satisfy `P`: the two parts of the service, and the three of the domain. -/
structure PdMap.Parts (P : List UInt8 → Prop) (row : PdMap) : Prop where
  service : ∃ provider service, P provider ∧ P service ∧ row.service = provider ++ 47 :: service
  domain : ∃ soc domain subdomain, P soc ∧ P domain ∧ P subdomain ∧
    row.domain = soc ++ 47 :: (domain ++ 47 :: subdomain)

theorem parts_services {P : List UInt8 → Prop} {name : List UInt8} {inst : Int32}
    (hname : ∃ soc domain subdomain, P soc ∧ P domain ∧ P subdomain ∧
      name = soc ++ 47 :: (domain ++ 47 :: subdomain))
    (its : List (Json ν)) : (∀ it ∈ its, Strings P (.element it)) →
    ∀ rows, pdLoadServices name inst its = some rows →
      ∀ row ∈ rows, row.Parts P := by
  induction its with
  | nil =>
      intro _ rows h
      cases h
      exact fun row hrow => by cases hrow
  | cons it its ih =>
      intro hits rows h
      obtain ⟨provider, hprovider, h⟩ := Option.bind_eq_some_iff.mp h
      obtain ⟨service, hservice, h⟩ := Option.bind_eq_some_iff.mp h
      obtain ⟨rest, hrest, h⟩ := Option.bind_eq_some_iff.mp h
      cases h
      have hit : ∀ v ∈ some it, Strings P (.element v) := by
        rintro v ⟨⟩
        exact hits it List.mem_cons_self
      intro row hrow
      rcases List.mem_cons.mp hrow with rfl | hrow
      · exact ⟨⟨provider, service, strings_string hit hprovider, strings_string hit hservice, rfl⟩,
          hname⟩
      · exact ih (fun it hit => hits it (List.mem_cons_of_mem _ hit)) rest hrest row hrow

theorem parts_map {P : List UInt8 → Prop} {toInt : ν → Int32} {root : Json ν}
    (hroot : Strings P (.element root))
    {rows : List PdMap} (h : pdLoadMap toInt root = some rows) : ∀ row ∈ rows, row.Parts P := by
  have hdomain : ∀ v ∈ jsonGetChild root "sr_domain", Strings P (.element v) :=
    fun v hv => strings_child hroot hv
  obtain ⟨number, -, h⟩ := Option.bind_eq_some_iff.mp h
  obtain ⟨soc, hsoc, h⟩ := Option.bind_eq_some_iff.mp h
  obtain ⟨domain, hname, h⟩ := Option.bind_eq_some_iff.mp h
  obtain ⟨subdomain, hsub, h⟩ := Option.bind_eq_some_iff.mp h
  split at h
  · rename_i services hservices
    cases strings_child hroot hservices with
    | element hv =>
        cases hv with
        | array helements =>
            cases helements with
            | elements hall =>
                exact parts_services ⟨soc, domain, subdomain, strings_string hdomain hsoc,
                  strings_string hdomain hname,
                  strings_string hdomain hsub, rfl⟩ services hall rows h
  · cases h

/-- **The rows of a table are put together from strings of the parser.** -/
theorem parts_of_load {P : List UInt8 → Prop} (hP : ∀ s, Quotable s → str127 s → P s)
    {strtod : List UInt8 → ν}
    {toInt : ν → Int32} {depth : ℕ} {files : List (UInt8 × List UInt8)} {table : List PdMap}
    (h : pdLoadMaps strtod toInt depth files = some table) : ∀ row ∈ table, row.Parts P := by
  have hfiles : ∀ files table, pdLoadFiles strtod toInt depth files = some table →
      ∀ row ∈ table, row.Parts P := by
    intro files
    induction files with
    | nil =>
        intro table h
        cases h
        exact fun row hrow => by cases hrow
    | cons file files ih =>
        intro table h
        obtain ⟨root, hroot, h⟩ := Option.bind_eq_some_iff.mp h
        obtain ⟨rows, hrows, h⟩ := Option.bind_eq_some_iff.mp h
        obtain ⟨rest, hrest, h⟩ := Option.bind_eq_some_iff.mp h
        cases h
        have hparse : jsonParse strtod file.1 depth file.2 = some (some root) := by
          cases hp : jsonParse strtod file.1 depth file.2 with
          | none =>
              rw [hp] at hroot
              cases hroot
          | some v =>
              rw [hp] at hroot
              exact congrArg some hroot
        obtain ⟨σ, r, hscan⟩ := scanText_of_jsonParse hparse
        have hstrings : Strings P (.element root) :=
          strings_of_scanValue hP depth file.2 root σ r hscan
        intro row hrow
        rcases List.mem_append.mp hrow with hrow | hrow
        · exact parts_map hstrings hrows row hrow
        · exact ih rest hrest row hrow
  unfold pdLoadMaps at h
  split_ifs at h
  exact hfiles files table h

/-- **The rows of a table are C strings.** -/
theorem noNul_of_load {strtod : List UInt8 → ν} {toInt : ν → Int32} {depth : ℕ}
    {files : List (UInt8 × List UInt8)}
    {table : List PdMap} (h : pdLoadMaps strtod toInt depth files = some table) :
    ∀ row ∈ table, NoNul row.service ∧ NoNul row.domain := by
  intro row hrow
  have hparts : row.Parts NoNul := parts_of_load (fun s hs _ b hb => (hs b hb).1) h row hrow
  obtain ⟨⟨provider, service, hprovider, hservice, hs⟩,
      ⟨soc, domain, subdomain, hsoc, hdomain, hsub, hd⟩⟩ := hparts
  rw [hs, hd]
  exact ⟨hprovider.join hservice, hsoc.join (hdomain.join hsub)⟩

/-- The strings have at most 127 bytes. -/
theorem length_of_load {strtod : List UInt8 → ν} {toInt : ν → Int32} {depth : ℕ}
    {files : List (UInt8 × List UInt8)}
    {table : List PdMap} (h : pdLoadMaps strtod toInt depth files = some table) :
    ∀ row ∈ table, row.service.length ≤ 255 ∧ row.domain.length ≤ 383 := by
  intro row hrow
  have hparts : row.Parts str127 := parts_of_load (fun s _ hs => hs) h row hrow
  obtain ⟨⟨provider, service, hprovider, hservice, hs⟩,
      ⟨soc, domain, subdomain, hsoc, hdomain, hsub, hd⟩⟩ := hparts
  rw [hs, hd]
  unfold str127 at *
  simp only [List.length_append, List.length_cons]
  omega

end Load

end Imola.PdMapper
