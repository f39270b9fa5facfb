import Imola.LexicalPaths
import Imola.TqftpServer

/-! # The files of `tqftpserv`

`translate.c` opens the file of a request.  A name under `/readonly/firmware/image/` is looked for
next to the firmware of each remoteproc, one under `/readwrite/` in a temporary directory; what is
behind the prefix is used as it is.

The model keeps the descriptors that are open, with the kernel giving the lowest one that is free,
and lists the calls of `open` and `openat`.  The results of the calls are inputs.

Whether a file is in the directory it is meant for can be read from its name: it has to go down
again the directories that it goes up, and an absolute name under `/readwrite/` has to lead there by
itself (`confined_iff`). -/

namespace Imola.Tqftp

open Imola.CStrings Imola.Paths

/-! ### Descriptors -/

/-- The descriptors of the process: those it was started with, and those it has opened and not
closed. -/
structure Fds where
  inherited : Finset ℕ
  opened : Finset ℕ

namespace Fds

/-- The lowest free descriptor. -/
def lowest (t : Fds) : ℕ :=
  ((List.range ((t.inherited ∪ t.opened).card + 1)).find? fun d =>
    d ∉ t.inherited ∪ t.opened).getD 0

/-- A call that gives a descriptor, if it succeeds. -/
def get (t : Fds) (ok : Bool) : Option ℕ × Fds :=
  if ok then (some t.lowest, { t with opened := insert t.lowest t.opened }) else (none, t)

/-- `close`. -/
def close (t : Fds) (d : ℕ) : Fds := { t with opened := t.opened.erase d }

end Fds

/-- A call that gave the descriptor `d`. -/
structure Fds.Gets (t : Fds) (d : ℕ) (t' : Fds) : Prop where
  fresh : d ∉ t.inherited ∪ t.opened
  eq : t' = { t with opened := insert d t.opened }

section Descriptors

variable {t t' t'' : Fds} {d e : ℕ}

/-- There is a free descriptor among as many as are open and one more. -/
theorem Fds.lowest_notMem (t : Fds) : t.lowest ∉ t.inherited ∪ t.opened := by
  unfold Fds.lowest
  generalize t.inherited ∪ t.opened = s
  cases hfind : (List.range (s.card + 1)).find? fun d => d ∉ s with
  | some d => simpa using List.find?_some hfind
  | none =>
      have hall : ∀ d < s.card + 1, d ∈ s := by simpa using hfind
      have hsub : Finset.range (s.card + 1) ⊆ s := fun d hd => hall d (Finset.mem_range.mp hd)
      have hcard := Finset.card_le_card hsub
      rw [Finset.card_range] at hcard
      omega

theorem Fds.get_spec (t : Fds) (ok : Bool) :
    (ok = false ∧ t.get ok = (none, t)) ∨
    (ok = true ∧ ∃ d t', t.get ok = (some d, t') ∧ t.Gets d t') := by
  cases ok with
  | false => exact Or.inl ⟨rfl, rfl⟩
  | true => exact Or.inr ⟨rfl, _, _, rfl, t.lowest_notMem, rfl⟩

theorem Fds.Gets.close (h : t.Gets d t') : t'.close d = t := by
  have hnot : d ∉ t.opened := fun hd => h.fresh (Finset.mem_union_right _ hd)
  rw [h.eq, Fds.close, Finset.erase_insert hnot]

theorem Fds.Gets.close_first (h : t.Gets d t') (h' : t'.Gets e t'') : t.Gets e (t''.close d) := by
  have hnot : d ∉ t.opened := fun hd => h.fresh (Finset.mem_union_right _ hd)
  have hfresh := h'.fresh
  rw [h.eq] at hfresh
  simp only [Finset.mem_union, Finset.mem_insert, not_or] at hfresh
  refine ⟨by simp [hfresh.1, hfresh.2.2], ?_⟩
  rw [h'.eq, h.eq, Fds.close]
  simp only [Finset.insert_comm e d, Fds.mk.injEq, true_and]
  rw [Finset.erase_insert]
  simp [hnot, Ne.symm hfresh.2.1]

end Descriptors

/-! ### Translation -/

/-- The two sets of paths. -/
inductive Build where
  | android
  | linux
deriving DecidableEq, Repr

/-- `FIRMWARE_BASE`. -/
def firmwareBase : Build → List UInt8
  | .android => ascii "/vendor/firmware/"
  | .linux => ascii "/lib/firmware/"

/-- `TQFTPSERV_TMP`. -/
def tqftpservTmp : Build → List UInt8
  | .android => ascii "/data/vendor/tmp/tqftpserv"
  | .linux => ascii "/tmp/tqftpserv"

/-- `PATH_MAX`. -/
abbrev pathMax : ℕ := 4096

/-- Without the slashes at the end. -/
def stripSlashes (s : List UInt8) : List UInt8 := s.rdropWhile (· = 47)

/-- `dirname`. -/
def dirname (s : List UInt8) : List UInt8 :=
  let s := stripSlashes s ++ (if stripSlashes s = [] then s.take 1 else [])
  let dir := s.rdropWhile (· ≠ 47)
  if dir = [] then [46] else if stripSlashes dir = [] then [47] else stripSlashes dir

/-- A call of `open` or `openat`. -/
inductive OpenCall where
  /-- The directory of the remoteprocs. -/
  | remoteprocs
  /-- The `firmware` attribute of a remoteproc. -/
  | firmware (name : List UInt8)
  /-- A file next to the firmware of a remoteproc. -/
  | readonly (value file path : List UInt8)
  /-- The temporary directory. -/
  | tmp
  /-- A file, from the temporary directory. -/
  | readwrite (file : List UInt8)
deriving DecidableEq, Repr

/-- An entry of `/sys/class/remoteproc`, and what the calls for it give: whether the attribute can
be opened, what is read from it, and whether the file can be opened. -/
structure Remoteproc where
  name : List UInt8
  attr : Bool
  value : Option (List UInt8)
  file : Bool
deriving DecidableEq, Repr

/-- The results of the calls of `translate_open`. -/
structure TranslateIo where
  classDir : Bool
  opendir : Bool
  remoteprocs : List Remoteproc
  mkdir : Bool
  base : Bool
  file : Bool
deriving DecidableEq, Repr

/-- How `translate_open` ends: its descriptor if it does not fail, the descriptors that are open,
and the calls it made. -/
structure Translated where
  fd : Except Fault (Option ℕ)
  fds : Fds
  calls : List OpenCall

/-- The part of a round in which the file is opened, once the firmware value has been read. -/
def openReadonly (b : Build) (file bytes : List UInt8) (ok : Bool) (t : Fds) : Translated :=
  -- a NUL is stored behind what was read
  if pathMax ≤ bytes.length then ⟨.error .overflow, t, []⟩
  else
    let value := bytes.takeWhile (· ≠ 0)
    if (firmwareBase b).length + value.length + 1 + file.length + 1 > pathMax then ⟨.ok none, t, []⟩
    else
      let path := firmwareBase b ++ dirname value ++ 47 :: file
      -- the `.` for an empty value is not counted above
      if path.length + 1 > pathMax then ⟨.error .overflow, t, []⟩
      else
        let r := t.get ok
        ⟨.ok r.1, r.2, [.readonly value file path]⟩

/-- A round of the loop of `translate_readonly`; without a descriptor it goes on. -/
def tryRemoteproc (b : Build) (file : List UInt8) (e : Remoteproc) (t : Fds) : Translated :=
  if e.name = ascii "." ∨ e.name = ascii ".." then ⟨.ok none, t, []⟩
  else if e.name.length + 10 > 32 then ⟨.ok none, t, []⟩
  else
    match t.get e.attr with
    | (none, t) => ⟨.ok none, t, [.firmware e.name]⟩
    | (some firmwareFd, t) =>
        let t := t.close firmwareFd
        match e.value with
        | none => ⟨.ok none, t, [.firmware e.name]⟩
        | some bytes =>
            let r := openReadonly b file bytes e.file t
            { r with calls := .firmware e.name :: r.calls }

/-- The loop of `translate_readonly`. -/
def readonlyLoop (b : Build) (file : List UInt8) : List Remoteproc → Fds → Translated
  | [], t => ⟨.ok none, t, []⟩
  | e :: es, t =>
      let r := tryRemoteproc b file e t
      match r.fd with
      | .ok none =>
          let rest := readonlyLoop b file es r.fds
          { rest with calls := r.calls ++ rest.calls }
      | _ => r

/-- `translate_readonly`.  `closedir` closes the descriptor as well, and the second `close` finds
nothing. -/
def translateReadonly (b : Build) (io : TranslateIo) (t : Fds) (file : List UInt8) : Translated :=
  match t.get io.classDir with
  | (none, t) => ⟨.ok none, t, [.remoteprocs]⟩
  | (some classFd, t) =>
      if io.opendir then
        let r := readonlyLoop b file io.remoteprocs t
        ⟨r.fd, (r.fds.close classFd).close classFd, .remoteprocs :: r.calls⟩
      else ⟨.ok none, t.close classFd, [.remoteprocs]⟩

/-- `translate_readwrite`; `mkdir` succeeds also when the directory exists. -/
def translateReadwrite (io : TranslateIo) (t : Fds) (file : List UInt8) : Translated :=
  if io.mkdir then
    match t.get io.base with
    | (none, t) => ⟨.ok none, t, [.tmp]⟩
    | (some base, t) =>
        let r := t.get io.file
        ⟨.ok r.1, r.2.close base, [.tmp, .readwrite file]⟩
  else ⟨.ok none, t, []⟩

/-- `READONLY_PATH`. -/
def readonlyPath : List UInt8 := ascii "/readonly/firmware/image/"

/-- `READWRITE_PATH`. -/
def readwritePath : List UInt8 := ascii "/readwrite/"

/-- `translate_open`. -/
def translateOpen (b : Build) (io : TranslateIo) (t : Fds) (path : List UInt8) : Translated :=
  if readonlyPath.isPrefixOf path then translateReadonly b io t (path.drop readonlyPath.length)
  else if readwritePath.isPrefixOf path then
    translateReadwrite io t (path.drop readwritePath.length)
  else ⟨.ok none, t, []⟩

/-! ### What stays open -/

/-- Nothing stays open but the descriptor that is given back. -/
structure Translated.Keeps (t : Fds) (r : Translated) : Prop where
  nothing : r.fd = .ok none → r.fds = t
  one : ∀ d, r.fd = .ok (some d) → t.Gets d r.fds

theorem keeps_nothing (t : Fds) (calls : List OpenCall) : Translated.Keeps t ⟨.ok none, t, calls⟩ :=
  ⟨fun _ => rfl, fun d h => by cases h⟩

theorem keeps_get (t : Fds) (ok : Bool) (calls : List OpenCall) :
    Translated.Keeps t ⟨.ok (t.get ok).1, (t.get ok).2, calls⟩ := by
  rcases t.get_spec ok with ⟨-, hget⟩ | ⟨-, d, t', hget, hgets⟩
  · rw [hget]
    exact keeps_nothing t calls
  · rw [hget]
    refine ⟨fun h => (by cases h), fun d' h => ?_⟩
    cases h
    exact hgets

theorem openReadonly_keeps (b : Build) (file bytes : List UInt8) (ok : Bool) (t : Fds) :
    Translated.Keeps t (openReadonly b file bytes ok t) := by
  unfold openReadonly
  dsimp only
  split_ifs
  · exact ⟨fun h => (by cases h), fun d h => (by cases h)⟩
  · exact keeps_nothing t _
  · exact ⟨fun h => (by cases h), fun d h => (by cases h)⟩
  · exact keeps_get t ok _

theorem tryRemoteproc_keeps (b : Build) (file : List UInt8) (e : Remoteproc) (t : Fds) :
    Translated.Keeps t (tryRemoteproc b file e t) := by
  unfold tryRemoteproc
  split_ifs
  · exact keeps_nothing t _
  · exact keeps_nothing t _
  rcases t.get_spec e.attr with ⟨-, hget⟩ | ⟨-, firmwareFd, t', hget, hgets⟩
  · rw [hget]
    exact keeps_nothing t _
  · rw [hget]
    simp only [hgets.close]
    cases e.value with
    | none => exact keeps_nothing t _
    | some bytes =>
        have hopen := openReadonly_keeps b file bytes e.file t
        exact ⟨hopen.nothing, hopen.one⟩

theorem readonlyLoop_keeps (b : Build) (file : List UInt8) (es : List Remoteproc) :
    ∀ t, Translated.Keeps t (readonlyLoop b file es t) := by
  induction es with
  | nil => exact fun t => keeps_nothing t _
  | cons e es ih =>
      intro t
      have hround := tryRemoteproc_keeps b file e t
      rw [readonlyLoop]
      generalize tryRemoteproc b file e t = r at hround ⊢
      obtain ⟨fd, t', calls⟩ := r
      rcases fd with f | _ | d
      · exact hround
      · obtain rfl : t' = t := hround.nothing rfl
        have hrest := ih t'
        exact ⟨hrest.nothing, hrest.one⟩
      · exact hround

/-- **`translate_open`** leaves only the descriptor of the file open. -/
theorem translateOpen_keeps (b : Build) (io : TranslateIo) (t : Fds) (path : List UInt8) :
    Translated.Keeps t (translateOpen b io t path) := by
  unfold translateOpen
  split_ifs
  · unfold translateReadonly
    rcases t.get_spec io.classDir with ⟨-, hget⟩ | ⟨-, classFd, t', hget, hgets⟩
    · rw [hget]
      exact keeps_nothing t _
    · rw [hget]
      dsimp only
      split_ifs
      · have hloop := readonlyLoop_keeps b (path.drop readonlyPath.length) io.remoteprocs t'
        have hagain : ∀ t'' : Fds, (t''.close classFd).close classFd = t''.close classFd := by
          intro t''
          simp [Fds.close]
        simp only [hagain]
        refine ⟨fun h => ?_, fun d h => hgets.close_first (hloop.one d h)⟩
        rw [hloop.nothing h, hgets.close]
      · rw [hgets.close]
        exact keeps_nothing t _
  · unfold translateReadwrite
    split_ifs
    · rcases t.get_spec io.base with ⟨-, hget⟩ | ⟨-, base, t', hget, hgets⟩
      · rw [hget]
        exact keeps_nothing t _
      · rw [hget]
        have hfile := keeps_get t' io.file [.tmp]
        refine ⟨fun h => ?_, fun d h => hgets.close_first (hfile.one d h)⟩
        have hsame : (t'.get io.file).2 = t' := hfile.nothing h
        dsimp only
        rw [hsame, hgets.close]
    · exact keeps_nothing t _
  · exact keeps_nothing t _

/-! ### Whether a file is opened -/

/-- Whether `translate_open` gives a descriptor; that does not depend on those that are open. -/
def opensFile (b : Build) (io : TranslateIo) (path : List UInt8) : Bool :=
  match (translateOpen b io ⟨∅, ∅⟩ path).fd with
  | .ok (some _) => true
  | _ => false

/-- The kind of a result. -/
def Translated.kind (r : Translated) : Except Fault Bool := r.fd.map Option.isSome

theorem get_isSome (t : Fds) (ok : Bool) : (t.get ok).1.isSome = ok := by
  cases ok with
  | true => rfl
  | false => rfl

theorem tryRemoteproc_kind (b : Build) (file : List UInt8) (e : Remoteproc) (t t' : Fds) :
    (tryRemoteproc b file e t).kind = (tryRemoteproc b file e t').kind := by
  have hopen : ∀ bytes t t', (openReadonly b file bytes e.file t).kind =
      (openReadonly b file bytes e.file t').kind := by
    intro bytes t t'
    unfold openReadonly
    dsimp only
    split_ifs
    · rfl
    · rfl
    · rfl
    · simp only [Translated.kind, Except.map, get_isSome]
  unfold tryRemoteproc
  split_ifs
  · rfl
  · rfl
  cases e.attr with
  | false => rfl
  | true =>
      simp only [Fds.get, if_true]
      cases e.value with
      | none => rfl
      | some bytes => exact hopen bytes _ _

theorem readonlyLoop_kind (b : Build) (file : List UInt8) (es : List Remoteproc) :
    ∀ t t', (readonlyLoop b file es t).kind = (readonlyLoop b file es t').kind := by
  induction es with
  | nil => exact fun _ _ => rfl
  | cons e es ih =>
      intro t t'
      have hkind := tryRemoteproc_kind b file e t t'
      rw [readonlyLoop, readonlyLoop]
      generalize tryRemoteproc b file e t = r at hkind ⊢
      generalize tryRemoteproc b file e t' = r' at hkind ⊢
      obtain ⟨fd, u, calls⟩ := r
      obtain ⟨fd', u', calls'⟩ := r'
      rcases fd with f | _ | d
      · rcases fd' with f' | _ | d'
        · exact hkind
        · cases hkind
        · cases hkind
      · rcases fd' with f' | _ | d'
        · cases hkind
        · exact ih u u'
        · cases hkind
      · rcases fd' with f' | _ | d'
        · cases hkind
        · cases hkind
        · exact hkind

theorem translateOpen_kind (b : Build) (io : TranslateIo) (path : List UInt8) (t t' : Fds) :
    (translateOpen b io t path).kind = (translateOpen b io t' path).kind := by
  unfold translateOpen
  split_ifs
  · unfold translateReadonly
    cases io.classDir with
    | false => rfl
    | true =>
        simp only [Fds.get, if_true]
        split_ifs
        · exact readonlyLoop_kind b _ io.remoteprocs _ _
        · rfl
  · unfold translateReadwrite
    split_ifs
    · cases io.base with
      | false => rfl
      | true =>
          have hkind : ∀ u u' : Fds, (.ok (u.get io.file).1.isSome : Except Fault Bool) =
              .ok (u'.get io.file).1.isSome := by
            intro u u'
            rw [get_isSome, get_isSome]
          exact hkind _ _
    · rfl
  · rfl

theorem opensFile_eq {b : Build} {io : TranslateIo} {path : List UInt8} {t : Fds} {fd : Option ℕ}
    (h : (translateOpen b io t path).fd = .ok fd) : opensFile b io path = fd.isSome := by
  have hkind := translateOpen_kind b io path t ⟨∅, ∅⟩
  rw [Translated.kind, h, Translated.kind] at hkind
  unfold opensFile
  generalize (translateOpen b io ⟨∅, ∅⟩ path).fd = fd' at hkind ⊢
  cases fd' with
  | error f => cases hkind
  | ok fd' =>
      have hsome : fd.isSome = fd'.isSome := Except.ok.inj hkind
      rw [hsome]
      cases fd' with
      | none => rfl
      | some d => rfl

/-! ### Confinement -/

/-- The temporary directory. -/
def tmpDir (b : Build) : List Name := resolve [] (tqftpservTmp b)

/-- The directory of a firmware value. -/
def firmwareDir (b : Build) (value : List UInt8) : List Name :=
  resolve [] (firmwareBase b ++ dirname value)

/-- The file of a call is in the directory it is meant for. -/
def OpenCall.Confined (b : Build) : OpenCall → Prop
  | .readonly value _ path => firmwareDir b value <+: resolve [] path
  | .readwrite file => tmpDir b <+: resolve (tmpDir b) file
  | _ => True

/-- What an entry gives for a file: no value, a value that does not fit its array or makes a path
that does not, or the firmware value next to which the file is looked for. -/
def Remoteproc.firmware (b : Build) (file : List UInt8) (e : Remoteproc) :
    Except Fault (Option (List UInt8)) :=
  if e.name = ascii "." ∨ e.name = ascii ".." ∨ e.name.length + 10 > 32 ∨ e.attr = false then
    .ok none
  else
    match e.value with
    | none => .ok none
    | some bytes =>
        if pathMax ≤ bytes.length then .error .overflow
        else
          let value := bytes.takeWhile (· ≠ 0)
          if (firmwareBase b).length + value.length + 1 + file.length + 1 > pathMax then .ok none
          else if (firmwareBase b ++ dirname value ++ 47 :: file).length + 1 > pathMax then
            .error .overflow
          else .ok (some value)

/-- The loop ends with the entry: the file is found, or an array is too small. -/
def Remoteproc.Ends (b : Build) (file : List UInt8) (e : Remoteproc) : Prop :=
  match e.firmware b file with
  | .error _ => True
  | .ok none => False
  | .ok (some _) => e.file = true

/-- The firmware values next to which a file is looked for: those of the entries up to the one
with which the search ends. -/
def TranslateIo.Tries (io : TranslateIo) (b : Build) (file value : List UInt8) : Prop :=
  io.classDir = true ∧ io.opendir = true ∧ ∃ before e after,
    io.remoteprocs = before ++ e :: after ∧ (∀ e' ∈ before, ¬ e'.Ends b file) ∧
      e.firmware b file = .ok (some value)

theorem tryRemoteproc_firmware (b : Build) (file : List UInt8) (e : Remoteproc) (t : Fds) :
    ((tryRemoteproc b file e t).fd = .ok none ↔ ¬ e.Ends b file) ∧
    (∀ value file' path, .readonly value file' path ∈ (tryRemoteproc b file e t).calls ↔
      e.firmware b file = .ok (some value) ∧ file' = file ∧
        path = firmwareBase b ++ dirname value ++ 47 :: file) ∧
    ∀ file', .readwrite file' ∉ (tryRemoteproc b file e t).calls := by
  unfold tryRemoteproc Remoteproc.Ends Remoteproc.firmware
  by_cases hdot : e.name = ascii "." ∨ e.name = ascii ".."
  · rw [if_pos hdot, if_pos (by tauto)]
    simp
  by_cases hlong : e.name.length + 10 > 32
  · rw [if_neg hdot, if_pos hlong, if_pos (by tauto)]
    simp
  rw [if_neg hdot, if_neg hlong]
  cases hattr : e.attr with
  | false => simp [Fds.get]
  | true =>
      rw [if_neg (by simp only [Bool.true_eq_false, or_false]; tauto)]
      simp only [Fds.get, if_true]
      cases e.value with
      | none => simp
      | some bytes =>
          simp only [openReadonly]
          split_ifs
          · simp
          · simp
          · simp
          · refine ⟨?_, fun value file' path => ?_, by simp⟩
            · cases e.file <;> simp [Fds.get]
            · simp only [List.mem_cons, reduceCtorEq, false_or, OpenCall.readonly.injEq,
                List.not_mem_nil, or_false, Except.ok.injEq, Option.some.injEq]
              constructor
              · rintro ⟨rfl, rfl, rfl⟩
                exact ⟨rfl, rfl, rfl⟩
              · rintro ⟨rfl, rfl, rfl⟩
                exact ⟨rfl, rfl, rfl⟩

theorem exists_split_cons {α : Type} {P Q : α → Prop} (x : α) (xs : List α) :
    (∃ before y after, x :: xs = before ++ y :: after ∧ (∀ z ∈ before, P z) ∧ Q y) ↔
      Q x ∨ (P x ∧ ∃ before y after, xs = before ++ y :: after ∧ (∀ z ∈ before, P z) ∧ Q y) := by
  constructor
  · rintro ⟨before, y, after, heq, hbefore, hy⟩
    cases before with
    | nil =>
        obtain ⟨rfl, -⟩ := List.cons.inj heq
        exact Or.inl hy
    | cons z before =>
        obtain ⟨rfl, rfl⟩ := List.cons.inj heq
        obtain ⟨hz, hbefore⟩ := List.forall_mem_cons.mp hbefore
        exact Or.inr ⟨hz, before, y, after, rfl, hbefore, hy⟩
  · rintro (hx | ⟨hx, before, y, after, rfl, hbefore, hy⟩)
    · exact ⟨[], x, xs, rfl, fun _ hz => absurd hz List.not_mem_nil, hx⟩
    · exact ⟨x :: before, y, after, rfl, List.forall_mem_cons.mpr ⟨hx, hbefore⟩, hy⟩

section Loop

variable {b : Build} {file : List UInt8} {e : Remoteproc} {es : List Remoteproc} {t : Fds}

theorem readonlyLoop_cons_of_goesOn (h : (tryRemoteproc b file e t).fd = .ok none) :
    (readonlyLoop b file (e :: es) t).calls =
      (tryRemoteproc b file e t).calls ++
        (readonlyLoop b file es (tryRemoteproc b file e t).fds).calls := by
  rw [readonlyLoop]
  simp only [h]

theorem readonlyLoop_cons_of_ends (h : (tryRemoteproc b file e t).fd ≠ .ok none) :
    readonlyLoop b file (e :: es) t = tryRemoteproc b file e t := by
  rw [readonlyLoop]
  dsimp only
  split
  · next hnone => exact absurd hnone h
  · rfl

end Loop

theorem readonlyLoop_firmware (b : Build) (file : List UInt8) (es : List Remoteproc) : ∀ t,
    (∀ value file' path, .readonly value file' path ∈ (readonlyLoop b file es t).calls ↔
      (∃ before e after, es = before ++ e :: after ∧ (∀ e' ∈ before, ¬ e'.Ends b file) ∧
        e.firmware b file = .ok (some value)) ∧ file' = file ∧
        path = firmwareBase b ++ dirname value ++ 47 :: file) ∧
    ∀ file', .readwrite file' ∉ (readonlyLoop b file es t).calls := by
  induction es with
  | nil => simp [readonlyLoop]
  | cons e es ih =>
      intro t
      obtain ⟨hfd, hcalls, hother⟩ := tryRemoteproc_firmware b file e t
      by_cases hends : e.Ends b file
      · rw [readonlyLoop_cons_of_ends fun hnone => hfd.mp hnone hends]
        refine ⟨fun value file' path => ?_, hother⟩
        rw [hcalls, exists_split_cons]
        simp only [hends, not_true_eq_false, false_and, or_false]
      · obtain ⟨hrest, hrestOther⟩ := ih (tryRemoteproc b file e t).fds
        rw [readonlyLoop_cons_of_goesOn (hfd.mpr hends)]
        refine ⟨fun value file' path => ?_, fun file' => ?_⟩
        · rw [List.mem_append, hcalls, hrest, exists_split_cons]
          simp only [hends, not_false_eq_true, true_and, or_and_right]
        · rw [List.mem_append, not_or]
          exact ⟨hother file', hrestOther file'⟩

theorem eq_append_iff {pre s file : List UInt8} :
    s = pre ++ file ↔ pre.isPrefixOf s = true ∧ file = s.drop pre.length := by
  rw [List.isPrefixOf_iff_prefix]
  constructor
  · rintro rfl
    exact ⟨List.prefix_append _ _, List.drop_left.symm⟩
  · rintro ⟨⟨file, rfl⟩, rfl⟩
    rw [List.drop_left]

theorem not_readonly_of_readwrite (file : List UInt8) :
    readonlyPath.isPrefixOf (readwritePath ++ file) = false := rfl

section Calls

variable {b : Build} {io : TranslateIo} {t : Fds} {filename value file path : List UInt8}

theorem readonly_mem_calls : .readonly value file path ∈ (translateOpen b io t filename).calls ↔
    filename = readonlyPath ++ file ∧ io.Tries b file value ∧
      path = firmwareBase b ++ dirname value ++ 47 :: file := by
  rw [eq_append_iff, translateOpen]
  by_cases hro : readonlyPath.isPrefixOf filename = true
  · simp only [hro, if_true, true_and, translateReadonly, TranslateIo.Tries]
    generalize filename.drop readonlyPath.length = file'
    cases io.classDir with
    | false => simp [Fds.get]
    | true =>
        simp only [Fds.get, if_true]
        cases io.opendir with
        | false => simp
        | true =>
            simp only [if_true, List.mem_cons, reduceCtorEq, false_or, true_and,
              (readonlyLoop_firmware b file' io.remoteprocs _).1]
            constructor
            · rintro ⟨htries, rfl, rfl⟩
              exact ⟨rfl, htries, rfl⟩
            · rintro ⟨rfl, htries, rfl⟩
              exact ⟨htries, rfl, rfl⟩
  · rw [if_neg hro]
    refine iff_of_false ?_ fun h => hro h.1.1
    unfold translateReadwrite
    split_ifs
    · cases io.base <;> simp [Fds.get]
    · simp
    · simp

theorem readwrite_mem_calls : .readwrite file ∈ (translateOpen b io t filename).calls ↔
    filename = readwritePath ++ file ∧ io.mkdir = true ∧ io.base = true := by
  by_cases hro : readonlyPath.isPrefixOf filename = true
  · refine iff_of_false ?_ ?_
    · rw [translateOpen, if_pos hro, translateReadonly]
      cases io.classDir with
      | false => simp [Fds.get]
      | true =>
          simp only [Fds.get, if_true]
          split_ifs
          · simp [(readonlyLoop_firmware b _ io.remoteprocs _).2]
          · simp
    · rintro ⟨rfl, -⟩
      rw [not_readonly_of_readwrite] at hro
      cases hro
  · rw [eq_append_iff, translateOpen, if_neg hro]
    by_cases hrw : readwritePath.isPrefixOf filename = true
    · simp only [hrw, if_true, true_and, translateReadwrite]
      cases io.mkdir with
      | false => simp
      | true => cases io.base <;> simp [Fds.get]
    · simp [hrw]

/-- A name under `/readonly/firmware/image/` goes on from the directory of the firmware. -/
theorem resolve_firmware (b : Build) (value file : List UInt8) :
    resolve [] (firmwareBase b ++ dirname value ++ 47 :: file) =
      walk (firmwareDir b value) (segments file) := by
  have habs : ∀ rest, isAbsolute (firmwareBase b ++ rest) = true := by
    intro rest
    cases b with
    | android => rfl
    | linux => rfl
  rw [firmwareDir, resolve, resolve, segments_slash, walk_append, habs, List.append_assoc, habs]

theorem confined_readonly : (OpenCall.readonly value file
      (firmwareBase b ++ dirname value ++ 47 :: file)).Confined b ↔
    LeadsBack (firmwareDir b value) file := by
  rw [OpenCall.Confined, resolve_firmware]
  exact prefix_walk_iff _ _

theorem confined_readwrite : (OpenCall.readwrite file).Confined b ↔
    if isAbsolute file then tmpDir b <+: (climb (segments file)).2
    else LeadsBack (tmpDir b) file := by
  rw [OpenCall.Confined, resolve]
  by_cases habs : isAbsolute file = true
  · rw [if_pos habs, if_pos habs, walk_eq_climb]
    simp
  · rw [if_neg habs, if_neg habs]
    exact prefix_walk_iff _ _

end Calls

/-- **Which names are confined**: a name under `/readonly/firmware/image/` goes down again the
directories it goes up, from the directory of every firmware value that is tried; so does a relative
name under `/readwrite/` from the temporary directory, and an absolute one leads there by itself. -/
theorem confined_iff (b : Build) (io : TranslateIo) (t : Fds) (filename : List UInt8) :
    (∀ c ∈ (translateOpen b io t filename).calls, c.Confined b) ↔
      (∀ file value, filename = readonlyPath ++ file → io.Tries b file value →
        LeadsBack (firmwareDir b value) file) ∧
      (∀ file, filename = readwritePath ++ file → io.mkdir = true → io.base = true →
        if isAbsolute file then tmpDir b <+: (climb (segments file)).2
        else LeadsBack (tmpDir b) file) := by
  constructor
  · intro h
    refine ⟨fun file value hname htries => ?_, fun file hname hmkdir hbase => ?_⟩
    · exact confined_readonly.mp (h _ (readonly_mem_calls.mpr ⟨hname, htries, rfl⟩))
    · exact confined_readwrite.mp (h _ (readwrite_mem_calls.mpr ⟨hname, hmkdir, hbase⟩))
  · rintro ⟨hro, hrw⟩ c hc
    cases c with
    | readonly value file path =>
        obtain ⟨hname, htries, rfl⟩ := readonly_mem_calls.mp hc
        exact confined_readonly.mpr (hro file value hname htries)
    | readwrite file =>
        obtain ⟨hname, hmkdir, hbase⟩ := readwrite_mem_calls.mp hc
        exact confined_readwrite.mpr (hrw file hname hmkdir hbase)
    | remoteprocs => trivial
    | firmware name => trivial
    | tmp => trivial

theorem not_confined_absolute : ¬ ∀ c ∈ (translateOpen .android ⟨true, true, [], true, true, true⟩
    ⟨∅, ∅⟩ (ascii "/readwrite//etc/passwd")).calls, c.Confined .android := by
  intro h
  have hopen : OpenCall.readwrite (ascii "/etc/passwd") ∈
      [OpenCall.tmp, .readwrite (ascii "/etc/passwd")] := by decide
  have hconfined : tmpDir .android <+: resolve (tmpDir .android) (ascii "/etc/passwd") := h _ hopen
  revert hconfined
  decide

/-- **Plain names are confined**: those without `..` that are not absolute. -/
theorem confined_of_plain (b : Build) (io : TranslateIo) (t : Fds) {filename : List UInt8}
    (hro : ∀ file, filename = readonlyPath ++ file → .up ∉ segments file)
    (hrw : ∀ file, filename = readwritePath ++ file →
      .up ∉ segments file ∧ isAbsolute file = false) :
    ∀ c ∈ (translateOpen b io t filename).calls, c.Confined b := by
  intro c hc
  cases c with
  | readonly value file path =>
      obtain ⟨hname, -, rfl⟩ := readonly_mem_calls.mp hc
      exact confined_readonly.mpr (leadsBack_of_no_up _ (hro file hname))
  | readwrite file =>
      obtain ⟨hname, -, -⟩ := readwrite_mem_calls.mp hc
      obtain ⟨hup, habs⟩ := hrw file hname
      rw [confined_readwrite, habs]
      exact leadsBack_of_no_up _ hup
  | remoteprocs => trivial
  | firmware name => trivial
  | tmp => trivial

end Imola.Tqftp
