import Mathlib

/-! # Lexical resolution of paths

A path is a list of segments: go `up` to the parent, or `down` to a name.  `walk` follows it from a
directory, which is the list of names from the root; above the root there is nothing, so `up` stays
there.

What a path does is `climb`: it goes up a number of directories and then down some names
(`walk_eq_climb`).  So a path stays in the directory it starts from when the names it goes down
again are those it went up (`prefix_walk_iff`). -/

namespace Imola.Paths

/-- A segment of a path. -/
inductive Seg (ν : Type) where
  | up
  | down (name : ν)
deriving DecidableEq, Repr

section Walk

variable {ν : Type}

/-- The directory a segment leads to. -/
def step (dir : List ν) : Seg ν → List ν
  | .up => dir.dropLast
  | .down name => dir ++ [name]

/-- The directory a path leads to. -/
def walk (dir : List ν) (path : List (Seg ν)) : List ν := path.foldl step dir

/-- A segment behind a path that goes up and then down. -/
def climbStep (r : ℕ × List ν) : Seg ν → ℕ × List ν
  | .up => if r.2 = [] then (r.1 + 1, []) else (r.1, r.2.dropLast)
  | .down name => (r.1, r.2 ++ [name])

/-- How many directories a path goes up, and the names it goes down from there. -/
def climb (path : List (Seg ν)) : ℕ × List ν := path.foldl climbStep (0, [])

theorem walk_append (dir : List ν) (p q : List (Seg ν)) : walk dir (p ++ q) = walk (walk dir p) q :=
  List.foldl_append

theorem climb_snoc (path : List (Seg ν)) (seg : Seg ν) :
    climb (path ++ [seg]) = climbStep (climb path) seg :=
  List.foldl_append

theorem walk_eq_climb (dir : List ν) (path : List (Seg ν)) :
    walk dir path = dir.take (dir.length - (climb path).1) ++ (climb path).2 := by
  induction path using List.reverseRecOn with
  | nil => simp [walk, climb]
  | append_singleton path seg ih =>
      have hwalk : walk dir (path ++ [seg]) = step (walk dir path) seg := walk_append dir path [seg]
      rw [hwalk, ih, climb_snoc]
      cases seg with
      | down name => simp only [step, climbStep, List.append_assoc]
      | up =>
          by_cases hnil : (climb path).2 = []
          · simp only [step, climbStep, hnil, if_true, List.append_nil]
            rw [List.dropLast_eq_take, List.take_take, List.length_take]
            congr 1
            omega
          · simp only [step, climbStep, if_neg hnil]
            rw [List.dropLast_append_of_ne_nil hnil]

/-- **A path stays in the directory it starts from** if it goes down the names it went up. -/
theorem prefix_walk_iff (dir : List ν) (path : List (Seg ν)) :
    dir <+: walk dir path ↔ dir.rtake (climb path).1 <+: (climb path).2 := by
  rw [walk_eq_climb, List.rtake]
  generalize dir.length - (climb path).1 = k
  have hiff : dir.take k ++ dir.drop k <+: dir.take k ++ (climb path).2 ↔
      dir.drop k <+: (climb path).2 := List.prefix_append_right_inj _
  rwa [List.take_append_drop] at hiff

theorem climb_of_no_up {path : List (Seg ν)} (h : .up ∉ path) : (climb path).1 = 0 := by
  induction path using List.reverseRecOn with
  | nil => rfl
  | append_singleton path seg ih =>
      rw [climb_snoc]
      cases seg with
      | up => simp at h
      | down name => exact ih fun hup => h (List.mem_append_left _ hup)

end Walk

/-! ### Paths as byte strings -/

/-- The names of files. -/
abbrev Name := List UInt8

/-- The segment between two slashes; nothing and `.` stay where they are. -/
def segment (name : Name) : List (Seg Name) :=
  if name = [] ∨ name = [46] then [] else if name = [46, 46] then [.up] else [.down name]

/-- The segments of a path; `cur` is what has been read of the first. -/
def segmentsFrom (cur : Name) : List UInt8 → List (Seg Name)
  | [] => segment cur
  | b :: bs => if b = 47 then segment cur ++ segmentsFrom [] bs else segmentsFrom (cur ++ [b]) bs

def segments (path : List UInt8) : List (Seg Name) := segmentsFrom [] path

theorem segmentsFrom_slash (bs : List UInt8) (a : List UInt8) :
    ∀ cur, segmentsFrom cur (a ++ 47 :: bs) = segmentsFrom cur a ++ segments bs := by
  induction a with
  | nil =>
      intro cur
      simp [segmentsFrom, segments]
  | cons b a ih =>
      intro cur
      rw [List.cons_append, segmentsFrom, segmentsFrom]
      split_ifs with hb
      · rw [ih, List.append_assoc]
      · exact ih _

theorem segments_slash (a bs : List UInt8) : segments (a ++ 47 :: bs) = segments a ++ segments bs :=
  segmentsFrom_slash bs a []

def isAbsolute (path : List UInt8) : Bool := path.head? = some 47

/-- Where a path leads, from the directory `dir` if it is relative. -/
def resolve (dir : List Name) (path : List UInt8) : List Name :=
  walk (if isAbsolute path then [] else dir) (segments path)

/-- A relative path goes up as many directories as it then goes down again, by their names. -/
def LeadsBack (dir : List Name) (path : List UInt8) : Prop :=
  dir.rtake (climb (segments path)).1 <+: (climb (segments path)).2

theorem leadsBack_of_no_up (dir : List Name) {path : List UInt8} (h : .up ∉ segments path) :
    LeadsBack dir path := by
  rw [LeadsBack, climb_of_no_up h, List.rtake_zero]
  exact List.nil_prefix

end Imola.Paths
