import Mathlib

/-! # Copies of a finite map

A site keeps a finite map and tells another site, in order, what it does to it, and the other site
does the same to a copy: `replay es A` is the map `A` after the edits `es`.

A copy that was started late is a part of the original (`Within.replay`), until the site sends all
its entries once (`Within.replay_entries`). -/

namespace Imola.Replicas

variable {κ α : Type} [DecidableEq κ]

/-- What is done to a finite map. -/
inductive Edit (κ α : Type) where
  | put (k : κ) (v : α)
  | drop (k : κ)
  | clear
deriving DecidableEq, Repr

def Edit.apply : Edit κ α → (κ → Option α) → κ → Option α
  | .put k v, A => Function.update A k (some v)
  | .drop k, A => Function.update A k none
  | .clear, _ => fun _ => none

/-- The map after some edits. -/
def replay (es : List (Edit κ α)) (A : κ → Option α) : κ → Option α :=
  es.foldl (fun A e => e.apply A) A

/-- The edits that matter for a key. -/
def Edit.Touches (k : κ) : Edit κ α → Prop
  | .put k' _ => k' = k
  | .drop k' => k' = k
  | .clear => True

/-- The entries of `A` are entries of `B`. -/
def Within (A B : κ → Option α) : Prop := ∀ ⦃k v⦄, A k = some v → B k = some v

variable {A B : κ → Option α} {es : List (Edit κ α)}

theorem replay_append (es fs : List (Edit κ α)) (A : κ → Option α) :
    replay (es ++ fs) A = replay fs (replay es A) :=
  List.foldl_append

theorem replay_cons (e : Edit κ α) (es : List (Edit κ α)) (A : κ → Option α) :
    replay (e :: es) A = replay es (e.apply A) := rfl

theorem Edit.apply_of_not_touches {e : Edit κ α} {k : κ} (h : ¬ e.Touches k) (A : κ → Option α) :
    e.apply A k = A k := by
  cases e with
  | put k' v => exact Function.update_of_ne (Ne.symm h) _ _
  | drop k' => exact Function.update_of_ne (Ne.symm h) _ _
  | clear => exact absurd trivial h

omit [DecidableEq κ] in
theorem Within.refl (A : κ → Option α) : Within A A := fun _ _ h => h

theorem Within.apply (h : Within A B) (e : Edit κ α) : Within (e.apply A) (e.apply B) := by
  intro k v hk
  by_cases htouch : e.Touches k
  · cases e with
    | put k' w =>
        obtain rfl : k' = k := htouch
        rw [Edit.apply, Function.update_self] at hk ⊢
        exact hk
    | drop k' =>
        obtain rfl : k' = k := htouch
        rw [Edit.apply, Function.update_self] at hk
        cases hk
    | clear => cases hk
  · rw [Edit.apply_of_not_touches htouch] at hk ⊢
    exact h hk

theorem Within.replay (h : Within A B) (es : List (Edit κ α)) :
    Within (replay es A) (replay es B) := by
  induction es generalizing A B with
  | nil => exact h
  | cons e es ih => exact ih (h.apply e)

theorem replay_puts_self {entries : List (κ × α)} (h : ∀ x ∈ entries, B x.1 = some x.2) :
    replay (entries.map fun x => .put x.1 x.2) B = B := by
  induction entries with
  | nil => rfl
  | cons x entries ih =>
      have hput : Edit.apply (.put x.1 x.2) B = B := by
        rw [Edit.apply, ← h x List.mem_cons_self]
        exact Function.update_eq_self _ _
      rw [List.map_cons, replay_cons, hput]
      exact ih fun y hy => h y (List.mem_cons_of_mem _ hy)

/-- What is put is there, as long as all puts under a key agree. -/
theorem replay_puts_of_mem {entries : List (κ × α)} {k : κ} {v : α} (hmem : (k, v) ∈ entries)
    (hsame : ∀ w, (k, w) ∈ entries → w = v) (A : κ → Option α) :
    replay (entries.map fun x => .put x.1 x.2) A k = some v := by
  induction entries using List.reverseRecOn with
  | nil => cases hmem
  | append_singleton entries x ih =>
      rw [List.map_append, List.map_singleton, replay_append, replay_cons]
      by_cases hkey : x.1 = k
      · have hv : x.2 = v :=
          hsame x.2 (List.mem_append_right _ (by rw [← hkey]; exact List.mem_singleton_self _))
        rw [← hkey, ← hv]
        exact Function.update_self _ _ _
      · have hother : ¬ Edit.Touches k (.put x.1 x.2) := hkey
        have hin : (k, v) ∈ entries := by
          rcases List.mem_append.mp hmem with hin | hlast
          · exact hin
          · rw [List.mem_singleton] at hlast
            rw [← hlast] at hkey
            exact absurd rfl hkey
        refine (Edit.apply_of_not_touches hother _).trans (ih hin fun w hw =>
          hsame w (List.mem_append_left _ hw))

/-- **All entries of a map, put into a part of it, give the map.** -/
theorem Within.replay_entries (h : Within A B) {entries : List (κ × α)}
    (hentries : ∀ k v, (k, v) ∈ entries ↔ B k = some v) :
    Imola.Replicas.replay (entries.map fun x => .put x.1 x.2) A = B := by
  have hself := replay_puts_self fun x hx => (hentries x.1 x.2).mp hx
  have hbelow := h.replay (entries.map fun x => .put x.1 x.2)
  rw [hself] at hbelow
  funext k
  cases hk : B k with
  | none =>
      rw [Option.eq_none_iff_forall_ne_some]
      intro v hv
      rw [hbelow hv] at hk
      cases hk
  | some v =>
      refine replay_puts_of_mem ((hentries k v).mpr hk) (fun w hw => ?_) A
      have hkw := (hentries k w).mp hw
      rw [hk] at hkw
      exact (Option.some.inj hkw).symm

end Imola.Replicas
