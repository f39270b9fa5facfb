import Mathlib

/-! # Sessions

A session takes one input after the other; each is answered with some outputs and may close the
session.  What comes after that is not received.  `feed` is the answer to a list of inputs.

`Ignores step p s is` says that the inputs with the property `p` make no difference among `is`: they
are answered by nothing and leave the session as it is, and without them the rest is answered in the
same way.  When such inputs close the session, this is true only if none arrives
(`ignores_iff_of_closes`). -/

namespace Imola.Sessions

variable {σ ι ω : Type}

/-- What an input makes of a session. -/
structure Answer (ω σ : Type) where
  out : List ω
  state : σ
  goesOn : Bool
deriving DecidableEq, Repr

/-- The answer to a list of inputs. -/
def feed (step : σ → ι → Answer ω σ) : σ → List ι → Answer ω σ
  | s, [] => ⟨[], s, true⟩
  | s, i :: is =>
      let a := step s i
      if a.goesOn then
        let rest := feed step a.state is
        ⟨a.out ++ rest.out, rest.state, rest.goesOn⟩
      else a

section Feed

variable {step : σ → ι → Answer ω σ} {s : σ} {i : ι} {is js : List ι}

theorem feed_cons_of_goesOn (h : (step s i).goesOn = true) : feed step s (i :: is) =
    ⟨(step s i).out ++ (feed step (step s i).state is).out, (feed step (step s i).state is).state,
      (feed step (step s i).state is).goesOn⟩ := by
  rw [feed, if_pos h]

theorem feed_cons_of_closes (h : (step s i).goesOn = false) : feed step s (i :: is) = step s i := by
  rw [feed, if_neg (by simp [h])]

theorem feed_append (h : (feed step s is).goesOn = true) : feed step s (is ++ js) =
    ⟨(feed step s is).out ++ (feed step (feed step s is).state js).out,
      (feed step (feed step s is).state js).state,
      (feed step (feed step s is).state js).goesOn⟩ := by
  induction is generalizing s with
  | nil => simp [feed]
  | cons i is ih =>
      cases hi : (step s i).goesOn with
      | true =>
          rw [feed_cons_of_goesOn hi] at h ⊢
          rw [List.cons_append, feed_cons_of_goesOn hi, ih h, List.append_assoc]
      | false =>
          rw [feed_cons_of_closes hi, hi] at h
          cases h

end Feed

/-- The inputs with the property `p` make no difference. -/
structure Ignores (step : σ → ι → Answer ω σ) (p : ι → Bool) (s : σ) (is : List ι) : Prop where
  stays : ∀ pre i post, is = pre ++ i :: post → p i = true → (feed step s pre).goesOn = true →
    step (feed step s pre).state i = ⟨[], (feed step s pre).state, true⟩
  same : feed step s is = feed step s (is.filter fun i => !p i)

/-- Such an input arrives. -/
def Arrives (step : σ → ι → Answer ω σ) (p : ι → Bool) (s : σ) (is : List ι) : Prop :=
  ∃ pre i post, is = pre ++ i :: post ∧ p i = true ∧ (feed step s pre).goesOn = true

variable {step : σ → ι → Answer ω σ} {p : ι → Bool} {s : σ}

theorem feed_filter_of_not_arrives {is : List ι} (h : ¬ Arrives step p s is) :
    feed step s is = feed step s (is.filter fun i => !p i) := by
  induction is generalizing s with
  | nil => rfl
  | cons i is ih =>
      have hi : p i = false := by
        rw [Bool.eq_false_iff]
        intro hi
        exact h ⟨[], i, is, rfl, hi, rfl⟩
      rw [List.filter_cons_of_pos (by simp [hi])]
      cases hgo : (step s i).goesOn with
      | false => rw [feed_cons_of_closes hgo, feed_cons_of_closes hgo]
      | true =>
          have hrest : ¬ Arrives step p (step s i).state is := by
            rintro ⟨pre, j, post, rfl, hj, hpre⟩
            refine h ⟨i :: pre, j, post, rfl, hj, ?_⟩
            rw [feed_cons_of_goesOn hgo]
            exact hpre
          rw [feed_cons_of_goesOn hgo, feed_cons_of_goesOn hgo, ih hrest]

/-- **Inputs that close the session are ignored only if none arrives.** -/
theorem ignores_iff_of_closes (hclose : ∀ s i, p i = true → (step s i).goesOn = false)
    (is : List ι) :
    Ignores step p s is ↔ ¬ Arrives step p s is := by
  constructor
  · rintro h ⟨pre, i, post, heq, hi, hpre⟩
    have hstays := congrArg Answer.goesOn (h.stays pre i post heq hi hpre)
    rw [hclose _ i hi] at hstays
    cases hstays
  · intro h
    exact ⟨fun pre i post heq hi hpre => absurd ⟨pre, i, post, heq, hi, hpre⟩ h,
      feed_filter_of_not_arrives h⟩

end Imola.Sessions
