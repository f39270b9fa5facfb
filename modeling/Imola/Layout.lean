import Imola.Progs

/-! # Writing pieces into a buffer

A program that fills a buffer writes pieces one after another, each behind a check that it fits.
The run ends when all pieces are written, when a check refuses one, or it has left the buffer
(`Fate`).  `Ends` relates a program to its fate, with one rule for each way to build a program.

A `Piece` is what the check of a piece knows about it: the bytes left free in front, its size, and
by how many bytes the check is too generous.  The fate of a list of pieces is then arithmetic
(`fate`), and the buffer is left exactly when a piece `Spills`. -/

namespace Imola.Progs

open Imola.Splice

/-! ### Accesses inside a buffer -/

/-- A store is inside an output of `bound` bytes, and a difference does not wrap. -/
def Event.Inside (bound : ℕ) : Event → Prop
  | .read _ => True
  | .store a => a < bound
  | .sub x y => y ≤ x

instance (bound : ℕ) (ev : Event) : Decidable (ev.Inside bound) :=
  match ev with
  | .read _ => isTrue trivial
  | .store _ => inferInstanceAs (Decidable (_ < _))
  | .sub _ _ => inferInstanceAs (Decidable (_ ≤ _))

/-- All accesses of a run are inside the output. -/
def Prog.Inside {ε α : Type} (p : Prog ε α) (inp : ℕ → UInt8) (bound : ℕ) : Prop :=
  ∀ ev ∈ p.events inp, ev.Inside bound

instance {ε α : Type} (p : Prog ε α) (inp : ℕ → UInt8) (bound : ℕ) :
    Decidable (p.Inside inp bound) :=
  inferInstanceAs (Decidable (∀ ev ∈ _, _))

/-- How a run can end. -/
inductive Fate where
  | done
  | refused
  | outside
deriving DecidableEq, Repr

/-- The fate of a sequence. -/
def Fate.andThen : Fate → Fate → Fate
  | .done, f => f
  | .refused, _ => .refused
  | .outside, _ => .outside

/-- The run of `p` succeeds with `a`, fails, or leaves the output. -/
def Ends {ε α : Type} (p : Prog ε α) (inp : ℕ → UInt8) (bound : ℕ) (a : α) : Fate → Prop
  | .done => p.result inp = .ok a ∧ p.Inside inp bound
  | .refused => (∃ e, p.result inp = .error e) ∧ p.Inside inp bound
  | .outside => ¬ p.Inside inp bound

section Ends

variable {ε α β : Type} {p : Prog ε α} {g : α → Prog ε β} {inp : ℕ → UInt8} {bound : ℕ}
    {a : α} {b : β}
  {f f' : Fate}

theorem Ends.inside_iff (h : Ends p inp bound a f) : p.Inside inp bound ↔ f ≠ .outside := by
  cases f with
  | done => exact ⟨fun _ => by simp, fun _ => h.2⟩
  | refused => exact ⟨fun _ => by simp, fun _ => h.2⟩
  | outside => exact ⟨fun hin => absurd hin h, fun hne => absurd rfl hne⟩

theorem Ends.pure (a : α) : Ends (Pure.pure a : Prog ε α) inp bound a .done := by
  constructor
  · rfl
  · intro ev hev
    cases hev

theorem Ends.fail (e : ε) (a : α) : Ends (Prog.fail e : Prog ε α) inp bound a .refused := by
  constructor
  · exact ⟨e, rfl⟩
  · intro ev hev
    cases hev

theorem Ends.storeAll {dst : ℕ} {bs : List UInt8} (h : dst + bs.length ≤ bound) :
    Ends (Prog.storeAll dst bs : Prog ε Unit) inp bound () .done := by
  constructor
  · exact Prog.result_storeAll dst bs inp
  · intro ev hev
    rw [Prog.events_storeAll, window, List.mem_map] at hev
    obtain ⟨i, hi, rfl⟩ := hev
    show dst + i < bound
    have := List.mem_range.mp hi
    omega

theorem Ends.storeAll_outside {dst : ℕ} {bs : List UInt8} (hne : 1 ≤ bs.length)
    (h : bound < dst + bs.length) :
    Ends (Prog.storeAll dst bs : Prog ε Unit) inp bound () .outside := by
  intro hin
  have hlast : Event.store (dst + (bs.length - 1)) ∈
      (Prog.storeAll dst bs : Prog ε Unit).events inp := by
    rw [Prog.events_storeAll, window]
    exact List.mem_map_of_mem (List.mem_range.mpr (by omega))
  have hlt : dst + (bs.length - 1) < bound := hin _ hlast
  omega

theorem Ends.sub {x y : ℕ} {k : ℕ → Prog ε α} (hx : x < 2 ^ 32) (h : y ≤ x)
    (hk : Ends (k (x - y)) inp bound a f) : Ends (Prog.sub x y k) inp bound a f := by
  have hev : (Prog.sub x y k).events inp = .sub x y :: (k (x - y)).events inp := by
    rw [Prog.events, sub32_of_le hx h]
  have hres : (Prog.sub x y k).result inp = (k (x - y)).result inp := by
    rw [Prog.result, sub32_of_le hx h]
  have hin : (Prog.sub x y k).Inside inp bound ↔ (k (x - y)).Inside inp bound := by
    simp only [Prog.Inside, hev, List.forall_mem_cons]
    exact ⟨fun hs => hs.2, fun hs => ⟨h, hs⟩⟩
  cases f with
  | done => exact ⟨hres.trans hk.1, hin.mpr hk.2⟩
  | refused => exact ⟨hk.1.imp fun e he => hres.trans he, hin.mpr hk.2⟩
  | outside => exact fun hs => hk (hin.mp hs)

theorem Ends.bind (hp : Ends p inp bound a f) (hg : f = .done → Ends (g a) inp bound b f') :
    Ends (p >>= g) inp bound b (f.andThen f') := by
  cases f with
  | done =>
      have hev := Prog.events_bind_ok (f := g) hp.1
      have hres := Prog.result_bind_ok (f := g) hp.1
      have hin : (p >>= g).Inside inp bound ↔ (g a).Inside inp bound := by
        simp only [Prog.Inside, hev, List.forall_mem_append]
        exact ⟨fun h => h.2, fun h => ⟨hp.2, h⟩⟩
      have hg := hg rfl
      cases f' with
      | done => exact ⟨hres.trans hg.1, hin.mpr hg.2⟩
      | refused => exact ⟨hg.1.imp fun e he => hres.trans he, hin.mpr hg.2⟩
      | outside => exact fun h => hg (hin.mp h)
  | refused =>
      obtain ⟨⟨e, he⟩, hin⟩ := hp
      constructor
      · exact ⟨e, Prog.result_bind_error he⟩
      · rw [Prog.Inside, Prog.events_bind_error he]
        exact hin
  | outside =>
      intro h
      apply hp
      intro ev hev
      apply h
      cases hres : p.result inp with
      | ok a' =>
          rw [Prog.events_bind_ok hres]
          exact List.mem_append_left _ hev
      | error e =>
          rw [Prog.events_bind_error hres]
          exact hev

theorem Ends.bind_done (hp : Ends p inp bound a f) (hg : f = .done → Ends (g a) inp bound b .done) :
    Ends (p >>= g) inp bound b f := by
  have h := hp.bind hg
  cases f <;> exact h

end Ends

/-! ### Pieces -/

/-- A piece of `size` bytes behind `gap` free ones; it is written when it ends at most `slack` bytes
behind the buffer. -/
structure Piece where
  gap : ℕ
  size : ℕ
  slack : ℕ
deriving DecidableEq, Repr

/-- The number of bytes pieces take. -/
def span (ps : List Piece) : ℕ := (ps.map fun p => p.gap + p.size).sum

@[simp] theorem span_nil : span [] = 0 := rfl

@[simp] theorem span_cons (p : Piece) (ps : List Piece) :
    span (p :: ps) = p.gap + p.size + span ps := by
  simp [span]

@[simp] theorem span_append (ps qs : List Piece) : span (ps ++ qs) = span ps + span qs := by
  simp [span]

/-- What happens to pieces written from `a` on. -/
def fate (bound : ℕ) : ℕ → List Piece → Fate
  | _, [] => .done
  | a, p :: ps =>
      if a + (p.gap + p.size) ≤ bound then fate bound (a + (p.gap + p.size)) ps
      else if a + (p.gap + p.size) ≤ bound + p.slack then .outside
      else .refused

/-- A piece is written although it ends behind the buffer, when those before it end inside. -/
def Spills (bound : ℕ) (ps : List Piece) : Prop :=
  ∃ pre p post, ps = pre ++ p :: post ∧ span pre ≤ bound ∧ bound < span pre + (p.gap + p.size) ∧
    span pre + (p.gap + p.size) ≤ bound + p.slack

section Pieces

variable {bound a : ℕ} {ps qs : List Piece}

theorem fate_append (bound a : ℕ) (ps qs : List Piece) :
    fate bound a (ps ++ qs) = (fate bound a ps).andThen (fate bound (a + span ps) qs) := by
  induction ps generalizing a with
  | nil => rfl
  | cons p ps ih =>
      rw [List.cons_append, fate, fate, span_cons]
      split_ifs
      · rw [ih, Nat.add_assoc a]
      · rfl
      · rfl

theorem span_le_of_done {c : ℕ} (h : fate bound a ps = .done) (ha : a ≤ c) (hc : bound ≤ c) :
    a + span ps ≤ c := by
  induction ps generalizing a with
  | nil => exact ha
  | cons p ps ih =>
      rw [fate] at h
      split_ifs at h with hfit
      have hle := ih h (hfit.trans hc)
      rw [span_cons]
      omega

theorem span_le_of_done_of_ne_nil (h : fate bound a ps = .done) (hne : ps ≠ []) :
    a + span ps ≤ bound := by
  cases ps with
  | nil => exact absurd rfl hne
  | cons p ps =>
      rw [fate] at h
      split_ifs at h with hfit
      have hle := span_le_of_done h hfit le_rfl
      rw [span_cons]
      omega

theorem fate_eq_done (h : a + span ps ≤ bound) : fate bound a ps = .done := by
  induction ps generalizing a with
  | nil => rfl
  | cons p ps ih =>
      rw [span_cons] at h
      rw [fate, if_pos (by omega)]
      exact ih (by omega)

theorem fate_outside_iff (ha : a ≤ bound) : fate bound a ps = .outside ↔
    ∃ (pre : List Piece) (p : Piece) (post : List Piece), ps = pre ++ p :: post ∧
    a + span pre ≤ bound ∧
      bound < a + (span pre + (p.gap + p.size)) ∧ a + (span pre + (p.gap + p.size)) ≤
        bound + p.slack := by
  induction ps generalizing a with
  | nil => simp [fate]
  | cons p ps ih =>
      rw [fate]
      split_ifs with hfit hslack
      · rw [ih hfit]
        constructor
        · rintro ⟨pre, q, post, rfl, h₁, h₂, h₃⟩
          refine ⟨p :: pre, q, post, rfl, ?_, ?_, ?_⟩
          · rw [span_cons]
            omega
          · rw [span_cons]
            omega
          · rw [span_cons]
            omega
        · rintro ⟨pre, q, post, heq, h₁, h₂, h₃⟩
          cases pre with
          | nil =>
              cases heq
              rw [span_nil] at h₂
              omega
          | cons p' pre =>
              cases heq
              rw [span_cons] at h₁ h₂ h₃
              exact ⟨pre, q, post, rfl, by omega, by omega, by omega⟩
      · simp only [true_iff]
        exact ⟨[], p, ps, rfl, by simpa using ha, by rw [span_nil]; omega, by rw [span_nil]; omega⟩
      · simp only [false_iff]
        rintro ⟨pre, q, post, heq, h₁, h₂, h₃⟩
        cases pre with
        | nil =>
            cases heq
            rw [span_nil] at h₃
            omega
        | cons p' pre =>
            cases heq
            rw [span_cons] at h₁
            omega

/-- **The buffer is left exactly when a piece spills.** -/
theorem spills_iff (bound : ℕ) (ps : List Piece) :
    Spills bound ps ↔ fate bound 0 ps = .outside := by
  rw [fate_outside_iff (Nat.zero_le bound)]
  simp only [Nat.zero_add, Spills]

instance (bound : ℕ) (ps : List Piece) : Decidable (Spills bound ps) :=
  decidable_of_iff _ (spills_iff bound ps).symm

theorem fate_empty (ha : a ≤ bound) (slack : ℕ) (ps : List Piece) :
    fate bound a (⟨0, 0, slack⟩ :: ps) = fate bound a ps := by
  rw [fate, if_pos (by simpa using ha)]
  rfl

/-- The pieces behind a header of `n` bytes. -/
def headed (n : ℕ) : List Piece → List Piece
  | [] => []
  | p :: ps => ⟨n + p.gap, p.size, p.slack⟩ :: ps

theorem span_headed (n : ℕ) (hne : ps ≠ []) : span (headed n ps) = n + span ps := by
  cases ps with
  | nil => exact absurd rfl hne
  | cons p ps =>
      simp only [headed, span_cons]
      omega

theorem fate_headed (bound a n : ℕ) (hne : ps ≠ []) :
    fate bound a (headed n ps) = fate bound (a + n) ps := by
  cases ps with
  | nil => exact absurd rfl hne
  | cons p ps =>
      have hstop : a + (n + p.gap + p.size) = a + n + (p.gap + p.size) := by omega
      simp only [headed, fate, hstop]

end Pieces

end Imola.Progs
