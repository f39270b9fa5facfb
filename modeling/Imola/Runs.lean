import Mathlib

/-! # Runs of a reactive system

A system takes an input in a state and either answers with an output and a next state, or
fails.  `Run step P s₀ h s` says that the history `h` of inputs and outputs leads from `s₀` to
`s`, every input satisfying the guard `P` in the state that received it.  `Run.invariant` is
the induction rule: what holds at the start and is kept by every guarded step holds after
every run.

`Trace` are the histories of a system that is given by a relation; `Run.simulates` is the rule of
forward simulation, by which every run has a trace with the same inputs and outputs. -/

namespace Imola.Runs

variable {σ ι ω ε : Type}

/-- The histories of guarded steps from `s₀`. -/
inductive Run (step : σ → ι → Except ε (ω × σ)) (P : σ → ι → Prop) (s₀ : σ) :
    List (ι × ω) → σ → Prop
  | nil : Run step P s₀ [] s₀
  | snoc {h : List (ι × ω)} {s s' : σ} {i : ι} {o : ω} :
      Run step P s₀ h s → P s i → step s i = .ok (o, s') → Run step P s₀ (h ++ [(i, o)]) s'

/-- **Invariants of runs**: an invariant of history and state. -/
theorem Run.invariant {step : σ → ι → Except ε (ω × σ)} {P : σ → ι → Prop} {s₀ : σ}
    {Inv : List (ι × ω) → σ → Prop} (hinit : Inv [] s₀)
    (hstep : ∀ {h s i o s'}, Inv h s → P s i → step s i = .ok (o, s') → Inv (h ++ [(i, o)]) s')
    {h : List (ι × ω)} {s : σ} (hrun : Run step P s₀ h s) : Inv h s := by
  induction hrun with
  | nil => exact hinit
  | snoc _ hP hs ih => exact hstep ih hP hs

theorem Run.last {step : σ → ι → Except ε (ω × σ)} {P : σ → ι → Prop} {s₀ s : σ}
    {h : List (ι × ω)} {x : ι × ω} (hrun : Run step P s₀ (h ++ [x]) s) :
    ∃ s', Run step P s₀ h s' ∧ P s' x.1 ∧ step s' x.1 = .ok (x.2, s) := by
  generalize hh : h ++ [x] = h' at hrun
  cases hrun with
  | nil => simp at hh
  | snoc hbefore hP hstep =>
      obtain ⟨rfl, hx⟩ := List.append_inj' hh rfl
      obtain rfl := List.singleton_injective hx
      exact ⟨_, hbefore, hP, hstep⟩

theorem Run.split {step : σ → ι → Except ε (ω × σ)} {P : σ → ι → Prop} {s₀ : σ}
    {h₁ h₂ : List (ι × ω)} : ∀ {s : σ}, Run step P s₀ (h₁ ++ h₂) s →
      ∃ s₁, Run step P s₀ h₁ s₁ ∧ Run step P s₁ h₂ s := by
  induction h₂ using List.reverseRecOn with
  | nil =>
      intro s hrun
      rw [List.append_nil] at hrun
      exact ⟨s, hrun, .nil⟩
  | append_singleton h₂ x ih =>
      intro s hrun
      rw [← List.append_assoc] at hrun
      obtain ⟨s', hbefore, hP, hstep⟩ := hrun.last
      obtain ⟨s₁, hfirst, hsecond⟩ := ih hbefore
      exact ⟨s₁, hfirst, hsecond.snoc hP hstep⟩

theorem Run.first {step : σ → ι → Except ε (ω × σ)} {P : σ → ι → Prop} {s₀ s : σ}
    {h : List (ι × ω)} {x : ι × ω} (hrun : Run step P s₀ (x :: h) s) :
    ∃ s₁, P s₀ x.1 ∧ step s₀ x.1 = .ok (x.2, s₁) ∧ Run step P s₁ h s := by
  obtain ⟨s₁, hfirst, hrest⟩ := @Run.split _ _ _ _ _ _ _ [x] h s hrun
  obtain ⟨s', hnil, hP, hstep⟩ := Run.last (h := []) hfirst
  generalize hh : ([] : List (ι × ω)) = h' at hnil
  cases hnil with
  | nil => exact ⟨s₁, hP, hstep, hrest⟩
  | snoc => simp at hh

variable {τ : Type} {astep : τ → ι → ω → τ → Prop} {t₀ t : τ} {h : List (ι × ω)}

/-- The histories of a relation, from `t₀`. -/
inductive Trace (astep : τ → ι → ω → τ → Prop) (t₀ : τ) : List (ι × ω) → τ → Prop
  | nil : Trace astep t₀ [] t₀
  | snoc {h : List (ι × ω)} {t t' : τ} {i : ι} {o : ω} :
      Trace astep t₀ h t → astep t i o t' → Trace astep t₀ (h ++ [(i, o)]) t'

/-- **Forward simulation.** -/
theorem Run.simulates {step : σ → ι → Except ε (ω × σ)} {P : σ → ι → Prop} {s₀ s : σ}
    {Rel : σ → τ → Prop}
    (hinit : Rel s₀ t₀)
    (hstep : ∀ {s i o s' t}, Rel s t → P s i → step s i = .ok (o, s') →
      ∃ t', astep t i o t' ∧ Rel s' t')
    (hrun : Run step P s₀ h s) : ∃ t, Trace astep t₀ h t ∧ Rel s t := by
  induction hrun with
  | nil => exact ⟨t₀, .nil, hinit⟩
  | snoc _ hP hs ih =>
      obtain ⟨t, htrace, hrel⟩ := ih
      obtain ⟨t', hnext, hrel'⟩ := hstep hrel hP hs
      exact ⟨t', htrace.snoc hnext, hrel'⟩

theorem Trace.keeps {Q : τ → Prop} {G : ι → ω → Prop} (hinit : Q t₀)
    (hstep : ∀ {t i o t'}, Q t → G i o → astep t i o t' → Q t') (htrace : Trace astep t₀ h t)
    (hG : ∀ e ∈ h, G e.1 e.2) : Q t := by
  induction htrace with
  | nil => exact hinit
  | snoc _ hs ih =>
      have hbefore := ih fun e he => hG e (List.mem_append_left _ he)
      exact hstep hbefore (hG _ (List.mem_append_right _ (List.mem_singleton_self _))) hs

end Imola.Runs
