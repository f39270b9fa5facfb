import Mathlib

/-! # Pre- and postconditions of stateful programs

`Triple P m Q` says that a run of `m` from a state with `P` ends with a value and a state that
satisfy `Q`.  The rules are those for sequences, branches and weaker conditions; `Keeps` is the case
of an invariant. -/

namespace Imola.StateTriples

variable {σ α β : Type}

def Triple (P : σ → Prop) (m : StateM σ α) (Q : α → σ → Prop) : Prop :=
  ∀ s, P s → Q (m.run s).1 (m.run s).2

/-- An invariant. -/
def Keeps (P : σ → Prop) (m : StateM σ α) : Prop := Triple P m fun _ => P

namespace Triple

variable {P : σ → Prop} {m : StateM σ α} {Q R : α → σ → Prop}

theorem pure (a : α) (h : ∀ s, P s → Q a s) : Triple P (pure a : StateM σ α) Q := fun s hs => h s hs

/-- **Sequences.** -/
theorem bind {f : α → StateM σ β} {Q' : β → σ → Prop} (hm : Triple P m R)
    (hf : ∀ a, Triple (R a) (f a) Q') :
    Triple P (m >>= f) Q' := fun s hs => hf _ _ (hm s hs)

theorem bind_eq {f : α → StateM σ β} {Q' : β → σ → Prop} {a : α} {R : σ → Prop}
    (hm : Triple P m fun b s => b = a ∧ R s) (hf : Triple R (f a) Q') : Triple P (m >>= f) Q' := by
  refine hm.bind fun b => ?_
  rintro s ⟨rfl, hs⟩
  exact hf s hs

theorem mono {P' : σ → Prop} (h : Triple P m R) (hpre : ∀ s, P' s → P s)
    (hpost : ∀ a s, R a s → Q a s) :
    Triple P' m Q := fun s hs => hpost _ _ (h s (hpre s hs))

theorem post (h : Triple P m R) (hpost : ∀ a s, R a s → Q a s) : Triple P m Q :=
  h.mono (fun _ hs => hs) hpost

theorem pre {P' : σ → Prop} (h : Triple P m Q) (hpre : ∀ s, P' s → P s) : Triple P' m Q :=
  h.mono hpre fun _ _ hs => hs

/-- **Branches.** -/
theorem ite {c : Prop} [Decidable c] {m' : StateM σ α} (ht : c → Triple P m Q)
    (he : ¬ c → Triple P m' Q) :
    Triple P (if c then m else m') Q := by
  by_cases h : c
  · rw [if_pos h]
    exact ht h
  · rw [if_neg h]
    exact he h

end Triple

theorem Keeps.pure {P : σ → Prop} (a : α) : Keeps P (pure a : StateM σ α) := fun _ hs => hs

theorem Keeps.bind {P : σ → Prop} {m : StateM σ α} {f : α → StateM σ β} (hm : Keeps P m)
    (hf : ∀ a, Keeps P (f a)) :
    Keeps P (m >>= f) := Triple.bind hm hf

end Imola.StateTriples
