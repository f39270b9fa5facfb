import Imola.Progs

/-! # Programs with marked stores

A `Marked` program is a `Prog` in which every store carries a mark, for instance what it is made
for. `Marked.erase` forgets the marks, and `Marked.ofProg` gives all stores of a program the same
one.  `Marked.writes` are the addresses that a run stores to, with their marks and up to its end,
whether it fails or not; `AllWrites` is a property of all of them.

A program that is instrumented this way is connected to the plain one by an equation for `erase`,
and a property of its stores is proved with one rule for each way to build it (`allWrites_bind`,
`allWrites_ofProg`). -/

namespace Imola.Progs

open Imola.Splice

/-- Programs with marks in `τ`, errors in `ε` and a value in `α`. -/
inductive Marked (τ ε α : Type) where
  | pure (a : α)
  | fail (e : ε)
  | read (i : ℕ) (k : UInt8 → Marked τ ε α)
  | store (mark : τ) (a : ℕ) (b : UInt8) (k : Marked τ ε α)
  | sub (x y : ℕ) (k : ℕ → Marked τ ε α)

namespace Marked

variable {τ ε α β : Type}

def bind : Marked τ ε α → (α → Marked τ ε β) → Marked τ ε β
  | .pure a, f => f a
  | .fail e, _ => .fail e
  | .read i k, f => .read i fun b => (k b).bind f
  | .store mark a b k, f => .store mark a b (k.bind f)
  | .sub x y k, f => .sub x y fun d => (k d).bind f

instance : Monad (Marked τ ε) where
  pure := Marked.pure
  bind := Marked.bind

/-- The program without marks. -/
def erase : Marked τ ε α → Prog ε α
  | .pure a => .pure a
  | .fail e => .fail e
  | .read i k => .read i fun b => (k b).erase
  | .store _ a b k => .store a b k.erase
  | .sub x y k => .sub x y fun d => (k d).erase

/-- The program with one mark for all stores. -/
def ofProg (mark : τ) : Prog ε α → Marked τ ε α
  | .pure a => .pure a
  | .fail e => .fail e
  | .read i k => .read i fun b => ofProg mark (k b)
  | .store a b k => .store mark a b (ofProg mark k)
  | .sub x y k => .sub x y fun d => ofProg mark (k d)

/-- The stores of a run: marks and addresses. -/
def writes : Marked τ ε α → (ℕ → UInt8) → List (τ × ℕ)
  | .pure _, _ => []
  | .fail _, _ => []
  | .read i k, inp => (k (inp i)).writes inp
  | .store mark a _ k, inp => (mark, a) :: k.writes inp
  | .sub x y k, inp => (k (sub32 x y)).writes inp

/-! ### Erasing -/

@[simp] theorem erase_pure (a : α) : (Pure.pure a : Marked τ ε α).erase = Pure.pure a := rfl

@[simp] theorem erase_fail (e : ε) : (Marked.fail e : Marked τ ε α).erase = Prog.fail e := rfl

@[simp] theorem erase_bind (p : Marked τ ε α) (f : α → Marked τ ε β) :
    (p >>= f).erase = p.erase >>= fun a => (f a).erase := by
  show (p.bind f).erase = p.erase.bind fun a => (f a).erase
  induction p with
  | pure a => rfl
  | fail e => rfl
  | read i k ih => exact congrArg (Prog.read i) (funext ih)
  | store mark a b k ih => exact congrArg (Prog.store a b) ih
  | sub x y k ih => exact congrArg (Prog.sub x y) (funext ih)

@[simp] theorem erase_ofProg (mark : τ) (p : Prog ε α) : (ofProg mark p).erase = p := by
  induction p with
  | pure a => rfl
  | fail e => rfl
  | read i k ih => exact congrArg (Prog.read i) (funext ih)
  | store a b k ih => exact congrArg (Prog.store a b) ih
  | sub x y k ih => exact congrArg (Prog.sub x y) (funext ih)

theorem ofProg_bind (mark : τ) (p : Prog ε α) (f : α → Prog ε β) :
    ofProg mark (p >>= f) = ofProg mark p >>= fun a => ofProg mark (f a) := by
  show ofProg mark (p.bind f) = (ofProg mark p).bind fun a => ofProg mark (f a)
  induction p with
  | pure a => rfl
  | fail e => rfl
  | read i k ih => exact congrArg (Marked.read i) (funext ih)
  | store a b k ih => exact congrArg (Marked.store mark a b) ih
  | sub x y k ih => exact congrArg (Marked.sub x y) (funext ih)

/-! ### All stores of a run -/

/-- Every store of a run on `inp` has `P`. -/
def AllWrites (P : τ → ℕ → Prop) (p : Marked τ ε α) (inp : ℕ → UInt8) : Prop :=
  ∀ w ∈ p.writes inp, P w.1 w.2

section AllWrites

variable {P : τ → ℕ → Prop} {inp : ℕ → UInt8}

@[simp] theorem allWrites_pure (a : α) : (Pure.pure a : Marked τ ε α).AllWrites P inp := by
  intro w hw
  cases hw

@[simp] theorem allWrites_fail (e : ε) : (Marked.fail e : Marked τ ε α).AllWrites P inp := by
  intro w hw
  cases hw

theorem allWrites_store (mark : τ) (a : ℕ) (b : UInt8) (p : Marked τ ε α) :
    (Marked.store mark a b p).AllWrites P inp ↔ P mark a ∧ p.AllWrites P inp :=
  List.forall_mem_cons

/-- The second part of a sequence makes its stores when the first succeeds. -/
theorem allWrites_bind (p : Marked τ ε α) (f : α → Marked τ ε β) : (p >>= f).AllWrites P inp ↔
    p.AllWrites P inp ∧ ∀ a, p.erase.result inp = .ok a → (f a).AllWrites P inp := by
  show (p.bind f).AllWrites P inp ↔ _
  induction p with
  | pure a =>
      constructor
      · intro h
        refine ⟨allWrites_pure a, fun a' ha => ?_⟩
        cases ha
        exact h
      · intro h
        exact h.2 a rfl
  | fail e =>
      refine ⟨fun _ => ⟨allWrites_fail e, fun a ha => ?_⟩, fun _ => allWrites_fail e⟩
      cases ha
  | read i k ih => exact ih (inp i)
  | store mark a b k ih =>
      rw [allWrites_store, and_assoc]
      exact (allWrites_store mark a b (k.bind f)).trans (and_congr_right fun _ => ih)
  | sub x y k ih => exact ih (sub32 x y)

/-- With one mark, the stores are those of the program. -/
theorem allWrites_ofProg (mark : τ) (p : Prog ε α) :
    (ofProg mark p).AllWrites P inp ↔ ∀ a, Event.store a ∈ p.events inp → P mark a := by
  induction p with
  | pure a => exact iff_of_true (allWrites_pure a) fun a ha => by cases ha
  | fail e => exact iff_of_true (allWrites_fail e) fun a ha => by cases ha
  | read i k ih =>
      refine (ih (inp i)).trans (forall_congr' fun a => ?_)
      simp [Prog.events]
  | store a b k ih =>
      refine (allWrites_store mark a b _).trans ?_
      rw [ih]
      simp [Prog.events]
  | sub x y k ih =>
      refine (ih (sub32 x y)).trans (forall_congr' fun a => ?_)
      simp [Prog.events]

theorem allWrites_readN (mark : τ) (src n : ℕ) :
    (ofProg mark (Prog.readN src n : Prog ε _)).AllWrites P inp := by
  rw [allWrites_ofProg, Prog.events_readN]
  intro a ha
  obtain ⟨i, -, hread⟩ := mem_window.mp ha
  cases hread

theorem allWrites_storeAll (mark : τ) (dst : ℕ) (bs : List UInt8) :
    (ofProg mark (Prog.storeAll dst bs : Prog ε Unit)).AllWrites P inp ↔
      ∀ i < bs.length, P mark (dst + i) := by
  rw [allWrites_ofProg, Prog.events_storeAll]
  constructor
  · intro h i hi
    exact h _ (mem_window.mpr ⟨i, hi, rfl⟩)
  · intro h a ha
    obtain ⟨i, hi, hstore⟩ := mem_window.mp ha
    cases hstore
    exact h i hi

theorem allWrites_readN_bind (mark : τ) (src n : ℕ) (f : List UInt8 → Marked τ ε β) :
    (ofProg mark (Prog.readN src n) >>= f).AllWrites P inp ↔
      (f (window inp src n)).AllWrites P inp := by
  rw [allWrites_bind, erase_ofProg, Prog.result_readN]
  constructor
  · intro h
    exact h.2 _ rfl
  · intro h
    refine ⟨allWrites_readN mark src n, fun bs hbs => ?_⟩
    cases hbs
    exact h

theorem allWrites_storeAll_bind (mark : τ) (dst : ℕ) (bs : List UInt8) (f : Unit → Marked τ ε β) :
    (ofProg mark (Prog.storeAll dst bs) >>= f).AllWrites P inp ↔
      (∀ i < bs.length, P mark (dst + i)) ∧ (f ()).AllWrites P inp := by
  rw [allWrites_bind, allWrites_storeAll, erase_ofProg, Prog.result_storeAll]
  refine and_congr_right fun _ => ⟨fun h => h () rfl, fun h a _ => h⟩

end AllWrites

end Marked

end Imola.Progs
