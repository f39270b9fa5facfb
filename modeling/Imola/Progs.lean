import Imola.Incremental
import Imola.Splice

/-! # Programs over a buffer

A `Prog` is a straight-line computation of C code that reads bytes of an input buffer, stores
bytes in an output memory and may fail.  It is a tree, so that besides its result
(`Prog.result`) and the memory it leaves (`Prog.memory`) the accesses it makes on the way can be
talked about (`Prog.events`), also those of a run that fails.  `sub` is a subtraction of unsigned
32-bit numbers, which wraps.

What a program does depends only on the bytes it reads (`Prog.congr_of_reads`).  `Sim` relates a
program to an incremental parser of the bytes before a bound: the parser wants more input exactly
when the program reads at or beyond the bound.  `Prog.Returns` is a property of the values a program
ends with, whatever it reads. -/

namespace Imola.Progs

open Imola.Splice Imola.Streams

/-- The accesses of a program. -/
inductive Event where
  | read (i : ℕ)
  | store (a : ℕ)
  | sub (x y : ℕ)
deriving DecidableEq, Repr

/-- Programs with errors in `ε` and a value in `α`. -/
inductive Prog (ε α : Type) where
  | pure (a : α)
  | fail (e : ε)
  | read (i : ℕ) (k : UInt8 → Prog ε α)
  | store (a : ℕ) (b : UInt8) (k : Prog ε α)
  | sub (x y : ℕ) (k : ℕ → Prog ε α)

/-- The difference of unsigned 32-bit numbers. -/
def sub32 (x y : ℕ) : ℕ := (x + (2 ^ 32 - y % 2 ^ 32)) % 2 ^ 32

theorem sub32_of_le {x y : ℕ} (hx : x < 2 ^ 32) (h : y ≤ x) : sub32 x y = x - y := by
  unfold sub32
  omega

namespace Prog

variable {ε α β : Type}

def bind : Prog ε α → (α → Prog ε β) → Prog ε β
  | .pure a, f => f a
  | .fail e, _ => .fail e
  | .read i k, f => .read i fun b => (k b).bind f
  | .store a b k, f => .store a b (k.bind f)
  | .sub x y k, f => .sub x y fun d => (k d).bind f

instance : Monad (Prog ε) where
  pure := Prog.pure
  bind := Prog.bind

/-- The value or the error of a run on the input `inp`. -/
def result : Prog ε α → (ℕ → UInt8) → Except ε α
  | .pure a, _ => .ok a
  | .fail e, _ => .error e
  | .read i k, inp => (k (inp i)).result inp
  | .store _ _ k, inp => k.result inp
  | .sub x y k, inp => (k (sub32 x y)).result inp

/-- The memory after a run that starts with `out`. -/
def memory : Prog ε α → (ℕ → UInt8) → (ℕ → UInt8) → (ℕ → UInt8)
  | .pure _, _, out => out
  | .fail _, _, out => out
  | .read i k, inp, out => (k (inp i)).memory inp out
  | .store a b k, inp, out => k.memory inp (Function.update out a b)
  | .sub x y k, inp, out => (k (sub32 x y)).memory inp out

/-- The accesses of a run, in order. -/
def events : Prog ε α → (ℕ → UInt8) → List Event
  | .pure _, _ => []
  | .fail _, _ => []
  | .read i k, inp => .read i :: (k (inp i)).events inp
  | .store a _ k, inp => .store a :: k.events inp
  | .sub x y k, inp => .sub x y :: (k (sub32 x y)).events inp

/-! ### Sequencing -/

variable {p : Prog ε α} {f : α → Prog ε β} {inp out : ℕ → UInt8} {a : α} {e : ε}

@[simp] theorem result_pure : (Pure.pure a : Prog ε α).result inp = .ok a := rfl

@[simp] theorem memory_pure : (Pure.pure a : Prog ε α).memory inp out = out := rfl

@[simp] theorem events_pure : (Pure.pure a : Prog ε α).events inp = [] := rfl

@[simp] theorem result_fail : (Prog.fail e : Prog ε α).result inp = .error e := rfl

@[simp] theorem memory_fail : (Prog.fail e : Prog ε α).memory inp out = out := rfl

@[simp] theorem events_fail : (Prog.fail e : Prog ε α).events inp = [] := rfl

@[simp] theorem pure_bind : (Pure.pure a >>= f) = f a := rfl

@[simp] theorem fail_bind : (Prog.fail e >>= f) = Prog.fail e := rfl

theorem bind_assoc {γ : Type} (p : Prog ε α) (f : α → Prog ε β) (g : β → Prog ε γ) :
    (p >>= f) >>= g = p >>= fun a => f a >>= g := by
  show (p.bind f).bind g = p.bind fun a => (f a).bind g
  induction p with
  | pure a => rfl
  | fail e => rfl
  | read i k ih => exact congrArg (Prog.read i) (funext ih)
  | store a b k ih => exact congrArg (Prog.store a b) ih
  | sub x y k ih => exact congrArg (Prog.sub x y) (funext ih)

theorem result_bind (p : Prog ε α) (f : α → Prog ε β) (inp : ℕ → UInt8) :
    (p >>= f).result inp = p.result inp >>= fun a => (f a).result inp := by
  show (p.bind f).result inp = _
  induction p with
  | pure a => rfl
  | fail e => rfl
  | read i k ih => exact ih (inp i)
  | store a b k ih => exact ih
  | sub x y k ih => exact ih (sub32 x y)

theorem result_bind_ok (h : p.result inp = .ok a) : (p >>= f).result inp = (f a).result inp := by
  rw [result_bind, h]
  rfl

theorem result_bind_error (h : p.result inp = .error e) : (p >>= f).result inp = .error e := by
  rw [result_bind, h]
  rfl

/-- A run of a sequence that succeeds has succeeded in its first part. -/
theorem ok_of_bind {b : β} (h : (p >>= f).result inp = .ok b) :
    ∃ a, p.result inp = .ok a ∧ (f a).result inp = .ok b := by
  rw [result_bind] at h
  cases hp : p.result inp with
  | error e =>
      rw [hp] at h
      cases h
  | ok a =>
      rw [hp] at h
      exact ⟨a, rfl, h⟩

theorem memory_bind_ok (h : p.result inp = .ok a) :
    (p >>= f).memory inp out = (f a).memory inp (p.memory inp out) := by
  show (p.bind f).memory inp out = _
  induction p generalizing out with
  | pure a' =>
      cases h
      rfl
  | fail e => cases h
  | read i k ih => exact ih (inp i) h
  | store a b k ih => exact ih h
  | sub x y k ih => exact ih (sub32 x y) h

theorem events_bind_ok (h : p.result inp = .ok a) :
    (p >>= f).events inp = p.events inp ++ (f a).events inp := by
  show (p.bind f).events inp = _
  induction p with
  | pure a' =>
      cases h
      rfl
  | fail e => cases h
  | read i k ih => exact congrArg (Event.read i :: ·) (ih (inp i) h)
  | store a b k ih => exact congrArg (Event.store a :: ·) (ih h)
  | sub x y k ih => exact congrArg (Event.sub x y :: ·) (ih (sub32 x y) h)

theorem events_bind_error (h : p.result inp = .error e) : (p >>= f).events inp = p.events inp := by
  show (p.bind f).events inp = _
  induction p with
  | pure a => cases h
  | fail e => rfl
  | read i k ih => exact congrArg (Event.read i :: ·) (ih (inp i) h)
  | store a b k ih => exact congrArg (Event.store a :: ·) (ih h)
  | sub x y k ih => exact congrArg (Event.sub x y :: ·) (ih (sub32 x y) h)

/-! ### What a run depends on -/

/-- **Only the bytes read matter.** -/
theorem congr_of_reads (p : Prog ε α) {inp inp' : ℕ → UInt8}
    (h : ∀ i, Event.read i ∈ p.events inp → inp' i = inp i) (out : ℕ → UInt8) :
    p.result inp' = p.result inp ∧ p.memory inp' out = p.memory inp out := by
  induction p generalizing out with
  | pure a => exact ⟨rfl, rfl⟩
  | fail e => exact ⟨rfl, rfl⟩
  | read i k ih =>
      have hi : inp' i = inp i := h i (List.mem_cons_self ..)
      have hk := ih (inp i) (fun j hj => h j (List.mem_cons_of_mem _ hj)) out
      simp only [result, memory, hi]
      exact hk
  | store a b k ih => exact ih (fun j hj => h j (List.mem_cons_of_mem _ hj)) _
  | sub x y k ih => exact ih (sub32 x y) (fun j hj => h j (List.mem_cons_of_mem _ hj)) out

/-! ### Blocks of bytes -/

/-- Read `n` bytes from `src` on. -/
def readN (src : ℕ) : ℕ → Prog ε (List UInt8)
  | 0 => .pure []
  | n + 1 => .read src fun b => (readN (src + 1) n).bind fun bs => .pure (b :: bs)

/-- Store the bytes `bs` from `dst` on. -/
def storeAll (dst : ℕ) : List UInt8 → Prog ε Unit
  | [] => .pure ()
  | b :: bs => .store dst b (storeAll (dst + 1) bs)

@[simp] theorem result_readN (src n : ℕ) (inp : ℕ → UInt8) :
    (readN src n : Prog ε (List UInt8)).result inp = .ok (window inp src n) := by
  induction n generalizing src with
  | zero => rfl
  | succ n ih =>
      show ((readN (src + 1) n >>= fun bs => Pure.pure (inp src :: bs)) : Prog ε _).result inp = _
      rw [result_bind_ok (ih (src + 1)), result_pure, window_succ]

@[simp] theorem memory_readN (src n : ℕ) (inp out : ℕ → UInt8) :
    (readN src n : Prog ε (List UInt8)).memory inp out = out := by
  induction n generalizing src with
  | zero => rfl
  | succ n ih =>
      show ((readN (src + 1) n >>= fun bs => Pure.pure (inp src :: bs)) : Prog ε _).memory inp out =
        _
      rw [memory_bind_ok (result_readN (src + 1) n inp), memory_pure, ih]

theorem events_readN (src n : ℕ) (inp : ℕ → UInt8) :
    (readN src n : Prog ε (List UInt8)).events inp = window Event.read src n := by
  induction n generalizing src with
  | zero => rfl
  | succ n ih =>
      show Event.read src ::
        ((readN (src + 1) n >>= fun bs => Pure.pure (inp src :: bs)) : Prog ε _).events inp = _
      rw [events_bind_ok (result_readN (src + 1) n inp), events_pure, List.append_nil, ih,
        window_succ]

@[simp] theorem result_storeAll (dst : ℕ) (bs : List UInt8) (inp : ℕ → UInt8) :
    (storeAll dst bs : Prog ε Unit).result inp = .ok () := by
  induction bs generalizing dst with
  | nil => rfl
  | cons b bs ih => exact ih (dst + 1)

@[simp] theorem memory_storeAll (dst : ℕ) (bs : List UInt8) (inp out : ℕ → UInt8) :
    (storeAll dst bs : Prog ε Unit).memory inp out = overlay out dst bs := by
  induction bs generalizing dst out with
  | nil =>
      funext p
      simp [storeAll, memory, overlay]
  | cons b bs ih =>
      show (storeAll (dst + 1) bs : Prog ε Unit).memory inp (Function.update out dst b) = _
      rw [ih]
      funext p
      simp only [overlay]
      rcases Nat.lt_trichotomy p dst with hp | rfl | hp
      · rw [if_neg (by omega), if_neg (by omega), Function.update_of_ne (by omega)]
      · rw [if_neg (by omega), if_pos le_rfl, Function.update_self, Nat.sub_self]
        rfl
      · have hsucc : p - dst = p - (dst + 1) + 1 := by omega
        rw [if_pos (by omega), if_pos (by omega), Function.update_of_ne (by omega), hsucc,
          List.getD_cons_succ]

theorem events_storeAll (dst : ℕ) (bs : List UInt8) (inp : ℕ → UInt8) :
    (storeAll dst bs : Prog ε Unit).events inp = window Event.store dst bs.length := by
  induction bs generalizing dst with
  | nil => rfl
  | cons b bs ih =>
      show Event.store dst :: (storeAll (dst + 1) bs : Prog ε Unit).events inp = _
      rw [ih, List.length_cons, window_succ]

end Prog

/-! ### Writing a block -/

/-- When `p` succeeds, its value is `a` and it has stored the bytes `bs` from `pos` on, and
nothing else. -/
def Writes {ε α : Type} (p : Prog ε α) (pos : ℕ) (bs : List UInt8) (a : α) : Prop :=
  ∀ inp a', p.result inp = .ok a' → a' = a ∧ ∀ out, p.memory inp out = overlay out pos bs

section Writes

variable {ε α β : Type} {p : Prog ε α} {f : α → Prog ε β} {pos : ℕ} {bs cs : List UInt8}
    {a : α} {b : β}

theorem Writes.pure (a : α) (pos : ℕ) : Writes (Pure.pure a : Prog ε α) pos [] a := by
  intro inp a' h
  cases h
  exact ⟨rfl, fun out => (overlay_nil out pos).symm⟩

theorem Writes.fail (e : ε) (pos : ℕ) (bs : List UInt8) (a : α) :
    Writes (Prog.fail e) pos bs a := by
  intro inp a' h
  cases h

theorem Writes.storeAll (pos : ℕ) (bs : List UInt8) :
    Writes (Prog.storeAll pos bs : Prog ε Unit) pos bs () :=
  fun inp _ _ => ⟨rfl, fun out => Prog.memory_storeAll pos bs inp out⟩

theorem Writes.sub {x y : ℕ} {k : ℕ → Prog ε α} (h : ∀ d, Writes (k d) pos bs a) :
    Writes (Prog.sub x y k) pos bs a :=
  fun inp a' hr => h (sub32 x y) inp a' hr

theorem Writes.bind_overlay {pos' : ℕ} (hp : Writes p pos bs a) (hf : Writes (f a) pos' cs b)
    {inp : ℕ → UInt8} {b' : β}
    (h : (p >>= f).result inp = .ok b') :
    b' = b ∧ ∀ out, (p >>= f).memory inp out = overlay (overlay out pos bs) pos' cs := by
  obtain ⟨a', hp', hf'⟩ := Prog.ok_of_bind h
  obtain ⟨rfl, hmem⟩ := hp inp a' hp'
  obtain ⟨rfl, hmem'⟩ := hf inp b' hf'
  refine ⟨rfl, fun out => ?_⟩
  rw [Prog.memory_bind_ok hp', hmem, hmem']

theorem Writes.bind (hp : Writes p pos bs a) (hf : Writes (f a) (pos + bs.length) cs b) :
    Writes (p >>= f) pos (bs ++ cs) b := by
  intro inp b' h
  obtain ⟨hb, hmem⟩ := hp.bind_overlay hf h
  exact ⟨hb, fun out => (hmem out).trans (overlay_append out pos bs cs)⟩

theorem Writes.seq {q : Prog ε β} (hp : Writes p pos bs a) (hq : Writes q (pos + bs.length) cs b) :
    Writes (p >>= fun _ => q) pos (bs ++ cs) b :=
  hp.bind hq

theorem Writes.storeAll_pure (pos : ℕ) (bs : List UInt8) (a : α) :
    Writes (Prog.storeAll pos bs >>= fun _ => Pure.pure a : Prog ε α) pos bs a := by
  have hw := (@Writes.storeAll ε pos bs).seq (Writes.pure a (pos + bs.length))
  rwa [List.append_nil] at hw

theorem Writes.bind_front (hp : Writes p (pos + cs.length) bs a) (hf : Writes (f a) pos cs b) :
    Writes (p >>= f) pos (cs ++ bs) b := by
  intro inp b' h
  obtain ⟨hb, hmem⟩ := hp.bind_overlay hf h
  exact ⟨hb, fun out => (hmem out).trans (overlay_prepend out pos cs bs)⟩

end Writes

/-! ### Copying blocks -/

/-- On the input `inp`, `p` succeeds with `a`, and it leaves the values of `m` in the blocks `B` and
nothing else. -/
def Copies {ε α : Type} (p : Prog ε α) (inp m : ℕ → UInt8) (a : α) (B : List (ℕ × ℕ)) : Prop :=
  p.result inp = .ok a ∧ ∀ out, p.memory inp out = copied B m out

section Copies

variable {ε α β : Type} {p : Prog ε α} {f : α → Prog ε β} {inp m : ℕ → UInt8} {a : α} {b : β}
  {B C : List (ℕ × ℕ)}

theorem Copies.pure (inp m : ℕ → UInt8) (a : α) : Copies (Pure.pure a : Prog ε α) inp m a [] :=
  ⟨rfl, fun out => (copied_nil m out).symm⟩

theorem Copies.bind (hp : Copies p inp m a B) (hf : Copies (f a) inp m b C) :
    Copies (p >>= f) inp m b (B ++ C) := by
  refine ⟨(Prog.result_bind_ok hp.1).trans hf.1, fun out => ?_⟩
  rw [Prog.memory_bind_ok hp.1, hp.2, hf.2, copied_append]

theorem Copies.map (hp : Copies p inp m a B) (g : α → β) :
    Copies (p >>= fun a => Pure.pure (g a)) inp m (g a) B := by
  have hg := hp.bind (f := fun a => Pure.pure (g a)) (Copies.pure inp m (g a))
  rwa [List.append_nil] at hg

theorem Copies.congr (hp : Copies p inp m a B) (h : ∀ out, copied B m out = copied C m out) :
    Copies p inp m a C :=
  ⟨hp.1, fun out => (hp.2 out).trans (h out)⟩

theorem Copies.readN_bind {g : List UInt8 → Prog ε β} {src n : ℕ} {bs : List UInt8}
    (hbs : window inp src n = bs) (hg : Copies (g bs) inp m b C) :
    Copies (Prog.readN src n >>= g) inp m b C := by
  have hres : (Prog.readN src n : Prog ε _).result inp = .ok bs := by rw [Prog.result_readN, hbs]
  refine ⟨(Prog.result_bind_ok hres).trans hg.1, fun out => ?_⟩
  rw [Prog.memory_bind_ok hres, Prog.memory_readN, hg.2]

theorem Copies.storeAll_bind {q : Prog ε β} {dst n : ℕ} {bs : List UInt8}
    (hbs : bs = window m dst n)
    (hq : Copies q inp m b C) :
    Copies (Prog.storeAll dst bs >>= fun _ => q) inp m b ((dst, n) :: C) := by
  refine ⟨(Prog.result_bind_ok (Prog.result_storeAll dst bs inp)).trans hq.1, fun out => ?_⟩
  rw [Prog.memory_bind_ok (Prog.result_storeAll dst bs inp), Prog.memory_storeAll, hq.2, hbs,
    overlay_window, copied_append, List.singleton_append]

end Copies

section Stores

variable {ε α : Type} {inp : ℕ → UInt8} {i : ℕ}

/-- What a byte is after a run depends on no other byte of the memory. -/
theorem Prog.memory_congr (p : Prog ε α) {out out' : ℕ → UInt8} (h : out i = out' i) :
    p.memory inp out i = p.memory inp out' i := by
  induction p generalizing out out' with
  | pure a => exact h
  | fail e => exact h
  | read j k ih => exact ih (inp j) h
  | store a b k ih =>
      refine ih ?_
      by_cases hi : i = a
      · rw [hi, Function.update_self, Function.update_self]
      · rw [Function.update_of_ne hi, Function.update_of_ne hi, h]
  | sub x y k ih => exact ih (sub32 x y) h

/-- A byte that is stored to does not keep its value. -/
theorem Prog.memory_of_store {p : Prog ε α} (h : Event.store i ∈ p.events inp)
    (out out' : ℕ → UInt8) :
    p.memory inp out i = p.memory inp out' i := by
  induction p generalizing out out' with
  | pure a => cases h
  | fail e => cases h
  | read j k ih =>
      rcases List.mem_cons.mp h with heq | hmem
      · cases heq
      · exact ih (inp j) hmem out out'
  | store a b k ih =>
      rcases List.mem_cons.mp h with heq | hmem
      · cases heq
        refine k.memory_congr ?_
        rw [Function.update_self, Function.update_self]
      · exact ih hmem _ _
  | sub x y k ih =>
      rcases List.mem_cons.mp h with heq | hmem
      · cases heq
      · exact ih (sub32 x y) hmem out out'

/-- A run that leaves everything outside the blocks alone stores in the blocks. -/
theorem Copies.store_mem {p : Prog ε α} {m : ℕ → UInt8} {a : α} {B : List (ℕ × ℕ)}
    (hp : Copies p inp m a B)
    (hi : Event.store i ∈ p.events inp) : ∃ r ∈ B, r.1 ≤ i ∧ i < r.1 + r.2 := by
  by_contra hout
  have hsame := Prog.memory_of_store hi (fun _ => 0) fun _ => 1
  rw [hp.2, hp.2, copied, copied, if_neg hout, if_neg hout] at hsame
  exact absurd hsame (by decide)

end Stores

/-! ### Reading inside a buffer -/

/-- A run reads only below `bound`. -/
def Prog.ReadsBelow {ε α : Type} (p : Prog ε α) (inp : ℕ → UInt8) (bound : ℕ) : Prop :=
  ∀ i, Event.read i ∈ p.events inp → i < bound

theorem Prog.exists_readsBelow {ε α : Type} (p : Prog ε α) (inp : ℕ → UInt8) :
    ∃ bound, p.ReadsBelow inp bound := by
  unfold Prog.ReadsBelow
  induction p.events inp with
  | nil => exact ⟨0, fun i hi => by cases hi⟩
  | cons ev l ih =>
      obtain ⟨bound, hbound⟩ := ih
      cases ev with
      | read j =>
          refine ⟨max bound (j + 1), fun i hi => ?_⟩
          rcases List.mem_cons.mp hi with heq | hi
          · cases heq
            omega
          · have := hbound i hi
            omega
      | _ =>
          refine ⟨bound, fun i hi => hbound i ?_⟩
          simpa using hi

/-- On the bytes from `pos` to `bound`, the parser `g` wants more when `p` reads behind them,
rejects when `p` fails, and else they agree on the value and on the position that is reached. -/
def Sim {ε α β : Type} (p : Prog ε α) (g : Parser UInt8 β) (inp : ℕ → UInt8) (bound pos : ℕ)
    (val : β → α)
    (next : β → ℕ) : Prop :=
  match g (window inp pos (bound - pos)) with
  | .more => ¬ p.ReadsBelow inp bound
  | .reject => (∃ e, p.result inp = .error e) ∧ p.ReadsBelow inp bound
  | .done b rest => p.result inp = .ok (val b) ∧ p.ReadsBelow inp bound ∧
      rest = window inp (next b) (bound - next b)

section Sim

variable {ε α β γ δ : Type} {p : Prog ε α} {f : α → Prog ε γ} {g : Parser UInt8 β}
    {h : β → Parser UInt8 δ}
  {inp : ℕ → UInt8} {bound pos : ℕ} {val : β → α} {next : β → ℕ} {val' : δ → γ} {next' : δ → ℕ}

theorem Prog.readsBelow_of_result {a : α} (hp : p.result inp = .ok a) :
    (p >>= f).ReadsBelow inp bound ↔ p.ReadsBelow inp bound ∧ (f a).ReadsBelow inp bound := by
  simp only [Prog.ReadsBelow, Prog.events_bind_ok hp, List.mem_append]
  constructor
  · intro h
    exact ⟨fun i hi => h i (Or.inl hi), fun i hi => h i (Or.inr hi)⟩
  · rintro ⟨h₁, h₂⟩ i (hi | hi)
    · exact h₁ i hi
    · exact h₂ i hi

theorem Prog.ReadsBelow.of_bind (h : (p >>= f).ReadsBelow inp bound) : p.ReadsBelow inp bound := by
  intro i hi
  apply h i
  cases hp : p.result inp with
  | ok a =>
      rw [Prog.events_bind_ok hp]
      exact List.mem_append_left _ hi
  | error e =>
      rw [Prog.events_bind_error hp]
      exact hi

theorem Prog.readsBelow_map (φ : α → γ) :
    (p >>= fun a => Pure.pure (φ a)).ReadsBelow inp bound ↔ p.ReadsBelow inp bound := by
  constructor
  · exact Prog.ReadsBelow.of_bind
  · intro h
    cases hp : p.result inp with
    | ok a => exact (Prog.readsBelow_of_result hp).mpr ⟨h, fun i hi => by cases hi⟩
    | error e =>
        rw [Prog.ReadsBelow, Prog.events_bind_error hp]
        exact h

theorem Prog.readsBelow_readN_bind {k : List UInt8 → Prog ε α} {src n : ℕ} (hn : src + n ≤ bound) :
    (Prog.readN src n >>= k).ReadsBelow inp bound ↔
    (k (window inp src n)).ReadsBelow inp bound := by
  have hread : (Prog.readN src n : Prog ε _).ReadsBelow inp bound := by
    intro i hi
    rw [Prog.events_readN, window, List.mem_map] at hi
    obtain ⟨j, hj, heq⟩ := hi
    have hj' := List.mem_range.mp hj
    cases heq
    omega
  rw [Prog.readsBelow_of_result (Prog.result_readN src n inp)]
  exact ⟨fun h => h.2, fun h => ⟨hread, h⟩⟩

/-- What lies behind the bound does not matter. -/
theorem Prog.ReadsBelow.congr (h : p.ReadsBelow inp bound) {inp' : ℕ → UInt8}
    (heq : ∀ i < bound, inp' i = inp i) (out : ℕ → UInt8) :
    p.result inp' = p.result inp ∧ p.memory inp' out = p.memory inp out :=
  p.congr_of_reads (fun i hi => heq i (h i hi)) out

/-- **A run stays below the bound exactly when the parser does not want more.** -/
theorem Sim.readsBelow_iff (hs : Sim p g inp bound pos val next) :
    p.ReadsBelow inp bound ↔ g (window inp pos (bound - pos)) ≠ .more := by
  unfold Sim at hs
  cases hg : g (window inp pos (bound - pos)) with
  | more =>
      rw [hg] at hs
      exact ⟨fun hr => absurd hr hs, fun hne => absurd rfl hne⟩
  | reject =>
      rw [hg] at hs
      exact ⟨fun _ => by simp, fun _ => hs.2⟩
  | done b rest =>
      rw [hg] at hs
      exact ⟨fun _ => by simp, fun _ => hs.2.1⟩

theorem Sim.pure {a : α} {b : β} (hval : a = val b) (hnext : next b = pos) :
    Sim (Pure.pure a : Prog ε α) (Pure.pure b) inp bound pos val next := by
  show _ ∧ _ ∧ _
  refine ⟨congrArg Except.ok hval, ?_, ?_⟩
  · intro i hi
    cases hi
  · rw [hnext]

theorem Sim.fail (e : ε) : Sim (Prog.fail e : Prog ε α) Parser.fail inp bound pos val next := by
  show _ ∧ _
  constructor
  · exact ⟨e, rfl⟩
  · intro i hi
    cases hi

theorem Sim.readN (n : ℕ) :
    Sim (Prog.readN pos n : Prog ε _) (Parser.takeN n) inp bound pos id fun _ => pos + n := by
  unfold Sim Parser.takeN
  rw [window_length]
  by_cases hn : bound - pos < n
  · rw [if_pos hn]
    intro hr
    have hlast : Event.read (pos + (n - 1)) ∈ (Prog.readN pos n : Prog ε _).events inp := by
      rw [Prog.events_readN, window]
      exact List.mem_map_of_mem (List.mem_range.mpr (by omega))
    have := hr _ hlast
    omega
  · have hsplit : window inp pos (bound - pos) = window inp pos n ++ window inp (pos + n)
        (bound - (pos + n)) := by
      rw [← window_add]
      congr 1
      omega
    rw [if_neg hn, hsplit]
    refine ⟨?_, ?_, ?_⟩
    · rw [Prog.result_readN, List.take_left' (window_length _ _ _)]
      rfl
    · intro i hi
      rw [Prog.events_readN, window, List.mem_map] at hi
      obtain ⟨j, hj, heq⟩ := hi
      have hj' := List.mem_range.mp hj
      cases heq
      omega
    · rw [List.drop_left' (window_length _ _ _)]

theorem Sim.bind (hp : Sim p g inp bound pos val next)
    (hf : ∀ b, Sim (f (val b)) (h b) inp bound (next b) val' next') :
    Sim (p >>= f) (g >>= h) inp bound pos val' next' := by
  unfold Sim at hp
  cases hg : g (window inp pos (bound - pos)) with
  | more =>
      rw [hg] at hp
      unfold Sim
      rw [bind_of_more hg]
      exact fun hr => hp hr.of_bind
  | reject =>
      rw [hg] at hp
      obtain ⟨⟨e, he⟩, hr⟩ := hp
      unfold Sim
      rw [bind_of_reject hg]
      constructor
      · exact ⟨e, Prog.result_bind_error he⟩
      · rw [Prog.ReadsBelow, Prog.events_bind_error he]
        exact hr
  | done b rest =>
      rw [hg] at hp
      obtain ⟨hres, hr, rfl⟩ := hp
      have hb := hf b
      have hreads := @Prog.readsBelow_of_result ε α γ p f inp bound (val b) hres
      unfold Sim at hb ⊢
      rw [bind_of_done hg, Prog.result_bind_ok hres]
      cases hh : h b (window inp (next b) (bound - next b)) with
      | more =>
          rw [hh] at hb
          exact fun hr' => hb (hreads.mp hr').2
      | reject =>
          rw [hh] at hb
          exact ⟨hb.1, hreads.mpr ⟨hr, hb.2⟩⟩
      | done d rest =>
          rw [hh] at hb
          exact ⟨hb.1, hreads.mpr ⟨hr, hb.2.1⟩, hb.2.2⟩

theorem Sim.storeAll_bind (hp : Sim p g inp bound pos val next) (dst : ℕ) (bs : List UInt8) :
    Sim (Prog.storeAll dst bs >>= fun _ => p) g inp bound pos val next := by
  have hstore : Sim (Prog.storeAll dst bs : Prog ε Unit) (Pure.pure ()) inp bound pos id
      fun _ => pos := by
    refine ⟨Prog.result_storeAll dst bs inp, ?_, rfl⟩
    intro i hi
    rw [Prog.events_storeAll, window, List.mem_map] at hi
    obtain ⟨j, -, heq⟩ := hi
    cases heq
  exact hstore.bind (f := fun _ => p) (h := fun _ => g) fun _ => hp

theorem Sim.map {φ : β → δ} {val' : δ → α} (hp : Sim p g inp bound pos val next)
    (hval : ∀ b, val' (φ b) = val b) (hnext : ∀ b, next' (φ b) = next b) :
    Sim p (g >>= fun b => Pure.pure (φ b)) inp bound pos val' next' := by
  unfold Sim at hp ⊢
  cases hg : g (window inp pos (bound - pos)) with
  | more =>
      rw [hg] at hp
      rw [bind_of_more hg]
      exact hp
  | reject =>
      rw [hg] at hp
      rw [bind_of_reject hg]
      exact hp
  | done b rest =>
      rw [hg] at hp
      rw [bind_of_done hg]
      show _ ∧ _ ∧ _
      rw [hval, hnext]
      exact hp

/-- Bytes that are left out are not read. -/
theorem Sim.skip_bind {q : Unit → Parser UInt8 β} (n : ℕ)
    (hp : Sim p (q ()) inp bound (pos + n) val next) :
    Sim p (Parser.skip n >>= q) inp bound pos val next := by
  have hdrop : (window inp pos (bound - pos)).drop n =
      window inp (pos + n) (bound - (pos + n)) := by
    by_cases hn : n ≤ bound - pos
    · have hsplit : bound - pos = n + (bound - (pos + n)) := by omega
      rw [hsplit, window_add, List.drop_left' (window_length _ _ _)]
    · have hzero : bound - (pos + n) = 0 := by omega
      rw [hzero, List.drop_eq_nil_of_le (by rw [window_length]; omega)]
      rfl
  have hskip : Parser.skip n (window inp pos (bound - pos)) =
      .done () (window inp (pos + n) (bound - (pos + n))) := by
    rw [Parser.skip, hdrop]
  unfold Sim at hp ⊢
  rw [bind_of_done hskip]
  exact hp

theorem Sim.orEnd {b : β} (hend : bound ≤ pos → Sim p (Pure.pure b) inp bound pos val next)
    (hmore : pos < bound → Sim p g inp bound pos val next) :
    Sim p (Parser.orEnd b g) inp bound pos val next := by
  by_cases hpos : pos < bound
  · have hne : window inp pos (bound - pos) ≠ [] := by
      apply List.ne_nil_of_length_pos
      rw [window_length]
      omega
    have hs := hmore hpos
    unfold Sim Parser.orEnd at *
    rw [if_neg hne]
    exact hs
  · have hzero : bound - pos = 0 := by omega
    have hs := hend (by omega)
    unfold Sim Parser.orEnd at *
    rw [hzero] at hs ⊢
    exact hs

end Sim

/-! ### What a program can return -/

/-- Every value `p` can return satisfies `P`. -/
def Prog.Returns {ε α : Type} (P : α → Prop) : Prog ε α → Prop
  | .pure a => P a
  | .fail _ => True
  | .read _ k => ∀ b, (k b).Returns P
  | .store _ _ k => k.Returns P
  | .sub _ _ k => ∀ d, (k d).Returns P

section Returns

variable {ε α β : Type} {p : Prog ε α} {f f' : α → Prog ε β} {P : α → Prop} {Q : β → Prop}

theorem Prog.Returns.bind (hp : p.Returns P) (hf : ∀ a, P a → (f a).Returns Q) :
    (p >>= f).Returns Q := by
  show (p.bind f).Returns Q
  induction p with
  | pure a => exact hf a hp
  | fail e => trivial
  | read i k ih => exact fun b => ih b (hp b)
  | store a b k ih => exact ih hp
  | sub x y k ih => exact fun d => ih d (hp d)

theorem Prog.Returns.mono {P' : α → Prop} (hp : p.Returns P) (h : ∀ a, P a → P' a) :
    p.Returns P' := by
  induction p with
  | pure a => exact h a hp
  | fail e => trivial
  | read i k ih => exact fun b => ih b (hp b)
  | store a b k ih => exact ih hp
  | sub x y k ih => exact fun d => ih d (hp d)

theorem Prog.returns_true (p : Prog ε α) : p.Returns fun _ => True := by
  induction p with
  | pure a => trivial
  | fail e => trivial
  | read i k ih => exact ih
  | store a b k ih => exact ih
  | sub x y k ih => exact ih

theorem Prog.Returns.result (hp : p.Returns P) {inp : ℕ → UInt8} {a : α}
    (h : p.result inp = .ok a) :
    P a := by
  induction p with
  | pure a' =>
      cases h
      exact hp
  | fail e => cases h
  | read i k ih => exact ih _ (hp _) h
  | store a' b k ih => exact ih hp h
  | sub x y k ih => exact ih _ (hp _) h

theorem Prog.Returns.bind_congr (hp : p.Returns P) (h : ∀ a, P a → f a = f' a) :
    p >>= f = p >>= f' := by
  show p.bind f = p.bind f'
  induction p with
  | pure a => exact h a hp
  | fail e => rfl
  | read i k ih => exact congrArg (Prog.read i) (funext fun b => ih b (hp b))
  | store a b k ih => exact congrArg (Prog.store a b) (ih hp)
  | sub x y k ih => exact congrArg (Prog.sub x y) (funext fun d => ih d (hp d))

end Returns

end Imola.Progs
