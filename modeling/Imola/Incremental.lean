import Mathlib

/-! # Incremental parsers

A parser of a growing buffer gives one of three verdicts: it needs `more` input, it will
`reject` the buffer whatever follows, or it is `done` with a value and the unread rest.
`Stable p` says that the last two verdicts are stable when the buffer grows, which is
what makes a parser usable on a stream that arrives in pieces.  The primitives below have
this property and `bind` keeps it (`Stable.bind`), so a parser written with them is
stable by construction. -/

namespace Imola.Streams

/-- The verdict of a parser on the symbols buffered so far. -/
inductive Verdict (α β : Type) where
  | more
  | reject
  | done (b : β) (rest : List α)
deriving DecidableEq, Repr

/-- A parser reads a buffer and gives its verdict. -/
def Parser (α β : Type) : Type := List α → Verdict α β

namespace Parser

variable {α β γ : Type}

/-- Succeed without reading. -/
def pure (b : β) : Parser α β := fun x => .done b x

/-- Run `p`, then `f` on its value and on what `p` left unread. -/
def bind (p : Parser α β) (f : β → Parser α γ) : Parser α γ := fun x =>
  match p x with
  | .more => .more
  | .reject => .reject
  | .done b r => f b r

instance : Monad (Parser α) where
  pure := Parser.pure
  bind := Parser.bind

/-- Ask for `n` buffered symbols without reading them. -/
def atLeast (n : ℕ) : Parser α Unit := fun x =>
  if x.length < n then .more else .done () x

/-- Read one symbol. -/
def item : Parser α α
  | [] => .more
  | a :: r => .done a r

/-- Read `n` symbols at once. -/
def takeN (n : ℕ) : Parser α (List α) := fun x =>
  if x.length < n then .more else .done (x.take n) (x.drop n)

/-- Reject unless the condition holds. -/
def guard (c : Bool) : Parser α Unit := fun x => if c then .done () x else .reject

/-- Reject the buffer. -/
def fail : Parser α β := fun _ => .reject

/-- Leave out `n` symbols, or as many as there are. -/
def skip (n : ℕ) : Parser α Unit := fun x => .done () (x.drop n)

/-- Stop with `b` at the end of the buffer. -/
def orEnd (b : β) (p : Parser α β) : Parser α β := fun x => if x = [] then .done b x else p x

end Parser

/-! ### Stability under further input -/

variable {α β γ : Type}

/-- The final verdicts of `p` are stable, and what it leaves unread is a suffix of its buffer. -/
structure Stable (p : Parser α β) : Prop where
  done_append : ∀ {x r : List α} {b : β} (y : List α), p x = .done b r →
    p (x ++ y) = .done b (r ++ y)
  reject_append : ∀ {x : List α} (y : List α), p x = .reject → p (x ++ y) = .reject
  rest_suffix : ∀ {x r : List α} {b : β}, p x = .done b r → r <:+ x

theorem Stable.pure (b : β) : Stable (Pure.pure b : Parser α β) where
  done_append := by
    intro x r b' y h
    cases h
    rfl
  reject_append := by
    intro x y h
    cases h
  rest_suffix := by
    intro x r b' h
    cases h
    exact List.suffix_refl _

theorem bind_done {p : Parser α β} {f : β → Parser α γ} {x r : List α} {c : γ} :
    (p >>= f) x = .done c r ↔ ∃ b s, p x = .done b s ∧ f b s = .done c r := by
  show Parser.bind p f x = _ ↔ _
  unfold Parser.bind
  cases p x with
  | more => simp
  | reject => simp
  | done b s => simp

theorem bind_of_done {p : Parser α β} {f : β → Parser α γ} {x s : List α} {b : β}
    (h : p x = .done b s) : (p >>= f) x = f b s := by
  show Parser.bind p f x = _
  unfold Parser.bind
  rw [h]

theorem bind_of_more {p : Parser α β} {f : β → Parser α γ} {x : List α}
    (h : p x = .more) : (p >>= f) x = .more := by
  show Parser.bind p f x = _
  unfold Parser.bind
  rw [h]

theorem bind_of_reject {p : Parser α β} {f : β → Parser α γ} {x : List α}
    (h : p x = .reject) : (p >>= f) x = .reject := by
  show Parser.bind p f x = _
  unfold Parser.bind
  rw [h]

theorem bind_reject {p : Parser α β} {f : β → Parser α γ} {x : List α} :
    (p >>= f) x = .reject ↔ p x = .reject ∨ ∃ b s, p x = .done b s ∧ f b s = .reject := by
  show Parser.bind p f x = _ ↔ _
  unfold Parser.bind
  cases p x with
  | more => simp
  | reject => simp
  | done b s => simp

theorem Stable.bind {p : Parser α β} {f : β → Parser α γ} (hp : Stable p)
    (hf : ∀ b, Stable (f b)) : Stable (p >>= f) where
  done_append := by
    intro x r c y h
    obtain ⟨b, s, h₁, h₂⟩ := bind_done.mp h
    exact bind_done.mpr ⟨b, s ++ y, hp.done_append y h₁, (hf b).done_append y h₂⟩
  reject_append := by
    intro x y h
    rcases bind_reject.mp h with h₁ | ⟨b, s, h₁, h₂⟩
    · exact bind_of_reject (hp.reject_append y h₁)
    · rw [bind_of_done (hp.done_append y h₁)]
      exact (hf b).reject_append y h₂
  rest_suffix := by
    intro x r c h
    obtain ⟨b, s, h₁, h₂⟩ := bind_done.mp h
    exact ((hf b).rest_suffix h₂).trans (hp.rest_suffix h₁)

/-! ### The primitives -/

theorem Stable.atLeast (n : ℕ) : Stable (Parser.atLeast n : Parser α Unit) where
  done_append := by
    intro x r b y h
    simp only [Parser.atLeast] at h ⊢
    split_ifs at h with hn
    cases h
    rw [if_neg (by simp; omega)]
  reject_append := by
    intro x y h
    simp only [Parser.atLeast] at h
    split_ifs at h
  rest_suffix := by
    intro x r b h
    simp only [Parser.atLeast] at h
    split_ifs at h
    cases h
    exact List.suffix_refl _

theorem Stable.item : Stable (Parser.item : Parser α α) where
  done_append := by
    intro x r b y h
    cases x with
    | nil => cases h
    | cons a x => cases h; rfl
  reject_append := by
    intro x y h
    cases x with
    | nil => cases h
    | cons a x => cases h
  rest_suffix := by
    intro x r b h
    cases x with
    | nil => cases h
    | cons a x => cases h; exact List.suffix_cons _ _

theorem Stable.takeN (n : ℕ) : Stable (Parser.takeN n : Parser α (List α)) where
  done_append := by
    intro x r b y h
    simp only [Parser.takeN] at h ⊢
    split_ifs at h with hn
    cases h
    rw [if_neg (by simp; omega), List.take_append_of_le_length (by omega),
      List.drop_append_of_le_length (by omega)]
  reject_append := by
    intro x y h
    simp only [Parser.takeN] at h
    split_ifs at h
  rest_suffix := by
    intro x r b h
    simp only [Parser.takeN] at h
    split_ifs at h
    cases h
    exact List.drop_suffix _ _

theorem takeN_append {s : List α} {n : ℕ} (h : s.length = n) (rest : List α) :
    Parser.takeN n (s ++ rest) = .done s rest := by
  subst h
  simp [Parser.takeN]

theorem Stable.guard (c : Bool) : Stable (Parser.guard c : Parser α Unit) where
  done_append := by
    intro x r b y h
    simp only [Parser.guard] at h ⊢
    split_ifs at h ⊢
    cases h
    rfl
  reject_append := by
    intro x y h
    simp only [Parser.guard] at h ⊢
    split_ifs at h ⊢
    rfl
  rest_suffix := by
    intro x r b h
    simp only [Parser.guard] at h
    split_ifs at h
    cases h
    exact List.suffix_refl _

theorem Stable.fail : Stable (Parser.fail : Parser α β) where
  done_append := by
    intro x r b y h
    cases h
  reject_append := by
    intro x y h
    rfl
  rest_suffix := by
    intro x r b h
    cases h

/-- A parser that starts by reading a symbol consumes at least that symbol. -/
theorem item_bind_length_lt {f : α → Parser α β} (hf : ∀ a, Stable (f a)) {x r : List α} {b : β}
    (h : (Parser.item >>= f) x = .done b r) : r.length < x.length := by
  obtain ⟨a, s, h₁, h₂⟩ := bind_done.mp h
  have hle := ((hf a).rest_suffix h₂).length_le
  cases x with
  | nil => cases h₁
  | cons a' x => cases h₁; simpa using hle

/-! ### Parsers that find what they take -/

/-- In front of anything, `p` takes `v` or rejects. -/
def Consumes (p : Parser α β) (v : List α) : Prop :=
  ∀ r, p (v ++ r) = .reject ∨ ∃ b, p (v ++ r) = .done b r

theorem Consumes.pure (b : β) : Consumes (Pure.pure b : Parser α β) [] := fun _ => Or.inr ⟨b, rfl⟩

theorem Consumes.fail (v : List α) : Consumes (Parser.fail : Parser α β) v := fun _ => Or.inl rfl

theorem Consumes.takeN {v : List α} {n : ℕ} (h : v.length = n) : Consumes (Parser.takeN n) v :=
  fun r => Or.inr ⟨v, takeN_append h r⟩

theorem Consumes.skip {v : List α} {n : ℕ} (h : v.length = n) : Consumes (Parser.skip n) v := by
  subst h
  exact fun r => Or.inr ⟨(), by rw [Parser.skip, List.drop_left]⟩

theorem Consumes.bind {p : Parser α β} {f : β → Parser α γ} {v w : List α} (hp : Consumes p v)
    (hf : ∀ b, Consumes (f b) w) : Consumes (p >>= f) (v ++ w) := by
  intro r
  rw [List.append_assoc]
  rcases hp (w ++ r) with hreject | ⟨b, hdone⟩
  · exact Or.inl (bind_of_reject hreject)
  · rw [bind_of_done hdone]
    exact hf b r

theorem Consumes.map {p : Parser α β} {v : List α} (hp : Consumes p v) (g : β → γ) :
    Consumes (p >>= fun b => Pure.pure (g b)) v := by
  have hmap := hp.bind fun b => Consumes.pure (g b)
  rwa [List.append_nil] at hmap

theorem Consumes.bind_ne_more {p : Parser α β} {f : β → Parser α γ} {v r : List α}
    (hp : Consumes p v)
    (hf : ∀ b, f b r ≠ .more) : (p >>= f) (v ++ r) ≠ .more := by
  rcases hp r with hreject | ⟨b, hdone⟩
  · rw [bind_of_reject hreject]
    simp
  · rw [bind_of_done hdone]
    exact hf b

theorem map_ne_more {p : Parser α β} {x : List α} (h : p x ≠ .more) (g : β → γ) :
    (p >>= fun b => Pure.pure (g b)) x ≠ .more := by
  cases hp : p x with
  | more => exact absurd hp h
  | reject =>
      rw [bind_of_reject hp]
      simp
  | done b r =>
      rw [bind_of_done hp]
      exact fun hmore => by cases hmore

end Imola.Streams
