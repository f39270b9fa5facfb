import Imola.Incremental

/-! # Draining a framed stream

A receiver keeps a buffer, parses as many frames from its front as it can, and after a
rejected frame drops symbols up to the next *synchronisation mark* (two adjacent symbols)
or, when there is none, all but the last symbol.  `drain` is that loop on one buffer; it
returns the frames and what stays buffered.

What stays buffered depends on where the reads were cut, the frames do not: `drain_append`
is the law for one cut, and `drain_rest` says that what stays holds no frame, so the law can
be repeated.  `drain_junk` says that symbols without a mark in front of a buffer are
dropped. -/

namespace Imola.Streams

variable {α β : Type}

/-- Distance to the first mark; the last symbol is never passed. -/
def scan (mark : α → α → Bool) : List α → ℕ
  | a :: b :: r => if mark a b then 0 else scan mark (b :: r) + 1
  | _ => 0

/-- Symbols dropped after a rejected frame: the search starts at the second symbol. -/
def resync (mark : α → α → Bool) (x : List α) : ℕ := scan mark x.tail + 1

/-- The loop, with a bound on the number of rounds. -/
def drainN (p : Parser α β) (mark : α → α → Bool) : ℕ → List α → List β × List α
  | 0, x => ([], x)
  | n + 1, x =>
      match p x with
      | .more => ([], x)
      | .reject => drainN p mark n (x.drop (resync mark x))
      | .done b r => (b :: (drainN p mark n r).1, (drainN p mark n r).2)

/-- The loop on a buffer: a round drops at least one symbol, so its length bounds the rounds. -/
def drain (p : Parser α β) (mark : α → α → Bool) (x : List α) : List β × List α :=
  drainN p mark x.length x

/-- `p` parses frames that start with a mark: it waits for `k` symbols, then rejects a buffer
that does not start with one. -/
structure Framed (p : Parser α β) (mark : α → α → Bool) (k : ℕ) : Prop where
  stable : Stable p
  progress : ∀ {x r : List α} {b : β}, p x = .done b r → r.length < x.length
  short : ∀ {x : List α}, x.length < k → p x = .more
  unmarked : ∀ {a b : α} {r : List α}, mark a b = false → k ≤ (a :: b :: r).length →
    p (a :: b :: r) = .reject
  two_le : 2 ≤ k

theorem drain_more {p : Parser α β} {mark : α → α → Bool} {x : List α} (h : p x = .more) :
    drain p mark x = ([], x) := by
  unfold drain
  cases x.length with
  | zero => rfl
  | succ n => simp only [drainN, h]

namespace Framed

variable {p : Parser α β} {mark : α → α → Bool} {k : ℕ} (hp : Framed p mark k)

theorem reject_length (hp : Framed p mark k) {x : List α} (h : p x = .reject) : k ≤ x.length := by
  by_contra hlt
  rw [hp.short (by omega)] at h
  cases h

include hp

/-- More rounds than symbols change nothing. -/
theorem drainN_eq (n : ℕ) (x : List α) (h : x.length ≤ n) : drainN p mark n x = drain p mark x := by
  have hstep : ∀ (m : ℕ) (z : List α), z.length ≤ m → ∀ n', z.length ≤ n' →
      drainN p mark m z = drainN p mark n' z := by
    intro m
    induction m with
    | zero =>
        intro z hz n' _
        have hnil : z = [] := List.eq_nil_of_length_eq_zero (by omega)
        have hk := hp.two_le
        have hmore : p z = .more := hp.short (by simp [hnil]; omega)
        cases n' with
        | zero => rfl
        | succ n' => simp only [drainN, hmore]
    | succ m ih =>
        intro z hz n' hn'
        have hk := hp.two_le
        cases hpz : p z with
        | more =>
            cases n' with
            | zero => simp only [drainN, hpz]
            | succ n' => simp only [drainN, hpz]
        | reject =>
            have hlen := hp.reject_length hpz
            obtain ⟨n', rfl⟩ : ∃ l, n' = l + 1 := ⟨n' - 1, by omega⟩
            have hdrop : (z.drop (resync mark z)).length < z.length := by
              rw [List.length_drop, resync]; omega
            simp only [drainN, hpz]
            exact ih _ (by omega) n' (by omega)
        | done b r =>
            have hlt := hp.progress hpz
            obtain ⟨n', rfl⟩ : ∃ l, n' = l + 1 := ⟨n' - 1, by omega⟩
            simp only [drainN, hpz]
            rw [ih r (by omega) n' (by omega)]
  exact hstep n x h x.length le_rfl

theorem drain_short {x : List α} (h : x.length < k) : drain p mark x = ([], x) :=
  drain_more (hp.short h)

theorem drain_reject {x : List α} (h : p x = .reject) :
    drain p mark x = drain p mark (x.drop (resync mark x)) := by
  have hlen := hp.reject_length h
  have hk := hp.two_le
  obtain ⟨n, hn⟩ : ∃ n, x.length = n + 1 := ⟨x.length - 1, by omega⟩
  have hdrop : (x.drop (resync mark x)).length ≤ n := by
    rw [List.length_drop, resync]; omega
  rw [← hp.drainN_eq (n + 1) x (by omega), ← hp.drainN_eq n _ hdrop]
  simp only [drainN, h]

theorem drain_done {x r : List α} {b : β} (h : p x = .done b r) :
    drain p mark x = (b :: (drain p mark r).1, (drain p mark r).2) := by
  have hlt := hp.progress h
  obtain ⟨n, hn⟩ : ∃ n, x.length = n + 1 := ⟨x.length - 1, by omega⟩
  rw [← hp.drainN_eq (n + 1) x (by omega), ← hp.drainN_eq n r (by omega)]
  simp only [drainN, h]

/-! ### Dropping unmarked symbols -/

/-- Dropping up to the next mark loses no frame. -/
theorem drain_scan (x : List α) : (drain p mark x).1 = (drain p mark (x.drop (scan mark x))).1 := by
  match x with
  | [] => rfl
  | [a] => rfl
  | a :: b :: r =>
      simp only [scan]
      split_ifs with hm
      · rfl
      · rcases Nat.lt_or_ge (a :: b :: r).length k with hlt | hge
        · rw [hp.drain_short hlt, hp.drain_short (by rw [List.length_drop]; omega)]
        · rw [hp.drain_reject (hp.unmarked (by simpa using hm) hge)]
          rfl

theorem drain_unmarked {a b : α} (r : List α) (h : mark a b = false) :
    (drain p mark (a :: b :: r)).1 = (drain p mark (b :: r)).1 := by
  rw [hp.drain_scan (a :: b :: r), hp.drain_scan (b :: r)]
  simp [scan, h]

theorem drain_reject_cons {a : α} {x : List α} (h : p (a :: x) = .reject) :
    (drain p mark (a :: x)).1 = (drain p mark x).1 := by
  rw [hp.drain_reject h, hp.drain_scan x]
  rfl

/-- The symbols a resynchronisation drops can also be dropped when more input follows. -/
theorem drain_drop_scan (x y : List α) :
    (drain p mark (x ++ y)).1 = (drain p mark (x.drop (scan mark x) ++ y)).1 := by
  induction x with
  | nil => rfl
  | cons a x ih =>
      cases x with
      | nil => rfl
      | cons b r =>
          by_cases hm : mark a b = true
          · simp [scan, hm]
          · have hm' : mark a b = false := by simpa using hm
            rw [List.cons_append, List.cons_append, hp.drain_unmarked (r ++ y) hm']
            rw [List.cons_append] at ih
            rw [ih]
            simp [scan, hm']

/-- **Junk in front of a buffer is dropped**: `u` holds no mark, and none starts at its end. -/
theorem drain_junk (u x : List α) (h : (u ++ x.take 1).IsChain (fun a b => mark a b = false)) :
    (drain p mark (u ++ x)).1 = (drain p mark x).1 := by
  induction u with
  | nil => rfl
  | cons a u ih =>
      cases u with
      | nil =>
          cases x with
          | nil =>
              have hk := hp.two_le
              rw [hp.drain_short (by simp; omega), hp.drain_short (by simp; omega)]
          | cons b r =>
              have hab : mark a b = false := by simpa using h
              exact hp.drain_unmarked r hab
      | cons b u =>
          have hab : mark a b = false := (List.isChain_cons_cons.mp h).1
          have htail := (List.isChain_cons_cons.mp h).2
          rw [List.cons_append, List.cons_append, hp.drain_unmarked (u ++ x) hab]
          exact ih htail

/-! ### Independence of the cuts -/

/-- **The frames of `x ++ y`** are those of `x`, then those of what stays of `x` followed by `y`. -/
theorem drain_append (x y : List α) :
    (drain p mark (x ++ y)).1 =
      (drain p mark x).1 ++ (drain p mark ((drain p mark x).2 ++ y)).1 := by
  induction hn : x.length using Nat.strong_induction_on generalizing x with
  | _ n ih =>
      cases hpx : p x with
      | more =>
          rw [drain_more hpx]
          rfl
      | reject =>
          have hlen := hp.reject_length hpx
          have hk := hp.two_le
          obtain ⟨a, t, rfl⟩ : ∃ a t, x = a :: t :=
            List.exists_cons_of_ne_nil (by rintro rfl; simp at hlen; omega)
          have hdrop : ((a :: t).drop (resync mark (a :: t))).length < n := by
            rw [List.length_drop, resync]; omega
          have hih := ih _ hdrop ((a :: t).drop (resync mark (a :: t))) rfl
          rw [hp.drain_reject hpx, ← hih, hp.drain_reject (hp.stable.reject_append y hpx)]
          have hcut : (drain p mark ((t ++ y).drop (scan mark (t ++ y)))).1 =
              (drain p mark (t.drop (scan mark t) ++ y)).1 := by
            rw [← hp.drain_scan, hp.drain_drop_scan]
          exact hcut
      | done b r =>
          have hlt := hp.progress hpx
          rw [hp.drain_done hpx, hp.drain_done (hp.stable.done_append y hpx),
            ih r.length (by omega) r rfl]
          rfl

/-- What stays buffered holds no complete frame. -/
theorem drain_rest (x : List α) : (drain p mark (drain p mark x).2).1 = [] := by
  have h := hp.drain_append x []
  rw [List.append_nil, List.append_nil] at h
  exact List.self_eq_append_right.mp h

end Framed

end Imola.Streams
