/-
Counting loops that may stop early. Nothing here names a program.

`upTo f n s` runs the body f with the counters 0, 1, ..., n - 1 on the state s; the body may give up with `none`, which
ends the loop. Two rules: `upTo_inv` (partial correctness: what each completed round keeps holds after the loop) and
`upTo_total` (if under the invariant no round gives up, the loop completes).

`untilFails f n` runs the body n times at most and keeps what the completed rounds did; `untilFails_eq` says which.
-/
import Mathlib.Tactic

namespace OpenASD.Loop

variable {σ : Type}

def upTo (f : ℕ → σ → Option σ) : ℕ → σ → Option σ
  | 0, s => some s
  | n + 1, s => (upTo f n s).bind (f n)

@[simp] theorem upTo_zero (f : ℕ → σ → Option σ) (s : σ) : upTo f 0 s = some s := rfl

theorem upTo_succ (f : ℕ → σ → Option σ) (n : ℕ) (s : σ) : upTo f (n + 1) s = (upTo f n s).bind (f n) := rfl

-- a loop over a large literal must not be unrolled by the unifier
attribute [irreducible] upTo

variable {f : ℕ → σ → Option σ}

/-- **Invariant rule.** -/
theorem upTo_inv (P : ℕ → σ → Prop) {n : ℕ} {s s' : σ} (h0 : P 0 s)
    (hstep : ∀ i t t', i < n → P i t → f i t = some t' → P (i + 1) t') (h : upTo f n s = some s') : P n s' := by
  induction n generalizing s' with
  | zero =>
    rw [upTo_zero] at h
    cases h
    exact h0
  | succ n ih =>
    rw [upTo_succ] at h
    obtain ⟨t, ht, hf⟩ := Option.bind_eq_some_iff.1 h
    refine hstep n t s' (Nat.lt_succ_self n) (ih ?_ ht) hf
    intro i t t' hi
    exact hstep i t t' (Nat.lt_succ_of_lt hi)

/-- **Completion rule.** -/
theorem upTo_total (P : ℕ → σ → Prop) {n : ℕ} {s : σ} (h0 : P 0 s)
    (hstep : ∀ i t, i < n → P i t → ∃ t', f i t = some t' ∧ P (i + 1) t') : ∃ s', upTo f n s = some s' ∧ P n s' := by
  induction n with
  | zero => exact ⟨s, upTo_zero f s, h0⟩
  | succ n ih =>
    obtain ⟨t, ht, hP⟩ := ih fun i t hi => hstep i t (Nat.lt_succ_of_lt hi)
    obtain ⟨t', ht', hP'⟩ := hstep n t (Nat.lt_succ_self n) hP
    refine ⟨t', ?_, hP'⟩
    rw [upTo_succ, ht]
    exact ht'

/-- the number of the round that gave up, or that would come next, and the state before it -/
def untilFails (f : ℕ → σ → Option σ) : ℕ → ℕ → σ → ℕ × σ
  | 0, i, s => (i, s)
  | n + 1, i, s =>
    match f i s with
    | none => (i, s)
    | some s => untilFails f n (i + 1) s

/-- **Rounds up to the first that gives up**, along the states g. -/
theorem untilFails_eq (g : ℕ → σ) {m n : ℕ} (hle : m ≤ n)
    (hok : ∀ i < m, f i (g i) = some (g (i + 1))) (hend : m < n → f m (g m) = none) : untilFails f n 0 (g 0) = (m, g m) := by
  have hrest : ∀ k i, i ≤ m → i + k = n → untilFails f k i (g i) = (m, g m) := by
    intro k
    induction k with
    | zero =>
      intro i hi hn
      obtain rfl : i = m := by omega
      rfl
    | succ k ih =>
      intro i hi hn
      rw [untilFails]
      rcases Nat.lt_or_eq_of_le hi with hlt | rfl
      · simp only [hok i hlt]
        exact ih (i + 1) hlt (by omega)
      · simp only [hend (by omega)]
  exact hrest n 0 (Nat.zero_le m) (Nat.zero_add n)

end OpenASD.Loop
