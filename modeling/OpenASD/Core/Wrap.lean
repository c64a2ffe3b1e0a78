/-
Free-running counters that wrap at 2^w. A counter shows the lowest w bits of a number that only grows; `dist` is the
wrapping difference of two counters.
- `dist_wrap`: it is the true difference, if that is below 2^w, wherever the counters wrap;
- `wrap_and_mask`: the mask of a power of two gives the remainder of the true number;
- `mod_ne`: numbers less than n apart have different remainders.
-/
import Mathlib.Data.Nat.Bitwise
import Mathlib.Tactic

namespace OpenASD.Wrap

def wrap (w x : ℕ) : ℕ := x % 2 ^ w

/-- the wrapping difference a - b -/
def dist (w a b : ℕ) : ℕ := (a + 2 ^ w - b) % 2 ^ w

theorem wrap_lt (w x : ℕ) : wrap w x < 2 ^ w := Nat.mod_lt _ (Nat.two_pow_pos w)

theorem wrap_wrap_add (w x n : ℕ) : wrap w (wrap w x + n) = wrap w (x + n) := Nat.mod_add_mod x (2 ^ w) n

theorem dist_wrap {w a b : ℕ} (hle : b ≤ a) (hlt : a - b < 2 ^ w) : dist w (wrap w a) (wrap w b) = a - b := by
  have hpos := Nat.two_pow_pos w
  obtain ⟨d, rfl⟩ := Nat.exists_eq_add_of_le hle
  rw [Nat.add_sub_cancel_left] at hlt ⊢
  unfold dist wrap
  generalize 2 ^ w = m at *
  have hb := Nat.mod_lt b hpos
  -- the sum wraps at most once
  have hsum : (b + d) % m = if b % m + d < m then b % m + d else b % m + d - m := by
    rw [← Nat.mod_add_mod]
    split_ifs with h
    · exact Nat.mod_eq_of_lt h
    · rw [Nat.mod_eq_sub_mod (Nat.le_of_not_lt h)]
      exact Nat.mod_eq_of_lt (by omega)
  rw [hsum]
  split_ifs with h
  · have e : b % m + d + m - b % m = d + m := by omega
    rw [e, Nat.add_mod_right]
    exact Nat.mod_eq_of_lt hlt
  · have e : b % m + d - m + m - b % m = d := by omega
    rw [e]
    exact Nat.mod_eq_of_lt hlt

theorem wrap_add_dist {w a b : ℕ} (ha : a < 2 ^ w) (hb : b < 2 ^ w) : wrap w (b + dist w a b) = a := by
  unfold wrap dist
  rw [Nat.add_mod_mod]
  have e : b + (a + 2 ^ w - b) = a + 2 ^ w := by omega
  rw [e, Nat.add_mod_right]
  exact Nat.mod_eq_of_lt ha

theorem wrap_and_mask {w k : ℕ} (hk : k ≤ w) (x : ℕ) : wrap w x &&& (2 ^ k - 1) = x % 2 ^ k := by
  rw [Nat.and_two_pow_sub_one_eq_mod]
  exact Nat.mod_mod_of_dvd x (pow_dvd_pow 2 hk)

theorem mod_ne {a b n : ℕ} (h1 : a < b) (h2 : b < a + n) : a % n ≠ b % n := by
  intro h
  have hd : n ∣ b - a := (Nat.modEq_iff_dvd' h1.le).1 h
  have := Nat.le_of_dvd (Nat.sub_pos_of_lt h1) hd
  omega

end OpenASD.Wrap
