/-
A bitmap in byte memory: bit i of the map at address a is bit i % 8 of the byte at a + i / 8. Nothing here names a
program.

Results: setting and clearing a bit change that bit and no other (`bit_setBit`, `bit_clearBit`) and no byte but its own
(`setBit_out`, `clearBit_out`); the number of clear bits moves by one (`zeros_setBit`, `zeros_clearBit`); and the search
for the first clear bit finds one exactly when there is one (`firstZero_some`, `firstZero_none`).
-/
import OpenASD.Core.ByteMem

namespace OpenASD.Bitmap

open ByteMem
open List (mem_range range)

def bit (m : Mem) (a i : ℕ) : Bool := (m (a + i / 8)).toNat.testBit (i % 8)

/-- `map[i / 8] |= 1 << (i % 8)` -/
def setBit (m : Mem) (a i : ℕ) : Mem :=
  Function.update m (a + i / 8) (UInt8.ofNat ((m (a + i / 8)).toNat ||| 2 ^ (i % 8)))

/-- `map[i / 8] &= ~(1 << (i % 8))` -/
def clearBit (m : Mem) (a i : ℕ) : Mem :=
  Function.update m (a + i / 8) (UInt8.ofNat ((m (a + i / 8)).toNat &&& (2 ^ 8 - 1 ^^^ 2 ^ (i % 8))))

variable {a i n : ℕ} {m : Mem}

theorem setBit_out {x : ℕ} (h : x ≠ a + i / 8) : setBit m a i x = m x := Function.update_of_ne h _ _

theorem clearBit_out {x : ℕ} (h : x ≠ a + i / 8) : clearBit m a i x = m x := Function.update_of_ne h _ _

theorem bit_setBit (m : Mem) (a i j : ℕ) : bit (setBit m a i) a j = (decide (j = i) || bit m a j) := by
  by_cases hb : j / 8 = i / 8
  · have hlt : (m (a + i / 8)).toNat ||| 2 ^ (i % 8) < 2 ^ 8 :=
      Nat.or_lt_two_pow (UInt8.toNat_lt _) (Nat.pow_lt_pow_right (by decide) (Nat.mod_lt _ (by decide)))
    rw [bit, bit, setBit, hb, Function.update_self, UInt8.toNat_ofNat_of_lt' hlt, Nat.testBit_or, Nat.testBit_two_pow,
      Bool.or_comm]
    congr 1
    exact decide_eq_decide.2 (by omega)
  · have hne : j ≠ i := fun e => hb (e ▸ rfl)
    rw [bit, setBit_out (by omega), decide_eq_false hne, Bool.false_or, bit]

theorem bit_clearBit (m : Mem) (a i j : ℕ) : bit (clearBit m a i) a j = (!decide (j = i) && bit m a j) := by
  by_cases hb : j / 8 = i / 8
  · have hlt : (m (a + i / 8)).toNat &&& (2 ^ 8 - 1 ^^^ 2 ^ (i % 8)) < 2 ^ 8 :=
      lt_of_le_of_lt Nat.and_le_left (UInt8.toNat_lt _)
    have hj : j % 8 < 8 := Nat.mod_lt _ (by decide)
    rw [bit, bit, clearBit, hb, Function.update_self, UInt8.toNat_ofNat_of_lt' hlt, Nat.testBit_and, Nat.testBit_xor,
      Nat.testBit_two_pow_sub_one, Nat.testBit_two_pow, decide_eq_true hj, Bool.true_xor, Bool.and_comm]
    congr 2
    exact decide_eq_decide.2 (by omega)
  · have hne : j ≠ i := fun e => hb (e ▸ rfl)
    rw [bit, clearBit_out (by omega), decide_eq_false hne, Bool.not_false, Bool.true_and, bit]

theorem bit_congr {m' : Mem} (h : m' (a + i / 8) = m (a + i / 8)) : bit m' a i = bit m a i := by
  rw [bit, bit, h]

/-! ## Counting clear bits -/

/-- clear bits among the first n -/
def zeros (m : Mem) (a n : ℕ) : ℕ := (range n).countP fun i => !bit m a i

theorem zeros_le (m : Mem) (a n : ℕ) : zeros m a n ≤ n := by
  have h := List.countP_le_length (p := fun i => !bit m a i) (l := range n)
  rwa [List.length_range] at h

theorem zeros_congr {m' : Mem} (h : ∀ i < n, bit m' a i = bit m a i) : zeros m' a n = zeros m a n := by
  refine List.countP_congr fun i hi => ?_
  rw [h i (mem_range.1 hi)]

/-- two predicates that differ at one index below n only -/
theorem countP_range_succ_of_ne {f g : ℕ → Bool} (hi : i < n) (hf : f i = true) (hg : g i = false)
    (h : ∀ j, j ≠ i → f j = g j) : (range n).countP f = (range n).countP g + 1 := by
  have hperm := List.perm_cons_erase (mem_range.2 hi)
  have hrest : ((range n).erase i).countP f = ((range n).erase i).countP g :=
    List.countP_congr fun j hj => by rw [h j (List.nodup_range.mem_erase_iff.1 hj).1]
  rw [hperm.countP_eq, hperm.countP_eq, List.countP_cons_of_pos hf, List.countP_cons_of_neg (by simp [hg]), hrest]

theorem zeros_setBit (hi : i < n) (h : bit m a i = false) : zeros m a n = zeros (setBit m a i) a n + 1 := by
  refine countP_range_succ_of_ne hi ?_ ?_ fun j hj => ?_
  · rw [h]
    rfl
  · rw [bit_setBit, decide_eq_true rfl]
    rfl
  · rw [bit_setBit, decide_eq_false hj, Bool.false_or]

theorem zeros_clearBit (hi : i < n) (h : bit m a i = true) : zeros (clearBit m a i) a n = zeros m a n + 1 := by
  refine countP_range_succ_of_ne hi ?_ ?_ fun j hj => ?_
  · rw [bit_clearBit, decide_eq_true rfl]
    rfl
  · rw [h]
    rfl
  · rw [bit_clearBit, decide_eq_false hj, Bool.not_false, Bool.true_and]

/-- no clear bit: every bit is set -/
theorem zeros_eq_zero : zeros m a n = 0 ↔ ∀ i < n, bit m a i = true := by
  rw [zeros, List.countP_eq_zero]
  simp

/-! ## The first clear bit -/

/-- the first clear bit among the first n -/
def firstZero (m : Mem) (a n : ℕ) : Option ℕ := (range n).find? fun i => !bit m a i

theorem firstZero_some (h : firstZero m a n = some i) : i < n ∧ bit m a i = false ∧ ∀ j < i, bit m a j = true := by
  obtain ⟨h1, as, bs, hl, hbefore⟩ := List.find?_eq_some_iff_append.1 h
  have hmem : i ∈ range n := hl ▸ List.mem_append_right as List.mem_cons_self
  refine ⟨mem_range.1 hmem, by simpa using h1, fun j hj => ?_⟩
  -- the list is the counters in order, so what precedes i is below it
  have hpre : as = range i := by
    have hlen : as.length = i := by
      have hget : (range n)[as.length]? = some i := by
        rw [hl, List.getElem?_append_right (Nat.le_refl _), Nat.sub_self]
        rfl
      rw [List.getElem?_range] at hget
      · exact Option.some.inj hget
      · have := congrArg List.length hl
        simp only [List.length_range, List.length_append, List.length_cons] at this
        omega
    have htake : as = (range n).take as.length := by
      rw [hl, List.take_left']
      rfl
    rw [htake, hlen, List.take_range, Nat.min_eq_left (mem_range.1 hmem).le]
  have := hbefore j (hpre ▸ mem_range.2 hj)
  simpa using this

theorem firstZero_none : firstZero m a n = none ↔ ∀ i < n, bit m a i = true := by
  rw [firstZero, List.find?_eq_none]
  simp

/-- when exactly the first k bits are set, the search returns k -/
theorem firstZero_eq {k : ℕ} (hk : k < n) (h : ∀ i < n, bit m a i = decide (i < k)) : firstZero m a n = some k := by
  rcases hz : firstZero m a n with _ | i
  · have := firstZero_none.1 hz k hk
    rw [h k hk] at this
    simp at this
  obtain ⟨h1, h2, h3⟩ := firstZero_some hz
  rw [h i h1, decide_eq_false_iff_not] at h2
  rcases Nat.lt_or_ge k i with hlt | hge
  · have := h3 k hlt
    rw [h k hk] at this
    simp at this
  · rw [Nat.le_antisymm hge (Nat.le_of_not_lt h2)]

end OpenASD.Bitmap
