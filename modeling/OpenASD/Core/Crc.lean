/-
Cyclic redundancy checks in their reflected form, for any width of the register and any polynomial. A byte is added to the
low end of the register, which then moves down bit by bit; whenever a 1 falls out, the polynomial is added.

- `shift_xor`: moving the register is linear;
- `register_table`: eight moves at once, with a table of what becomes of the low byte.
-/
import Mathlib.Logic.Function.Iterate

namespace OpenASD.Crc

variable {w : ℕ} (poly : BitVec w)

/-- the register moves down by one bit -/
def shift (c : BitVec w) : BitVec w := (c >>> 1) ^^^ (if c.getLsbD 0 then poly else 0#w)

/-- the register after a message, bit by bit -/
def register (c : BitVec w) (msg : List (BitVec 8)) : BitVec w :=
  msg.foldl (fun c b => (shift poly)^[8] (c ^^^ b.setWidth w)) c

theorem shift_xor (a b : BitVec w) : shift poly (a ^^^ b) = shift poly a ^^^ shift poly b := by
  apply BitVec.eq_of_getLsbD_eq
  intro i hi
  simp only [shift, BitVec.getLsbD_xor, BitVec.getLsbD_ushiftRight]
  cases a.getLsbD 0 <;> cases b.getLsbD 0 <;>
    cases a.getLsbD (1 + i) <;> cases b.getLsbD (1 + i) <;> cases h : poly.getLsbD i <;> simp [h]

theorem iterate_shift_xor (n : ℕ) (a b : BitVec w) :
    (shift poly)^[n] (a ^^^ b) = (shift poly)^[n] a ^^^ (shift poly)^[n] b := by
  induction n generalizing a b with
  | zero => rfl
  | succ n ih => simp only [Function.iterate_succ_apply, shift_xor, ih]

/-- a register whose lowest bits are clear only moves -/
theorem iterate_shift_clear {n : ℕ} {c : BitVec w} (h : ∀ i < n, c.getLsbD i = false) : (shift poly)^[n] c = c >>> n := by
  induction n with
  | zero => rw [Function.iterate_zero_apply, BitVec.ushiftRight_zero]
  | succ n ih =>
    have hlow : (c >>> n).getLsbD 0 = false := by
      exact h n (Nat.lt_succ_self n)
    rw [Function.iterate_succ_apply', ih fun i hi => h i (Nat.lt_succ_of_lt hi), shift, hlow, BitVec.shiftRight_add]
    simp

theorem getLsbD_byte (i : ℕ) : (255#w).getLsbD i = (decide (i < w) && decide (i < 8)) := by
  rw [BitVec.getLsbD_ofNat, show (255 : ℕ) = 2 ^ 8 - 1 by rfl, Nat.testBit_two_pow_sub_one]

/-- **Eight moves**: what becomes of the low byte, and the rest eight places lower. -/
theorem shift_eight (x : BitVec w) : (shift poly)^[8] x = (shift poly)^[8] (x &&& 255#w) ^^^ (x >>> 8) := by
  have hsplit : x = (x &&& 255#w) ^^^ (x &&& ~~~255#w) := by
    apply BitVec.eq_of_getLsbD_eq
    intro i hi
    simp only [BitVec.getLsbD_xor, BitVec.getLsbD_and, BitVec.getLsbD_not, hi, decide_true, Bool.true_and]
    cases x.getLsbD i <;> cases (255#w).getLsbD i <;> rfl
  have hclear : ∀ i < 8, (x &&& ~~~255#w).getLsbD i = false := by
    intro i hi
    cases h : decide (i < w) <;> simp [getLsbD_byte, hi, h]
  have hmove : (x &&& ~~~255#w) >>> 8 = x >>> 8 := by
    apply BitVec.eq_of_getLsbD_eq
    intro i hi
    simp only [BitVec.getLsbD_ushiftRight, BitVec.getLsbD_and, BitVec.getLsbD_not, getLsbD_byte]
    by_cases h : 8 + i < w
    · simp [h]
    · simp [BitVec.getLsbD_of_ge x (8 + i) (by omega)]
  calc (shift poly)^[8] x = (shift poly)^[8] ((x &&& 255#w) ^^^ (x &&& ~~~255#w)) := by rw [← hsplit]
    _ = (shift poly)^[8] (x &&& 255#w) ^^^ (x >>> 8) := by
      rw [iterate_shift_xor, iterate_shift_clear poly hclear, hmove]

/-- **A message through the table.** -/
theorem register_table (c : BitVec w) (msg : List (BitVec 8)) : register poly c msg =
    msg.foldl (fun c b => (shift poly)^[8] ((c ^^^ b.setWidth w) &&& 255#w) ^^^ (c >>> 8)) c := by
  have hbyte : ∀ b : BitVec 8, (b.setWidth w) >>> 8 = 0#w := by
    intro b
    apply BitVec.eq_of_getLsbD_eq
    intro i hi
    simp
  unfold register
  congr
  funext c b
  rw [shift_eight, BitVec.ushiftRight_xor_distrib, hbyte, BitVec.xor_zero]

end OpenASD.Crc
