/-
Numerals: a number written with the digits of a base, most significant digit first, and read back. Nothing here names a
program.

`digits` writes as many digits as the number has, `digitsN` a fixed number of them; both write in front of what is there
already, last digit first, as loops that fill a buffer from its end do. `value` reads from the left.

Results: `digits_eq`, the one in terms of the other, and `value_digitsN`, reading what was written.
-/
import Mathlib.Tactic

namespace OpenASD.Numeral

variable {α : Type} (b : ℕ) (dig : ℕ → α) (val : α → ℕ)

/-- the digits of v in front of acc, at most n of them; none for 0 -/
def digits : ℕ → ℕ → List α → List α
  | 0, _, acc => acc
  | n + 1, v, acc => if v = 0 then acc else digits n (v / b) (dig (v % b) :: acc)

/-- the n last digits of v in front of acc -/
def digitsN : ℕ → ℕ → List α → List α
  | 0, _, acc => acc
  | n + 1, v, acc => digitsN n (v / b) (dig (v % b) :: acc)

/-- the number x with the digits of l after it -/
def value (x : ℕ) (l : List α) : ℕ := l.foldl (fun x c => x * b + val c) x

variable {b dig val}

theorem value_cons (x : ℕ) (c : α) (l : List α) : value b val x (c :: l) = value b val (x * b + val c) l := rfl

variable {n v : ℕ}

/-- `digits` writes a fixed number of digits too, enough for the number, and at least one unless that is 0 -/
theorem digits_eq (hb : 0 < b) (n v : ℕ) (acc : List α) : ∃ m ≤ n, digits b dig n v acc = digitsN b dig m v acc ∧
    (v < b ^ n → v < b ^ m) ∧ (v ≠ 0 → 0 < n → 0 < m) := by
  induction n generalizing v acc with
  | zero => exact ⟨0, le_rfl, rfl, id, fun _ h => h⟩
  | succ n ih =>
    rw [digits]
    split_ifs with h0
    · exact ⟨0, Nat.zero_le _, rfl, fun _ => by simp [h0], fun h => absurd h0 h⟩
    obtain ⟨m, hm, he, hlt, -⟩ := ih (v / b) (dig (v % b) :: acc)
    refine ⟨m + 1, Nat.succ_le_succ hm, he, fun h => ?_, fun _ _ => Nat.succ_pos m⟩
    rw [pow_succ]
    exact Nat.lt_mul_of_div_lt (hlt (Nat.div_lt_of_lt_mul (pow_succ' b n ▸ h))) hb

theorem value_digitsN (hb : 0 < b) (hv : ∀ d < b, val (dig d) = d) (h : v < b ^ n) (acc : List α) :
    value b val 0 (digitsN b dig n v acc) = value b val v acc := by
  induction n generalizing v acc with
  | zero =>
    have h0 : v = 0 := by simpa using h
    rw [digitsN, h0]
  | succ n ih =>
    have hlt : v / b < b ^ n := Nat.div_lt_of_lt_mul (pow_succ' b n ▸ h)
    rw [digitsN, ih hlt, value_cons, hv _ (Nat.mod_lt v hb), Nat.div_add_mod']

/-- every character that is written is a digit -/
theorem mem_digitsN (hb : 0 < b) {acc : List α} {c : α} (h : c ∈ digitsN b dig n v acc) : c ∈ acc ∨ ∃ d < b, c = dig d := by
  induction n generalizing v acc with
  | zero => exact .inl h
  | succ n ih =>
    rcases ih h with hc | hd
    · rcases List.mem_cons.1 hc with rfl | hc
      · exact .inr ⟨v % b, Nat.mod_lt v hb, rfl⟩
      · exact .inl hc
    · exact .inr hd

theorem length_digitsN (n v : ℕ) (acc : List α) : (digitsN b dig n v acc).length = n + acc.length := by
  induction n generalizing v acc with
  | zero => simp [digitsN]
  | succ n ih =>
    rw [digitsN, ih, List.length_cons]
    omega

end OpenASD.Numeral
