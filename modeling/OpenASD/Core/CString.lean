/-
Arrays of a C program and the strings in them. An access outside an array is `none`. A string ends with the first `z`.

- `scan_eq`: the loop that looks for the first element of a kind.
- `storeAll_eq`: a block copy that stays inside the array.
- `litAt_eq`: a string is compared with a literal by the loop of `&&`.
- `StrAt.set`: a string stays as it is when something before it or behind it is written.
-/
import Mathlib.Data.List.Basic

namespace OpenASD.CString

variable {α : Type} {a : List α} {i : ℕ}

/-! ## Accesses -/

/-- a write of one element -/
def store (a : List α) (i : ℕ) (v : α) : Option (List α) := if i < a.length then some (a.set i v) else none

/-- writes of elements one after another -/
def storeAll (a : List α) (i : ℕ) : List α → Option (List α)
  | [] => some a
  | v :: vs => (store a i v).bind fun a => storeAll a (i + 1) vs

/-- the first index from i on whose element stops the loop; none if it leaves the array or runs out of rounds -/
def scan (stop : α → Bool) (a : List α) : ℕ → ℕ → Option ℕ
  | 0, _ => none
  | n + 1, i => a[i]?.bind fun c => if stop c then some i else scan stop a n (i + 1)

/-- `a[i] == v && a[i + 1] == v' && ...` -/
def litAt [DecidableEq α] (a : List α) (i : ℕ) : List α → Option Bool
  | [] => some true
  | v :: vs => a[i]?.bind fun c => if c = v then litAt a (i + 1) vs else some false

theorem store_of_lt (h : i < a.length) (v : α) : store a i v = some (a.set i v) := if_pos h

variable {rest : List α} {c : α} {s : List α} {j : ℕ}

theorem getElem?_of_drop (h : a.drop i = c :: rest) : a[i]? = some c := by
  rw [← List.head?_drop, h]
  rfl

theorem drop_succ_of_drop (h : a.drop i = c :: rest) : a.drop (i + 1) = rest := by
  rw [← List.tail_drop, h]
  rfl

theorem lt_of_drop (h : a.drop i = c :: rest) : i < a.length := by
  apply Nat.lt_of_not_le
  intro hle
  rw [List.drop_eq_nil_of_le hle] at h
  cases h

theorem drop_add_of_drop (h : a.drop i = s ++ rest) :
    a.drop (i + s.length) = rest := by
  rw [← List.drop_drop, h, List.drop_left]

theorem drop_set_at (h : a.drop i = s ++ c :: rest)
    (hj : j = i + s.length) (v : α) : (a.set j v).drop i = s ++ v :: rest := by
  subst hj
  rw [List.drop_set, if_neg (Nat.not_lt.2 (Nat.le_add_right i _)), h, Nat.add_sub_cancel_left,
    List.set_append_right _ _ (Nat.le_refl _), Nat.sub_self]
  rfl

/-- **A scan finds the first element that stops it.** -/
theorem scan_eq {stop : α → Bool} (hs : ∀ x ∈ s, stop x = false)
    (hc : stop c = true) {n : ℕ} (h : a.drop i = s ++ c :: rest) (hn : s.length < n) :
    scan stop a n i = some (i + s.length) := by
  induction s generalizing n i with
  | nil =>
    obtain ⟨n, rfl⟩ := Nat.exists_eq_add_of_lt hn
    rw [scan, getElem?_of_drop h]
    simp [hc]
  | cons x s ih =>
    obtain ⟨m, rfl⟩ : ∃ m, n = m + 1 := ⟨n - 1, by rw [List.length_cons] at hn; omega⟩
    have hx : stop x = false := hs x List.mem_cons_self
    have hm : s.length < m := Nat.lt_of_succ_lt_succ hn
    rw [scan, getElem?_of_drop h, Option.bind_some, hx]
    simp only [Bool.false_eq_true, if_false]
    rw [ih (fun y hy => hs y (List.mem_cons_of_mem _ hy)) (drop_succ_of_drop h) hm, List.length_cons]
    congr 1
    omega

/-- **A block copy inside the array.** -/
theorem storeAll_eq {vs : List α} (h : i + vs.length ≤ a.length) :
    storeAll a i vs = some (a.take i ++ vs ++ a.drop (i + vs.length)) := by
  induction vs generalizing a i with
  | nil => simp [storeAll]
  | cons v vs ih =>
    rw [List.length_cons] at h
    have hi : i < a.length := by omega
    rw [storeAll, store_of_lt hi, Option.bind_some, ih (by rw [List.length_set]; omega),
      List.drop_set_of_lt (by omega)]
    have htake : (a.set i v).take (i + 1) = a.take i ++ [v] := by
      rw [List.take_add_one, List.take_set_of_le (Nat.le_refl i)]
      simp [hi]
    rw [htake, List.length_cons, Nat.add_assoc, Nat.add_comm 1]
    simp

/-! ## Strings -/

/-- the string s stands at i -/
structure StrAt (z : α) (a : List α) (i : ℕ) (s : List α) : Prop where
  text : ∃ rest, a.drop i = s ++ z :: rest
  free : z ∉ s

namespace StrAt

variable {z : α} {a s : List α} {i : ℕ}

section

variable (h : StrAt z a i s)
include h

theorem lt : i + s.length < a.length := by
  obtain ⟨rest, ht⟩ := h.text
  exact lt_of_drop (drop_add_of_drop ht)

theorem set (hj : j < i ∨ i + s.length < j) (v : α) : StrAt z (a.set j v) i s := by
  obtain ⟨rest, ht⟩ := h.text
  refine ⟨?_, h.free⟩
  rcases hj with hj | hj
  · exact ⟨rest, (List.drop_set_of_lt hj).trans ht⟩
  refine ⟨rest.set (j - (i + s.length + 1)) v, ?_⟩
  rw [List.drop_set, if_neg (by omega), ht, List.set_append_right _ _ (by omega)]
  obtain ⟨k, hk⟩ : ∃ k, j - i - s.length = k + 1 := ⟨j - i - s.length - 1, by omega⟩
  rw [hk, List.set_cons_succ]
  congr 3
  omega

/-- `strlen` -/
theorem scan [DecidableEq α] : scan (fun c => decide (c = z)) a a.length i = some (i + s.length) := by
  obtain ⟨rest, ht⟩ := h.text
  have hstop : ∀ x ∈ s, decide (x = z) = false := fun x hx => decide_eq_false fun e => h.free (e ▸ hx)
  have hlt := h.lt
  exact scan_eq hstop (by simp) ht (by omega)

theorem take : (a.drop i).take s.length = s := by
  obtain ⟨rest, ht⟩ := h.text
  rw [ht, List.take_left]

end

end StrAt

/-- **A comparison with a literal string.** It reads no further than the string's end. -/
theorem litAt_eq [DecidableEq α] {z : α} {t : List α} (h : StrAt z a i s) (ht : z ∉ t) :
    litAt a i (t ++ [z]) = some (decide (s = t)) := by
  obtain ⟨⟨rest, htext⟩, hfree⟩ := h
  induction t generalizing s i with
  | nil =>
    cases s with
    | nil =>
      rw [List.nil_append, litAt, getElem?_of_drop htext]
      simp [litAt]
    | cons c s =>
      have hc : c ≠ z := fun e => hfree (e ▸ List.mem_cons_self)
      rw [List.nil_append, litAt, getElem?_of_drop htext]
      simp [hc]
  | cons v t ih =>
    have hv : z ≠ v := fun e => ht (e ▸ List.mem_cons_self)
    rw [List.cons_append, litAt]
    cases s with
    | nil =>
      rw [getElem?_of_drop htext]
      simp [hv]
    | cons c s =>
      rw [getElem?_of_drop htext, Option.bind_some]
      by_cases hc : c = v
      · subst hc
        rw [if_pos rfl, ih (fun hm => ht (List.mem_cons_of_mem _ hm))
          (fun hm => hfree (List.mem_cons_of_mem _ hm)) (drop_succ_of_drop htext)]
        simp
      · simp [hc]

end OpenASD.CString
