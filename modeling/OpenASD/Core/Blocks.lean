/-
Memory in blocks, and owners that hold pointers to them.

`Blocks` says which addresses are in use and what stands there.
`Owned`: the pointer of each owner is null, or leads to a block in use that no other owner has.

- `Owned.set`: an owner takes a new block, or has none any more; its old block may be given back;
- `Owned.apart`: a change of the block of one owner is not seen by the others.
-/
import Mathlib.Data.Nat.Notation
import Mathlib.Logic.Function.Basic

namespace OpenASD

open Function (update update_of_ne update_self)

structure Blocks (β : Type) where
  /-- the addresses in use -/
  live : List ℕ
  content : ℕ → β

namespace Blocks

variable {β ι : Type} {b b' : Blocks β} {ptr : ι → ℕ} {i j : ι} {a x : ℕ}

def alloc (b : Blocks β) (a : ℕ) (c : β) : Blocks β := ⟨a :: b.live, update b.content a c⟩

def free (b : Blocks β) (a : ℕ) : Blocks β := { b with live := b.live.filter (· ≠ a) }

def store (b : Blocks β) (a : ℕ) (c : β) : Blocks β := { b with content := update b.content a c }

theorem mem_free : x ∈ (b.free a).live ↔ x ∈ b.live ∧ x ≠ a := by
  unfold free
  rw [List.mem_filter, decide_eq_true_iff]

theorem store_self (b : Blocks β) (a : ℕ) (c : β) : (b.store a c).content a = c := by simp [store]

theorem store_of_ne (h : x ≠ a) (c : β) : (b.store a c).content x = b.content x := by simp [store, h]

theorem alloc_self (b : Blocks β) (a : ℕ) (c : β) : (b.alloc a c).content a = c := by simp [alloc]

theorem alloc_of_ne (h : x ≠ a) (c : β) : (b.alloc a c).content x = b.content x := by simp [alloc, h]

/-- no block has two owners -/
structure Owned (b : Blocks β) (ptr : ι → ℕ) : Prop where
  live : ∀ i, ptr i ≠ 0 → ptr i ∈ b.live
  unique : ∀ i j, ptr i ≠ 0 → ptr i = ptr j → i = j

theorem owned_none (b : Blocks β) : Owned b fun _ : ι => 0 := ⟨fun _ h => absurd rfl h, fun _ _ h => absurd rfl h⟩

namespace Owned

theorem apart (h : Owned b ptr) (hj : ptr j ≠ 0) (hij : j ≠ i) : ptr j ≠ ptr i := fun e => hij (h.unique j i hj e)

/-- an owner has no block any more, or takes one that was not in use -/
theorem set [DecidableEq ι] (h : Owned b ptr) (i : ι) (ha : a ≠ 0 → a ∉ b.live ∧ a ∈ b'.live)
    (hlive : ∀ x ∈ b.live, x ≠ ptr i → x ∈ b'.live) : Owned b' (update ptr i a) := by
  have hother : ∀ j, j ≠ i → update ptr i a j = ptr j := fun j e => update_of_ne e a ptr
  have hself : update ptr i a i = a := update_self i a ptr
  -- the block of another owner is in use
  have hne : ∀ j, ptr j ≠ 0 → ptr j ≠ a := fun j hj e => (ha (e ▸ hj)).1 (e ▸ h.live j hj)
  refine ⟨fun j hj => ?_, fun j k hj hjk => ?_⟩
  · by_cases e : j = i
    · rw [e, hself] at hj ⊢
      exact (ha hj).2
    · rw [hother j e] at hj ⊢
      exact hlive (ptr j) (h.live j hj) (h.apart hj e)
  by_cases e : j = i
  · by_cases e' : k = i
    · rw [e, e']
    · rw [e, hself] at hj hjk
      rw [hother k e'] at hjk
      exact absurd hjk.symm (hne k (hjk ▸ hj))
  rw [hother j e] at hj hjk
  by_cases e' : k = i
  · rw [e', hself] at hjk
    exact absurd hjk (hne j hj)
  · rw [hother k e'] at hjk
    exact h.unique j k hj hjk

end Owned

end Blocks

end OpenASD
