/-
Dyadic blocks and tilings: the arithmetic behind every binary-buddy scheme. Nothing here names a program.

A block of exponent k at base a is the range [a, a + 2^k). It is aligned when 2^k divides a. A list of blocks TILES a
set S when every block is aligned and every point of S lies in exactly one block of the list, every other point in
none. Counting the blocks that hold a point states disjointness and coverage at once, so a tiling is stable under
reordering, splitting a block in its two halves and merging two halves.

Results:
- `buddy_of_low`, `buddy_of_high`: XOR with the block size is the neighbour above or below;
- `Tiling.split`, `Tiling.merge`, `Tiling.fresh`, `Tiling.perm`: the moves that keep a tiling;
- `Tiling.pairwise`, `Tiling.size_le`: the blocks of a tiling are pairwise disjoint, so their sizes add up to no more
  than the space;
- `Tiling.size_eq`: the total size of a tiling depends on the tiled set alone;
- `Tiling.buddy_head`: if the first point of a block's buddy lies in the tiled set, a block no larger than the first one
  starts exactly there. This is why one tag at a block's first page is enough to decide a merge;
- `Merged.subset`, `Merged.holds`: a tiling without two free buddies is the only one of its set, and every aligned block
  of tiled points lies in one of its blocks.
-/
import Mathlib.Data.LawfulXor.Basic
import Mathlib.Data.Nat.Bitwise
import Mathlib.Tactic

namespace OpenASD.Dyadic

open List (countP_append countP_cons mem_cons)

/-- a block of `2 ^ exp` points starting at `base` -/
structure Block where
  exp : ℕ
  base : ℕ
deriving DecidableEq, Repr

/-- the point x lies in the block -/
def Block.has (b : Block) (x : ℕ) : Bool := decide (b.base ≤ x ∧ x < b.base + 2 ^ b.exp)

@[simp] theorem has_iff (b : Block) (x : ℕ) : b.has x = true ↔ b.base ≤ x ∧ x < b.base + 2 ^ b.exp := by
  simp [Block.has]

theorem has_base (b : Block) : b.has b.base = true := by
  have := Nat.two_pow_pos b.exp
  simp [this]

/-! ## Buddies -/

/-- the base of the other half of the next larger block -/
def buddy (k a : ℕ) : ℕ := a ^^^ 2 ^ k

theorem buddy_eq (k q : ℕ) : buddy k (2 ^ k * q) = 2 ^ k * (q ^^^ 1) := by
  have h : (q ^^^ 1) <<< k = q <<< k ^^^ 1 <<< k := Nat.shiftLeft_xor_distrib
  simp only [Nat.shiftLeft_eq, one_mul] at h
  rw [buddy, mul_comm, ← h, mul_comm]

variable {a k N : ℕ} {b c : Block} {l : List Block} {bs cs : List Block} {S : ℕ → Prop}

/-- the buddy of a lower half is the block above it -/
theorem buddy_of_low (h : 2 ^ (k + 1) ∣ a) : buddy k a = a + 2 ^ k := by
  obtain ⟨q, rfl⟩ := h
  rw [pow_succ, mul_assoc, buddy_eq, Nat.xor_one_of_even (even_two_mul q)]
  ring

/-- the buddy of an upper half is the block below it, aligned to the double size -/
theorem buddy_of_high (h : 2 ^ k ∣ a) (h' : ¬ 2 ^ (k + 1) ∣ a) : buddy k a + 2 ^ k = a ∧ 2 ^ (k + 1) ∣ buddy k a := by
  obtain ⟨q, rfl⟩ := h
  have hodd : q % 2 = 1 := by
    by_contra hq
    refine h' ⟨q / 2, ?_⟩
    have : q = 2 * (q / 2) := by omega
    rw [pow_succ, mul_assoc, ← this]
  rw [buddy_eq, Nat.xor_one_of_odd (Nat.odd_iff.2 hodd)]
  refine ⟨?_, ⟨q / 2, ?_⟩⟩
  · rw [← Nat.mul_succ]
    congr 1
    omega
  · rw [pow_succ, mul_assoc]
    congr 1
    omega

theorem buddy_dvd (h : 2 ^ k ∣ a) : 2 ^ k ∣ buddy k a := by
  obtain ⟨q, rfl⟩ := h
  rw [buddy_eq]
  exact dvd_mul_right _ _

/-- multiples of d lie d apart -/
theorem step_le {d b : ℕ} (ha : d ∣ a) (hb : d ∣ b) (h : a < b) : a + d ≤ b := by
  have := Nat.le_of_dvd (by omega) (Nat.dvd_sub hb ha)
  omega

theorem buddy_ne (k a : ℕ) : buddy k a ≠ a := by
  rw [buddy, ne_eq, xor_left_eq_self_iff]
  exact (Nat.two_pow_pos k).ne'

theorem buddy_buddy (k a : ℕ) : buddy k (buddy k a) = a := by
  rw [buddy, buddy, xor_cancel_right]

/-- an aligned block that holds the base of a smaller one holds the base of its buddy -/
theorem has_buddy (hb : 2 ^ b.exp ∣ b.base) (ha : 2 ^ k ∣ a) (hk : k < b.exp)
    (h : b.has a = true) : b.has (buddy k a) = true := by
  rw [has_iff] at h ⊢
  have hd : 2 ^ (k + 1) ∣ 2 ^ b.exp := pow_dvd_pow 2 hk
  have hbase : 2 ^ (k + 1) ∣ b.base := hd.trans hb
  have hend : 2 ^ (k + 1) ∣ b.base + 2 ^ b.exp := hbase.add hd
  by_cases hlow : 2 ^ (k + 1) ∣ a
  · have := step_le hlow hend h.2
    rw [buddy_of_low hlow]
    omega
  obtain ⟨hsum, hdvd⟩ := buddy_of_high ha hlow
  refine ⟨?_, by omega⟩
  by_contra hlt
  have := step_le hdvd hbase (Nat.lt_of_not_le hlt)
  omega

/-- the base of a block is the only multiple of its size in it -/
theorem base_eq (hc : 2 ^ c.exp ∣ c.base) (ha : 2 ^ c.exp ∣ a) (h : c.has a = true) : c.base = a := by
  rw [has_iff] at h
  by_contra hne
  have := step_le hc ha (by omega)
  omega

theorem has_halves (k a x : ℕ) (l : List Block) :
    (⟨k, a⟩ :: ⟨k, a + 2 ^ k⟩ :: l).countP (·.has x) = ((⟨k + 1, a⟩ : Block) :: l).countP (·.has x) := by
  simp only [countP_cons, has_iff, add_assoc]
  congr 1
  split_ifs <;> omega

theorem sum_has (b : Block) (N : ℕ) (h : b.base + 2 ^ b.exp ≤ N) :
    ∑ x ∈ Finset.range N, (if b.has x = true then 1 else 0) = 2 ^ b.exp := by
  have hf : (Finset.range N).filter (fun x => b.has x = true) = Finset.Ico b.base (b.base + 2 ^ b.exp) := by
    ext x
    simp only [Finset.mem_filter, Finset.mem_range, has_iff, Finset.mem_Ico]
    omega
  rw [← Finset.card_filter, hf, Nat.card_Ico, Nat.add_sub_cancel_left]

theorem sum_countP (bs : List Block) (N : ℕ) (h : ∀ b ∈ bs, b.base + 2 ^ b.exp ≤ N) :
    ∑ x ∈ Finset.range N, bs.countP (·.has x) = (bs.map fun b => 2 ^ b.exp).sum := by
  induction bs with
  | nil => simp
  | cons b bs ih =>
    simp only [countP_cons, Finset.sum_add_distrib, List.map_cons, List.sum_cons]
    rw [ih fun c hc => h c (List.mem_cons_of_mem b hc), sum_has b N (h b List.mem_cons_self), add_comm]

/-! ## Tilings -/

/-- the blocks of `bs` tile the set S -/
structure Tiling (bs : List Block) (S : ℕ → Prop) : Prop where
  aligned : ∀ b ∈ bs, 2 ^ b.exp ∣ b.base
  cover : ∀ x, S x → bs.countP (·.has x) = 1
  only : ∀ x, ¬ S x → bs.countP (·.has x) = 0

theorem Tiling.nil : Tiling [] fun _ => False := ⟨by simp, by simp, by simp⟩

/-- a block outside the tiled set extends the tiling -/
theorem Tiling.fresh (h : Tiling l S) (ha : 2 ^ b.exp ∣ b.base)
    (hd : ∀ x, b.has x = true → ¬ S x) : Tiling (b :: l) fun x => S x ∨ b.has x = true := by
  refine ⟨?_, fun x hx => ?_, fun x hx => ?_⟩
  · intro c hc
    rcases mem_cons.1 hc with rfl | hc
    · exact ha
    · exact h.aligned c hc
  · rw [countP_cons]
    by_cases hb : b.has x = true
    · rw [if_pos hb, h.only x (hd x hb)]
    · rw [if_neg hb, h.cover x (hx.resolve_right hb)]
  · rw [not_or] at hx
    rw [countP_cons, if_neg hx.2, h.only x hx.1]

/-- the first blocks of a tiling tile what the others leave -/
theorem Tiling.left (h : Tiling (bs ++ cs) S) :
    Tiling bs fun x => S x ∧ ¬ ∃ c ∈ cs, c.has x = true := by
  have hcs : ∀ x, (¬ ∃ c ∈ cs, c.has x = true) ↔ cs.countP (·.has x) = 0 := by
    intro x
    rw [List.countP_eq_zero]
    push Not
    rfl
  refine ⟨fun b hb => h.aligned b (List.mem_append_left cs hb), fun x hx => ?_, fun x hx => ?_⟩
  · have h1 := h.cover x hx.1
    rw [countP_append, (hcs x).1 hx.2] at h1
    exact h1
  by_cases hS : S x
  · have h1 := h.cover x hS
    have h2 : cs.countP (·.has x) ≠ 0 := fun h0 => hx ⟨hS, (hcs x).2 h0⟩
    rw [countP_append] at h1
    omega
  · have h1 := h.only x hS
    rw [countP_append] at h1
    omega

section

variable (h : Tiling bs S)
include h

theorem Tiling.perm (p : bs.Perm cs) : Tiling cs S :=
  ⟨fun b hb => h.aligned b (p.mem_iff.2 hb), fun x hx => p.countP_eq _ ▸ h.cover x hx,
    fun x hx => p.countP_eq _ ▸ h.only x hx⟩

theorem Tiling.mem_iff (x : ℕ) : S x ↔ ∃ b ∈ bs, b.has x = true := by
  rw [← List.countP_pos_iff]
  constructor
  · intro hx
    rw [h.cover x hx]
    exact Nat.one_pos
  intro hp
  by_contra hx
  rw [h.only x hx] at hp
  exact absurd hp (lt_irrefl 0)

theorem Tiling.subset (hb : b ∈ bs) {x : ℕ} (hx : b.has x = true) : S x := (h.mem_iff x).2 ⟨b, hb, hx⟩

/-- two blocks with replaced lists agree on every count, so the tiled set is the same -/
theorem Tiling.of_count (ha : ∀ b ∈ cs, 2 ^ b.exp ∣ b.base)
    (hc : ∀ x, cs.countP (·.has x) = bs.countP (·.has x)) : Tiling cs S :=
  ⟨ha, fun x hx => (hc x).trans (h.cover x hx), fun x hx => (hc x).trans (h.only x hx)⟩

/-- in a tiling, two blocks that share a point are the same block -/
theorem Tiling.eq_of_has (hb : b ∈ bs) (hc : c ∈ bs)
    {x : ℕ} (hbx : b.has x = true) (hcx : c.has x = true) : b = c := by
  by_contra hne
  have hp : bs.Perm (b :: bs.erase b) := List.perm_cons_erase hb
  have hc' : c ∈ bs.erase b := (List.mem_erase_of_ne (Ne.symm hne)).2 hc
  have h1 : (b :: bs.erase b).countP (·.has x) = 1 := by
    rw [← hp.countP_eq]; exact h.cover x (h.subset hb hbx)
  rw [countP_cons, if_pos hbx] at h1
  have h2 : 0 < (bs.erase b).countP (·.has x) := List.countP_pos_iff.2 ⟨c, hc', hcx⟩
  omega

/-- the blocks of a tiling are pairwise disjoint; in particular none is listed twice -/
theorem Tiling.pairwise :
    bs.Pairwise fun b c => ∀ x, ¬ (b.has x = true ∧ c.has x = true) := by
  induction bs generalizing S with
  | nil => exact List.Pairwise.nil
  | cons b bs ih =>
    -- the tail tiles what is left of S without the head block
    have hrest := (h.perm (List.perm_append_singleton b bs).symm).left
    refine List.pairwise_cons.2 ⟨fun c hc x hx => ?_, ih hrest⟩
    exact (hrest.subset hc hx.2).2 ⟨b, List.mem_singleton_self b, hx.1⟩

theorem Tiling.nodup : bs.Nodup :=
  h.pairwise.imp fun {b _} hd (e : b = _) => hd b.base ⟨has_base b, e ▸ has_base b⟩

/-- **Buddy heads.** If the first point of a tiled block's buddy lies in the tiled set, some block of the tiling, no
larger than the first, starts exactly there. A larger block holding that point would hold the first block too. -/
theorem Tiling.buddy_head (hb : b ∈ bs)
    (hx : S (buddy b.exp b.base)) : ∃ c ∈ bs, c.base = buddy b.exp b.base ∧ c.exp ≤ b.exp := by
  obtain ⟨c, hc, hcx⟩ := (h.mem_iff _).1 hx
  have hle : c.exp ≤ b.exp := by
    by_contra hlt
    have hin := has_buddy (h.aligned c hc) (buddy_dvd (h.aligned b hb)) (Nat.lt_of_not_le hlt) hcx
    rw [buddy_buddy] at hin
    have heq := h.eq_of_has hc hb hin (has_base b)
    rw [heq] at hlt
    exact hlt le_rfl
  exact ⟨c, hc, base_eq (h.aligned c hc) ((pow_dvd_pow 2 hle).trans (buddy_dvd (h.aligned b hb))) hcx, hle⟩

/-! ## Size -/

/-- the blocks of a tiling of points below N end below N -/
theorem Tiling.end_le (hN : ∀ x, S x → x < N) (hb : b ∈ bs) : b.base + 2 ^ b.exp ≤ N := by
  have hpos := Nat.two_pow_pos b.exp
  have hlast : b.has (b.base + 2 ^ b.exp - 1) = true := by
    simp only [has_iff]
    omega
  have := hN _ (h.subset hb hlast)
  omega

/-- so they have total size at most N -/
theorem Tiling.size_le (hN : ∀ x, S x → x < N) :
    (bs.map fun b => 2 ^ b.exp).sum ≤ N := by
  rw [← sum_countP bs N fun b hb => h.end_le hN hb]
  calc ∑ x ∈ Finset.range N, bs.countP (·.has x) ≤ ∑ _x ∈ Finset.range N, 1 := by
        refine Finset.sum_le_sum fun x _ => ?_
        by_cases hx : S x
        · exact (h.cover x hx).le
        · rw [h.only x hx]
          exact Nat.zero_le 1
    _ = N := by simp

/-- two tilings of one bounded set have the same total size -/
theorem Tiling.size_eq (h' : Tiling cs S)
    (hN : ∀ x, S x → x < N) : (bs.map fun b => 2 ^ b.exp).sum = (cs.map fun b => 2 ^ b.exp).sum := by
  rw [← sum_countP bs N fun b hb => h.end_le hN hb, ← sum_countP cs N fun b hb => h'.end_le hN hb]
  refine Finset.sum_congr rfl fun x _ => ?_
  by_cases hx : S x
  · rw [h.cover x hx, h'.cover x hx]
  · rw [h.only x hx, h'.only x hx]

end

/-! ## Halves -/

/-- a block may be replaced by its two halves -/
theorem Tiling.split (h : Tiling (⟨k + 1, a⟩ :: l) S) : Tiling (⟨k, a⟩ :: ⟨k, a + 2 ^ k⟩ :: l) S := by
  refine h.of_count ?_ fun x => has_halves k a x l
  have ha : 2 ^ (k + 1) ∣ a := h.aligned _ List.mem_cons_self
  have ha' : 2 ^ k ∣ a := (pow_dvd_pow 2 k.le_succ).trans ha
  intro b hb
  simp only [mem_cons] at hb
  rcases hb with rfl | rfl | hb
  · exact ha'
  · exact ha'.add dvd_rfl
  · exact h.aligned b (List.mem_cons_of_mem _ hb)

/-- two halves may be replaced by the block they make up -/
theorem Tiling.merge (h : Tiling (⟨k, a⟩ :: ⟨k, a + 2 ^ k⟩ :: l) S) (ha : 2 ^ (k + 1) ∣ a) : Tiling (⟨k + 1, a⟩ :: l) S := by
  refine h.of_count ?_ fun x => (has_halves k a x l).symm
  intro b hb
  simp only [mem_cons] at hb
  rcases hb with rfl | hb
  · exact ha
  · exact h.aligned b (by simp [hb])

/-- the first block of a tiling shares its base with no other block -/
theorem Tiling.head_base_ne (h : Tiling (b :: l) S) (hc : c ∈ l) : c.base ≠ b.base := by
  intro e
  refine (List.pairwise_cons.1 h.pairwise).1 c hc b.base ⟨has_base b, ?_⟩
  rw [← e]
  exact has_base c

/-! ## Merged tilings -/

/-- no two blocks of an exponent below K are buddies -/
def Merged (K : ℕ) (bs : List Block) : Prop := ∀ b ∈ bs, b.exp < K → (⟨b.exp, buddy b.exp b.base⟩ : Block) ∉ bs

section Merged

variable {K : ℕ} {bs cs : List Block} {S : ℕ → Prop}

/-- **Merged blocks are whole.** A merged tiling has no block inside a larger aligned block of tiled points: the buddy of
a smallest such block would be tiled by a block of its own size. -/
theorem Merged.whole (hm : Merged K cs) (h : Tiling cs S) (hal : 2 ^ b.exp ∣ b.base) (hK : b.exp ≤ K)
    (hsub : ∀ x, b.has x = true → S x) (hc : c ∈ cs) (hin : b.has c.base = true) : b.exp ≤ c.exp := by
  by_contra hlt
  -- by induction on the size of the block inside
  induction hk : c.exp using Nat.strong_induction_on generalizing c with
  | _ k ih =>
    subst hk
    have hbud := has_buddy hal (h.aligned c hc) (Nat.lt_of_not_le hlt) hin
    obtain ⟨d, hd, hbase, hle⟩ := h.buddy_head hc (hsub _ hbud)
    rcases Nat.eq_or_lt_of_le hle with he | hsmall
    · apply hm c hc (by omega)
      rwa [← hbase, ← he]
    · exact ih d.exp hsmall hd (hbase ▸ hbud) (by omega) rfl

/-- an aligned block of tiled points lies in one block of a merged tiling -/
theorem Merged.holds (hm : Merged K cs) (h : Tiling cs S) (hal : 2 ^ b.exp ∣ b.base) (hK : b.exp ≤ K)
    (hsub : ∀ x, b.has x = true → S x) : ∃ c ∈ cs, b.exp ≤ c.exp ∧ c.has b.base = true := by
  obtain ⟨c, hc, hcb⟩ := (h.mem_iff _).1 (hsub b.base (has_base b))
  refine ⟨c, hc, ?_, hcb⟩
  by_contra hlt
  have hbase := base_eq (h.aligned c hc) ((pow_dvd_pow 2 (by omega)).trans hal) hcb
  exact hlt (hm.whole h hal hK hsub hc (hbase ▸ has_base b))

/-- **Merged tilings are unique.** A set has at most one merged tiling with blocks of exponent K at most. -/
theorem Merged.subset (hb : Merged K bs) (hc : Merged K cs) (tb : Tiling bs S) (tc : Tiling cs S)
    (kb : ∀ b ∈ bs, b.exp ≤ K) (kc : ∀ c ∈ cs, c.exp ≤ K) (hmem : b ∈ bs) : b ∈ cs := by
  obtain ⟨c, hcm, hle, hhas⟩ := hc.holds tc (tb.aligned b hmem) (kb b hmem) fun x hx => tb.subset hmem hx
  have hge : c.exp ≤ b.exp := hb.whole tb (tc.aligned c hcm) (kc c hcm) (fun x hx => tc.subset hcm hx) hmem hhas
  have hexp : b.exp = c.exp := le_antisymm hle hge
  have hbase := base_eq (tc.aligned c hcm) (hexp ▸ tb.aligned b hmem) hhas
  have heq : b = c := by
    obtain ⟨k, a⟩ := b
    obtain ⟨j, d⟩ := c
    simp only at hexp hbase
    rw [hexp, hbase]
  exact heq ▸ hcm

end Merged

end OpenASD.Dyadic
