/-
The region list of an address space (kernel/mm/mm.c: amm_region_overlaps, amm_region_add, amm_region_find).

`Tidy`: sorted by base, no two regions meet, none is empty or wraps. The loops of the source stop at the first region that
starts past the range they look for; on a tidy list that misses nothing:
- `overlaps_eq_false_iff`, `regionFind_eq_some_iff`: what the loops decide;
- `Tidy.overlaps_iff`: the addition of a range is refused exactly if it wraps or meets a region of the list;
- `Tidy.insert`, `Tidy.sublist`: the list stays tidy.
-/
import OpenASD.Mm.Vmap

namespace OpenASD.Mm

open List (mem_cons mem_cons_self pairwise_cons)

/-- x is an address of the region -/
def Region.has (r : Region) (x : ℕ) : Prop := r.base ≤ x ∧ x < r.base + r.size

/-- one region: not empty, not wrapping -/
def Region.Plain (r : Region) : Prop := 0 < r.size ∧ r.base + r.size < 2 ^ 64

variable {r nr : Region} {l : List Region} {base : ℕ}

theorem Region.Plain.lim_eq (h : r.Plain) : r.lim = r.base + r.size := Nat.mod_eq_of_lt h.2

structure Tidy (l : List Region) : Prop where
  plain : ∀ r ∈ l, r.Plain
  sorted : l.Pairwise fun a b => a.base + a.size ≤ b.base

theorem Tidy.nil : Tidy [] := ⟨by simp, List.Pairwise.nil⟩

theorem Tidy.cons (h : Tidy l) (hr : r.Plain) (hall : ∀ q ∈ l, r.base + r.size ≤ q.base) : Tidy (r :: l) :=
  ⟨List.forall_mem_cons.2 ⟨hr, h.plain⟩, pairwise_cons.2 ⟨hall, h.sorted⟩⟩

theorem Tidy.tail (h : Tidy (r :: l)) : Tidy l :=
  ⟨fun q hq => h.plain q (List.mem_cons_of_mem r hq), (pairwise_cons.1 h.sorted).2⟩

theorem Tidy.head_le {q : Region} (h : Tidy (r :: l)) (hq : q ∈ l) : r.base + r.size ≤ q.base :=
  (pairwise_cons.1 h.sorted).1 q hq

theorem Tidy.le_all (h : Tidy (r :: l)) {n : ℕ} (hn : n ≤ r.base) : ∀ q ∈ r :: l, n ≤ q.base := by
  intro q hq
  rcases mem_cons.1 hq with rfl | hq
  · exact hn
  · have := h.head_le hq
    omega

/-- no two regions of the list have an address in common -/
theorem Tidy.unique (h : Tidy l) {a b : Region} (ha : a ∈ l) (hb : b ∈ l) {x : ℕ} (hxa : a.has x)
    (hxb : b.has x) : a = b := by
  induction l with
  | nil => cases ha
  | cons r l ih =>
    simp only [Region.has] at hxa hxb
    rcases mem_cons.1 ha with rfl | ha'
    · rcases mem_cons.1 hb with rfl | hb'
      · rfl
      · have := h.head_le hb'
        omega
    rcases mem_cons.1 hb with rfl | hb'
    · have := h.head_le ha'
      omega
    · exact ih h.tail ha' hb'

/-- the loop of amm_region_overlaps finds nothing exactly if every region ends before the range or starts after it -/
theorem overlaps_eq_false_iff (h : Tidy l) {lim : ℕ} :
    overlapsFrom base lim l = false ↔ ∀ r ∈ l, lim ≤ r.base ∨ r.base + r.size ≤ base := by
  induction l with
  | nil => simp [overlapsFrom]
  | cons r l ih =>
    have hp := h.plain r mem_cons_self
    have hsize := hp.1
    rw [overlapsFrom, hp.lim_eq, if_neg (by omega), List.forall_mem_cons]
    by_cases hmeet : base < r.base + r.size ∧ r.base < lim
    · rw [if_pos hmeet]
      constructor
      · intro hf
        cases hf
      · intro ⟨hr, _⟩
        omega
    rw [if_neg hmeet]
    by_cases hpast : lim ≤ r.base
    · -- the rest of the list starts even later
      rw [if_pos hpast]
      refine ⟨fun _ => ⟨Or.inl hpast, fun q hq => Or.inl ?_⟩, fun _ => rfl⟩
      have := h.head_le hq
      omega
    rw [if_neg hpast, ih h.tail]
    constructor
    · intro hall
      exact ⟨by omega, hall⟩
    · intro hall
      exact hall.2

/-- amm_region_find gives the region of an address -/
theorem regionFind_eq_some_iff (h : Tidy l) {addr : ℕ} : regionFind addr l = some r ↔ r ∈ l ∧ r.has addr := by
  induction l with
  | nil => simp [regionFind]
  | cons q l ih =>
    have hp := h.plain q mem_cons_self
    rw [regionFind, hp.lim_eq]
    by_cases hq : q.base ≤ addr ∧ addr < q.base + q.size
    · rw [if_pos hq]
      constructor
      · intro hr
        cases hr
        exact ⟨mem_cons_self, hq⟩
      · rintro ⟨hmem, hhas⟩
        exact congrArg some (h.unique mem_cons_self hmem hq hhas)
    rw [if_neg hq]
    by_cases hpast : addr < q.base
    · rw [if_pos hpast]
      constructor
      · intro hr
        cases hr
      rintro ⟨hmem, hhas⟩
      simp only [Region.has] at hhas
      rcases mem_cons.1 hmem with rfl | hmem
      · omega
      · have := h.head_le hmem
        omega
    · rw [if_neg hpast, ih h.tail, mem_cons]
      constructor
      · rintro ⟨hmem, hhas⟩
        exact ⟨Or.inr hmem, hhas⟩
      · rintro ⟨rfl | hmem, hhas⟩
        · exact absurd hhas hq
        · exact ⟨hmem, hhas⟩

/-! ## Insertion -/

theorem Tidy.insertAfter {cur : Region} (h : Tidy (cur :: l)) (hnr : nr.Plain)
    (hcur : cur.base + cur.size ≤ nr.base) (hd : ∀ r ∈ l, nr.base + nr.size ≤ r.base ∨ r.base + r.size ≤ nr.base) :
    Tidy (insertAfter nr cur l) := by
  induction l generalizing cur with
  | nil => exact (Tidy.nil.cons hnr nofun).cons (h.plain cur mem_cons_self) (by simpa using hcur)
  | cons q l ih =>
    have hq := hd q mem_cons_self
    have hqp := h.tail.plain q mem_cons_self
    simp only [Region.Plain] at hqp
    rw [Mm.insertAfter]
    split_ifs with hlt
    · have hrest := ih h.tail (by omega) fun r hr => hd r (List.mem_cons_of_mem q hr)
      refine hrest.cons (h.plain cur mem_cons_self) fun r hr => ?_
      rcases mem_cons.1 ((insertAfter_perm nr q l).mem_iff.1 hr) with rfl | hr
      · exact hcur
      · exact h.head_le hr
    -- nr goes between cur and q
    have hrest := h.tail.cons hnr (h.tail.le_all (by omega))
    refine hrest.cons (h.plain cur mem_cons_self) fun r hr => ?_
    rcases mem_cons.1 hr with rfl | hr
    · exact hcur
    · exact h.head_le hr

/-- a region that meets none of the list is inserted where it belongs -/
theorem Tidy.insert (h : Tidy l) (hnr : nr.Plain)
    (hd : ∀ r ∈ l, nr.base + nr.size ≤ r.base ∨ r.base + r.size ≤ nr.base) : Tidy (insertSorted nr l) := by
  cases l with
  | nil => exact Tidy.nil.cons hnr nofun
  | cons q l =>
    have hq := hd q mem_cons_self
    have hnp := hnr.1
    rw [insertSorted]
    split_ifs with hlt
    · exact h.cons hnr (h.le_all (by omega))
    · exact h.insertAfter hnr (by omega) fun r hr => hd r (List.mem_cons_of_mem q hr)

/-- what amm_region_add accepts on a tidy list: a range that does not wrap and meets no region -/
theorem Tidy.not_overlaps {map : Vmap} (h : Tidy map.regions) {size : ℕ} (hb : base < 2 ^ 64) (hs : size ≠ 0)
    (hsz : size < 2 ^ 64) (hno : ammRegionOverlaps map base size = false) : base + size < 2 ^ 64 ∧
    ∀ r ∈ map.regions, base + size ≤ r.base ∨ r.base + r.size ≤ base := by
  unfold ammRegionOverlaps at hno
  rw [if_neg hs] at hno
  dsimp only at hno
  split_ifs at hno with hwrap
  have hlim : u64 (base + size) = base + size := by
    simp only [u64] at hwrap ⊢
    omega
  rw [hlim] at hno hwrap
  refine ⟨?_, (overlaps_eq_false_iff h).1 hno⟩
  rw [← hlim]
  exact Nat.mod_lt _ (by decide)

/-! ## Removal -/

theorem unlinkBase_some {l' : List Region} (h : unlinkBase base l = some l') :
    l'.Sublist l ∧ ∃ r, r.base = base ∧ l.Perm (r :: l') := by
  induction l generalizing l' with
  | nil => cases h
  | cons r l ih =>
    rw [unlinkBase] at h
    split_ifs at h with hb
    · cases h
      exact ⟨List.sublist_cons_self r l, r, hb, List.Perm.refl _⟩
    · obtain ⟨q, hq, rfl⟩ := Option.map_eq_some_iff.1 h
      obtain ⟨hsub, r', hr, hperm⟩ := ih hq
      exact ⟨hsub.cons_cons r, r', hr, (hperm.cons r).trans (List.Perm.swap r' r q)⟩

theorem unlinkBase_none (h : unlinkBase base l = none) : ∀ r ∈ l, r.base ≠ base := by
  induction l with
  | nil => nofun
  | cons r l ih =>
    rw [unlinkBase] at h
    split_ifs at h with hb
    exact List.forall_mem_cons.2 ⟨hb, ih (Option.map_eq_none_iff.1 h)⟩

theorem Tidy.sublist {l' : List Region} (h : Tidy l) (hs : l'.Sublist l) : Tidy l' :=
  ⟨fun r hr => h.plain r (hs.subset hr), h.sorted.sublist hs⟩

/-! ## Exactly when an addition fails -/

/-- the ranges have an address in common -/
def Region.Meets (r q : Region) : Prop := ∃ x, r.has x ∧ q.has x

theorem Region.meets_iff {q : Region} (hr : 0 < r.size) (hq : 0 < q.size) :
    r.Meets q ↔ ¬ (q.base + q.size ≤ r.base ∨ r.base + r.size ≤ q.base) := by
  constructor
  · rintro ⟨x, hx1, hx2⟩
    simp only [Region.has] at hx1 hx2
    omega
  intro h
  refine ⟨max r.base q.base, ?_, ?_⟩
  · simp only [Region.has]
    omega
  · simp only [Region.has]
    omega

/-- amm_region_overlaps on a tidy list -/
theorem Tidy.overlaps_iff {map : Vmap} (h : Tidy map.regions) (hb : nr.base < 2 ^ 64) (hs : nr.size ≠ 0)
    (hsz : nr.size < 2 ^ 64) : ammRegionOverlaps map nr.base nr.size = true ↔
    2 ^ 64 ≤ nr.base + nr.size ∨ ∃ r ∈ map.regions, r.Meets nr := by
  unfold ammRegionOverlaps
  rw [if_neg hs]
  by_cases hwrap : 2 ^ 64 ≤ nr.base + nr.size
  · rw [if_pos (by simp only [u64]; omega)]
    exact ⟨fun _ => Or.inl hwrap, fun _ => rfl⟩
  have hlim : u64 (nr.base + nr.size) = nr.base + nr.size := Nat.mod_eq_of_lt (Nat.lt_of_not_le hwrap)
  rw [hlim, if_neg (by omega), ← not_iff_not, Bool.not_eq_true, overlaps_eq_false_iff h]
  simp only [hwrap, false_or, not_exists, not_and]
  refine forall₂_congr fun r hr => ?_
  rw [Region.meets_iff (h.plain r hr).1 (by omega), not_not]

end OpenASD.Mm
