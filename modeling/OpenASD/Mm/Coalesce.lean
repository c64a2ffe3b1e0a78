/-
Coalescing in the buddy allocator (kernel/mm/mm.c: phys_free_range, amm_phys_init, amm_phys_alloc, amm_phys_free).

`Coalesced`: no two free blocks of an order below 18 are buddies. Splitting a block and merging one keep it, so it holds
along every run from a state in which it holds (`step_coalesced`, `run_coalesced`), and there
- `Coalesced.determined`: the lists are determined by the blocks handed out;
- `Coalesced.allocatable`: a free aligned range of 2^k pages is enough for an allocation of order k.

phys_free_range is run for each entry of the map alone and merges nothing. So the lists that a boot leaves are coalesced
exactly if no two entries meet in the middle of an aligned range (`boot_fitted`, `seam_listed`, `seamless_coalesced`).

Results:
- `balanced_restores`: a run that gives back what it took leaves every list with the blocks it had;
- `coalesced_iff_seamless`: all runs from a boot keep the lists coalesced exactly if the map has no such seam.
-/
import OpenASD.Mm.Boot

namespace OpenASD.Mm

open ByteMem OpenASD.Dyadic
open Function (update update_of_ne update_self)
open List (mem_cons mem_cons_self mem_singleton not_mem_nil)

/-- no two free blocks of an order below 18 are buddies -/
def Coalesced (lists : ℕ → List ℕ) : Prop := ∀ o < maxOrder, ∀ p ∈ lists o, p ^^^ pageSize <<< o ∉ lists o

variable {s : St} {n : ℕ}

section

variable {S : ℕ → Prop} {hand : List Block} {out : Out} {lists lists' : ℕ → List ℕ}

theorem Coalesced.mono (h : Coalesced lists) (hsub : ∀ o, ∀ p ∈ lists' o, p ∈ lists o) : Coalesced lists' :=
  fun o ho p hp hb => h o ho p (hsub o p hp) (hsub o _ hb)

/-- the lists as a merged set of blocks -/
theorem Coalesced.merged (h : Coalesced lists) : Merged (12 + maxOrder) (freeBlocks lists) := by
  intro b hb hlt hbud
  obtain ⟨o, ho, p, hp, rfl⟩ := mem_freeBlocks.1 hb
  obtain ⟨j, hj, q, hq, he⟩ := mem_freeBlocks.1 hbud
  simp only [blk, Block.mk.injEq] at he
  obtain ⟨hoj, rfl⟩ := he
  have hjo : o = j := by omega
  subst hjo
  have hlt' : 12 + o < 12 + maxOrder := hlt
  apply h o (by omega) p hp
  rwa [xor_page]

theorem freeBlocks_exp : ∀ b ∈ freeBlocks lists, b.exp ≤ 12 + maxOrder := by
  intro b hb
  obtain ⟨o, ho, p, -, rfl⟩ := mem_freeBlocks.1 hb
  exact Nat.add_le_add_left ho 12

variable {o p order : ℕ}

/-- a block whose buddy is not listed may be listed -/
theorem Coalesced.push (h : Coalesced s.lists) (hno : o < maxOrder → p ^^^ pageSize <<< o ∉ s.lists o) :
    Coalesced (physFreeBlock s p o).lists := by
  show Coalesced (update s.lists o (p :: s.lists o))
  intro j hj q hq
  by_cases hjo : j = o
  · subst hjo
    rw [update_self] at hq ⊢
    intro hb
    rcases mem_cons.1 hq with rfl | hq
    · rcases mem_cons.1 hb with hb | hb
      · rw [xor_page] at hb
        exact buddy_ne _ _ hb
      · exact hno hj hb
    rcases mem_cons.1 hb with hb | hb
    · apply hno hj
      rw [← hb, xor_cancel_right]
      exact hq
    · exact h j hj q hq hb
  · rw [update_of_ne hjo] at hq ⊢
    exact h j hj q hq

/-! ## Allocation and release -/

/-- the base of a block in hand is on no list -/
theorem Inv.hand_not_listed {j : ℕ} (h : Inv S (blk o p :: hand) s out) (hj : j ≤ maxOrder) : p ∉ s.lists j :=
  fun hp => h.tiles.head_base_ne (List.mem_append_right hand (Inv.free_mem hj hp)) rfl

/-- the halves that are listed on the way down have the block that is kept as buddy -/
theorem splitDown_coalesced (h : Inv S (blk (order + n) p :: hand) s out)
    (hn : order + n ≤ maxOrder) (hc : Coalesced s.lists) : Coalesced (splitDown s p order n).lists := by
  induction n generalizing s with
  | zero => exact hc
  | succ n ih =>
    apply ih ((Inv.split (o := order + n) h).push (by omega)) (by omega)
    apply hc.push
    intro _
    rw [xor_cancel_right]
    exact h.hand_not_listed (by omega)

theorem alloc_coalesced (h : Inv S [] s out) (hc : Coalesced s.lists) :
    Coalesced (ammPhysAlloc s order).2.lists := by
  cases hf : found s order with
  | false =>
    rw [alloc_not_found h.late hf]
    exact hc
  | true =>
    obtain ⟨j, p, rest, h1, hj, hl, -, halloc⟩ := alloc_found h.late hf
    have hun := h.pop hj hl
    have hcun : Coalesced (update s.lists j rest) := by
      apply hc.mono
      intro o q hq
      by_cases ho : o = j
      · subst ho
        rw [update_self] at hq
        rw [hl]
        exact List.mem_cons_of_mem p hq
      · rwa [update_of_ne ho] at hq
    have hjo : order + (j - order) = j := by omega
    rw [← hjo] at hun
    have hsp := splitDown_coalesced hun (by omega) (by rwa [hjo])
    rw [hjo] at hsp
    rw [halloc]
    exact hsp

/-- the merging loop stops at a block whose buddy is not listed -/
theorem coalesce_coalesced (h : Inv S [blk o p] s out) (hn : o + n = maxOrder)
    (hc : Coalesced s.lists) : Coalesced (coalesce s p o n).1.lists ∧ ((coalesce s p o n).2.2 < maxOrder →
      (coalesce s p o n).2.1 ^^^ pageSize <<< (coalesce s p o n).2.2 ∉ (coalesce s p o n).1.lists (coalesce s p o n).2.2) := by
  induction n generalizing s p o with
  | zero => exact ⟨hc, fun hlt => absurd hlt (by show ¬ o < maxOrder; omega)⟩
  | succ n ih =>
    obtain ⟨he, hno, -⟩ | ⟨s1, q, he, h1, -, hsub⟩ := coalesce_round h (by omega) n
    · rw [he]
      exact ⟨hc, fun _ => hno⟩
    · rw [he]
      exact ih h1 (by omega) (hc.mono fun j _ hq => hsub j hq)

theorem free_coalesced (h : Inv S [] s out) (hb : (p, order) ∈ out) (hc : Coalesced s.lists) :
    Coalesced (ammPhysFree s p order).lists := by
  have ho : order ≤ maxOrder := h.outOrder _ hb
  obtain ⟨h1, h2⟩ := coalesce_coalesced (n := maxOrder - order) (h.take hb) (by omega) hc
  exact h1.push h2

/-! ## Runs -/

theorem step_coalesced {y y' : Sys} {op : Op} (h : Inv S [] y.st y.out) (hc : Coalesced y.st.lists)
    (hs : step y op = some y') : Coalesced y'.st.lists := by
  cases op with
  | alloc order =>
    cases hs
    exact alloc_coalesced h hc
  | free p order =>
    simp only [step] at hs
    split_ifs at hs with hmem
    cases hs
    exact free_coalesced h hmem hc
  | store x v =>
    simp only [step] at hs
    split_ifs at hs
    cases hs
    exact hc

/-- **Every run keeps the lists coalesced.** -/
theorem run_coalesced {y y' : Sys} (ops : List Op) (h : Inv S [] y.st y.out) (hc : Coalesced y.st.lists)
    (hr : run y ops = some y') : Coalesced y'.st.lists := by
  induction ops generalizing y with
  | nil =>
    cases hr
    exact hc
  | cons op ops ih =>
    obtain ⟨y1, h1, h2⟩ := Option.bind_eq_some_iff.1 hr
    exact ih (step_inv h h1).1 (step_coalesced h hc h1) h2

/-- the free blocks tile what is not handed out -/
theorem Inv.free_tiles (h : Inv S [] s out) :
    Tiling (freeBlocks s.lists) fun x => S x ∧ ¬ ∃ b ∈ outBlocks out, b.has x = true := by
  have ht : Tiling (freeBlocks s.lists ++ outBlocks out) S := h.tiles
  exact ht.left

/-- coalesced lists are determined by the blocks handed out -/
theorem Coalesced.determined {s' : St} {out' : Out} (h : Inv S [] s out) (h' : Inv S [] s' out')
    (hc : Coalesced s.lists) (hc' : Coalesced s'.lists) (hout : out'.Perm out) (ho : o ≤ maxOrder)
    (hp : p ∈ s.lists o) : p ∈ s'.lists o := by
  have hsame : (fun x => S x ∧ ¬ ∃ b ∈ outBlocks out', b.has x = true) =
      fun x => S x ∧ ¬ ∃ b ∈ outBlocks out, b.has x = true := by
    funext x
    simp only [(hout.map fun b : ℕ × ℕ => blk b.2 b.1).mem_iff, outBlocks]
  have ht' := h'.free_tiles
  rw [hsame] at ht'
  have hmem := hc.merged.subset hc'.merged h.free_tiles ht' freeBlocks_exp freeBlocks_exp
    (mem_freeBlocks.2 ⟨o, ho, p, hp, rfl⟩)
  obtain ⟨j, -, q, hq, he⟩ := mem_freeBlocks.1 hmem
  simp only [blk, Block.mk.injEq] at he
  obtain ⟨hj, rfl⟩ := he
  have hjo : o = j := by omega
  exact hjo ▸ hq

/-- the aligned range of 2^k pages at b is free -/
def FreeRange (lists : ℕ → List ℕ) (k b : ℕ) : Prop :=
  2 ^ (12 + k) ∣ b ∧ ∀ x, (blk k b).has x = true → ∃ o ≤ maxOrder, ∃ p ∈ lists o, (blk o p).has x = true

/-- a free aligned range of 2^k pages is enough for an allocation of order k -/
def Allocatable (s : St) : Prop := ∀ k ≤ maxOrder, ∀ b, FreeRange s.lists k b → found s k = true

theorem Coalesced.allocatable (h : Inv S [] s out) (hc : Coalesced s.lists) : Allocatable s := by
  rintro k hk b ⟨hal, hfree⟩
  obtain ⟨c, hmem, hle, -⟩ := hc.merged.holds h.free_tiles (b := blk k b) hal (Nat.add_le_add_left hk 12) (by
    intro x hx
    obtain ⟨o, ho, p, hp, hxp⟩ := hfree x hx
    exact (h.free_tiles.mem_iff x).2 ⟨blk o p, mem_freeBlocks.2 ⟨o, ho, p, hp, rfl⟩, hxp⟩)
  obtain ⟨o, ho, p, hp, rfl⟩ := mem_freeBlocks.1 hmem
  have hko : 12 + k ≤ 12 + o := hle
  exact found_of_mem (by omega) ho hp

end

/-! ## Ranges brought in by a boot -/

/-- every listed block lies in one of the ranges, and no larger block would fit there at its address -/
def Fitted (R : ℕ × ℕ → Prop) (lists : ℕ → List ℕ) : Prop :=
  ∀ o ≤ maxOrder, ∀ p ∈ lists o, ∃ r, R r ∧ r.1 ≤ p ∧ p + 2 ^ (12 + o) ≤ r.2 ∧
    ∀ j ≤ maxOrder, 2 ^ (12 + j) ∣ p → p + 2 ^ (12 + j) ≤ r.2 → j ≤ o

/-- the order chosen is the largest that fits and is aligned -/
theorem le_fitOrder {base pages i j : ℕ} (hj : j ≤ n) (hfit : i + 2 ^ j ≤ pages)
    (hal : 2 ^ (12 + j) ∣ base + i * pageSize) : j ≤ fitOrder base pages i n := by
  induction n with
  | zero => exact hj
  | succ n ih =>
    rw [fitOrder]
    rcases Nat.eq_or_lt_of_le hj with rfl | hlt
    · rw [if_neg (Nat.not_lt.2 hfit), if_neg]
      rw [not_not, ← block_bytes]
      exact Nat.mod_eq_zero_of_dvd hal
    have hle := ih (Nat.le_of_lt_succ hlt)
    split_ifs
    · exact hle
    · exact hle
    · exact hj

variable {R : ℕ × ℕ → Prop} {a : ℕ}

theorem physFreeRange_fitted {base pages i : ℕ} (h : Fitted R s.lists)
    (hb : pageSize ∣ base) (hR : R (base, base + pages * pageSize)) : Fitted R (physFreeRange s base pages i).lists := by
  fun_induction physFreeRange s base pages i with
  | case1 s i hi order =>
    rename_i ih
    apply ih
    obtain ⟨-, hfit, -⟩ := fitOrder_spec hb hi maxOrder
    intro o ho p hp
    have hp' : p ∈ update s.lists order ((base + i * pageSize) :: s.lists order) o := hp
    by_cases hoo : o = order
    · rw [hoo, update_self] at hp'
      rcases mem_cons.1 hp' with rfl | hp'
      · refine ⟨_, hR, Nat.le_add_right _ _, ?_, fun j hj hal hle => ?_⟩
        · rw [hoo, block_bytes, add_assoc, ← Nat.add_mul]
          exact Nat.add_le_add_left (Nat.mul_le_mul_right _ hfit) base
        rw [hoo]
        apply le_fitOrder hj _ hal
        rw [block_bytes, add_assoc, ← Nat.add_mul] at hle
        exact Nat.le_of_mul_le_mul_right (Nat.le_of_add_le_add_left hle) (by decide)
      · exact h o ho p (hoo ▸ hp')
    · rw [update_of_ne hoo] at hp'
      exact h o ho p hp'
  | case2 s i hi => exact h

theorem freePieces_fitted {L : List (ℕ × ℕ)} (h : Fitted R s.lists) (ha : ∀ r ∈ L, pageSize ∣ r.1 ∧ pageSize ∣ r.2)
    (hR : ∀ r ∈ L, R r) : Fitted R (L.foldl freePiece s).lists := by
  induction L generalizing s with
  | nil => exact h
  | cons r L ih =>
    refine ih ?_ (fun r' hr' => ha r' (List.mem_cons_of_mem r hr')) fun r' hr' => hR r' (List.mem_cons_of_mem r hr')
    obtain ⟨h1, h2⟩ := ha r mem_cons_self
    unfold freePiece
    split_ifs with hlt
    · have hlen : r.1 + (r.2 - r.1) / pageSize * pageSize = r.2 := by
        rw [Nat.div_mul_cancel (Nat.dvd_sub h2 h1), Nat.add_sub_cancel' hlt.le]
      apply physFreeRange_fitted h h1
      rw [hlen]
      exact hR r mem_cons_self
    · exact h

theorem bumpLargest_lt (l : List MmapEntry) (r : ℕ × ℕ) : bumpLargest l r = r ∨ (bumpLargest l r).1 < (bumpLargest l r).2 := by
  induction l generalizing r with
  | nil => exact Or.inl rfl
  | cons m l ih =>
    rw [bumpLargest]
    split_ifs with hf hbig
    · exact ih r
    · right
      rcases ih (pageAlign m.base, m.lim) with he | hlt
      · rw [he]
        exact hbig.1
      · exact hlt
    · exact ih r

/-- a pool that is not at address 0 is not empty -/
theorem bumpInit_lt {mmap : List MmapEntry} (h0 : s.bumpBase = 0) (hne : (bumpInit s mmap).bumpBase ≠ 0) :
    (bumpInit s mmap).bumpBase < (bumpInit s mmap).bumpEnd := by
  revert hne
  unfold bumpInit
  rcases bumpFirst mmap with _ | b
  · simp only
    split_ifs with hsame
    · intro hne
      exact absurd h0 hne
    · intro _
      exact (bumpLargest_lt mmap _).resolve_left hsame
  · intro _
    exact Nat.lt_add_of_pos_right (by decide)

/-- **The lists after a boot.** Every block lies in one piece of one entry, as large as fits there; the pool is that of
the early scan, and not empty. -/
theorem boot_fitted {mem : Mem} {mmap : List MmapEntry} (hm : GoodMap mmap) (h : boot mem mmap = some s) :
    Fitted (fun r => ∃ m ∈ mmap, r ∈ m.pieces s.bumpBase s.bumpEnd) s.lists ∧ s.bumpBase < s.bumpEnd ∧
    s.bumpBase = (ammEarlyPhysScan (St.start mem) mmap).bumpBase ∧
    s.bumpEnd = (ammEarlyPhysScan (St.start mem) mmap).bumpEnd := by
  obtain ⟨s1, y, b, t, h1, hp, hy, hb, hend, rfl⟩ := boot_pieces hm h
  obtain ⟨he, ht, -⟩ := earlyScan_spec mem mmap
  obtain ⟨e1, e2, -⟩ := pml4Init_early he ht h1
  have hlt : s1.bumpBase < s1.bumpEnd := by
    rw [e1, e2]
    refine bumpInit_lt ?_ (e1 ▸ hp.ne)
    obtain ⟨b, t, n, hfold, -⟩ := earlyScan_fold mmap (clearPhys (St.start mem))
    rw [hfold]
    rfl
  have hnil : Fitted (fun r => ∃ m ∈ mmap, r ∈ m.pieces s1.bumpBase s1.bumpEnd) (clearPhys s1).lists := by
    intro o _ p hpm
    simp [clearPhys] at hpm
  have hfit := freePieces_fitted hnil (map_aligned hm hp) fun r hr => List.mem_flatMap.1 hr
  rw [hy] at hfit
  simp only [hb, hend]
  exact ⟨hfit, hlt, e1, e2⟩

/-! ## Seams -/

/-- no aligned range of two buddies, free and outside the pool, has its halves in two different entries -/
def Seamless (mmap : List MmapEntry) (pool : ℕ → Prop) : Prop :=
  ∀ o < maxOrder, ∀ b, 2 ^ (12 + (o + 1)) ∣ b → (∀ x, (blk (o + 1) b).has x = true → ¬ pool x) →
    ∀ m ∈ mmap, ∀ n ∈ mmap, (∀ x, (blk o b).has x = true → m.has x) →
      (∀ x, (blk o (b + 2 ^ (12 + o))).has x = true → n.has x) → m = n

section Seams

variable {mmap : List MmapEntry} {s : St} {m n : MmapEntry} {lo hi : ℕ} {r : ℕ × ℕ}

/-- a piece reaches as far as the free bytes outside the pool do -/
theorem piece_end (hlt : lo < hi) (hr : r ∈ m.pieces lo hi) {c : ℕ} (ha : a < r.2)
    (hall : ∀ x, a ≤ x → x < c → m.has x ∧ ¬ (lo ≤ x ∧ x < hi)) : c ≤ r.2 := by
  by_contra hc
  obtain ⟨⟨-, -, hend⟩, hpool⟩ := hall r.2 ha.le (Nat.lt_of_not_le hc)
  unfold MmapEntry.pieces at hr
  split_ifs at hr with hf hov
  · cases hr
  · simp only [mem_cons, not_mem_nil, or_false] at hr
    rcases hr with rfl | rfl
    · exact hpool ⟨le_rfl, hlt⟩
    · exact absurd hend (lt_irrefl _)
  · rw [mem_singleton.1 hr] at hend
    exact absurd hend (lt_irrefl _)

/-- entries that share a byte are the same -/
theorem GoodMap.entry_eq (hm : GoodMap mmap) (h1 : m ∈ mmap) (h2 : n ∈ mmap) {x : ℕ} (hx : m.has x) (hx' : n.has x) :
    m = n := by
  by_contra hne
  have hsymm : Std.Symm fun m n : MmapEntry => ∀ x, ¬ (m.has x ∧ n.has x) := ⟨fun _ _ h x hx => h x hx.symm⟩
  exact hm.disjoint.forall h1 h2 hne x ⟨hx, hx'⟩

/-- a block in a piece -/
theorem piece_block {o p x : ℕ} (hr : r ∈ m.pieces lo hi) (h1 : r.1 ≤ p) (h2 : p + 2 ^ (12 + o) ≤ r.2)
    (hx : (blk o p).has x = true) : m.has x ∧ ¬ (lo ≤ x ∧ x < hi) := by
  rw [has_iff] at hx
  exact within_pieces.1 ⟨r, hr, h1.trans hx.1, lt_of_lt_of_le hx.2 h2⟩

/-- a block and its halves -/
theorem has_halves (o p x : ℕ) : (blk (o + 1) p).has x = true ↔
    (blk o p).has x = true ∨ (blk o (p + 2 ^ (12 + o))).has x = true := by
  have hpow : 2 ^ (12 + (o + 1)) = 2 ^ (12 + o) + 2 ^ (12 + o) := (pow_succ 2 (12 + o)).trans (mul_two _)
  simp only [has_iff, blk]
  omega

variable (hfit : Fitted (fun r => ∃ m ∈ mmap, r ∈ m.pieces s.bumpBase s.bumpEnd) s.lists) (hlt : s.bumpBase < s.bumpEnd) {o : ℕ}
include hfit hlt

/-- two listed buddies lie in one entry only if no larger block fitted there, which is not so -/
theorem seamless_low (hs : Seamless mmap s.pool) {p : ℕ} (ho : o < maxOrder) (hal : 2 ^ (12 + o + 1) ∣ p)
    (hp : p ∈ s.lists o) : p + 2 ^ (12 + o) ∉ s.lists o := by
  intro hb
  obtain ⟨r, ⟨m, hmem, hr⟩, h1, h2, hmax⟩ := hfit o ho.le p hp
  obtain ⟨r', ⟨n, hnmem, hr'⟩, h1', h2', -⟩ := hfit o ho.le _ hb
  have hlow : ∀ x, (blk o p).has x = true → m.has x ∧ ¬ s.pool x := fun x => piece_block hr h1 h2
  have hup : ∀ x, (blk o (p + 2 ^ (12 + o))).has x = true → n.has x ∧ ¬ s.pool x := fun x => piece_block hr' h1' h2'
  have hmn : m = n := by
    refine hs o ho p hal (fun x hx => ?_) m hmem n hnmem (fun x hx => (hlow x hx).1) fun x hx => (hup x hx).1
    rcases (has_halves o p x).1 hx with hx | hx
    · exact (hlow x hx).2
    · exact (hup x hx).2
  subst hmn
  -- the piece of the lower half holds the upper half too
  have hend : p + 2 ^ (12 + (o + 1)) ≤ r.2 := by
    refine piece_end (a := p) hlt hr (by omega) fun x hx1 hx2 => ?_
    rcases (has_halves o p x).1 ((has_iff _ _).2 ⟨hx1, hx2⟩) with hx | hx
    · exact hlow x hx
    · exact hup x hx
  have := hmax (o + 1) ho hal hend
  omega

variable (hm : GoodMap mmap) (hinv : Inv (fun x => freeByte mmap x ∧ ¬ s.pool x) [] s [])
include hinv

/-- a boot of a seamless map leaves coalesced lists -/
theorem seamless_coalesced (hs : Seamless mmap s.pool) : Coalesced s.lists := by
  intro o ho p hp hb
  rw [xor_page] at hb
  have hal : 2 ^ (12 + o) ∣ p := hinv.tiles.aligned (blk o p) (Inv.free_mem ho.le hp)
  by_cases hlow : 2 ^ (12 + o + 1) ∣ p
  · rw [buddy_of_low hlow] at hb
    exact seamless_low hfit hlt hs ho hlow hp hb
  · obtain ⟨hsum, hdvd⟩ := buddy_of_high hal hlow
    rw [← hsum] at hp
    exact seamless_low hfit hlt hs ho hdvd hb hp

include hm

/-- an aligned range of an entry is listed as one block if its buddy does not belong to the entry -/
theorem listed_at (hmem : m ∈ mmap) (ho : o ≤ maxOrder) (hal : 2 ^ (12 + o) ∣ a)
    (hin : ∀ x, (blk o a).has x = true → m.has x ∧ ¬ s.pool x) (hnb : ¬ m.has (buddy (12 + o) a)) : a ∈ s.lists o := by
  have hbase : (blk o a).has a = true := has_base (blk o a)
  obtain ⟨c, hc, hca⟩ := (hinv.tiles.mem_iff a).1 ⟨⟨m, hmem, (hin a hbase).1⟩, (hin a hbase).2⟩
  have hcf : c ∈ freeBlocks s.lists := by simpa [outBlocks] using hc
  obtain ⟨j, hj, q, hq, rfl⟩ := mem_freeBlocks.1 hcf
  obtain ⟨r, ⟨k, hk, hr⟩, h1, h2, hmax⟩ := hfit j hj q hq
  have hcal : 2 ^ (12 + j) ∣ q := hinv.tiles.aligned _ hc
  -- the bytes of the listed block belong to the entry
  have hown : ∀ x, (blk j q).has x = true → k.has x := fun x hx => (piece_block hr h1 h2 hx).1
  have hkm : k = m := hm.entry_eq hk hmem (hown a hca) (hin a hbase).1
  subst hkm
  have hjo : j ≤ o := by
    by_contra hgt
    have hgt' : 12 + o < 12 + j := by omega
    exact hnb (hown _ (has_buddy (b := blk j q) hcal hal hgt' hca))
  have hqa : q = a := base_eq (c := blk j q) hcal ((pow_dvd_pow 2 (by simp only [blk]; omega)).trans hal) hca
  subst hqa
  have hend : q + 2 ^ (12 + o) ≤ r.2 := by
    refine piece_end (a := q) hlt hr (lt_of_lt_of_le (Nat.lt_add_of_pos_right (Nat.two_pow_pos _)) h2) fun x hx1 hx2 => ?_
    exact hin x ((has_iff _ _).2 ⟨hx1, hx2⟩)
  have hoj := hmax o ho hal hend
  rwa [le_antisymm hjo hoj] at hq

/-- **Seams stay.** Two buddies that meet at the boundary of two entries are listed apart. -/
theorem seam_listed (hmem : m ∈ mmap) (hnmem : n ∈ mmap) (hne : m ≠ n) {b : ℕ} (ho : o < maxOrder)
    (hal : 2 ^ (12 + (o + 1)) ∣ b) (hpool : ∀ x, (blk (o + 1) b).has x = true → ¬ s.pool x)
    (hlow : ∀ x, (blk o b).has x = true → m.has x) (hup : ∀ x, (blk o (b + 2 ^ (12 + o))).has x = true → n.has x) :
    b ∈ s.lists o ∧ b + 2 ^ (12 + o) ∈ s.lists o := by
  have hal' : 2 ^ (12 + o + 1) ∣ b := hal
  have hbud := buddy_of_low hal'
  have halow : 2 ^ (12 + o) ∣ b := (pow_dvd_pow 2 (Nat.le_succ _)).trans hal'
  constructor
  · apply listed_at hfit hlt hm hinv hmem ho.le halow
    · intro x hx
      exact ⟨hlow x hx, hpool x ((has_halves o b x).2 (.inl hx))⟩
    · intro hx
      rw [hbud] at hx
      exact hne (hm.entry_eq hmem hnmem hx (hup _ (has_base (blk o (b + 2 ^ (12 + o))))))
  apply listed_at hfit hlt hm hinv hnmem ho.le (halow.add dvd_rfl)
  · intro x hx
    exact ⟨hup x hx, hpool x ((has_halves o b x).2 (.inr hx))⟩
  · intro hx
    rw [← hbud, buddy_buddy] at hx
    exact hne (hm.entry_eq hmem hnmem (hlow b (has_base (blk o b))) hx)

end Seams

/-- a map of one entry has no seam -/
theorem smallMap_seamless (pool : ℕ → Prop) : Seamless smallMap pool := by
  intro o _ b _ _ m hm n hn _ _
  rw [mem_singleton.1 hm, mem_singleton.1 hn]

/-! ## Main results -/

/-- **A balanced run restores the lists.** From every state that a boot and a run can reach, if no two free blocks are
buddies: allocations of any orders and releases, after which the blocks handed out are those from before, leave every
list with the blocks it had. -/
theorem balanced_restores {mem : Mem} {mmap : List MmapEntry} (hm : GoodMap mmap) {s : St} (hb : boot mem mmap = some s)
    {ops : List Op} {y : Sys} (hr : run ⟨s, []⟩ ops = some y) (hc : Coalesced y.st.lists) {ops' : List Op} {y' : Sys}
    (hr' : run y ops' = some y') (hret : y'.out.Perm y.out) : ∀ o ≤ maxOrder, ∀ p, p ∈ y'.st.lists o ↔ p ∈ y.st.lists o := by
  obtain ⟨-, h0⟩ := boot_inv hm hb
  have h1 := (run_inv ops h0 hr).1
  have h2 := (run_inv ops' h1 hr').1
  have hc' := run_coalesced ops' h1 hc hr'
  intro o ho p
  constructor
  · exact Coalesced.determined h2 h1 hc' hc hret.symm ho
  · exact Coalesced.determined h1 h2 hc hc' hret ho

theorem balanced_restores_small : ∃ s y, boot (fun _ => 0) smallMap = some s ∧
    run ⟨s, []⟩ [.alloc 3, .free (ammPhysAlloc s 3).1 3] = some y ∧ y.out = [] ∧
    ∀ o ≤ maxOrder, ∀ p, p ∈ y.st.lists o ↔ p ∈ s.lists o := by
  obtain ⟨s, hs⟩ := smallMap_boot fun _ => 0
  have hfound := (smallMap_found hs (show 3 ≤ 8 by decide)).1
  have hrun : run ⟨s, []⟩ [.alloc 3, .free (ammPhysAlloc s 3).1 3] =
      some ⟨ammPhysFree (ammPhysAlloc s 3).2 (ammPhysAlloc s 3).1 3, []⟩ := by
    simp [run, step, hfound]
  obtain ⟨-, hinv⟩ := boot_inv smallMap_good hs
  obtain ⟨hfit, hlt, -⟩ := boot_fitted smallMap_good hs
  have hc := seamless_coalesced hfit hlt hinv (smallMap_seamless s.pool)
  exact ⟨s, _, hs, hrun, rfl, balanced_restores smallMap_good hs (show run ⟨s, []⟩ [] = some ⟨s, []⟩ from rfl) hc hrun (List.Perm.refl _)⟩

/-- **Coalescing holds exactly for seamless maps.** In every state that a boot and a run can reach no two free blocks are
buddies and every free aligned range can be allocated, if and only if no two entries of the map meet in the middle of an
aligned range. -/
theorem coalesced_iff_seamless {mem : Mem} {mmap : List MmapEntry} (hm : GoodMap mmap) {s : St}
    (hb : boot mem mmap = some s) :
    (∀ ops y, run ⟨s, []⟩ ops = some y → Coalesced y.st.lists ∧ Allocatable y.st) ↔ Seamless mmap s.pool := by
  obtain ⟨-, hinv⟩ := boot_inv hm hb
  obtain ⟨hfit, hlt, -⟩ := boot_fitted hm hb
  constructor
  · intro h o ho b hal hpool m hmem n hnmem hlow hup
    by_contra hne
    obtain ⟨h1, h2⟩ := seam_listed hfit hlt hm hinv hmem hnmem hne ho hal hpool hlow hup
    obtain ⟨hc, -⟩ := h [] ⟨s, []⟩ rfl
    apply hc o ho b h1
    rwa [xor_page, buddy_of_low (show 2 ^ (12 + o + 1) ∣ b from hal)]
  · intro hs ops y hr
    have hc := run_coalesced ops hinv (seamless_coalesced hfit hlt hinv hs) hr
    exact ⟨hc, hc.allocatable (run_inv ops hinv hr).1⟩

theorem coalesced_iff_seamless_small : ∃ s, boot (fun _ => 0) smallMap = some s ∧
    ∀ ops y, run ⟨s, []⟩ ops = some y → Coalesced y.st.lists ∧ Allocatable y.st := by
  obtain ⟨s, hs⟩ := smallMap_boot fun _ => 0
  exact ⟨s, hs, (coalesced_iff_seamless smallMap_good hs).2 (smallMap_seamless s.pool)⟩

/-- the pool takes the first entry; two free pages next to each other are two entries -/
def seamMap : List MmapEntry := [⟨0x100000, 16384, .free⟩, ⟨0x8000000, 1, .free⟩, ⟨0x8001000, 1, .free⟩]

theorem seamMap_good : GoodMap seamMap := by
  refine ⟨by decide, by decide, ?_⟩
  simp only [seamMap, List.pairwise_cons, mem_cons, not_mem_nil, or_false, forall_eq_or_imp, forall_eq,
    MmapEntry.has, List.Pairwise.nil, and_true, false_implies, implies_true, pageSize]
  refine ⟨⟨fun x => ?_, fun x => ?_⟩, fun x => ?_⟩ <;> omega

theorem seamMap_boot (mem : Mem) : ∃ s, boot mem seamMap = some s := by
  have htop : (ammEarlyPhysScan (St.start mem) seamMap).physTop = 0x8002000 := rfl
  refine boot_some mem (b := 0x100000) rfl (by decide) ?_
  rw [htop]
  decide

/-- **A seam.** Both pages are free and listed with order 0, and no block of order 1 is found. -/
theorem seam_not_coalesced : ∃ s, boot (fun _ => 0) seamMap = some s ∧ 0x8000000 ∈ s.lists 0 ∧
    0x8000000 ^^^ pageSize <<< 0 ∈ s.lists 0 ∧ FreeRange s.lists 1 0x8000000 ∧ found s 1 = false := by
  obtain ⟨s, hs⟩ := seamMap_boot fun _ => 0
  obtain ⟨-, hinv⟩ := boot_inv seamMap_good hs
  obtain ⟨hfit, hlt, hbase, hend⟩ := boot_fitted seamMap_good hs
  have hlo : s.bumpBase = 0x100000 := hbase.trans rfl
  have hhi : s.bumpEnd = 0x4100000 := hend.trans rfl
  obtain ⟨h1, h2⟩ := seam_listed (m := ⟨0x8000000, 1, .free⟩) (n := ⟨0x8001000, 1, .free⟩) (o := 0) (b := 0x8000000)
    hfit hlt seamMap_good hinv (by decide) (by decide) (by decide) (by decide) (by decide)
    (by
      intro x hx
      simp only [has_iff, blk] at hx
      simp only [St.pool, hlo, hhi]
      omega)
    (by
      intro x hx
      simp only [has_iff, blk] at hx
      simp only [MmapEntry.has, pageSize, true_and]
      omega)
    (by
      intro x hx
      simp only [has_iff, blk] at hx
      simp only [MmapEntry.has, pageSize, true_and]
      omega)
  refine ⟨s, hs, h1, h2, ⟨by decide, fun x hx => ?_⟩, ?_⟩
  · simp only [has_iff, blk] at hx
    by_cases hlow : x < 0x8001000
    · exact ⟨0, by decide, _, h1, by simp only [has_iff, blk]; omega⟩
    · exact ⟨0, by decide, _, h2, by simp only [has_iff, blk]; omega⟩
  cases hf : found s 1 with
  | false => rfl
  | true =>
    -- a block of two pages or more fits in no piece
    exfalso
    obtain ⟨j, p, rest, hj1, hj, hl, -⟩ := alloc_found hinv.late hf
    obtain ⟨r, ⟨m, hm, hr⟩, hr1, hr2, -⟩ := hfit j hj p (by rw [hl]; exact mem_cons_self)
    have hbig : 2 ^ 13 ≤ 2 ^ (12 + j) := Nat.pow_le_pow_right (by decide) (by omega)
    obtain ⟨⟨-, hp1, -⟩, hp2⟩ := within_pieces.1 ⟨r, hr, hr1, by omega⟩
    obtain ⟨⟨-, -, hp3⟩, -⟩ := within_pieces.1 ⟨r, hr, show r.1 ≤ p + 2 ^ 13 - 1 by omega, by omega⟩
    simp only [seamMap, mem_cons, not_mem_nil, or_false] at hm
    simp only [pageSize] at hp1 hp3
    rcases hm with rfl | rfl | rfl
    all_goals
      dsimp only at hp1 hp3
      omega

end OpenASD.Mm
