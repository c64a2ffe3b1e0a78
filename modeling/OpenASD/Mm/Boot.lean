/-
A whole boot of the memory manager (amm_early_phys_scan, amm_kernel_pml4_init, amm_phys_init) and every run of
amm_phys_alloc and amm_phys_free after it.

`Sys` is the allocator with the blocks handed out so far as ghost state. `step` allocates, frees a block that is out
with exactly that order (any other free is not a step), or lets an owner write a byte of a block it holds.

Results:
- `boot_inv`: a boot that does not halt leaves the free bytes outside the bump pool tiled by the free lists;
- `run_inv`: every run keeps the tiling;
- `boot_run_sound`: in every state reached after a boot, free and handed-out blocks are aligned, disjoint, cover exactly
  the free pages outside the pool, no list names a block twice and `free_pages` is the sum over the lists;
- `boot_some`: a map with room for the tables in its pool does not halt the boot.
-/
import OpenASD.Mm.Buddy
import OpenASD.Mm.PageTable

namespace OpenASD.Mm

open ByteMem OpenASD.Dyadic Loop
open List (mem_cons_of_mem mem_cons_self mem_singleton sum)

/-! ## Memory maps -/

/-- x is a byte of a FREE entry -/
def MmapEntry.has (m : MmapEntry) (x : ℕ) : Prop := m.type = .free ∧ m.base ≤ x ∧ x < m.base + m.pages * pageSize

/-- x is a FREE byte of the map -/
def freeByte (mmap : List MmapEntry) (x : ℕ) : Prop := ∃ m ∈ mmap, m.has x

/-- FREE entries are page aligned, do not wrap, and are pairwise disjoint -/
structure GoodMap (mmap : List MmapEntry) : Prop where
  aligned : ∀ m ∈ mmap, m.type = .free → pageSize ∣ m.base
  noWrap : ∀ m ∈ mmap, m.type = .free → m.base + m.pages * pageSize < 2 ^ 64
  disjoint : mmap.Pairwise fun m n => ∀ x, ¬ (m.has x ∧ n.has x)

/-- one FREE entry that is aligned and does not wrap -/
structure GoodEntry (m : MmapEntry) : Prop where
  aligned : m.type = .free → pageSize ∣ m.base
  noWrap : m.type = .free → m.base + m.pages * pageSize < 2 ^ 64

variable {m : MmapEntry} {mmap : List MmapEntry} {base pages i j b : ℕ} {S : ℕ → Prop} {s s' : St}

theorem GoodMap.entry (h : GoodMap mmap) (hm : m ∈ mmap) : GoodEntry m :=
  ⟨h.aligned m hm, h.noWrap m hm⟩

theorem GoodEntry.pageAlign_base (h : GoodEntry m) (hf : m.type = .free) : pageAlign m.base = m.base := by
  have h1 := h.aligned hf
  have h2 := h.noWrap hf
  simp only [pageAlign, u64, pageSize] at *
  omega

theorem GoodEntry.lim_eq (h : GoodEntry m) (hf : m.type = .free) : m.lim = m.base + m.pages * pageSize := by
  have h1 := h.aligned hf
  have h2 := h.noWrap hf
  simp only [MmapEntry.lim, pageAlignDown, u64, pageSize] at *
  omega

/-! ## Bringing in ranges -/

theorem block_bytes (o : ℕ) : 2 ^ (12 + o) = 2 ^ o * pageSize := by
  rw [add_comm, pow_add]
  rfl

theorem fitOrder_spec (hb : pageSize ∣ base) (hi : i < pages) (n : ℕ) :
    fitOrder base pages i n ≤ n ∧ i + 2 ^ fitOrder base pages i n ≤ pages ∧
    2 ^ (12 + fitOrder base pages i n) ∣ base + i * pageSize := by
  induction n with
  | zero => exact ⟨le_rfl, hi, hb.add (dvd_mul_left _ i)⟩
  | succ n ih =>
    obtain ⟨h1, h2, h3⟩ := ih
    rw [fitOrder]
    split_ifs with hfit hal
    · exact ⟨Nat.le_succ_of_le h1, h2, h3⟩
    · exact ⟨Nat.le_succ_of_le h1, h2, h3⟩
    refine ⟨le_rfl, Nat.le_of_not_lt hfit, ?_⟩
    rw [not_not] at hal
    rw [block_bytes]
    exact Nat.dvd_of_mod_eq_zero hal

/-- the bytes of the pages i, ..., pages - 1 from base on -/
def span (base pages i x : ℕ) : Prop := base + i * pageSize ≤ x ∧ x < base + pages * pageSize

theorem physFreeRange_inv (h : Inv S [] s []) (hb : pageSize ∣ base)
    (hd : ∀ x, span base pages i x → ¬ S x) (hl : ∀ x, span base pages i x → x / pageSize + 1 < s.infoLen) :
    Inv (fun x => S x ∨ span base pages i x) [] (physFreeRange s base pages i) [] := by
  -- along the loop: each round brings in one block and leaves a shorter span
  fun_induction physFreeRange s base pages i generalizing S with
  | case1 s i hi order =>
    rename_i ih
    obtain ⟨hle, hfit, hdvd⟩ := fitOrder_spec hb hi maxOrder
    have hblk : ∀ x, (blk order (base + i * pageSize)).has x = true ↔
        base + i * pageSize ≤ x ∧ x < base + (i + 2 ^ order) * pageSize := by
      intro x
      rw [has_iff, blk, block_bytes, add_mul, add_assoc]
    have hend : (i + 2 ^ order) * pageSize ≤ pages * pageSize := Nat.mul_le_mul_right _ hfit
    have hpos : i * pageSize ≤ (i + 2 ^ order) * pageSize := Nat.mul_le_mul_right _ (Nat.le_add_right _ _)
    -- the span is the block and the rest, which are disjoint
    have hset : ∀ x, ((blk order (base + i * pageSize)).has x = true ∨ span base pages (i + 2 ^ order) x) ↔
        span base pages i x := by
      intro x
      rw [hblk]
      simp only [span]
      omega
    have hfresh := h.fresh hdvd (fun x hx => hd x ((hset x).1 (.inl hx))) (fun x hx => hl x ((hset x).1 (.inl hx)))
    have hd' : ∀ x, span base pages (i + 2 ^ order) x → ¬ (S x ∨ (blk order (base + i * pageSize)).has x = true) := by
      intro x hx hS
      rcases hS with hS | hS
      · exact hd x ((hset x).1 (.inr hx)) hS
      · exact absurd ((hblk x).1 hS).2 (Nat.not_lt.2 hx.1)
    have hinv := ih (hfresh.push hle) hd' fun x hx => hl x ((hset x).1 (.inr hx))
    exact hinv.congr fun x => or_assoc.trans (or_congr_right (hset x))
  | case2 s i hi =>
    have hle : pages * pageSize ≤ i * pageSize := Nat.mul_le_mul_right _ (Nat.le_of_not_lt hi)
    refine h.congr fun x => (or_iff_left ?_).symm
    rintro ⟨h1, h2⟩
    omega

theorem physFreeBlock_lists {p o q : ℕ} (h : q ∈ s.lists j) : q ∈ (physFreeBlock s p o).lists j := by
  show q ∈ Function.update s.lists o (p :: s.lists o) j
  by_cases hj : j = o
  · subst hj
    rw [Function.update_self]
    exact mem_cons_of_mem p h
  · rwa [Function.update_of_ne hj]

theorem physFreeRange_lists {q : ℕ} (h : q ∈ s.lists j) :
    q ∈ (physFreeRange s base pages i).lists j := by
  fun_induction physFreeRange s base pages i with
  | case1 s i hi order =>
    rename_i ih
    exact ih (physFreeBlock_lists h)
  | case2 s i hi => exact h

/-- the first block of a range is listed with the largest order that fits there -/
theorem physFreeRange_first {n : ℕ} (h : 0 < n) :
    b ∈ (physFreeRange s b n 0).lists (fitOrder b n 0 maxOrder) := by
  rw [physFreeRange, if_pos h, Nat.zero_mul, Nat.add_zero]
  refine physFreeRange_lists ?_
  show b ∈ Function.update s.lists _ _ _
  rw [Function.update_self]
  exact mem_cons_self

/-- bringing in a range changes neither the pool nor the top nor page_info's length -/
theorem physFreeRange_fixed (s : St) (base pages i : ℕ) : (physFreeRange s base pages i).fixed = s.fixed := by
  fun_induction physFreeRange s base pages i with
  | case1 s i hi order =>
    rename_i ih
    exact ih
  | case2 s i hi => rfl

abbrev St.limits (s : St) (b t : ℕ) : St := { s with physBase := b, physTop := t }

/-- nor does it read the limits of the memory -/
theorem physFreeRange_limits (b t : ℕ) :
    physFreeRange (s.limits b t) base pages i = (physFreeRange s base pages i).limits b t := by
  fun_induction physFreeRange s base pages i with
  | case1 s i hi order =>
    rename_i ih
    rw [physFreeRange, if_pos hi]
    exact ih
  | case2 s i hi => rw [physFreeRange, if_neg hi]

/-! ## Pieces -/

/-- the ranges of an entry that amm_phys_init brings in, with the pool [lo, hi) -/
def MmapEntry.pieces (lo hi : ℕ) (m : MmapEntry) : List (ℕ × ℕ) :=
  if m.type ≠ .free then []
  else if m.base < hi ∧ lo < m.base + m.pages * pageSize then
    [(m.base, lo), (hi, m.base + m.pages * pageSize)]
  else [(m.base, m.base + m.pages * pageSize)]

/-- x is a byte of a piece -/
def within (r : ℕ × ℕ) (x : ℕ) : Prop := r.1 ≤ x ∧ x < r.2

/-- one piece, brought in if it is not empty -/
def freePiece (s : St) (r : ℕ × ℕ) : St := if r.1 < r.2 then freeCounted s r.1 ((r.2 - r.1) / pageSize) else s

section Pieces

variable {L : List (ℕ × ℕ)} {lo hi x : ℕ}

/-- the pieces hold the free bytes outside the pool -/
theorem within_pieces : (∃ r ∈ m.pieces lo hi, within r x) ↔ m.has x ∧ ¬ (lo ≤ x ∧ x < hi) := by
  simp only [MmapEntry.pieces, MmapEntry.has, within]
  split_ifs with hf hov
  · simp [hf]
  · simp only [List.mem_cons, List.not_mem_nil, or_false, exists_eq_or_imp, exists_eq_left, not_not.1 hf,
      true_and]
    omega
  · simp only [mem_singleton, exists_eq_left, not_not.1 hf, true_and]
    omega

/-- and so those of a whole map -/
theorem within_map : (∃ r ∈ mmap.flatMap (MmapEntry.pieces lo hi), within r x) ↔
    freeByte mmap x ∧ ¬ (lo ≤ x ∧ x < hi) := by
  simp only [List.mem_flatMap, freeByte, ← exists_and_right, and_assoc, ← within_pieces]
  constructor
  · rintro ⟨r, m, hm, hr, hx⟩
    exact ⟨m, hm, r, hr, hx⟩
  · rintro ⟨m, hm, r, hr, hx⟩
    exact ⟨r, m, hm, hr, hx⟩

theorem pieces_disjoint (h : lo ≤ hi) :
    (m.pieces lo hi).Pairwise fun r r' => ∀ x, ¬ (within r x ∧ within r' x) := by
  unfold MmapEntry.pieces
  split_ifs
  · exact List.Pairwise.nil
  · refine List.pairwise_pair.2 ?_
    rintro x ⟨⟨-, h1⟩, h2, -⟩
    exact absurd (h1.trans_le (h.trans h2)) (lt_irrefl x)
  · exact List.pairwise_singleton _ _

theorem freePiece_fixed (s : St) (r : ℕ × ℕ) : (freePiece s r).fixed = s.fixed := by
  unfold freePiece
  split_ifs
  · exact physFreeRange_fixed s _ _ 0
  · rfl

theorem freePieces_fixed (s : St) (L : List (ℕ × ℕ)) : (L.foldl freePiece s).fixed = s.fixed := by
  induction L generalizing s with
  | nil => rfl
  | cons r L ih => exact (ih _).trans (freePiece_fixed s r)

theorem freePieces_limits (b t : ℕ) :
    L.foldl freePiece (s.limits b t) = (L.foldl freePiece s).limits b t := by
  induction L generalizing s with
  | nil => rfl
  | cons r L ih =>
    have hr : freePiece (s.limits b t) r = (freePiece s r).limits b t := by
      unfold freePiece
      split_ifs
      · rw [freeCounted, physFreeRange_limits]
        rfl
      · rfl
    rw [List.foldl_cons, hr]
    exact ih

/-- the counters are not part of the invariant -/
theorem Inv.counters (h : Inv S [] s []) (b t n : ℕ) :
    Inv S [] { s with physBase := b, physTop := t, totalPages := n } [] :=
  ⟨h.late, h.tiles, h.freeTag, h.outTag, h.outOrder, h.bare, h.natural, h.linked, h.pages, h.bound, h.trap⟩

theorem freePiece_inv {r : ℕ × ℕ} (h : Inv S [] s []) (ha : pageSize ∣ r.1 ∧ pageSize ∣ r.2)
    (hd : ∀ x, within r x → ¬ S x) (hl : ∀ x, within r x → x / pageSize + 1 < s.infoLen) :
    Inv (fun x => S x ∨ within r x) [] (freePiece s r) [] := by
  unfold freePiece
  split_ifs with hab
  · have hlen : (r.2 - r.1) / pageSize * pageSize = r.2 - r.1 := Nat.div_mul_cancel (Nat.dvd_sub ha.2 ha.1)
    have hspan : span r.1 ((r.2 - r.1) / pageSize) 0 = within r := by
      funext x
      rw [span, hlen, zero_mul, add_zero, Nat.add_sub_cancel' hab.le]
      rfl
    rw [← hspan] at hd hl ⊢
    exact (physFreeRange_inv h ha.1 hd hl).counters _ _ _
  · refine h.congr fun x => (or_iff_left ?_).symm
    rintro ⟨h1, h2⟩
    exact hab (h1.trans_lt h2)

/-- what the pieces brought in so far hold -/
theorem freePieces_inv (h : Inv S [] s []) (ha : ∀ r ∈ L, pageSize ∣ r.1 ∧ pageSize ∣ r.2)
    (hdis : L.Pairwise fun r r' => ∀ x, ¬ (within r x ∧ within r' x)) (hd : ∀ r ∈ L, ∀ x, within r x → ¬ S x)
    (hl : ∀ r ∈ L, ∀ x, within r x → x / pageSize + 1 < s.infoLen) :
    Inv (fun x => S x ∨ ∃ r ∈ L, within r x) [] (L.foldl freePiece s) [] := by
  induction L generalizing S s with
  | nil => exact h.congr fun x => by simp
  | cons r L ih =>
    rw [List.pairwise_cons] at hdis
    have hi := freePiece_inv h (ha r mem_cons_self) (hd r mem_cons_self) (hl r mem_cons_self)
    have hd' : ∀ r' ∈ L, ∀ x, within r' x → ¬ (S x ∨ within r x) := by
      intro r' hr' x hx hS
      rcases hS with hS | hS
      · exact hd r' (mem_cons_of_mem r hr') x hx hS
      · exact hdis.1 r' hr' x ⟨hS, hx⟩
    have hi' := ih hi (fun r' hr' => ha r' (mem_cons_of_mem r hr')) hdis.2 hd'
      fun r' hr' => (St.fixed_eq (freePiece_fixed s r)).2.2.2 ▸ hl r' (mem_cons_of_mem r hr')
    exact hi'.congr fun x => by simp [or_assoc]

end Pieces

/-- the bump pool of a state -/
def St.pool (s : St) (x : ℕ) : Prop := s.bumpBase ≤ x ∧ x < s.bumpEnd

/-- a bump pool that is in use: not at address 0, page aligned -/
structure PoolOk (s : St) : Prop where
  ne : s.bumpBase ≠ 0
  base : pageSize ∣ s.bumpBase
  lim : pageSize ∣ s.bumpEnd
  le : s.bumpBase ≤ s.bumpEnd

theorem PoolOk.congr (h : PoolOk s) (hb : s'.bumpBase = s.bumpBase) (he : s'.bumpEnd = s.bumpEnd) : PoolOk s' := by
  obtain ⟨h1, h2, h3, h4⟩ := h
  exact ⟨hb ▸ h1, hb ▸ h2, he ▸ h3, hb ▸ he ▸ h4⟩

theorem map_aligned (h : GoodMap mmap) (hp : PoolOk s) :
    ∀ r ∈ mmap.flatMap (MmapEntry.pieces s.bumpBase s.bumpEnd), pageSize ∣ r.1 ∧ pageSize ∣ r.2 := by
  intro r hr
  obtain ⟨m, hm, hr⟩ := List.mem_flatMap.1 hr
  unfold MmapEntry.pieces at hr
  split_ifs at hr with hf hov
  · cases hr
  all_goals
    have hb := h.aligned m hm (not_not.1 hf)
    have he : pageSize ∣ m.base + m.pages * pageSize := hb.add (dvd_mul_left _ _)
    simp only [List.mem_cons, List.not_mem_nil, or_false] at hr
  · rcases hr with rfl | rfl
    · exact ⟨hb, hp.base⟩
    · exact ⟨hp.lim, he⟩
  · rw [hr]
    exact ⟨hb, he⟩

/-- an entry brings its pieces in -/
theorem physInitEntry_pieces (hm : GoodEntry m) (hp : PoolOk s) : ∃ b t,
    physInitEntry s m = ((m.pieces s.bumpBase s.bumpEnd).foldl freePiece s).limits b t := by
  unfold physInitEntry MmapEntry.pieces
  by_cases hf : m.type ≠ .free
  · rw [if_pos (.inl hf), if_pos hf]
    exact ⟨_, _, rfl⟩
  rw [if_neg hf, ← hm.lim_eq (not_not.1 hf), hm.pageAlign_base (not_not.1 hf)]
  by_cases hlt : m.lim ≤ m.base
  · -- no page of the entry is usable, and its pieces are empty
    rw [if_pos (.inr hlt)]
    refine ⟨s.physBase, s.physTop, ?_⟩
    split_ifs with hov
    · simp only [List.foldl, freePiece]
      rw [if_neg (by omega), if_neg (by omega)]
    · simp only [List.foldl, freePiece]
      rw [if_neg (by omega)]
  rw [if_neg (not_or.2 ⟨hf, hlt⟩)]
  refine ⟨if m.base < s.physBase then m.base else s.physBase, if s.physTop < m.lim then m.lim else s.physTop, ?_⟩
  rw [← freePieces_limits]
  set s1 : St := { s with
    physBase := if m.base < s.physBase then m.base else s.physBase
    physTop := if s.physTop < m.lim then m.lim else s.physTop }
  by_cases hov : m.base < s.bumpEnd ∧ s.bumpBase < m.lim
  · -- the pool cuts the entry: what lies below it, then what lies above it
    have hend := (St.fixed_eq (freePiece_fixed s1 (m.base, s.bumpBase))).2.1
    rw [if_pos hov, if_pos (show s1.bumpBase ≠ 0 ∧ m.base < s1.bumpEnd ∧ s1.bumpBase < m.lim from ⟨hp.ne, hov⟩)]
    show freePiece (freePiece s1 (m.base, s.bumpBase)) ((freePiece s1 (m.base, s.bumpBase)).bumpEnd, m.lim) = _
    rw [hend]
    rfl
  · rw [if_neg hov, if_neg fun h => hov h.2]
    exact (if_pos (Nat.lt_of_not_le hlt)).symm

/-- the loop of `amm_phys_init` brings in the pieces of all entries -/
theorem physInit_pieces {l : List MmapEntry} (hm : ∀ m ∈ l, GoodEntry m) (hp : PoolOk s) : ∃ b t,
    l.foldl physInitEntry s =
      ((l.flatMap (MmapEntry.pieces s.bumpBase s.bumpEnd)).foldl freePiece s).limits b t := by
  induction l generalizing s with
  | nil => exact ⟨_, _, rfl⟩
  | cons m l ih =>
    obtain ⟨b, t, he⟩ := physInitEntry_pieces (hm m mem_cons_self) hp
    obtain ⟨h1, h2, -⟩ := St.fixed_eq (freePieces_fixed s (m.pieces s.bumpBase s.bumpEnd))
    rw [List.foldl_cons, he, List.flatMap_cons, List.foldl_append]
    obtain ⟨b', t', he'⟩ := ih (s := ((m.pieces s.bumpBase s.bumpEnd).foldl freePiece s).limits b t)
      (fun n hn => hm n (mem_cons_of_mem m hn)) (hp.congr h1 h2)
    refine ⟨b', t', ?_⟩
    rw [he', freePieces_limits]
    simp only [h1, h2]

/-! ## Early boot -/

/-- the pool gives nothing, or a cleared block -/
theorem bumpAlloc_cases (s : St) (o : ℕ) : bumpAlloc s o = (0, s) ∨
    ∃ a c n, bumpAlloc s o = (a, { s with bumpCur := c, mem := fill s.mem a n 0 }) := by
  unfold bumpAlloc
  simp only
  generalize u64 (pageSize <<< o) = size
  split_ifs
  · exact .inl rfl
  · exact .inr ⟨_, _, _, rfl⟩

/-- a single page from an aligned pool -/
theorem bumpAlloc_page (h : pageSize ∣ s.bumpCur) (hlt : s.bumpCur + pageSize < 2 ^ 64) :
    bumpAlloc s 0 = if s.bumpEnd < s.bumpCur + pageSize then (0, s) else
      (s.bumpCur, { s with bumpCur := s.bumpCur + pageSize, mem := fill s.mem s.bumpCur pageSize 0 }) := by
  have hsize : u64 (pageSize <<< 0) = pageSize := rfl
  have hal : u64 (s.bumpCur + pageSize + (2 ^ 64 - 1)) / pageSize * pageSize = s.bumpCur := by
    simp only [u64, pageSize] at *
    omega
  have hend : u64 (s.bumpCur + pageSize) = s.bumpCur + pageSize := Nat.mod_eq_of_lt hlt
  simp only [bumpAlloc, hsize, hal, hend]

/-- the pool and the top of memory as the early scan left them; nothing has been tagged -/
structure Early (s₀ s : St) : Prop where
  early : s.earlyBoot = true
  base : s.bumpBase = s₀.bumpBase
  lim : s.bumpEnd = s₀.bumpEnd
  top : s.physTop = s₀.physTop
  trap : s.trap = false

section Early

variable {s₀ s s' : St}

section

variable (h : Early s₀ s)
include h

theorem Early.mem_only (m : Mem) : Early s₀ (s.setMem m) := ⟨h.1, h.2, h.3, h.4, h.5⟩

theorem Early.alloc (o : ℕ) : Early s₀ (ammPhysAlloc s o).2 := by
  have he : ammPhysAlloc s o = bumpAlloc s o := by rw [ammPhysAlloc, if_pos h.early]
  rw [he]
  obtain hb | ⟨a, c, n, hb⟩ := bumpAlloc_cases s o
  · rw [hb]
    exact h
  · rw [hb]
    exact ⟨h.1, h.2, h.3, h.4, h.5⟩

theorem Early.nextTable (t i : ℕ) : Early s₀ (nextTable s t i).2 := by
  unfold Mm.nextTable
  split_ifs with h1
  · simp only
    split_ifs
    · exact h.alloc 0
    · exact ((h.alloc 0).mem_only _).mem_only _
  · exact h

theorem Early.next {r : Option ℕ} {t : ℕ} (he : Mm.nextTable s t i = (r, s')) : Early s₀ s' := by
  have h1 := h.nextTable t i
  rwa [he] at h1

theorem Early.mapPage (cr3 va pa : ℕ) (prot : Prot) : Early s₀ (mapPage s cr3 va pa prot) := by
  unfold Mm.mapPage
  obtain ⟨s1, e1, hw⟩ | ⟨pdpt, s1, e1, ⟨s2, e2, hw⟩ | ⟨pd, s2, e2, ⟨s3, e3, hw⟩ | ⟨pt, s3, e3, hw⟩⟩⟩ :=
    ptWalkAlloc_cases s cr3 va
  all_goals rw [hw]
  · exact h.next e1
  · exact (h.next e1).next e2
  · exact ((h.next e1).next e2).next e3
  · exact (((h.next e1).next e2).next e3).mem_only _

theorem Early.mapHuge {va pa : ℕ} (he : mapHuge s va pa = some s') : Early s₀ s' := by
  obtain ⟨pdpt, s1, pd, s2, e1, e2, rfl⟩ := mapHuge_some he
  exact ((h.next e1).next e2).mem_only _

theorem Early.mapInfoPage (he : mapInfoPage s i = some s') : Early s₀ s' := by
  unfold Mm.mapInfoPage at he
  simp only at he
  split_ifs at he
  cases he
  exact ((h.alloc 0).mem_only _).mapPage _ _ _ _

end

end Early

/-- `amm_kernel_pml4_init` by its parts: the first page and the three maps -/
theorem pml4Init_iff : ammKernelPml4Init s = some s' ↔ (ammPhysAlloc s 0).1 ≠ 0 ∧ ∃ s1 s2 s3,
      upTo (fun i s => mapHuge s (i * hugeSize) (i * hugeSize)) (hugeRounds identityLimit)
        (setCr3 (ammPhysAlloc s 0).2 (ammPhysAlloc s 0).1) = some s1 ∧
      upTo (fun i s => mapInfoPage s i) (infoPages s1.physTop) s1 = some s2 ∧
      upTo (fun i s => mapHuge s (u64 (physMapBase + i * hugeSize)) (i * hugeSize)) (hugeRounds (mapTop s2.physTop)) s2
        = some s3 ∧
      s' = { s3 with earlyBoot := false, info := fun _ => ⟨0, 0, 0⟩, infoLen := 512 * infoPages s3.physTop } := by
  unfold ammKernelPml4Init
  simp only
  split_ifs with hp
  · exact iff_of_false (fun h => nomatch h) fun h => h.1 hp
  simp only [Option.bind_eq_bind, Option.bind_eq_some_iff]
  constructor
  · rintro ⟨s1, h1, s2, h2, s3, h3, h4⟩
    exact ⟨hp, s1, s2, s3, h1, h2, h3, (Option.some.inj h4).symm⟩
  · rintro ⟨-, s1, s2, s3, h1, h2, h3, rfl⟩
    exact ⟨s1, h1, s2, h2, s3, h3, rfl⟩

theorem pml4Init_early (he : s.earlyBoot = true) (ht : s.trap = false) (h : ammKernelPml4Init s = some s') :
    s'.bumpBase = s.bumpBase ∧ s'.bumpEnd = s.bumpEnd ∧ s'.earlyBoot = false ∧ s'.trap = false ∧
    s'.info = (fun _ => ⟨0, 0, 0⟩) ∧ s'.infoLen = 512 * infoPages s.physTop := by
  obtain ⟨-, s1, s2, s3, h1, h2, h3, rfl⟩ := pml4Init_iff.1 h
  have e0 : Early s s := ⟨he, rfl, rfl, rfl, ht⟩
  have e1 : Early s s1 := by
    refine upTo_inv (fun _ => Early s) ?_ (fun i t t' _ ht hs => Early.mapHuge ht hs) h1
    have e := e0.alloc 0
    exact ⟨e.1, e.2, e.3, e.4, e.5⟩
  have e2 : Early s s2 := upTo_inv (fun _ => Early s) e1 (fun i t t' _ ht hs => Early.mapInfoPage ht hs) h2
  have e3 : Early s s3 := upTo_inv (fun _ => Early s) e2 (fun i t t' _ ht hs => Early.mapHuge ht hs) h3
  exact ⟨e3.base, e3.lim, rfl, e3.trap, rfl, by rw [← e3.top]⟩

/-! ## The early scan -/

theorem dvd_pageAlign (x : ℕ) : pageSize ∣ pageAlign x := by
  exact dvd_mul_left _ _

theorem MmapEntry.dvd_lim (m : MmapEntry) : pageSize ∣ m.lim := by
  exact dvd_mul_left _ _

theorem bumpFirst_some {l : List MmapEntry} (h : bumpFirst l = some b) : pageSize ∣ b ∧ 0x100000 ≤ b := by
  induction l with
  | nil => cases h
  | cons m l ih =>
    simp only [bumpFirst] at h
    split_ifs at h with hf hlow
    -- the base that is tried: the entry's own, but not below 1 MiB
    all_goals first | exact ih h | cases h
    · exact ⟨⟨256, rfl⟩, le_rfl⟩
    · exact ⟨dvd_pageAlign _, Nat.le_of_not_lt hlow⟩

theorem bumpLargest_spec (l : List MmapEntry) {r : ℕ × ℕ} (h1 : pageSize ∣ r.1) (h2 : pageSize ∣ r.2) (h3 : r.1 ≤ r.2) :
    pageSize ∣ (bumpLargest l r).1 ∧ pageSize ∣ (bumpLargest l r).2 ∧ (bumpLargest l r).1 ≤ (bumpLargest l r).2 := by
  induction l generalizing r with
  | nil => exact ⟨h1, h2, h3⟩
  | cons m l ih =>
    rw [bumpLargest]
    split_ifs with hf hbig
    · exact ih h1 h2 h3
    · exact ih (dvd_pageAlign _) m.dvd_lim hbig.1.le
    · exact ih h1 h2 h3

/-- the pool that `bump_init` leaves: page aligned, and nothing of it is used yet -/
theorem bumpInit_spec (mmap : List MmapEntry) (h1 : s.bumpBase = 0) (h2 : s.bumpCur = 0) (h3 : s.bumpEnd = 0) :
    pageSize ∣ (bumpInit s mmap).bumpBase ∧ pageSize ∣ (bumpInit s mmap).bumpEnd ∧
    (bumpInit s mmap).bumpBase ≤ (bumpInit s mmap).bumpEnd ∧ (bumpInit s mmap).bumpCur = (bumpInit s mmap).bumpBase := by
  unfold bumpInit
  rcases hb : bumpFirst mmap with _ | b
  · obtain ⟨i1, i2, i3⟩ := bumpLargest_spec mmap (r := (s.bumpBase, s.bumpEnd)) (by simp [h1]) (by simp [h3])
      (by simp [h1])
    simp only
    split_ifs with hsame
    · simp [h1, h2, h3]
    · exact ⟨i1, i2, i3, rfl⟩
  · obtain ⟨i1, -⟩ := bumpFirst_some hb
    exact ⟨i1, i1.add (by decide), Nat.le_add_right _ _, rfl⟩

/-- one entry of the scan changes only counters; a usable one raises the top to its own end at least -/
theorem earlyScanEntry_eq (s : St) (m : MmapEntry) : ∃ b t n,
    earlyScanEntry s m = { s with physBase := b, physTop := t, totalPages := n } ∧ s.physTop ≤ t ∧
    (m.type = .free → pageAlign m.base < m.lim → m.lim ≤ t) := by
  by_cases hskip : m.type ≠ .free ∨ m.lim ≤ pageAlign m.base
  · refine ⟨_, s.physTop, _, if_pos hskip, le_rfl, fun hf hlt => ?_⟩
    rcases hskip with hs | hs
    · exact absurd hf hs
    · exact absurd hlt (Nat.not_lt.2 hs)
  refine ⟨_, _, _, if_neg hskip, ?_, fun _ _ => ?_⟩
  · split_ifs with hlt
    · exact hlt.le
    · exact le_rfl
  · split_ifs with hlt
    · exact le_rfl
    · exact Nat.le_of_not_lt hlt

theorem earlyScan_fold (l : List MmapEntry) (s : St) : ∃ b t n,
    l.foldl earlyScanEntry s = { s with physBase := b, physTop := t, totalPages := n } ∧ s.physTop ≤ t ∧
    ∀ m ∈ l, m.type = .free → pageAlign m.base < m.lim → m.lim ≤ t := by
  induction l generalizing s with
  | nil => exact ⟨_, _, _, rfl, le_rfl, by simp⟩
  | cons m l ih =>
    obtain ⟨b, t, n, he, hle, hm⟩ := earlyScanEntry_eq s m
    obtain ⟨b', t', n', he', hle', hl⟩ := ih { s with physBase := b, physTop := t, totalPages := n }
    refine ⟨b', t', n', ?_, hle.trans hle', ?_⟩
    · rw [List.foldl_cons, he, he']
    intro k hk hf hlt
    rcases List.mem_cons.1 hk with rfl | hk
    · exact (hm hf hlt).trans hle'
    · exact hl k hk hf hlt

theorem bumpInit_rest (s : St) (mmap : List MmapEntry) : bumpInit s mmap = { s with
      bumpBase := (bumpInit s mmap).bumpBase, bumpCur := (bumpInit s mmap).bumpCur
      bumpEnd := (bumpInit s mmap).bumpEnd } := by
  unfold bumpInit
  rcases bumpFirst mmap with _ | b
  · simp only
    split_ifs <;> rfl
  · rfl

/-- **The scanned state.** Early boot, an aligned and unused pool, and a top above every free entry. -/
theorem earlyScan_spec (mem : Mem) (mmap : List MmapEntry) : let s := ammEarlyPhysScan (St.start mem) mmap
    s.earlyBoot = true ∧ s.trap = false ∧ pageSize ∣ s.bumpBase ∧ pageSize ∣ s.bumpEnd ∧
    s.bumpBase ≤ s.bumpEnd ∧ s.bumpCur = s.bumpBase ∧
    ∀ m ∈ mmap, m.type = .free → pageAlign m.base < m.lim → m.lim ≤ s.physTop := by
  obtain ⟨b, t, n, he, -, htop⟩ := earlyScan_fold mmap (clearPhys (St.start mem))
  let s0 : St := { clearPhys (St.start mem) with physBase := b, physTop := t, totalPages := n }
  have hs : ammEarlyPhysScan (St.start mem) mmap = bumpInit s0 mmap := by
    rw [ammEarlyPhysScan, he]
  intro s
  obtain ⟨h1, h2, h3, h4⟩ := bumpInit_spec (s := s0) mmap rfl rfl rfl
  have hr := bumpInit_rest s0 mmap
  rw [← hs] at h1 h2 h3 h4 hr
  refine ⟨?_, ?_, h1, h2, h3, h4, ?_⟩
  · exact congrArg St.earlyBoot hr
  · exact congrArg St.trap hr
  · intro m hm hf hlt
    exact (htop m hm hf hlt).trans (congrArg St.physTop hr).ge

theorem free_below (hm : GoodMap mmap) (mem : Mem) {x : ℕ} (h : freeByte mmap x) :
    x / pageSize < (ammEarlyPhysScan (St.start mem) mmap).physTop / pageSize := by
  obtain ⟨m, hmem, hf, h1, h2⟩ := h
  obtain ⟨-, -, -, -, -, -, htop⟩ := earlyScan_spec mem mmap
  have hg := hm.entry hmem
  have hlim := hg.lim_eq hf
  have hbase := hg.pageAlign_base hf
  have htop' := htop m hmem hf (by omega)
  have hal := hg.aligned hf
  simp only [pageSize] at *
  omega

/-- the first page of the pool is not page 0 if the boot does not halt -/
theorem pml4Init_base_ne (he : s.earlyBoot = true) (hc : s.bumpCur = s.bumpBase)
    (h : ammKernelPml4Init s = some s') : s.bumpBase ≠ 0 := by
  intro h0
  refine (pml4Init_iff.1 h).1 ?_
  rw [h0] at hc
  rw [ammPhysAlloc, if_pos he, bumpAlloc_page (by simp [hc]) (by rw [hc]; decide), hc]
  split_ifs <;> rfl

variable {mem : Mem}

/-- the pool of the early scan -/
theorem pml4Init_pool (h : ammKernelPml4Init (ammEarlyPhysScan (St.start mem) mmap) = some s') : PoolOk (clearPhys s') := by
  obtain ⟨he, ht, hb1, hb2, hle, hcur, -⟩ := earlyScan_spec mem mmap
  obtain ⟨e1, e2, -⟩ := pml4Init_early he ht h
  have hne := pml4Init_base_ne he hcur h
  have hp : PoolOk (ammEarlyPhysScan (St.start mem) mmap) := ⟨hne, hb1, hb2, hle⟩
  exact hp.congr e1 e2

/-- a boot brings in the pieces of the map -/
theorem boot_pieces (hm : GoodMap mmap) (h : boot mem mmap = some s) : ∃ s1 y b t,
    ammKernelPml4Init (ammEarlyPhysScan (St.start mem) mmap) = some s1 ∧ PoolOk s1 ∧
    (mmap.flatMap (MmapEntry.pieces s1.bumpBase s1.bumpEnd)).foldl freePiece (clearPhys s1) = y ∧
    y.bumpBase = s1.bumpBase ∧ y.bumpEnd = s1.bumpEnd ∧ s = y.limits b t := by
  obtain ⟨s1, h1, rfl⟩ := Option.map_eq_some_iff.1 h
  obtain ⟨b, t, he⟩ := physInit_pieces (fun m hmem => hm.entry hmem) (pml4Init_pool h1)
  obtain ⟨e1, e2, -⟩ := St.fixed_eq
    (freePieces_fixed (clearPhys s1) (mmap.flatMap (MmapEntry.pieces s1.bumpBase s1.bumpEnd)))
  exact ⟨s1, _, b, t, h1, (pml4Init_pool h1).congr rfl rfl, rfl, e1, e2, he⟩

/-- **Boot.** A boot that does not halt tiles the free bytes outside the pool with the free lists. -/
theorem boot_inv (hm : GoodMap mmap) (h : boot mem mmap = some s) :
    PoolOk s ∧ Inv (fun x => freeByte mmap x ∧ ¬ s.pool x) [] s [] := by
  obtain ⟨s1, y, b, t, h1, hp, hy, hb, he, rfl⟩ := boot_pieces hm h
  obtain ⟨hearly, ht, -⟩ := earlyScan_spec mem mmap
  obtain ⟨-, -, e3, e4, e5, e6⟩ := pml4Init_early hearly ht h1
  -- before the loop nothing is managed
  have h0 : Inv (fun _ => False) [] (clearPhys s1) [] := by
    refine ⟨e3, ?_, ?_, by simp, by simp, ?_, ?_, ?_, ?_, by simp, e4⟩
    · exact Tiling.nil
    · intro o _ p hp
      simp [clearPhys] at hp
    · intro x _
      show (s1.info (x / pageSize)).flags = 0
      rw [e5]
    · intro n
      show 2 ^ (s1.info n).order ∣ n
      rw [e5]
      exact one_dvd n
    · intro o _
      trivial
    · rfl
  have hlen : ∀ x, freeByte mmap x → x / pageSize + 1 < (clearPhys s1).infoLen := by
    intro x hx
    have htop := free_below hm mem hx
    show x / pageSize + 1 < s1.infoLen
    rw [e6, infoPages]
    simp only [pageSize] at *
    omega
  have hi := freePieces_inv h0 (L := mmap.flatMap (MmapEntry.pieces s1.bumpBase s1.bumpEnd))
    (map_aligned hm hp)
    (by
      refine List.pairwise_flatMap.2 ⟨fun m _ => pieces_disjoint hp.le, hm.disjoint.imp ?_⟩
      intro m n hmn r hr r' hr' x hx
      exact hmn x ⟨(within_pieces.1 ⟨r, hr, hx.1⟩).1, (within_pieces.1 ⟨r', hr', hx.2⟩).1⟩)
    (fun _ _ _ _ hF => hF) (fun r hr x hx => hlen x (within_map.1 ⟨r, hr, hx⟩).1)
  rw [hy] at hi
  refine ⟨hp.congr hb he, (hi.congr fun x => ?_).counters b t y.totalPages⟩
  rw [false_or, within_map, St.pool, hb, he]

/-- the second scan of the map raises the top as the first one did -/
theorem physInitEntry_top (s : St) (m : MmapEntry) : (physInitEntry s m).physTop = (earlyScanEntry s m).physTop ∧
    (physInitEntry s m).infoLen = s.infoLen := by
  have hfree : ∀ (s : St) (base pg : ℕ), (freeCounted s base pg).physTop = s.physTop ∧
      (freeCounted s base pg).infoLen = s.infoLen := fun s base pg => (St.fixed_eq (physFreeRange_fixed s base pg 0)).2.2
  unfold physInitEntry earlyScanEntry
  simp only
  split_ifs <;> simp only [hfree, and_self]

theorem scans_agree (l : List MmapEntry) {s s' : St} (h : s.physTop = s'.physTop) :
    (l.foldl physInitEntry s).physTop = (l.foldl earlyScanEntry s').physTop ∧
      (l.foldl physInitEntry s).infoLen = s.infoLen := by
  induction l generalizing s s' with
  | nil => exact ⟨h, rfl⟩
  | cons m l ih =>
    obtain ⟨ht, hl⟩ := physInitEntry_top s m
    have hm : (earlyScanEntry s m).physTop = (earlyScanEntry s' m).physTop := by
      simp only [earlyScanEntry, apply_ite St.physTop, h]
    obtain ⟨h1, h2⟩ := ih (ht.trans hm)
    exact ⟨h1, h2.trans hl⟩

theorem boot_top (h : boot mem mmap = some s) : s.physTop = (ammEarlyPhysScan (St.start mem) mmap).physTop ∧
    s.infoLen = 512 * infoPages s.physTop := by
  obtain ⟨s1, h1, rfl⟩ := Option.map_eq_some_iff.1 h
  obtain ⟨hearly, ht, -⟩ := earlyScan_spec mem mmap
  obtain ⟨-, -, -, -, -, hlen⟩ := pml4Init_early hearly ht h1
  have hclear : (clearPhys s1).physTop = (clearPhys (St.start mem)).physTop := rfl
  obtain ⟨htop, hl⟩ := scans_agree mmap hclear
  have hscan := htop.trans (congrArg St.physTop (bumpInit_rest _ mmap)).symm
  refine ⟨hscan, ?_⟩
  rw [ammPhysInit, hl, hscan]
  exact hlen

/-! ## Boots that do not halt -/

/-- k more pages are left in the pool -/
structure Room (k : ℕ) (s : St) : Prop where
  early : s.earlyBoot = true
  al : pageSize ∣ s.bumpCur
  pos : s.bumpCur ≠ 0
  room : s.bumpCur + k * pageSize ≤ s.bumpEnd
  lim : s.bumpEnd < 2 ^ 64

section Room

variable {k : ℕ} {s : St}

theorem Room.mem_only (h : Room k s) (m : Mem) : Room k (s.setMem m) := ⟨h.1, h.2, h.3, h.4, h.5⟩

theorem Room.mono (h : Room k s) (hj : j ≤ k) : Room j s :=
  { h with room := (Nat.add_le_add_left (Nat.mul_le_mul_right _ hj) _).trans h.room }

theorem Room.alloc (h : Room (k + 1) s) : (ammPhysAlloc s 0).1 ≠ 0 ∧ Room k (ammPhysAlloc s 0).2 := by
  have hroom := h.room
  have hlim := h.lim
  rw [Nat.succ_mul] at hroom
  have he : ammPhysAlloc s 0 =
      (s.bumpCur, { s with bumpCur := s.bumpCur + pageSize, mem := fill s.mem s.bumpCur pageSize 0 }) := by
    rw [ammPhysAlloc, if_pos h.early, bumpAlloc_page h.al (by omega), if_neg (by omega)]
  rw [he]
  exact ⟨h.pos, h.early, h.al.add dvd_rfl, Nat.ne_of_gt (Nat.add_pos_right _ (by decide)), by dsimp only; omega, hlim⟩

theorem Room.nextTable (h : Room (k + 1) s) (t i : ℕ) : ∃ r s', nextTable s t i = (some r, s') ∧ Room k s' := by
  obtain ⟨hne, hr⟩ := h.alloc
  unfold Mm.nextTable
  by_cases hp : entry s.mem t i &&& ptePresent = 0
  · rw [if_pos hp, if_neg hne]
    exact ⟨_, _, rfl, (hr.mem_only _).mem_only _⟩
  · rw [if_neg hp]
    exact ⟨_, _, rfl, h.mono (Nat.le_succ k)⟩

theorem Room.mapHuge (h : Room (k + 2) s) (va pa : ℕ) : ∃ s', mapHuge s va pa = some s' ∧ Room k s' := by
  obtain ⟨pdpt, s1, e1, h1⟩ := h.nextTable s.kernelCr3 (pml4Idx va)
  obtain ⟨pd, s2, e2, h2⟩ := h1.nextTable pdpt (pdptIdx va)
  unfold Mm.mapHuge
  rw [e1]
  simp only [e2]
  exact ⟨_, rfl, h2.mem_only _⟩

theorem Room.mapInfoPage (h : Room (k + 4) s) (i : ℕ) : ∃ s', mapInfoPage s i = some s' ∧ Room k s' := by
  obtain ⟨hne, hr⟩ := Room.alloc (k := k + 3) h
  unfold Mm.mapInfoPage
  rw [if_neg hne]
  refine ⟨_, rfl, ?_⟩
  unfold mapPage
  set va := u64 (pageInfoBase + i * pageSize)
  obtain ⟨pdpt, s1, e1, h1⟩ := (hr.mem_only _).nextTable (s.kernelCr3 &&& pteAddrMask) (pml4Idx va)
  obtain ⟨pd, s2, e2, h2⟩ := h1.nextTable pdpt (pdptIdx va)
  obtain ⟨pt, s3, e3, h3⟩ := h2.nextTable pd (pdIdx va)
  have hw : ptWalkAlloc (clearPage (ammPhysAlloc s 0).2 (ammPhysAlloc s 0).1) s.kernelCr3 va =
      (some (pt, ptIdx va), s3) := by
    unfold ptWalkAlloc
    rw [clearPage, e1]
    simp only [e2, e3]
  rw [hw]
  exact h3.mem_only _

end Room

/-- a loop whose rounds need c pages each completes if the pool holds them -/
theorem upTo_room {f : ℕ → St → Option St} {s₀ : St} {c k n : ℕ}
    (hf : ∀ i t j, Early s₀ t → Room (j + c) t → ∃ t', f i t = some t' ∧ Early s₀ t' ∧ Room j t')
    (he : Early s₀ s) (h : Room (k + c * n) s) : ∃ s', upTo f n s = some s' ∧ Early s₀ s' ∧ Room k s' := by
  obtain ⟨s', hs', hP⟩ := upTo_total (f := f) (n := n) (fun i t => Early s₀ t ∧ Room (k + c * (n - i)) t) ⟨he, h⟩
    (fun i t hi ht => by
      have hn : k + c * (n - i) = k + c * (n - (i + 1)) + c := by
        rw [add_assoc, ← Nat.mul_succ]
        congr 2
        omega
      have hr := ht.2
      rw [hn] at hr
      exact hf i t _ ht.1 hr)
  rw [Nat.sub_self, Nat.mul_zero, Nat.add_zero] at hP
  exact ⟨s', hs', hP⟩

/-- the pages that the boot takes from the pool, at most -/
def bootPages (top : ℕ) : ℕ := 1 + 2 * hugeRounds identityLimit + 4 * infoPages top + 2 * hugeRounds (mapTop top)

/-- **Boots complete.** With a 64 MiB pool and enough of it for the tables of the whole memory, the boot does not
halt. -/
theorem boot_some (mem : Mem) (hb : bumpFirst mmap = some b) (hlim : b + bumpSize < 2 ^ 64)
    (hroom : bootPages (ammEarlyPhysScan (St.start mem) mmap).physTop ≤ bumpSize / pageSize) :
    ∃ s, boot mem mmap = some s := by
  set s := ammEarlyPhysScan (St.start mem) mmap with hs
  obtain ⟨he, ht, -⟩ := earlyScan_spec mem mmap
  obtain ⟨hb1, hb2⟩ := bumpFirst_some hb
  have hfields : s.bumpCur = b ∧ s.bumpEnd = b + bumpSize := by
    rw [hs, ammEarlyPhysScan, bumpInit, hb]
    exact ⟨rfl, rfl⟩
  have e0 : Early s s := ⟨he, rfl, rfl, rfl, ht⟩
  -- the room needed, in the order in which it is used
  have hpages : bootPages s.physTop =
      (0 + 2 * hugeRounds (mapTop s.physTop) + 4 * infoPages s.physTop + 2 * hugeRounds identityLimit) + 1 := by
    rw [bootPages]
    omega
  have r0 : Room (bootPages s.physTop) s := by
    have hmul := Nat.mul_le_mul_right pageSize hroom
    refine ⟨he, hfields.1 ▸ hb1, by omega, ?_, hfields.2 ▸ hlim⟩
    rw [hfields.1, hfields.2]
    exact Nat.add_le_add_left (hmul.trans (Nat.div_mul_le_self _ _)) b
  rw [hpages] at r0
  obtain ⟨hne, r1⟩ := r0.alloc
  have huge : ∀ va pa t j, Early s t → Room (j + 2) t → ∃ t', mapHuge t va pa = some t' ∧ Early s t' ∧ Room j t' := by
    intro va pa t j ht hr
    obtain ⟨t', e', r'⟩ := hr.mapHuge va pa
    exact ⟨t', e', ht.mapHuge e', r'⟩
  have info : ∀ i t j, Early s t → Room (j + 4) t → ∃ t', mapInfoPage t i = some t' ∧ Early s t' ∧ Room j t' := by
    intro i t j ht hr
    obtain ⟨t', e', r'⟩ := hr.mapInfoPage i
    exact ⟨t', e', ht.mapInfoPage e', r'⟩
  have e1 : Early s (setCr3 (ammPhysAlloc s 0).2 (ammPhysAlloc s 0).1) := by
    have e := e0.alloc 0
    exact ⟨e.1, e.2, e.3, e.4, e.5⟩
  have r1' : Room _ (setCr3 (ammPhysAlloc s 0).2 (ammPhysAlloc s 0).1) := ⟨r1.1, r1.2, r1.3, r1.4, r1.5⟩
  obtain ⟨s1, l1, e2, r2⟩ := upTo_room (f := fun i s => mapHuge s (i * hugeSize) (i * hugeSize))
    (fun i => huge _ _) e1 r1'
  obtain ⟨s2, l2, e3, r3⟩ := upTo_room (f := fun i s => mapInfoPage s i) info e2 r2
  obtain ⟨s3, l3, -, -⟩ := upTo_room (f := fun i s => mapHuge s (u64 (physMapBase + i * hugeSize)) (i * hugeSize))
    (fun i => huge _ _) e3 r3
  rw [← e2.top] at l2
  rw [← e3.top] at l3
  rw [boot, ← hs, pml4Init_iff.2 ⟨hne, s1, s2, s3, l1, l2, l3, rfl⟩]
  exact ⟨_, Option.map_some _ _⟩

/-! ## Runs -/

/-- the allocator and the blocks handed out -/
structure Sys where
  st : St
  out : Out

inductive Op where
  | alloc (order : ℕ)
  | free (p order : ℕ)
  /-- an owner writes a byte of a block it holds -/
  | store (x : ℕ) (v : UInt8)

/-- a block is out, also one at address 0, when the search found it -/
def step (y : Sys) : Op → Option Sys
  | .alloc order =>
    let r := ammPhysAlloc y.st order
    some ⟨r.2, if found y.st order then (r.1, order) :: y.out else y.out⟩
  | .free p order => if (p, order) ∈ y.out then some ⟨ammPhysFree y.st p order, y.out.erase (p, order)⟩ else none
  | .store x v =>
    if y.out.any (fun b => (blk b.2 b.1).has x) then
      some ⟨y.st.setMem (Function.update y.st.mem x v), y.out⟩
    else none

def run (y : Sys) : List Op → Option Sys
  | [] => some y
  | o :: ops => (step y o).bind fun y' => run y' ops

theorem step_inv {y y' : Sys} {o : Op} (h : Inv S [] y.st y.out) (hs : step y o = some y') :
    Inv S [] y'.st y'.out ∧ y'.st.fixed = y.st.fixed := by
  cases o with
  | alloc order =>
    cases hs
    cases hf : found y.st order with
    | false =>
      rw [alloc_not_found h.late hf]
      exact ⟨h, rfl⟩
    | true =>
      obtain ⟨hi, hfr⟩ := alloc_inv h hf
      exact ⟨hi, hfr.fixed⟩
  | free p order =>
    simp only [step] at hs
    split_ifs at hs with hmem
    cases hs
    obtain ⟨hi, hfr⟩ := free_inv h hmem
    exact ⟨hi, hfr.fixed⟩
  | store x v =>
    simp only [step] at hs
    split_ifs at hs with hany
    cases hs
    obtain ⟨b, hb, hx⟩ := List.any_eq_true.1 hany
    refine ⟨h.owner_write fun z hz => Function.update_of_ne ?_ _ _, rfl⟩
    rintro rfl
    exact hz ⟨b, hb, hx⟩

/-- **Every run keeps the tiling.** -/
theorem run_inv {y y' : Sys} (ops : List Op) (h : Inv S [] y.st y.out) (hr : run y ops = some y') :
    Inv S [] y'.st y'.out ∧ y'.st.fixed = y.st.fixed := by
  induction ops generalizing y with
  | nil =>
    cases hr
    exact ⟨h, rfl⟩
  | cons o ops ih =>
    obtain ⟨y1, h1, h2⟩ := Option.bind_eq_some_iff.1 hr
    obtain ⟨hi, hf⟩ := step_inv h h1
    obtain ⟨hi', hf'⟩ := ih hi h2
    exact ⟨hi', hf'.trans hf⟩

/-! ## Soundness -/

/-- all blocks, listed and handed out -/
def Sys.blocks (y : Sys) : List Block := freeBlocks y.st.lists ++ outBlocks y.out

/-- what the allocator promises about its blocks over the free bytes of a map -/
structure Sound (mmap : List MmapEntry) (y : Sys) : Prop where
  aligned : ∀ b ∈ y.blocks, 2 ^ b.exp ∣ b.base
  disjoint : y.blocks.Pairwise fun b c => ∀ x, ¬ (b.has x = true ∧ c.has x = true)
  cover : ∀ x, (∃ b ∈ y.blocks, b.has x = true) ↔ freeByte mmap x ∧ ¬ y.st.pool x
  nodup : ∀ o ≤ maxOrder, (y.st.lists o).Nodup
  pages : y.st.freePages = ∑ o ∈ Finset.range (maxOrder + 1), (y.st.lists o).length * 2 ^ o

theorem freeSum_eq (lists : ℕ → List ℕ) : freeSum lists = ∑ o ∈ Finset.range (maxOrder + 1), (lists o).length * 2 ^ o := by
  unfold freeSum freeBlocks
  -- by induction on the number of orders
  generalize maxOrder + 1 = n
  induction n with
  | zero => rfl
  | succ n ih =>
    rw [List.range_succ, List.flatMap_append, List.map_append, List.sum_append, ih, Finset.sum_range_succ]
    simp [blk, Function.comp_def]

/-- **Free and handed-out blocks tile the free memory.** For every memory map with aligned, non-wrapping and disjoint
FREE entries, every boot that does not halt and every run of allocations and matching releases after it: blocks are
aligned to their size, disjoint, cover exactly the FREE bytes outside the bump pool, no list holds a block twice, and
`free_pages` is the number of pages on the lists. -/
theorem boot_run_sound {mem : Mem} {mmap : List MmapEntry} (hm : GoodMap mmap) {s : St} (hb : boot mem mmap = some s)
    {ops : List Op} {y : Sys} (hr : run ⟨s, []⟩ ops = some y) : Sound mmap y := by
  obtain ⟨hp, hi⟩ := boot_inv hm hb
  obtain ⟨hinv, hfix⟩ := run_inv ops hi hr
  have ht : Tiling y.blocks _ := hinv.tiles
  have hpool : y.st.pool = s.pool := by
    obtain ⟨hbase, hend, -⟩ := St.fixed_eq hfix
    funext x
    rw [St.pool, St.pool, hbase, hend]
  refine ⟨ht.aligned, ht.pairwise, fun x => ?_, fun o ho => hinv.list_nodup ho, ?_⟩
  · rw [hpool]
    exact (ht.mem_iff x).symm
  rw [hinv.pages, ← freeSum_eq]
  refine Nat.mod_eq_of_lt ?_
  -- the blocks lie below 2^64, so their pages are at most 2^52
  have hsz : (y.blocks.map fun b => 2 ^ b.exp).sum ≤ 2 ^ 64 := by
    refine ht.size_le ?_
    rintro x ⟨⟨m, hmem, hf, h1, h2⟩, -⟩
    exact h2.trans (hm.noWrap m hmem hf)
  have hle : freeSum y.st.lists * 2 ^ 12 ≤ (y.blocks.map fun b => 2 ^ b.exp).sum := by
    rw [Sys.blocks, List.map_append, List.sum_append]
    refine le_trans (le_of_eq ?_) (Nat.le_add_right _ _)
    rw [freeSum, ← List.sum_map_mul_right]
    refine congrArg sum (List.map_congr_left fun b hbm => ?_)
    obtain ⟨o, -, p, -, rfl⟩ := mem_freeBlocks.1 hbm
    simp only [blk, Nat.add_sub_cancel_left, pow_add]
    exact mul_comm _ _
  omega

/-- the page frame number that round i of the loop of `amm_phys_free` looks at; once the loop has stopped, its last one -/
def consulted (s : St) (paddr order i : ℕ) : ℕ :=
  let r := coalesce s paddr order i
  (r.2.1 ^^^ pageSize <<< r.2.2) / pageSize

/-- **The walk through the buddies stays inside page_info.** After every boot and in every run, releasing a block that is out
looks only at page frame numbers up to `phys_top / 4096`, and the array that the boot has mapped reaches past that one. -/
theorem consulted_below_top {mem : Mem} {mmap : List MmapEntry} (hm : GoodMap mmap) {s : St} (hb : boot mem mmap = some s)
    {ops : List Op} {y : Sys} (hr : run ⟨s, []⟩ ops = some y) {p order : ℕ} (ho : (p, order) ∈ y.out) :
    (∀ i < maxOrder - order, consulted y.st p order i ≤ y.st.physTop / pageSize) ∧
      y.st.physTop / pageSize < y.st.infoLen := by
  obtain ⟨-, h0⟩ := boot_inv hm hb
  obtain ⟨hinv, hfix⟩ := run_inv ops h0 hr
  obtain ⟨-, -, htop, hlen⟩ := St.fixed_eq hfix
  obtain ⟨hscan, hinfo⟩ := boot_top hb
  refine ⟨fun i hi => ?_, ?_⟩
  · obtain ⟨hround, -⟩ := coalesce_inv (n := i) (hinv.take ho) (by omega)
    -- the buddy begins at most one byte behind a free byte
    obtain ⟨x, ⟨hx, -⟩, hle⟩ := hround.buddy_le
    have hbelow := free_below hm mem hx
    rw [consulted, xor_page, htop, hscan]
    simp only [pageSize] at hbelow ⊢
    omega
  · rw [hlen, hinfo, htop, infoPages]
    simp only [pageSize]
    omega

/-- 128 MiB of free memory from 1 MiB on -/
def smallMap : List MmapEntry := [⟨0x100000, 32768, .free⟩]

theorem smallMap_good : GoodMap smallMap := by
  refine ⟨?_, ?_, List.pairwise_singleton _ _⟩
  · intro m hm _
    rw [mem_singleton.1 hm]
    decide
  · intro m hm _
    rw [mem_singleton.1 hm]
    decide

theorem smallMap_boot (mem : Mem) : ∃ s, boot mem smallMap = some s := by
  have htop : (ammEarlyPhysScan (St.start mem) smallMap).physTop = 0x8100000 := rfl
  refine boot_some mem (b := 0x100000) rfl (by decide) ?_
  rw [htop]
  decide

/-- after a boot with this map there is a free block of 1 MiB -/
theorem smallMap_lists (h : boot mem smallMap = some s) : 0x4100000 ∈ s.lists 8 := by
  obtain ⟨s1, y, b, t, h1, -, rfl, -, -, rfl⟩ := boot_pieces smallMap_good h
  obtain ⟨he, ht, -⟩ := earlyScan_spec mem smallMap
  obtain ⟨e1, e2, -⟩ := pml4Init_early he ht h1
  have hb : s1.bumpBase = 0x100000 := e1.trans rfl
  have hl : s1.bumpEnd = 0x4100000 := e2.trans rfl
  have hpieces : smallMap.flatMap (MmapEntry.pieces 0x100000 0x4100000) =
      [(0x100000, 0x100000), (0x4100000, 0x8100000)] := by decide
  have hfirst := physFreeRange_first (s := clearPhys s1) (b := 0x4100000) (n := 0x4000) (by decide)
  rw [hb, hl, hpieces]
  exact hfirst

/-- so a page or a pair of pages is found, not at address 0 -/
theorem smallMap_found (h : boot mem smallMap = some s) {order : ℕ} (ho : order ≤ 8) :
    found s order = true ∧ (ammPhysAlloc s order).1 ≠ 0 := by
  have hf : found s order = true := found_of_mem ho (by decide) (smallMap_lists h)
  refine ⟨hf, ?_⟩
  obtain ⟨-, hi⟩ := boot_inv smallMap_good h
  obtain ⟨hi', -⟩ := alloc_inv hi hf
  obtain ⟨⟨m, hm, -, hlow, -⟩, -⟩ := hi'.tiles.subset (List.mem_append_right _ (Inv.out_mem mem_cons_self))
    (has_base (blk order (ammPhysAlloc s order).1))
  rw [mem_singleton.1 hm] at hlow
  exact Nat.ne_of_gt (lt_of_lt_of_le (by decide) hlow)

theorem boot_run_sound_small : ∃ s y, boot (fun _ => 0) smallMap = some s ∧
    run ⟨s, []⟩ [.alloc 0, .alloc 3] = some y ∧ Sound smallMap y := by
  obtain ⟨s, hs⟩ := smallMap_boot fun _ => 0
  have hr : ∃ y, run ⟨s, []⟩ [.alloc 0, .alloc 3] = some y := ⟨_, rfl⟩
  obtain ⟨y, hy⟩ := hr
  exact ⟨s, y, hs, hy, boot_run_sound smallMap_good hs hy⟩

theorem consulted_below_top_small : ∃ s y p, boot (fun _ => 0) smallMap = some s ∧ run ⟨s, []⟩ [.alloc 0] = some y ∧
    (p, 0) ∈ y.out ∧ consulted y.st p 0 9 ≤ y.st.physTop / pageSize := by
  obtain ⟨s, hs⟩ := smallMap_boot fun _ => 0
  have hr : run ⟨s, []⟩ [.alloc 0] = some ⟨(ammPhysAlloc s 0).2, [((ammPhysAlloc s 0).1, 0)]⟩ := by
    simp only [run, step, (smallMap_found hs (Nat.zero_le 8)).1, if_true, Option.bind_some]
  exact ⟨s, _, _, hs, hr, mem_cons_self, (consulted_below_top smallMap_good hs hr mem_cons_self).1 9 (by decide)⟩

end OpenASD.Mm
