/-
What `kfree` releases. In every state of a good run of the heap, for every live object and whatever its owners wrote.

`Releases` says that exactly one allocation became free: the bit of its slot and the count of its slab, or the bytes of
its buddy block; everything else is as it was (headers, blocks handed out and their tags, other objects, bytes of
nobody).

Results:
- `kfree_exact`: `kfree` of a live pointer releases exactly that object if and only if the pointer is not in the second
  page of a two-page slab. The only such objects are third slots of 2048-byte slabs: `kfree` looks for their header in
  the second page, because no tag of a second page has order 1.
Witness: `third_slot_kept`, three objects of 2048 bytes, of which `kfree` does not release the third.
-/
import OpenASD.Mm.Heap

namespace OpenASD.Mm

open ByteMem Bitmap OpenASD.Dyadic

/-! ## Releases -/

/-- x is a byte of a listed block -/
def listed (s : St) (x : ℕ) : Prop := ∃ o ≤ maxOrder, ∃ p ∈ s.lists o, (blk o p).has x = true

/-- slot i of the slab s was taken and is free now; nothing else has changed -/
structure SlotFreed (h h' : Heap) (s i : ℕ) : Prop where
  was : bit h.st.mem (hdrMap s) i = true
  bits : ∀ j, bit h'.st.mem (hdrMap s) j = (!decide (j = i) && bit h.st.mem (hdrMap s) j)
  count : hdrFree h'.st.mem s = hdrFree h.st.mem s + 1
  /-- only the count and the byte of the slot are written -/
  mem : ∀ x, x < s ∨ s + 4 ≤ x → x ≠ hdrMap s + i / 8 → h'.st.mem x = h.st.mem x
  rest : h'.st = h.st.setMem h'.st.mem
  heads : h'.heads = h.heads

/-- the block p of this order was handed out and is free now; nothing else has changed -/
structure BlockFreed (h h' : Heap) (out : Out) (p order : ℕ) : Prop where
  was : (p, order) ∈ out
  listed : ∀ x, listed h'.st x ↔ listed h.st x ∨ (blk order p).has x = true
  pages : h'.st.freePages = u64 (h.st.freePages + 2 ^ order)
  /-- blocks handed out keep their tags -/
  tags : ∀ b ∈ out.erase (p, order), h'.st.info (b.1 / pageSize) = h.st.info (b.1 / pageSize)
  /-- only bytes of free blocks are written -/
  mem : ∀ x, ¬ Mm.listed h.st x → ¬ (blk order p).has x = true → h'.st.mem x = h.st.mem x
  rest : h'.st = { h.st with
    mem := h'.st.mem, lists := h'.st.lists, freePages := h'.st.freePages, info := h'.st.info }
  heads : h'.heads = h.heads

/-- the heap h' is the heap of y with exactly this object released -/
structure Releases (y : HSys) (h' : Heap) (ptr size : ℕ) : Prop where
  /-- its slot, or its block -/
  gone : match slabClass size with
    | some cls => ∃ s ∈ y.heap.heads cls, ∃ i < slabCap cls, ptr = physToVirt (Place.slot cls s i).addr ∧
        SlotFreed y.heap h' s i
    | none => ∃ order, largeOrder size = some order ∧ BlockFreed y.heap h' y.out (virtToPhys ptr) order
  /-- the bytes of the other objects are as they were -/
  others : ∀ a ∈ y.live.erase (ptr, size), ∀ x, ownByte a x = true → h'.st.mem x = y.heap.st.mem x

/-! ## Blocks -/

section Exact

variable {S : ℕ → Prop} {y : HSys} {pls : List (Place × ℕ)} {s size : ℕ}

/-- the listed bytes are the bytes of S that are not handed out -/
theorem Inv.listed_iff {s : St} {out : Out} (h : Inv S [] s out) (x : ℕ) :
    listed s x ↔ S x ∧ ¬ ∃ b ∈ out, (blk b.2 b.1).has x = true := by
  constructor
  · rintro ⟨o, ho, p, hp, hx⟩
    exact h.not_out (c := blk o p) (mem_freeBlocks.2 ⟨o, ho, p, hp, rfl⟩) hx
  rintro ⟨hS, hno⟩
  obtain ⟨b, hb, hx⟩ := (h.tiles.mem_iff x).1 hS
  rw [List.nil_append] at hb
  rcases List.mem_append.1 hb with hf | ho
  · obtain ⟨o, ho, p, hp, rfl⟩ := mem_freeBlocks.1 hf
    exact ⟨o, ho, p, hp, hx⟩
  · obtain ⟨c, hc, rfl⟩ := List.mem_map.1 ho
    exact absurd ⟨c, hc, hx⟩ hno

/-- the bytes on the lists and the bytes handed out, in pages -/
theorem size_sum (lists : ℕ → List ℕ) (out : Out) : ((freeBlocks lists ++ outBlocks out).map fun b => 2 ^ b.exp).sum =
      4096 * (freeSum lists + (out.map fun b => 2 ^ b.2).sum) := by
  rw [List.map_append, List.sum_append, mul_add, freeSum, ← List.sum_map_mul_left, ← List.sum_map_mul_left, outBlocks,
    List.map_map]
  congr 2
  · refine List.map_congr_left fun b hb => ?_
    obtain ⟨o, -, p, -, rfl⟩ := mem_freeBlocks.1 hb
    simp only [blk, Nat.add_sub_cancel_left, pow_add]
    rfl
  · refine List.map_congr_left fun b _ => ?_
    simp only [Function.comp, blk, pow_add]
    rfl

section

variable (h : HInv S y pls)
include h

theorem HInv.block_freed {p order : ℕ} (hb : (p, order) ∈ y.out) :
    BlockFreed y.heap ⟨ammPhysFree y.heap.st p order, y.heap.heads⟩ y.out p order := by
  obtain ⟨hi, hfr⟩ := free_inv h.buddy hb
  have hown : ∀ x, (blk order p).has x = true → S x ∧ ¬ ∃ b ∈ y.out.erase (p, order), (blk b.2 b.1).has x = true :=
    fun x hx => (h.buddy.take hb).not_out List.mem_cons_self hx
  -- a block handed out is the released one or one of the others
  have hsplit : ∀ x, (∃ b ∈ y.out, (blk b.2 b.1).has x = true) ↔
      (blk order p).has x = true ∨ ∃ b ∈ y.out.erase (p, order), (blk b.2 b.1).has x = true := by
    intro x
    constructor
    · rintro ⟨b, hbm, hx⟩
      by_cases e : b = (p, order)
      · subst e
        exact Or.inl hx
      · exact Or.inr ⟨b, (List.mem_erase_of_ne e).2 hbm, hx⟩
    · rintro (hx | ⟨b, hbm, hx⟩)
      · exact ⟨(p, order), hb, hx⟩
      · exact ⟨b, List.mem_of_mem_erase hbm, hx⟩
  refine ⟨hb, fun x => ?_, ?_, hfr.tags, fun x hl hx => hfr.mem x fun hS => ?_, ?_, rfl⟩
  · rw [hi.listed_iff, h.buddy.listed_iff, hsplit, not_or]
    constructor
    · rintro ⟨hS, hno⟩
      by_cases hx : (blk order p).has x = true
      · exact Or.inr hx
      · exact Or.inl ⟨hS, hx, hno⟩
    · rintro (⟨hS, -, hno⟩ | hx)
      · exact ⟨hS, hno⟩
      · exact hown x hx
  · have hsum := hi.tiles.size_eq h.buddy.tiles h.low
    rw [List.nil_append, List.nil_append, size_sum, size_sum,
      ((List.perm_cons_erase hb).map fun b => 2 ^ b.2).sum_eq, List.map_cons, List.sum_cons] at hsum
    simp only at hsum
    have e : freeSum (ammPhysFree y.heap.st p order).lists = freeSum y.heap.st.lists + 2 ^ order := by omega
    rw [hi.pages, h.buddy.pages, e, u64, u64, u64, Nat.mod_add_mod]
  · rw [h.buddy.listed_iff, not_and, not_not] at hl
    exact ((hsplit x).1 (hl hS)).resolve_left hx
  · have htrap : (ammPhysFree y.heap.st p order).trap = y.heap.st.trap := hi.trap.trans h.buddy.trap.symm
    have hrest := hfr.rest
    rw [htrap] at hrest
    exact hrest

/-- the bytes of the other objects are in blocks that stay handed out -/
theorem HInv.block_releases {p order : ℕ} (ha : (Place.block p order, size) ∈ pls) :
    Releases y (kfree y.heap (physToVirt p)) (physToVirt p) size := by
  obtain ⟨hcls, hord, hout, -⟩ := h.placed _ ha
  have hlt : p < 2 ^ 64 := h.low _ (h.addr_mem (h.placed _ ha))
  have hfreed := h.block_freed hout
  rw [h.kfree_block ha]
  refine ⟨?_, fun a hlive x hx => ?_⟩
  · simp only [hcls]
    refine ⟨order, hord, ?_⟩
    rw [virtToPhys_physToVirt hlt]
    exact hfreed
  have e : y.live.erase (physToVirt p, size) = _ := h.live_erase ha
  rw [e] at hlive
  obtain ⟨b, hb, rfl⟩ := List.mem_map.1 hlive
  have hp := h.placed b (List.mem_of_mem_erase hb)
  simp only [ownByte, decide_eq_true_eq, virtToPhys_physToVirt (h.low _ (h.addr_mem hp)), ← placed_len hp] at hx
  have hhome := h.home_mem hp
  have hhas := placed_has hp hx.1 hx.2
  refine hfreed.mem x (fun hl => ?_) fun hblk => ?_
  · exact ((h.buddy.listed_iff x).1 hl).2 ⟨b.1.home, hhome, hhas⟩
  · exact h.home_ne ha hb (h.buddy.out_eq hhome hout hhas hblk)

/-! ## Slots -/

/-- a slot of the first page of its slab -/
theorem HInv.slot_releases {cls i : ℕ} (ha : (Place.slot cls s i, size) ∈ pls)
    (hoff : slabHdrSz + i * slabSize cls < pageSize) :
    Releases y (kfree y.heap (physToVirt (Place.slot cls s i).addr)) (physToVirt (Place.slot cls s i).addr) size := by
  obtain ⟨hcls, hs, hi, hbit⟩ := h.placed _ ha
  have hc := (slabClass_some hcls).1
  obtain ⟨-, -, -, hcap, -, hraw, -⟩ := class_facts cls hc
  have hok := (h.slabs cls hc s hs).2
  have hmem : ∀ x, x < s ∨ s + 4 ≤ x → x ≠ hdrMap s + i / 8 →
      dropSlot y.heap.st.mem s i x = y.heap.st.mem x := fun x h1 h2 => dropSlot_out h1 h2
  rw [h.kfree_slot ha hoff]
  refine ⟨?_, fun a hlive x hx => ?_⟩
  · simp only [hcls]
    refine ⟨s, hs, i, hi, rfl, hbit, fun j => bit_dropSlot j, ?_, hmem, rfl, rfl⟩
    -- the count goes up with the number of clear bits
    have hcount := (hok.drop hc hi hbit).free
    have hz := zeros_dropSlot hi hbit
    show hdrFree (dropSlot y.heap.st.mem s i) s = _
    rw [hcount, hok.free, hz, add_assoc]
  rw [h.live_erase ha] at hlive
  obtain ⟨b, hb, rfl⟩ := List.mem_map.1 hlive
  have hp := h.placed b (List.mem_of_mem_erase hb)
  simp only [ownByte, decide_eq_true_eq, virtToPhys_physToVirt (h.low _ (h.addr_mem hp)), ← placed_len hp] at hx
  have hout := h.header_free hc hs hp hx.1 hx.2
  refine hmem x ?_ ?_
  · simp only [slabHdrSz] at hout
    omega
  · intro e
    simp only [slabHdrSz, hdrMap] at hout e
    omega

/-! ## The third slot of a 2048-byte slab -/

omit h in
/-- the order of an odd page's tag is 0 -/
theorem Inv.odd_order {hand : List Block} {s : St} {out : Out} (h : Inv S hand s out) {n : ℕ} (hn : n % 2 = 1) :
    (s.info n).order = 0 := by
  by_contra hne
  have h2 : 2 ∣ n := (dvd_pow_self 2 hne).trans (h.natural n)
  omega

omit h in
/-- the buddy that `amm_phys_free` computes for an address inside the upper of two pages -/
theorem xor_second_page {d : ℕ} (hs : 2 * pageSize ∣ s) (hd : d < pageSize) :
    (s + pageSize + d) ^^^ pageSize <<< 0 = s + d := by
  obtain ⟨q, rfl⟩ := hs
  have hdiv : (2 * pageSize * q + pageSize + d) / 2 ^ 12 = 2 * q + 1 := by
    simp only [pageSize] at *
    omega
  have hmod : (2 * pageSize * q + pageSize + d) % 2 ^ 12 = d := by
    simp only [pageSize] at *
    omega
  have hx := Nat.div_add_mod ((2 * pageSize * q + pageSize + d) ^^^ 2 ^ 12) (2 ^ 12)
  rw [Nat.xor_div_two_pow, Nat.xor_mod_two_pow, hdiv, hmod, Nat.div_self (Nat.two_pow_pos 12), Nat.mod_self,
    Nat.xor_zero, Nat.xor_one_of_odd (odd_two_mul_add_one q)] at hx
  have hp : pageSize <<< 0 = 2 ^ 12 := rfl
  rw [hp, ← hx]
  omega

/-- freeing an address inside the second page of a block of two: the tag of the first page stops the loop at once -/
theorem HInv.free_second {d : ℕ} (hout : (s, 1) ∈ y.out) (hd : d < pageSize) :
    ammPhysFree y.heap.st (s + pageSize + d) 0 = physFreeBlock y.heap.st (s + pageSize + d) 0 := by
  have hpair := h.out_pair hout
  have hpg : (s + d) / pageSize = s / pageSize := by
    simp only [pageSize] at *
    omega
  have hS : S (s + d) := by
    refine h.out_mem hout ?_
    rw [home_has]
    simp only [pageSize] at *
    omega
  have hstop : coalesce y.heap.st (s + pageSize + d) 0 maxOrder = (y.heap.st, s + pageSize + d, 0) := by
    rw [show maxOrder = (maxOrder - 1) + 1 from rfl, coalesce, xor_second_page hpair hd, h.touch hS, hpg,
      (h.buddy.outTag _ hout).1]
    exact if_pos (Or.inl (by decide))
  rw [ammPhysFree, Nat.sub_zero, hstop]

/-- `kfree` of a third slot does not write the header of its slab -/
theorem HInv.kfree_third (ha : (Place.slot 8 s 2, size) ∈ pls) {x : ℕ} (h1 : s ≤ x)
    (h2 : x < s + slabHdrSz) : (kfree y.heap (physToVirt (Place.slot 8 s 2).addr)).st.mem x = y.heap.st.mem x := by
  obtain ⟨hcls, hs, -, -⟩ := h.placed _ ha
  have hout : (s, 1) ∈ y.out := (h.slabs 8 (by decide) s hs).1
  have hpair := h.out_pair hout
  have haddr : (Place.slot 8 s 2).addr = s + pageSize + 64 := rfl
  have hS := h.addr_mem (h.placed _ ha)
  have hlt := h.low _ hS
  have hnn : physToVirt (Place.slot 8 s 2).addr ≠ 0 := h.nonnull (Place.slot 8 s 2, size) ha
  rw [haddr] at hS hlt hnn ⊢
  have hpage : pageSize ∣ s + pageSize := (h.out_page hout).add dvd_rfl
  obtain ⟨hmod, hq⟩ := page_of_ptr hpage (d := 64) (by decide) hlt
  have hodd : (y.heap.st.info ((s + pageSize) / pageSize)).order = 0 := h.buddy.odd_order (by
    simp only [pageSize] at *
    omega)
  have hsame : (s + pageSize + 64) / pageSize = (s + pageSize) / pageSize := by
    simp only [pageSize] at *
    omega
  have hhdr : hdrOf y.heap.st (physToVirt (s + pageSize + 64)) = s + pageSize := by
    unfold hdrOf
    rw [hq, if_neg]
    rintro ⟨hone, -⟩
    rw [hodd] at hone
    exact absurd hone (by decide)
  have hSq : S (s + pageSize) := by
    refine h.out_mem hout ?_
    rw [home_has]
    simp only [pageSize]
    omega
  have hslot : ∀ n, u64 (s + pageSize + 64 + 2 ^ 64 - (s + pageSize + slabHdrSz)) / n % 2 ^ 32 = 0 := by
    intro n
    have e : u64 (s + pageSize + 64 + 2 ^ 64 - (s + pageSize + slabHdrSz)) = 0 := by
      simp only [u64, slabHdrSz]
      omega
    rw [e, Nat.zero_div, Nat.zero_mod]
  unfold kfree
  rw [if_neg hnn, virtToPhys_physToVirt hlt]
  simp only
  rw [h.touch hS, hmod, if_neg (by rintro ⟨h0, -⟩; exact absurd h0 (by decide)), hq, h.touch hSq, hhdr, hslot, hsame,
    hodd, h.free_second hout (by decide)]
  simp only [slabHdrSz, pageSize] at h2 ⊢
  split_ifs
  · rfl
  · refine dropSlot_out (by omega) ?_
    simp only [hdrMap]
    omega
  · rfl
  · exact write_out (by omega)

/-- so the third slot stays taken -/
theorem HInv.third_kept (ha : (Place.slot 8 s 2, size) ∈ pls) :
    ¬ Releases y (kfree y.heap (physToVirt (Place.slot 8 s 2).addr)) (physToVirt (Place.slot 8 s 2).addr) size := by
  intro hr
  have hp := h.placed _ ha
  obtain ⟨hcls, hs, hi, hbit⟩ := hp
  have hgone := hr.gone
  simp only [hcls] at hgone
  obtain ⟨t, ht, j, hj, he, hfreed⟩ := hgone
  have hpt : Placed y size (Place.slot 8 t j) := ⟨hcls, ht, hj, hfreed.was⟩
  -- the slot that the release speaks of is this one
  have hsame := h.place_inj (h.placed _ ha) hpt he
  obtain ⟨rfl, rfl⟩ := hsame
  have hclear := hfreed.bits 2
  rw [decide_eq_true (rfl : 2 = 2), Bool.not_true, Bool.false_and,
    bit_congr (h.kfree_third ha (by simp only [hdrMap]; omega) (by simp only [hdrMap, slabHdrSz]; omega)), hbit] at hclear
  exact absurd hclear (by decide)

end

end Exact

/-- **`kfree` releases exactly the object it is given, unless it lies in a second page.** After every boot, every use of
the page allocator and every good run of the heap, for every live object and every content. -/
theorem kfree_exact {mem : Mem} {mmap : List MmapEntry} (hm : GoodMap mmap) {s : St} (hb : boot mem mmap = some s)
    {pre : List Op} {z : Sys} (hz : run ⟨s, []⟩ pre = some z) {ops : List HOp} {y : HSys}
    (hg : allGood (HSys.start z) ops) (hr : hrun (HSys.start z) ops = some y) {ptr size : ℕ}
    (ha : (ptr, size) ∈ y.live) : Releases y (kfree y.heap ptr) ptr size ↔ ¬ secondPage ptr size := by
  obtain ⟨pls, h⟩ := booted_inv hm hb hz hg hr
  rw [h.live] at ha
  obtain ⟨⟨pl, n⟩, hpl, he⟩ := List.mem_map.1 ha
  obtain ⟨rfl, rfl⟩ := he
  cases pl with
  | slot cls t i =>
    obtain ⟨hcls, -, hi, -⟩ := h.placed _ hpl
    rw [h.secondPage_iff hpl, Nat.not_le]
    refine ⟨fun hrel => ?_, h.slot_releases hpl⟩
    by_contra hoff
    obtain ⟨rfl, rfl⟩ := (slot_offset cls (slabClass_some hcls).1 i hi).2.1 (Nat.le_of_not_lt hoff)
    exact h.third_kept hpl hrel
  | block p order =>
    refine ⟨fun _ hsec => ?_, fun _ => h.block_releases hpl⟩
    -- large objects are larger than every slab class
    exact absurd (slabClass_none (h.placed _ hpl).1) (Nat.not_lt.2 hsec.2.1)

theorem kfree_exact_small : ∃ s y ptr, boot (fun _ => 0) smallMap = some s ∧
    allGood (HSys.start ⟨s, []⟩) [.kmalloc 64] ∧ hrun (HSys.start ⟨s, []⟩) [.kmalloc 64] = some y ∧
    (ptr, 64) ∈ y.live ∧ Releases y (kfree y.heap ptr) ptr 64 := by
  obtain ⟨s, hs⟩ := smallMap_boot fun _ => 0
  obtain ⟨y, p, pls, hy, hf⟩ := smallMap_fill hs 64 3 0 (by decide) (by decide) (by decide)
  have hg : allGood (HSys.start ⟨s, []⟩) [.kmalloc 64] := ⟨fun _ h => absurd h (by decide), fun _ _ => trivial⟩
  have hpre : run ⟨s, []⟩ [] = some ⟨s, []⟩ := rfl
  have hlive := hf.live 0 (by decide)
  have hfirst : ¬ secondPage (physToVirt (Place.slot 3 p 0).addr) 64 := fun h => absurd h.1 (by decide)
  exact ⟨s, y, _, hs, hg, hy, hlive, (kfree_exact smallMap_good hs hpre hg hy hlive).2 hfirst⟩

/-- three objects of 2048 bytes: the third is not released -/
theorem third_slot_kept : ∃ s y ptr, boot (fun _ => 0) smallMap = some s ∧
    hrun (HSys.start ⟨s, []⟩) (List.replicate 3 (.kmalloc 2048)) = some y ∧ (ptr, 2048) ∈ y.live ∧
    ¬ Releases y (kfree y.heap ptr) ptr 2048 := by
  obtain ⟨s, hs⟩ := smallMap_boot fun _ => 0
  obtain ⟨y, p, pls, hy, hf⟩ := smallMap_fill hs 2048 8 2 (by decide) (by decide) (by decide)
  have hmem := hf.placed (by decide) (j := 2) (by decide) (by decide)
  exact ⟨s, y, _, hs, hy, hf.live 2 (by decide), hf.inv.third_kept hmem⟩

end OpenASD.Mm
