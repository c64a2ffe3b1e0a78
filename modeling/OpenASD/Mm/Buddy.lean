/-
The buddy allocator keeps a tiling of the managed pages (kernel/mm/mm.c: phys_free_block, amm_phys_alloc,
amm_phys_free).

Ghost state: `out`, the blocks handed out, as (paddr, order); and `hand`, the blocks that an operation holds between
two steps, neither listed nor handed out. The invariant `Inv` says that hand, free and handed-out blocks together tile
the managed set S; that the tag of the first page of every free or handed-out block tells its state and order; and that
pages outside S carry no tag. Tags of other pages are stale and say nothing: they are never cleared when a block is
swallowed by a merge, but `Tiling.buddy_head` shows that the page a merge looks at is always the first page of a block
or outside S.

Every operation is a sequence of moves that keep `Inv`: `push` (phys_free_block), `unlist` (unlink from a list),
`split`, `merge`, `give` (hand out) and `take` (get back). `alloc_inv` and `free_inv` put them together.
-/
import OpenASD.Core.Dyadic
import OpenASD.Mm.Phys

namespace OpenASD.Mm

open ByteMem OpenASD.Dyadic
open Function (update update_of_ne update_self)
open List (erase_cons_tail mem_append mem_append_right mem_cons mem_cons_of_mem mem_cons_self mem_map mem_range
  perm_middle)

/-- the block of `2 ^ o` pages at p -/
def blk (o p : ℕ) : Block := ⟨12 + o, p⟩

theorem xor_page (p o : ℕ) : p ^^^ pageSize <<< o = buddy (12 + o) p := by
  have h : pageSize = 2 ^ 12 := rfl
  rw [buddy, Nat.shiftLeft_eq, pow_add, h]

/-- all blocks on the free lists -/
def freeBlocks (lists : ℕ → List ℕ) : List Block :=
  (List.range (maxOrder + 1)).flatMap fun o => (lists o).map (blk o)

/-- the pages of the free lists -/
def freeSum (lists : ℕ → List ℕ) : ℕ := ((freeBlocks lists).map fun b => 2 ^ (b.exp - 12)).sum

/-- the blocks handed out, as (paddr, order) -/
abbrev Out := List (ℕ × ℕ)

def outBlocks (out : Out) : List Block := out.map fun b => blk b.2 b.1

theorem mem_freeBlocks {lists : ℕ → List ℕ} {b : Block} :
    b ∈ freeBlocks lists ↔ ∃ o ≤ maxOrder, ∃ p ∈ lists o, b = blk o p := by
  simp only [freeBlocks, List.mem_flatMap, mem_range, mem_map]
  constructor
  · rintro ⟨o, ho, p, hp, rfl⟩
    exact ⟨o, Nat.lt_succ_iff.1 ho, p, hp, rfl⟩
  · rintro ⟨o, ho, p, hp, rfl⟩
    exact ⟨o, Nat.lt_succ_of_le ho, p, hp, rfl⟩

variable {l₁ l₂ : ℕ → List ℕ} {o p : ℕ}

section

variable (ho : o ≤ maxOrder) (hne : ∀ j, j ≠ o → l₁ j = l₂ j) (hp : (l₁ o).Perm (p :: l₂ o))
include ho hne hp

/-- lists that differ by one block p of order o differ by that block in all -/
theorem freeBlocks_perm : (freeBlocks l₁).Perm (blk o p :: freeBlocks l₂) := by
  -- by induction over the orders listed so far; the order o occurs once
  have key : ∀ r : List ℕ, r.Nodup → o ∈ r →
      (r.flatMap fun j => (l₁ j).map (blk j)).Perm (blk o p :: r.flatMap fun j => (l₂ j).map (blk j)) := by
    intro r hr ho
    induction r with
    | nil => simp at ho
    | cons j r ih =>
      rw [List.nodup_cons] at hr
      rw [List.flatMap_cons, List.flatMap_cons]
      by_cases hj : j = o
      · subst hj
        have hsame : (r.flatMap fun j => (l₁ j).map (blk j)) = r.flatMap fun j => (l₂ j).map (blk j) := by
          refine List.flatMap_congr fun i hi => ?_
          rw [hne i (fun e => hr.1 (e ▸ hi))]
        rw [hsame, ← List.cons_append]
        exact (hp.map (blk j)).append_right _
      · have ho' : o ∈ r := (mem_cons.1 ho).resolve_left (Ne.symm hj)
        rw [hne j hj]
        exact ((ih hr.2 ho').append_left _).trans perm_middle
  exact key _ List.nodup_range (mem_range.2 (Nat.lt_succ_of_le ho))

theorem freeSum_perm : freeSum l₁ = 2 ^ o + freeSum l₂ := by
  have h := ((freeBlocks_perm ho hne hp).map fun b => 2 ^ (b.exp - 12)).sum_eq
  simpa [freeSum, blk] using h

end

/-! ## Link words -/

/-- the link words in memory spell out the list -/
def Linked (m : Mem) : List ℕ → Prop
  | [] => True
  | p :: rest => read m p 8 = link rest ∧ Linked m rest

theorem link_lt (l : List ℕ) : link l < 256 ^ 8 := by
  cases l with
  | nil => decide
  | cons p l => exact Nat.mod_lt _ (by decide)

variable {l : List ℕ} {m : Mem} {m' : Mem} {b x j : ℕ}

theorem Linked.congr (h : Linked m l) (hm : ∀ p ∈ l, ∀ x, p ≤ x → x < p + 8 → m' x = m x) : Linked m' l := by
  induction l with
  | nil => trivial
  | cons p l ih =>
    refine ⟨?_, ih h.2 fun q hq => hm q (mem_cons_of_mem p hq)⟩
    rw [← h.1]
    exact read_congr (hm p mem_cons_self)

/-- the unlinking walk changes link words of the list only -/
theorem unlinkWord_out (hx : ∀ p ∈ l, x < p ∨ p + 8 ≤ x) : unlinkWord m b l x = m x := by
  fun_induction unlinkWord m b l with
  | case1 | case4 => rfl
  | case2 p rest _ => exact write_out (hx p mem_cons_self)
  | case3 p q rest _ _ ih => exact ih fun r hr => hx r (mem_cons_of_mem p hr)

/-- after the walk the words spell out the list without the block -/
theorem Linked.unlink (h : Linked m l)
    (hsep : l.Pairwise fun p q => p + 8 ≤ q ∨ q + 8 ≤ p) : Linked (unlinkWord m b l) (l.erase b) := by
  fun_induction unlinkWord m b l with
  | case1 q rest => rw [List.erase_cons_head]; exact h.2
  | case2 p rest hne =>
    rw [erase_cons_tail (by simpa using hne), List.erase_cons_head]
    refine ⟨?_, h.2.2.congr fun r hr x h1 h2 => write_out ?_⟩
    · rw [read_write, Nat.mod_eq_of_lt (link_lt rest)]
    · rcases (List.pairwise_cons.1 hsep).1 r (mem_cons_of_mem _ hr) with h | h <;> omega
  | case3 p q rest hp hq ih =>
    obtain ⟨hpw, hsep'⟩ := List.pairwise_cons.1 hsep
    rw [erase_cons_tail (by simpa using hp)]
    refine ⟨?_, ih h.2 hsep'⟩
    -- the word at p lies outside the rest of the list, and its successor q stays
    have hword : read (unlinkWord m b (q :: rest)) p 8 = read m p 8 := by
      refine read_congr fun x h1 h2 => unlinkWord_out fun r hr => ?_
      rcases hpw r hr with h | h <;> omega
    rw [hword, h.1, erase_cons_tail (by simpa using hq)]
    rfl
  | case4 l hl =>
    match l, hl with
    | [], _ => trivial
    | [p], _ =>
      by_cases hp : p = b
      · subst hp; rw [List.erase_cons_head]; trivial
      · rw [erase_cons_tail (by simpa using hp)]; exact h
    | p :: q :: rest, hl => exact absurd rfl (hl p q rest)

/-! ## The invariant -/

structure Inv (S : ℕ → Prop) (hand : List Block) (s : St) (out : Out) : Prop where
  late : s.earlyBoot = false
  tiles : Tiling (hand ++ (freeBlocks s.lists ++ outBlocks out)) S
  freeTag : ∀ o ≤ maxOrder, ∀ p ∈ s.lists o,
    (s.info (p / pageSize)).flags = pageFree ∧ (s.info (p / pageSize)).order = o
  outTag : ∀ b ∈ out, (s.info (b.1 / pageSize)).flags = pageAlloc ∧ (s.info (b.1 / pageSize)).order = b.2
  outOrder : ∀ b ∈ out, b.2 ≤ maxOrder
  bare : ∀ x, ¬ S x → (s.info (x / pageSize)).flags = 0
  /-- also of stale tags: an order is only ever written at a page aligned to it -/
  natural : ∀ n, 2 ^ (s.info n).order ∣ n
  linked : ∀ o ≤ maxOrder, Linked s.mem (s.lists o)
  pages : s.freePages = u64 (freeSum s.lists)
  bound : ∀ x, S x → x / pageSize + 1 < s.infoLen
  trap : s.trap = false

section Moves

variable {S : ℕ → Prop} {hand : List Block} {s : St} {out : Out} {o p : ℕ} {q : ℕ}

theorem dvd_page (h : 2 ^ (12 + o) ∣ p) : 4096 ∣ p :=
  (pow_dvd_pow 2 (Nat.le_add_right 12 o)).trans h

/-- the first page of a block -/
theorem has_first {x : ℕ} (h1 : p ≤ x) (h2 : x < p + 4096) : (blk o p).has x = true := by
  have hbig : 2 ^ 12 ≤ 2 ^ (12 + o) := Nat.pow_le_pow_right (by decide) (Nat.le_add_right 12 o)
  simp only [has_iff, blk]
  omega

section

variable (h : Inv S (blk o p :: hand) s out)
include h

/-- the block in hand is page aligned and lies in S -/
theorem Inv.hand_page : 4096 ∣ p ∧ S p :=
  ⟨dvd_page (h.tiles.aligned (blk o p) (by simp)), h.tiles.subset (b := blk o p) (by simp) (has_base _)⟩

/-- a tagged block has another first page than the block in hand -/
theorem Inv.page_ne (hq : blk j q ∈ freeBlocks s.lists ++ outBlocks out) : q / pageSize ≠ p / pageSize := by
  have hne : q ≠ p := h.tiles.head_base_ne (mem_append_right hand hq)
  have h1 : 4096 ∣ p := h.hand_page.1
  have h2 : 4096 ∣ q := dvd_page (h.tiles.aligned (blk j q) (by simp [mem_append.1 hq]))
  simp only [pageSize]
  omega

/-- pages outside S are not the first page of the block in hand -/
theorem Inv.page_ne_bare (hx : ¬ S x) : x / pageSize ≠ p / pageSize := by
  intro e
  have h1 : 4096 ∣ p := h.hand_page.1
  simp only [pageSize] at e
  exact hx (h.tiles.subset (b := blk o p) (by simp) (has_first (by omega) (by omega)))

end

theorem Inv.free_mem (hj : j ≤ maxOrder) (hq : q ∈ s.lists j) : blk j q ∈ freeBlocks s.lists ++ outBlocks out :=
  List.mem_append_left _ (mem_freeBlocks.2 ⟨j, hj, q, hq, rfl⟩)

theorem Inv.out_mem {b : ℕ × ℕ} (hb : b ∈ out) : blk b.2 b.1 ∈ freeBlocks s.lists ++ outBlocks out :=
  mem_append_right _ (mem_map.2 ⟨b, hb, rfl⟩)

/-- the first words of the block in hand and of a listed block do not overlap -/
theorem Inv.word_ne (h : Inv S (blk o p :: hand) s out) (hj : j ≤ maxOrder) (hq : q ∈ s.lists j) :
    q + 8 ≤ p ∨ p + 8 ≤ q := by
  have hne := h.page_ne (free_mem hj hq)
  simp only [pageSize] at hne
  have h1 : 4096 ∣ p := h.hand_page.1
  have h2 : 4096 ∣ q := dvd_page (h.tiles.aligned (blk j q) (by simp [mem_freeBlocks.2 ⟨j, hj, q, hq, rfl⟩]))
  omega

theorem Inv.touch_trap (h : Inv S hand s out) (hp : p / pageSize < s.infoLen) : (touch s p).trap = false := by
  simp [touch, h.trap, hp]

section

variable (h : Inv S (blk o p :: hand) s out)
include h

/-- retagging the first page of the block in hand leaves every other tag as it was -/
theorem Inv.tagPage (f : PageInfo → PageInfo) :
    (∀ j ≤ maxOrder, ∀ q ∈ s.lists j, (tagPage s p f).info (q / pageSize) = s.info (q / pageSize)) ∧
    (∀ b ∈ out, (Mm.tagPage s p f).info (b.1 / pageSize) = s.info (b.1 / pageSize)) ∧
    (∀ x, ¬ S x → (Mm.tagPage s p f).info (x / pageSize) = s.info (x / pageSize)) ∧ (Mm.tagPage s p f).trap = false := by
  refine ⟨fun j hj q hq => ?_, fun b hb => ?_, fun x hx => ?_, ?_⟩
  · exact update_of_ne (h.page_ne (free_mem hj hq)) _ _
  · exact update_of_ne (h.page_ne (out_mem hb)) _ _
  · exact update_of_ne (h.page_ne_bare hx) _ _
  · exact h.touch_trap (lt_trans (Nat.lt_succ_self _) (h.bound p h.hand_page.2))

/-- the first page of the block in hand is aligned to its order -/
theorem Inv.natural_tag (f : PageInfo → PageInfo) (hf : ∀ i, (f i).order = o) (n : ℕ) :
    2 ^ ((Mm.tagPage s p f).info n).order ∣ n := by
  by_cases hn : n = p / pageSize
  · have e : (Mm.tagPage s p f).info n = f (s.info n) := by
      rw [hn]
      exact update_self _ _ _
    rw [e, hf, hn]
    obtain ⟨k, hk⟩ : 2 ^ (12 + o) ∣ p := h.tiles.aligned (blk o p) (by simp)
    refine ⟨k, ?_⟩
    rw [hk, pow_add, mul_assoc]
    exact Nat.mul_div_cancel_left _ (by decide)
  · have e : (Mm.tagPage s p f).info n = s.info n := update_of_ne hn _ _
    rw [e]
    exact h.natural n

/-- `phys_free_block` puts the block in hand on its list -/
theorem Inv.push (ho : o ≤ maxOrder) : Inv S hand (physFreeBlock s p o) out := by
  obtain ⟨hfree, hout, hbare, htrap⟩ := h.tagPage fun i => { i with flags := pageFree, order := o % 256 }
  set l' := update s.lists o (p :: s.lists o) with hl'
  have hne : ∀ j, j ≠ o → l' j = s.lists j := fun j hj => update_of_ne hj _ _
  have hp : (l' o).Perm (p :: s.lists o) := by rw [hl', update_self]
  have hlt : o % 256 = o := Nat.mod_eq_of_lt (lt_of_le_of_lt ho (by decide))
  have hnat := h.natural_tag (fun i => { i with flags := pageFree, order := o % 256 }) fun _ => hlt
  refine ⟨h.late, ?_, ?_, ?_, h.outOrder, ?_, hnat, ?_, ?_, h.bound, htrap⟩
  · refine h.tiles.perm ?_
    have hF : (hand ++ (blk o p :: (freeBlocks s.lists ++ outBlocks out))).Perm
        (hand ++ (freeBlocks l' ++ outBlocks out)) := by
      refine List.Perm.append_left hand ?_
      exact (freeBlocks_perm ho hne hp).symm.append_right _
    exact perm_middle.symm.trans hF
  · intro j hj q hq
    by_cases hqp : j = o ∧ q = p
    · obtain ⟨rfl, rfl⟩ := hqp
      simp [physFreeBlock, Mm.tagPage, hlt]
    have hq' : q ∈ s.lists j := by
      by_cases hjo : j = o
      · subst hjo
        have hq2 : q ∈ l' j := hq
        rw [hl', update_self, mem_cons] at hq2
        exact hq2.resolve_left fun e => hqp ⟨rfl, e⟩
      · have hq2 : q ∈ l' j := hq
        rwa [hne j hjo] at hq2
    have he := hfree j hj q hq'
    exact he ▸ h.freeTag j hj q hq'
  · intro b hb
    have he := hout b hb
    exact he ▸ h.outTag b hb
  · intro x hx
    have he := hbare x hx
    exact he ▸ h.bare x hx
  · intro j hj
    show Linked (write s.mem p 8 (link (s.lists o))) (l' j)
    have hold : Linked (write s.mem p 8 (link (s.lists o))) (s.lists j) :=
      (h.linked j hj).congr fun q hq x h1 h2 => write_out (by have := h.word_ne hj hq; omega)
    by_cases hjo : j = o
    · subst hjo
      rw [hl', update_self]
      exact ⟨by rw [read_write, Nat.mod_eq_of_lt (link_lt _)], hold⟩
    · rw [hne j hjo]
      exact hold
  · show u64 (s.freePages + 2 ^ o) = u64 (freeSum l')
    rw [freeSum_perm ho hne hp, h.pages, u64, u64, u64, Nat.mod_add_mod, add_comm]

end

/-- listed blocks of two orders have disjoint first words -/
theorem Inv.words_sep (h : Inv S hand s out) {i : ℕ} (hi : i ≤ maxOrder) (hj : j ≤ maxOrder) {r : ℕ}
    (hq : q ∈ s.lists i) (hr : r ∈ s.lists j) (hij : i ≠ j) : q + 8 ≤ r ∨ r + 8 ≤ q := by
  have hq' : blk i q ∈ hand ++ (freeBlocks s.lists ++ outBlocks out) := mem_append_right _ (free_mem hi hq)
  have hr' : blk j r ∈ hand ++ (freeBlocks s.lists ++ outBlocks out) := mem_append_right _ (free_mem hj hr)
  have h1 : 4096 ∣ q := dvd_page (h.tiles.aligned _ hq')
  have h2 : 4096 ∣ r := dvd_page (h.tiles.aligned _ hr')
  have hne : q ≠ r := by
    rintro rfl
    have e := h.tiles.eq_of_has hq' hr' (has_base (blk i q)) (has_base (blk j q))
    simp only [blk, Block.mk.injEq] at e
    omega
  omega

/-- taking a listed block off its list puts it in hand -/
theorem Inv.unlist (h : Inv S hand s out) (ho : o ≤ maxOrder) (l' : List ℕ) (hp : (s.lists o).Perm (p :: l'))
    (m' : Mem) (hl : Linked m' l') (hm : ∀ x, (∀ q ∈ s.lists o, x < q ∨ q + 8 ≤ x) → m' x = s.mem x) :
    Inv S (blk o p :: hand)
      { s with mem := m', lists := update s.lists o l', freePages := u64 (s.freePages + 2 ^ 64 - 2 ^ o) }
      out := by
  have hne : ∀ j, j ≠ o → s.lists j = update s.lists o l' j :=
    fun j hj => (update_of_ne hj _ _).symm
  have hp' : (s.lists o).Perm (p :: update s.lists o l' o) := by rwa [update_self]
  refine ⟨h.late, ?_, ?_, h.outTag, h.outOrder, h.bare, h.natural, ?_, ?_, h.bound, h.trap⟩
  · refine h.tiles.perm ?_
    refine (List.Perm.append_left hand ((freeBlocks_perm ho hne hp').append_right (outBlocks out))).trans ?_
    exact perm_middle
  · intro j hj q hq
    refine h.freeTag j hj q ?_
    by_cases hjo : j = o
    · subst hjo
      have hq2 : q ∈ update s.lists j l' j := hq
      rw [update_self] at hq2
      exact hp.mem_iff.2 (mem_cons_of_mem p hq2)
    · rw [hne j hjo]
      exact hq
  · intro j hj
    show Linked m' (update s.lists o l' j)
    by_cases hjo : j = o
    · subst hjo
      rw [update_self]
      exact hl
    · rw [← hne j hjo]
      refine (h.linked j hj).congr fun r hr x h1 h2 => hm x fun q hq => ?_
      rcases h.words_sep hj ho hr hq hjo with hd | hd <;> omega
  · have hlt : 2 ^ o < 2 ^ 64 := Nat.pow_lt_pow_right (by decide) (lt_of_le_of_lt ho (by decide))
    show u64 (s.freePages + 2 ^ 64 - 2 ^ o) = u64 (freeSum (update s.lists o l'))
    rw [h.pages, freeSum_perm ho hne hp', u64, u64, u64]
    omega

/-- a block in hand may be cut in its halves -/
theorem Inv.split (h : Inv S (blk (o + 1) p :: hand) s out) :
    Inv S (blk o (p ^^^ pageSize <<< o) :: blk o p :: hand) s out := by
  have ha : 2 ^ (12 + o + 1) ∣ p := h.tiles.aligned (blk (o + 1) p) (by simp)
  rw [xor_page, buddy_of_low ha]
  exact { h with tiles := (Tiling.split (k := 12 + o) h.tiles).perm (List.Perm.swap _ _ _) }

/-- a block in hand and its buddy in hand may be joined -/
theorem Inv.merge (h : Inv S (blk o b :: blk o p :: hand) s out) (hb : b = buddy (12 + o) p) :
    Inv S (blk (o + 1) (if p < b then p else b) :: hand) s out := by
  subst hb
  have ha : 2 ^ (12 + o) ∣ p := h.tiles.aligned (blk o p) (by simp)
  by_cases hlow : 2 ^ (12 + o + 1) ∣ p
  · have hb := buddy_of_low hlow
    rw [if_pos (by omega)]
    rw [hb] at h
    exact { h with tiles := Tiling.merge (k := 12 + o) (h.tiles.perm (List.Perm.swap _ _ _)) hlow }
  obtain ⟨hsum, hdvd⟩ := buddy_of_high ha hlow
  rw [if_neg (by omega)]
  refine { h with tiles := Tiling.merge (k := 12 + o) (a := buddy (12 + o) p) ?_ hdvd }
  rw [hsum]
  exact h.tiles

/-- tagging the block in hand as allocated hands it out -/
theorem Inv.give (h : Inv S (blk o p :: hand) s out) (ho : o ≤ maxOrder) :
    Inv S hand (Mm.tagPage s p fun _ => ⟨pageAlloc, o % 256, 1⟩) ((p, o) :: out) := by
  obtain ⟨hfree, hout, hbare, htrap⟩ := h.tagPage fun _ => ⟨pageAlloc, o % 256, 1⟩
  have hlt : o % 256 = o := Nat.mod_eq_of_lt (lt_of_le_of_lt ho (by decide))
  have hnat := h.natural_tag (fun _ => ⟨pageAlloc, o % 256, 1⟩) fun _ => hlt
  refine ⟨h.late, ?_, ?_, ?_, ?_, ?_, hnat, h.linked, h.pages, h.bound, htrap⟩
  · refine h.tiles.perm ?_
    -- the block moves past the hand and the free blocks to the front of the handed-out ones
    have h1 : (blk o p :: (hand ++ (freeBlocks s.lists ++ outBlocks out))).Perm
        (hand ++ (blk o p :: (freeBlocks s.lists ++ outBlocks out))) := perm_middle.symm
    exact h1.trans (List.Perm.append_left hand perm_middle.symm)
  · intro j hj q hq
    exact hfree j hj q hq ▸ h.freeTag j hj q hq
  · intro b hb
    rcases mem_cons.1 hb with rfl | hb
    · simp [Mm.tagPage, hlt]
    · exact hout b hb ▸ h.outTag b hb
  · intro b hb
    rcases mem_cons.1 hb with rfl | hb
    · exact ho
    · exact h.outOrder b hb
  · intro x hx
    exact hbare x hx ▸ h.bare x hx

section

variable (h : Inv S hand s out)
include h

/-- a block that is given back is in hand -/
theorem Inv.take (hb : (p, o) ∈ out) : Inv S (blk o p :: hand) s (out.erase (p, o)) := by
  have hsub : ∀ c ∈ out.erase (p, o), c ∈ out := fun c hc => List.mem_of_mem_erase hc
  refine { h with
    tiles := h.tiles.perm ?_
    outTag := fun c hc => h.outTag c (hsub c hc)
    outOrder := fun c hc => h.outOrder c (hsub c hc) }
  have h1 : (outBlocks out).Perm (blk o p :: outBlocks (out.erase (p, o))) :=
    (List.perm_cons_erase hb).map fun b : ℕ × ℕ => blk b.2 b.1
  have h2 := List.Perm.append_left hand (h1.append_left (freeBlocks s.lists))
  exact h2.trans ((List.Perm.append_left hand perm_middle).trans perm_middle)

/-- a block of pages outside S that are all below the end of page_info may be brought in -/
theorem Inv.fresh (ha : 2 ^ (12 + o) ∣ p) (hd : ∀ x, (blk o p).has x = true → ¬ S x)
    (hb : ∀ x, (blk o p).has x = true → x / pageSize + 1 < s.infoLen) :
    Inv (fun x => S x ∨ (blk o p).has x = true) (blk o p :: hand) s out :=
  { h with
    tiles := h.tiles.fresh ha hd
    bare := fun x hx => h.bare x fun hS => hx (Or.inl hS)
    bound := fun x hx => hx.elim (h.bound x) (hb x) }

theorem Inv.congr {S' : ℕ → Prop} (hS : ∀ x, S x ↔ S' x) : Inv S' hand s out := by
  have e : S = S' := funext fun x => propext (hS x)
  exact e ▸ h

theorem Inv.list_nodup (ho : o ≤ maxOrder) : (s.lists o).Nodup := by
  have h1 : (freeBlocks s.lists).Nodup :=
    h.tiles.nodup.sublist ((List.sublist_append_left _ _).trans (List.sublist_append_right _ _))
  have h2 := (List.nodup_flatMap.1 h1).1 o (mem_range.2 (Nat.lt_succ_of_le ho))
  exact List.Nodup.of_map _ h2

theorem Inv.free_page (ho : o ≤ maxOrder) (hp : p ∈ s.lists o) : 4096 ∣ p :=
  dvd_page (h.tiles.aligned (blk o p) (mem_append_right _ (free_mem ho hp)))

theorem Inv.list_sep (ho : o ≤ maxOrder) : (s.lists o).Pairwise fun q r => q + 8 ≤ r ∨ r + 8 ≤ q := by
  refine (h.list_nodup ho).imp_of_mem fun {q r} hq hr hne => ?_
  have h1 := h.free_page ho hq
  have h2 := h.free_page ho hr
  omega

/-- a block in hand or on a list shares no byte with a block handed out -/
theorem Inv.not_out {c : Block} (hc : c ∈ hand ++ freeBlocks s.lists)
    (hx : c.has x = true) : S x ∧ ¬ ∃ b ∈ out, (blk b.2 b.1).has x = true := by
  have ht := h.tiles
  rw [← List.append_assoc] at ht
  refine ⟨ht.subset (List.mem_append_left _ hc) hx, ?_⟩
  rintro ⟨b, hb, hbx⟩
  exact (List.pairwise_append.1 ht.pairwise).2.2 c hc _ (mem_map.2 ⟨b, hb, rfl⟩) x ⟨hx, hbx⟩

/-- bytes outside S and bytes of blocks handed out may be written -/
theorem Inv.write_kept
    (hm : ∀ x, S x → (¬ ∃ b ∈ out, (blk b.2 b.1).has x = true) → m' x = s.mem x) : Inv S hand (s.setMem m') out := by
  refine ⟨h.late, h.tiles, h.freeTag, h.outTag, h.outOrder, h.bare, h.natural, ?_, h.pages, h.bound, h.trap⟩
  -- link words lie in listed blocks, which are nobody's
  intro o ho
  refine (h.linked o ho).congr fun q hq x h1 h2 => ?_
  obtain ⟨hS, hno⟩ := h.not_out (c := blk o q) (x := x)
    (mem_append_right _ (mem_freeBlocks.2 ⟨o, ho, q, hq, rfl⟩)) (has_first h1 (by omega))
  exact hm x hS hno

/-- owners may write the blocks they hold -/
theorem Inv.owner_write
    (hm : ∀ x, (¬ ∃ b ∈ out, (blk b.2 b.1).has x = true) → m' x = s.mem x) : Inv S hand (s.setMem m') out :=
  h.write_kept fun x _ => hm x

end

end Moves

/-! ## What an operation leaves alone -/

/-- s' differs from s only in the allocator's own data: the free lists, tags of pages that start no block handed out,
and bytes of S that are not handed out -/
structure Frame (S : ℕ → Prop) (out : Out) (s s' : St) : Prop where
  mem : ∀ x, (S x → ∃ b ∈ out, (blk b.2 b.1).has x = true) → s'.mem x = s.mem x
  tags : ∀ b ∈ out, s'.info (b.1 / pageSize) = s.info (b.1 / pageSize)
  rest : s' = { s with
    mem := s'.mem, lists := s'.lists, freePages := s'.freePages, info := s'.info, trap := s'.trap }

section Frame

variable {S : ℕ → Prop} {hand : List Block} {s s' s'' : St} {out : Out} {o p : ℕ}

theorem Frame.refl (S : ℕ → Prop) (out : Out) (s : St) : Frame S out s s := ⟨fun _ _ => rfl, fun _ _ => rfl, rfl⟩

theorem Frame.trans (h : Frame S out s s') (h' : Frame S out s' s'') : Frame S out s s'' := by
  refine ⟨fun x hx => (h'.mem x hx).trans (h.mem x hx), fun b hb => (h'.tags b hb).trans (h.tags b hb), ?_⟩
  have h1 := h'.rest
  rw [h.rest] at h1
  exact h1

/-- what stays as the boot left it: the pool, the top and the length of page_info -/
def St.fixed (s : St) : ℕ × ℕ × ℕ × ℕ := (s.bumpBase, s.bumpEnd, s.physTop, s.infoLen)

theorem St.fixed_eq (h : s'.fixed = s.fixed) : s'.bumpBase = s.bumpBase ∧ s'.bumpEnd = s.bumpEnd ∧
    s'.physTop = s.physTop ∧ s'.infoLen = s.infoLen := by
  simpa [St.fixed] using h

theorem Frame.fixed (h : Frame S out s s') : s'.fixed = s.fixed := by
  have h1 := congrArg St.fixed h.rest
  exact h1

theorem Frame.cr3 (h : Frame S out s s') : s'.kernelCr3 = s.kernelCr3 := by
  have h1 := congrArg St.kernelCr3 h.rest
  exact h1

theorem Inv.push_frame (h : Inv S (blk o p :: hand) s out) : Frame S out s (physFreeBlock s p o) := by
  refine ⟨fun x hx => write_out ?_, (h.tagPage fun i => { i with flags := pageFree, order := o % 256 }).2.1, rfl⟩
  by_contra hn
  have hin : (blk o p).has x = true := has_first (by omega) (by omega)
  obtain ⟨hS, hno⟩ := h.not_out (mem_cons_self) hin
  exact hno (hx hS)

theorem Inv.unlist_frame (h : Inv S hand s out) (ho : o ≤ maxOrder) (l' : List ℕ) (n : ℕ) (m' : Mem)
    (hm : ∀ x, (∀ q ∈ s.lists o, x < q ∨ q + 8 ≤ x) → m' x = s.mem x) :
    Frame S out s { s with mem := m', lists := update s.lists o l', freePages := n } := by
  refine ⟨fun x hx => hm x fun q hq => ?_, fun _ _ => rfl, rfl⟩
  by_contra hn
  have hin : (blk o q).has x = true := has_first (by omega) (by omega)
  obtain ⟨hS, hno⟩ := h.not_out (mem_append_right _ (mem_freeBlocks.2 ⟨o, ho, q, hq, rfl⟩)) hin
  exact hno (hx hS)

end Frame

/-! ## Allocation -/

section Ops

variable {S : ℕ → Prop} {hand : List Block} {out : Out}

variable {n order : ℕ} {lists : ℕ → List ℕ} {s : St}

theorem splitDown_inv (h : Inv S (blk (order + n) p :: hand) s out) (hn : order + n ≤ maxOrder) :
    Inv S (blk order p :: hand) (splitDown s p order n) out ∧ Frame S out s (splitDown s p order n) := by
  induction n generalizing s with
  | zero => exact ⟨h, Frame.refl S out s⟩
  | succ n ih =>
    -- cut the block, list the upper half, go on with the lower one
    have hcut := Inv.split (o := order + n) h
    obtain ⟨hi, hf⟩ := ih (hcut.push (by omega)) (by omega)
    exact ⟨hi, hcut.push_frame.trans hf⟩

theorem firstFree_none (h : firstFree lists o n = none) : ∀ j, o ≤ j → j < o + n → lists j = [] := by
  induction n generalizing o with
  | zero => intro j h1 h2; omega
  | succ n ih =>
    rw [firstFree] at h
    split at h
    · rename_i hnil
      intro j h1 h2
      rcases Nat.eq_or_lt_of_le h1 with rfl | h1
      · exact hnil
      · exact ih h j h1 (by omega)
    · cases h

theorem firstFree_some {rest : List ℕ} (h : firstFree lists o n = some (j, p, rest)) :
    o ≤ j ∧ j < o + n ∧ lists j = p :: rest ∧ ∀ i, o ≤ i → i < j → lists i = [] := by
  induction n generalizing o with
  | zero => cases h
  | succ n ih =>
    rw [firstFree] at h
    split at h
    · rename_i hnil
      obtain ⟨h1, h2, h3, h4⟩ := ih h
      refine ⟨by omega, by omega, h3, fun i hi hij => ?_⟩
      rcases Nat.eq_or_lt_of_le hi with rfl | hi
      · exact hnil
      · exact h4 i hi hij
    · rename_i q l hl
      cases h
      exact ⟨le_rfl, by omega, hl, fun i hi hij => absurd hij (by omega)⟩

/-- `amm_phys_alloc` found a block -/
def found (s : St) (order : ℕ) : Bool := (firstFree s.lists order (maxOrder + 1 - order)).isSome

theorem alloc_not_found (h : s.earlyBoot = false) (hf : found s order = false) : ammPhysAlloc s order = (0, s) := by
  unfold ammPhysAlloc
  rw [h]
  simp only [Bool.false_eq_true, if_false]
  split_ifs with ho
  · rfl
  · rw [found, Option.isSome_eq_false_iff, Option.isNone_iff_eq_none] at hf
    rw [hf]

theorem found_of_ne (h : s.earlyBoot = false) (hz : (ammPhysAlloc s order).1 ≠ 0) : found s order = true := by
  by_contra hn
  rw [alloc_not_found h (Bool.not_eq_true _ ▸ hn)] at hz
  exact hz rfl

/-- what `amm_phys_alloc` does when it finds a block: the head of the first list that is not empty is split down and
tagged -/
theorem alloc_found (h : s.earlyBoot = false) (hf : found s order = true) :
    ∃ j p rest, order ≤ j ∧ j ≤ maxOrder ∧ s.lists j = p :: rest ∧ (∀ i, order ≤ i → i < j → s.lists i = []) ∧
      ammPhysAlloc s order = (p, tagPage (splitDown { s with
        lists := update s.lists j rest, freePages := u64 (s.freePages + 2 ^ 64 - 2 ^ j) }
        p order (j - order)) p fun _ => ⟨pageAlloc, order % 256, 1⟩) := by
  obtain ⟨⟨j, p, rest⟩, he⟩ := Option.isSome_iff_exists.1 hf
  obtain ⟨h1, h2, hl, hfirst⟩ := firstFree_some he
  refine ⟨j, p, rest, h1, by omega, hl, hfirst, ?_⟩
  unfold ammPhysAlloc
  rw [h, he, if_neg (by simp), if_neg (by omega)]

/-- the head of a list is taken off it -/
theorem Inv.pop {rest : List ℕ} (h : Inv S hand s out) (hj : j ≤ maxOrder) (hl : s.lists j = p :: rest) :
    Inv S (blk j p :: hand) { s with
      lists := update s.lists j rest, freePages := u64 (s.freePages + 2 ^ 64 - 2 ^ j) } out := by
  have hlinked : Linked s.mem rest := by
    have := h.linked j hj
    rw [hl] at this
    exact this.2
  exact h.unlist hj rest (by rw [hl]) s.mem hlinked fun _ _ => rfl

/-- **Allocation step.** A block that the search finds is split down, tagged and handed out; the rest of the tiling and
every byte outside the free blocks stay. -/
theorem alloc_inv (h : Inv S [] s out) (hf : found s order = true) :
    Inv S [] (ammPhysAlloc s order).2 (((ammPhysAlloc s order).1, order) :: out) ∧
    Frame S out s (ammPhysAlloc s order).2 := by
  obtain ⟨j, p, rest, h1, hj, hl, -, halloc⟩ := alloc_found h.late hf
  have hun := h.pop hj hl
  have hunf := h.unlist_frame hj rest (u64 (s.freePages + 2 ^ 64 - 2 ^ j)) s.mem (fun _ _ => rfl)
  have hjo : order + (j - order) = j := by omega
  rw [← hjo] at hun
  obtain ⟨hsp, hspf⟩ := splitDown_inv hun (by omega)
  rw [hjo] at hsp hspf
  rw [halloc]
  refine ⟨hsp.give (h1.trans hj), (hunf.trans hspf).trans ⟨fun _ _ => rfl, ?_, rfl⟩⟩
  exact (hsp.tagPage fun _ => ⟨pageAlloc, order % 256, 1⟩).2.1

/-! ## The number of free pages -/

theorem physFreeBlock_freeSum (ho : o ≤ maxOrder) :
    freeSum (physFreeBlock s p o).lists = 2 ^ o + freeSum s.lists := by
  have hl : (physFreeBlock s p o).lists = update s.lists o (p :: s.lists o) := rfl
  rw [hl]
  refine freeSum_perm (p := p) ho (fun j hj => update_of_ne hj _ _) ?_
  rw [update_self]

/-- the halves that are listed on the way down -/
theorem splitDown_freeSum (hn : order + n ≤ maxOrder) :
    freeSum (splitDown s p order n).lists + 2 ^ order = freeSum s.lists + 2 ^ (order + n) := by
  induction n generalizing s with
  | zero => rfl
  | succ n ih =>
    rw [splitDown, ih (by omega), physFreeBlock_freeSum (by omega), ← add_assoc order n 1, pow_succ]
    ring

/-- a block that is handed out leaves the free lists by its size -/
theorem alloc_freeSum (h : s.earlyBoot = false) (hf : found s order = true) :
    freeSum (ammPhysAlloc s order).2.lists + 2 ^ order = freeSum s.lists := by
  obtain ⟨j, p, rest, h1, hj, hl, -, halloc⟩ := alloc_found h hf
  have hlists : freeSum s.lists = 2 ^ j + freeSum (update s.lists j rest) := by
    refine freeSum_perm (p := p) hj (fun i hi => (update_of_ne hi _ _).symm) ?_
    rw [hl, update_self]
  have hfree : (ammPhysAlloc s order).2.lists = (splitDown { s with
      lists := update s.lists j rest, freePages := u64 (s.freePages + 2 ^ 64 - 2 ^ j) }
      p order (j - order)).lists := by
    rw [halloc]
    rfl
  rw [hfree, splitDown_freeSum (by omega), hlists, Nat.add_sub_cancel' h1, add_comm]

/-- a listed block is enough for an allocation of its order or a smaller one -/
theorem found_of_mem {k : ℕ} (hk : k ≤ o) (ho : o ≤ maxOrder) (hp : p ∈ s.lists o) : found s k = true := by
  by_contra hn
  rw [found, Bool.not_eq_true, Option.isSome_eq_false_iff, Option.isNone_iff_eq_none] at hn
  rw [firstFree_none hn o hk (by omega)] at hp
  cases hp

/-- while a page is free, one is found -/
theorem found_of_freeSum (h : 0 < freeSum s.lists) : found s 0 = true := by
  have hne : freeBlocks s.lists ≠ [] := by
    intro hnil
    rw [freeSum, hnil] at h
    exact absurd h (by decide)
  obtain ⟨b, hb⟩ := List.exists_mem_of_ne_nil _ hne
  obtain ⟨o, ho, p, hp, -⟩ := mem_freeBlocks.1 hb
  exact found_of_mem (Nat.zero_le o) ho hp

/-! ## Release -/

/-- the buddy of a block begins at most one byte behind S -/
theorem Inv.buddy_le (h : Inv S (blk o p :: hand) s out) : ∃ x, S x ∧ buddy (12 + o) p ≤ x + 1 := by
  have ha : 2 ^ (12 + o) ∣ p := h.tiles.aligned (blk o p) (by simp)
  refine ⟨p + 2 ^ (12 + o) - 1, h.tiles.subset (b := blk o p) (by simp) ?_, ?_⟩
  · simp only [has_iff, blk]
    omega
  · by_cases hlow : 2 ^ (12 + o + 1) ∣ p
    · have := buddy_of_low hlow
      omega
    · have := (buddy_of_high ha hlow).1
      omega

/-- so its tag is inside page_info -/
theorem Inv.buddy_bound (h : Inv S (blk o p :: hand) s out) : buddy (12 + o) p / pageSize < s.infoLen := by
  obtain ⟨x, hx, hle⟩ := h.buddy_le
  have hb := h.bound x hx
  simp only [pageSize] at hb ⊢
  omega

/-- **Merge decision.** The tag of the buddy says FREE with this order exactly when the buddy is a listed block of this
order: the page is outside S and untagged, or the first page of a block and truthfully tagged. -/
theorem Inv.buddy_listed (h : Inv S [blk o p] s out) (hflag : (s.info (buddy (12 + o) p / pageSize)).flags &&& pageFree ≠ 0)
    (hord : (s.info (buddy (12 + o) p / pageSize)).order = o) : buddy (12 + o) p ∈ s.lists o := by
  have hS : S (buddy (12 + o) p) := by
    by_contra hS
    rw [h.bare _ hS] at hflag
    exact hflag rfl
  obtain ⟨c, hc, hbase, -⟩ := h.tiles.buddy_head (b := blk o p) (by simp) hS
  rcases mem_append.1 hc with hc | hc
  · have hcp : c = blk o p := by simpa using hc
    rw [hcp] at hbase
    exact absurd hbase.symm (buddy_ne _ p)
  rcases mem_append.1 hc with hc | hc
  · obtain ⟨j, hj, q, hq, rfl⟩ := mem_freeBlocks.1 hc
    have hqb : q = buddy (12 + o) p := hbase
    subst hqb
    have hjo := (h.freeTag j hj _ hq).2
    rw [hord] at hjo
    rwa [← hjo] at hq
  obtain ⟨b, hb, rfl⟩ := mem_map.1 hc
  have hbb : b.1 = buddy (12 + o) p := hbase
  have hfl := (h.outTag b hb).1
  rw [hbb] at hfl
  rw [hfl] at hflag
  exact absurd rfl hflag

/-- **A round of the merging loop.** It stops at a buddy that is not listed, or unlinks the buddy and joins it to the block
in hand. -/
theorem coalesce_round (h : Inv S [blk o p] s out) (ho : o ≤ maxOrder) (n : ℕ) :
    (coalesce s p o (n + 1) = (touch s (p ^^^ pageSize <<< o), p, o) ∧ p ^^^ pageSize <<< o ∉ s.lists o ∧
      Inv S [blk o p] (touch s (p ^^^ pageSize <<< o)) out) ∨
    ∃ s' q, coalesce s p o (n + 1) = coalesce s' q (o + 1) n ∧ Inv S [blk (o + 1) q] s' out ∧ Frame S out s s' ∧
      ∀ j, s'.lists j ⊆ s.lists j := by
  have hb := xor_page p o
  have htouch : Inv S [blk o p] (touch s (p ^^^ pageSize <<< o)) out := by
    refine { h with trap := h.touch_trap ?_ }
    rw [hb]
    exact h.buddy_bound
  rw [coalesce]
  by_cases hstop : ((touch s (p ^^^ pageSize <<< o)).info ((p ^^^ pageSize <<< o) / pageSize)).flags &&& pageFree = 0 ∨
      ((touch s (p ^^^ pageSize <<< o)).info ((p ^^^ pageSize <<< o) / pageSize)).order ≠ o
  · refine Or.inl ⟨if_pos hstop, fun hmem => ?_, htouch⟩
    -- a listed buddy would be tagged FREE with this order
    obtain ⟨htag, hord⟩ := htouch.freeTag o ho _ hmem
    rcases hstop with hz | hne
    · rw [htag] at hz
      exact absurd hz (by decide)
    · exact hne hord
  rw [if_neg hstop]
  rw [not_or, not_not] at hstop
  -- the tag tells the truth: the buddy is listed
  have hmem : p ^^^ pageSize <<< o ∈ s.lists o := by
    rw [hb] at hstop ⊢
    exact h.buddy_listed hstop.1 hstop.2
  have hwords : ∀ x, (∀ q ∈ s.lists o, x < q ∨ q + 8 ≤ x) →
      unlinkWord s.mem (p ^^^ pageSize <<< o) (s.lists o) x = s.mem x := fun x hx => unlinkWord_out hx
  have hun := htouch.unlist ho _ (List.perm_cons_erase hmem) _ ((h.linked o ho).unlink (h.list_sep ho)) hwords
  have hunf := htouch.unlist_frame ho ((s.lists o).erase (p ^^^ pageSize <<< o))
    (u64 (s.freePages + 2 ^ 64 - 2 ^ o)) _ hwords
  have htf : Frame S out s (touch s (p ^^^ pageSize <<< o)) := ⟨fun _ _ => rfl, fun _ _ => rfl, rfl⟩
  rw [if_pos (show p ^^^ pageSize <<< o ∈ (touch s (p ^^^ pageSize <<< o)).lists o from hmem)]
  refine Or.inr ⟨_, _, rfl, hun.merge hb, htf.trans hunf, fun j q hq => ?_⟩
  have hq' : q ∈ update s.lists o ((s.lists o).erase (p ^^^ pageSize <<< o)) j := hq
  by_cases hjo : j = o
  · subst hjo
    rw [update_self] at hq'
    exact List.mem_of_mem_erase hq'
  · rwa [update_of_ne hjo] at hq'

theorem coalesce_inv (h : Inv S [blk o p] s out) (hn : o + n ≤ maxOrder) :
    Inv S [blk (coalesce s p o n).2.2 (coalesce s p o n).2.1] (coalesce s p o n).1 out ∧
    (coalesce s p o n).2.2 ≤ maxOrder ∧ Frame S out s (coalesce s p o n).1 := by
  induction n generalizing s p o with
  | zero => exact ⟨h, by show o ≤ maxOrder; omega, Frame.refl S out s⟩
  | succ n ih =>
    have ho : o ≤ maxOrder := by omega
    obtain ⟨he, -, htouch⟩ | ⟨s1, q, he, h1, hf, -⟩ := coalesce_round h ho n
    · rw [he]
      exact ⟨htouch, ho, fun _ _ => rfl, fun _ _ => rfl, rfl⟩
    · obtain ⟨h2, h3, h4⟩ := ih h1 (by omega)
      rw [he]
      exact ⟨h2, h3, hf.trans h4⟩

/-- **Release step.** A block given back with the order it was handed out with is merged upwards and listed; the other
blocks handed out keep their bytes and tags. -/
theorem free_inv (h : Inv S [] s out) (hb : (p, order) ∈ out) :
    Inv S [] (ammPhysFree s p order) (out.erase (p, order)) ∧ Frame S (out.erase (p, order)) s (ammPhysFree s p order) := by
  have ho : order ≤ maxOrder := h.outOrder _ hb
  obtain ⟨h1, h2, h3⟩ := coalesce_inv (n := maxOrder - order) (h.take hb) (by omega)
  exact ⟨h1.push h2, h3.trans h1.push_frame⟩

end Ops

end OpenASD.Mm
