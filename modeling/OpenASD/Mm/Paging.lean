/-
What the operations on address spaces do to the page tables (kernel/mm/mm.c: amm_vmap_create, amm_page_fault,
amm_region_populate, amm_virt_to_kva), over the forest of `Mm.Tables`.

`Remaps`: in one space, entries of pages of a range may have been set to fresh pages with given rights, and nothing else
has changed. It composes along loops:
- `mapFresh_spec`: a fresh page is mapped;
- `populateFrom_spec`, `ammRegionPopulate_spec`: a range is populated; with four free pages for every page of it, every
  page ends up backed;
- `ammPageFault_spec`;
- `ammVmapCreate_spec`: a new space, empty in its lower half.
-/
import OpenASD.Mm.Slab
import OpenASD.Mm.Vmap

namespace OpenASD.Mm

open ByteMem
open Function (update)

/-- the entry that map_page stores -/
def leafEntry (pa : ℕ) (prot : Prot) : ℕ := (pa &&& pteAddrMask) ||| pteFlags prot

theorem leafEntry_present (pa : ℕ) (prot : Prot) : leafEntry pa prot &&& ptePresent ≠ 0 := by
  rw [leafEntry, flag_or (by decide)]
  obtain ⟨r, w, x⟩ := prot
  cases r <;> cases w <;> cases x <;> decide

theorem leafEntry_addr (pa : ℕ) (prot : Prot) : leafEntry pa prot &&& pteAddrMask = pa &&& pteAddrMask := by
  rw [leafEntry, addr_or]
  obtain ⟨r, w, x⟩ := prot
  cases r <;> cases w <;> cases x <;> decide

section

variable {κ : Type} {S : ℕ → Prop} {D : Fin 512 → Prop} {root : κ → Option ℕ} {s s' s'' : St} {out out' : Out}

/-- the page of va is mapped in the space k -/
def Backed (root : κ → Option ℕ) (m : Mem) (k : κ) (va : ℕ) : Prop := pte root m k va &&& ptePresent ≠ 0

theorem pte_vpn {va vb : ℕ} (h : vpn va = vpn vb) (m : Mem) (k : κ) : pte root m k va = pte root m k vb := by
  rw [pte_eq, pte_eq, ((path_eq_iff va vb).2 h).1, ((path_eq_iff va vb).2 h).2]

theorem backed_vpn {va vb : ℕ} (h : vpn va = vpn vb) {m : Mem} {k : κ} (hb : Backed root m k va) : Backed root m k vb := by
  rw [Backed, ← pte_vpn h]
  exact hb

/-- entries of pages of R in the space k may have been set to pages of the allocator with the rights prot -/
def Remaps (S : ℕ → Prop) (D : Fin 512 → Prop) (root : κ → Option ℕ) (k : κ) (prot : Prot) (R : ℕ → Prop) (m m' : Mem) :
    Prop :=
  ∀ l va, D (topIdx va) → pte root m' l va = pte root m l va ∨
    l = k ∧ R (vpn va) ∧ ∃ pa, S pa ∧ 4096 ∣ pa ∧ pte root m' l va = leafEntry pa prot

variable {k : κ} {prot : Prot} {R R' : ℕ → Prop} {m m' m'' : Mem}

theorem Steady.remaps (h : Steady D root m m') : Remaps S D root k prot R m m' := fun l va hD => .inl (h l va hD)

theorem Remaps.mono (h : Remaps S D root k prot R m m') (hR : ∀ n, R n → R' n) : Remaps S D root k prot R' m m' := by
  intro l va hD
  rcases h l va hD with he | ⟨hl, hr, hpa⟩
  · exact .inl he
  · exact .inr ⟨hl, hR _ hr, hpa⟩

theorem Remaps.trans (h : Remaps S D root k prot R m m') (h' : Remaps S D root k prot R m' m'') :
    Remaps S D root k prot R m m'' := by
  intro l va hD
  rcases h' l va hD with he' | hnew
  · rw [he']
    exact h l va hD
  · exact .inr hnew

variable {va pa d base size : ℕ} {map : Vmap}

/-- what was mapped stays mapped -/
theorem Remaps.backed (h : Remaps S D root k prot R m m') {l : κ} (hD : D (topIdx va))
    (hb : Backed root m l va) : Backed root m' l va := by
  unfold Backed
  rcases h l va hD with he | ⟨-, -, pa, -, -, he⟩
  · rw [he]
    exact hb
  · rw [he]
    exact leafEntry_present pa prot

/-- pa is a page in use that is no table -/
structure DataPage (D : Fin 512 → Prop) (root : κ → Option ℕ) (m : Mem) (out : Out) (pa : ℕ) : Prop where
  out : (pa, 0) ∈ out
  data : ∀ x, inPage pa x → ¬ InTable D root m x

theorem DataPage.kept {x : ℕ} (h : DataPage D root m out pa) (hx : inPage pa x) : Kept S out x :=
  fun _ => ⟨(pa, 0), h.out, blk_page.2 hx⟩

/-- the bytes of a page in use are managed ones -/
theorem DataPage.managed {x : ℕ} (h : DataPage D root s.mem out pa) (hs : Spaces S D root s out) (hx : inPage pa x) : S x :=
  hs.inv.tiles.subset (List.mem_append_right _ (Inv.out_mem h.out)) (blk_page.2 hx)

theorem Grows.dataPage (h : Grows S D root s out s' out' d) (hp : DataPage D root s.mem out pa) :
    DataPage D root s'.mem out' pa := by
  refine ⟨h.more.subset hp.out, fun x hx hin => ?_⟩
  rcases h.fresh x hin with hold | hnew
  · exact hp.data x hx hold
  · exact hnew (hp.kept hx)

/-- every mapped page is a page in use that is no table -/
def Leaves (D : Fin 512 → Prop) (root : κ → Option ℕ) (m : Mem) (out : Out) : Prop :=
  ∀ k va, D (topIdx va) → Backed root m k va → DataPage D root m out (pte root m k va &&& pteAddrMask)

/-- without a space nothing is mapped -/
theorem Leaves.start (D : Fin 512 → Prop) (m : Mem) (out : Out) : Leaves D (fun _ : κ => none) m out := by
  intro k va _ hb
  have h0 : pte (fun _ : κ => none) m k va = 0 := rfl
  rw [Backed, h0] at hb
  exact absurd rfl hb

theorem Grows.leaves (h : Grows S D root s out s' out' d) (hst : Steady D root s.mem s'.mem)
    (hl : Leaves D root s.mem out) : Leaves D root s'.mem out' := by
  intro l va hD hb
  rw [Backed, hst l va hD] at hb
  rw [hst l va hD]
  exact h.dataPage (hl l va hD hb)

/-- the page that the allocator hands out, cleared and mapped at va -/
abbrev mapFresh (s : St) (cr3 va : ℕ) (prot : Prot) : St :=
  mapPage (clearPage (ammPhysAlloc s 0).2 (ammPhysAlloc s 0).1) cr3 va (ammPhysAlloc s 0).1 prot

/-- whether map_page has found the table for it -/
abbrev mapsFresh (s : St) (cr3 va : ℕ) : Bool :=
  (ptWalkAlloc (clearPage (ammPhysAlloc s 0).2 (ammPhysAlloc s 0).1) cr3 va).1.isSome

variable {cr3 : ℕ}

section

variable (h : Spaces S D root s out)
include h

/-- **A fresh page is mapped** at va exactly when the walk has found its table. Before the call its bytes were the
allocator's, so it is none of the pages in use. -/
theorem mapFresh_exact [DecidableEq κ] (hk : root k = some cr3)
    (hD : D (topIdx va)) (hf : found s 0 = true) (prot : Prot) :
    ∃ out', Grows S D root s out (mapFresh s cr3 va prot) out' 4 ∧
      DataPage D root (mapFresh s cr3 va prot).mem out' (ammPhysAlloc s 0).1 ∧
      (∀ l vb, D (topIdx vb) → pte root (mapFresh s cr3 va prot).mem l vb =
        if mapsFresh s cr3 va = true ∧ l = k ∧ vpn vb = vpn va then leafEntry (ammPhysAlloc s 0).1 prot
        else pte root s.mem l vb) ∧
      leafEntry (ammPhysAlloc s 0).1 prot &&& pteAddrMask = (ammPhysAlloc s 0).1 ∧
      ∀ x, inPage (ammPhysAlloc s 0).1 x → S x ∧ ¬ Kept S out x := by
  obtain ⟨hg, hst, hheld, hpage⟩ := h.fresh_page hf
  unfold mapFresh mapsFresh
  generalize ammPhysAlloc s 0 = r at *
  have hdata : DataPage D root (clearPage r.2 r.1).mem ((r.1, 0) :: out) r.1 :=
    ⟨List.mem_cons_self, fun x hx hin => (hpage x hx).2 (h.kept (hst.inTable hin))⟩
  obtain ⟨o, hg', hpte⟩ := mapPage_exact hg.spaces hk hD r.1 prot
  refine ⟨o, (hg.trans hg').mono (by decide), hg'.dataPage hdata, fun l vb hDb => ?_,
    (leafEntry_addr r.1 prot).trans (addr_of_page hheld.page hheld.low), hpage⟩
  rw [hpte l vb hDb, hst.leaves l vb hDb]
  rfl

omit h in
/-- what was mapped, and the fresh page, are pages in use that are no tables -/
theorem Leaves.fresh {e : ℕ} {c : κ → ℕ → Prop} [∀ l vb, Decidable (c l vb)] (hl : Leaves D root s.mem out)
    (hg : Grows S D root s out s' out' d) (hdata : DataPage D root s'.mem out' pa) (he : e &&& pteAddrMask = pa)
    (hpte : ∀ l vb, D (topIdx vb) → pte root s'.mem l vb = if c l vb then e else pte root s.mem l vb) :
    Leaves D root s'.mem out' := by
  intro l vb hDb hb
  rw [Backed, hpte l vb hDb] at hb
  rw [hpte l vb hDb]
  split_ifs at hb ⊢ with hc
  · rw [he]
    exact hdata
  · exact hg.dataPage (hl l vb hDb hb)

/-- four free pages are enough -/
theorem mapFresh_spec [DecidableEq κ] (hk : root k = some cr3)
    (hD : D (topIdx va)) (hf : found s 0 = true) (prot : Prot) :
    ∃ out', Grows S D root s out (mapFresh s cr3 va prot) out' 4 ∧
      Remaps S D root k prot (· = vpn va) s.mem (mapFresh s cr3 va prot).mem ∧
      (4 ≤ freeSum s.lists → ¬ S 0 → Backed root (mapFresh s cr3 va prot).mem k va) ∧
      (Leaves D root s.mem out → Leaves D root (mapFresh s cr3 va prot).mem out') ∧ S (ammPhysAlloc s 0).1 := by
  obtain ⟨hg, -, hheld, -⟩ := h.fresh_page hf
  obtain ⟨-, -, -, -, hwalk⟩ := ptWalkAlloc_spec hg.spaces hk hD
  obtain ⟨o, hg', hdata, hpte, haddr, hpage⟩ := mapFresh_exact h hk hD hf prot
  unfold mapFresh mapsFresh at *
  generalize ammPhysAlloc s 0 = r at *
  have hS := (hpage r.1 ⟨le_rfl, by omega⟩).1
  refine ⟨o, hg', fun l vb hDb => ?_, fun h4 h0 => ?_, fun hl => hl.fresh hg' hdata haddr hpte, hS⟩
  · rw [hpte l vb hDb]
    split_ifs with hc
    · exact .inr ⟨hc.2.1, hc.2.2, r.1, hS, hheld.page, rfl⟩
    · exact .inl rfl
  have hcost := hg.cost
  have hd := Option.isSome_iff_ne_none.2 (hwalk (by omega) h0)
  rw [Backed, hpte k va hD, if_pos ⟨hd, rfl, rfl⟩]
  exact leafEntry_present r.1 prot

/-! ## Looking up an address -/

omit h in
theorem vpn_page (addr : ℕ) : vpn (pageAlignDown addr) = vpn addr := by
  simp only [vpn, pageAlignDown, pageSize]
  omega

theorem Spaces.cr3_eq (hk : root k = some cr3) : cr3 &&& pteAddrMask = cr3 := by
  have hok : Ok D ([] : List (Fin 512)) := ⟨Nat.zero_le 3, fun i hi => by cases hi⟩
  have hheld := h.held k [] cr3 hok ((Radix.node_nil k).trans hk)
  exact addr_of_page hheld.page hheld.low

/-- the physical addresses that the kernel's window at PHYS_MAP_BASE reaches without wrapping -/
abbrev physMapSize : ℕ := 2 ^ 64 - physMapBase

omit h in
/-- the offset in the page is added to the page's address -/
theorem page_or (e va : ℕ) : (e &&& pteAddrMask) ||| va % pageSize = (e &&& pteAddrMask) + va % pageSize := by
  obtain ⟨⟨q, hq⟩, -⟩ := addr_page e
  rw [hq, show 4096 * q = 2 ^ 12 * q from rfl, Nat.two_pow_add_eq_or_of_lt (Nat.mod_lt _ (by decide))]

theorem Spaces.kva_backed (hk : root k = some map.cr3)
    (hkva : ammVirtToKva s.mem map va ≠ 0) : Backed root s.mem k va := by
  unfold ammVirtToKva at hkva
  rw [h.cr3_eq hk, ← pte_root root hk] at hkva
  intro h0
  exact hkva (if_pos h0)

/-- a mapped page below the end of the window has an address in it -/
theorem Spaces.backed_kva (hl : Leaves D root s.mem out) (hlow : ∀ x, S x → x < physMapSize)
    (hk : root k = some map.cr3) (hD : D (topIdx va)) (hb : Backed root s.mem k va) : ammVirtToKva s.mem map va ≠ 0 := by
  have hS := hlow _ ((hl k va hD hb).managed h ⟨le_rfl, by omega⟩)
  unfold ammVirtToKva
  rw [h.cr3_eq hk, ← pte_root root hk, if_neg hb]
  obtain ⟨hal, -⟩ := addr_page (pte root s.mem k va)
  rw [page_or]
  simp only [u64, physMapBase, physMapSize, pageSize] at *
  omega

/-- the bytes behind an address of the window are those of the mapped page -/
theorem Spaces.kva_phys (hk : root k = some map.cr3) (hkva : ammVirtToKva s.mem map va ≠ 0) :
    virtToPhys (ammVirtToKva s.mem map va) = (pte root s.mem k va &&& pteAddrMask) + va % pageSize := by
  have hb := h.kva_backed hk hkva
  unfold ammVirtToKva
  rw [h.cr3_eq hk, ← pte_root root hk, if_neg hb, page_or]
  have hlow := (addr_page (pte root s.mem k va)).2
  simp only [virtToPhys, u64, physMapBase, pageSize] at *
  omega

/-! ## Writing to pages that are no tables -/

omit h in
theorem Still.leavesOf (h : Still D root m m') (hl : Leaves D root m out) : Leaves D root m' out := by
  intro l va hD hb
  rw [Backed, h.leaves l va hD] at hb
  rw [h.leaves l va hD]
  obtain ⟨ho, hd⟩ := hl l va hD hb
  exact ⟨ho, fun x hx hin => hd x hx (h.inTable hin)⟩

/-- a write to a data page leaves tables and leaves alone -/
theorem Spaces.data_write (hp : DataPage D root s.mem out pa) (m' : Mem)
    (hm : ∀ x, ¬ inPage pa x → m' x = s.mem x) : Spaces S D root (s.setMem m') out ∧ Still D root s.mem m' := by
  have hi : Inv S [] (s.setMem m') out := by
    refine h.inv.write_kept fun x hS hno => hm x fun hx => ?_
    exact hno (hp.kept (S := S) hx hS)
  exact h.same hi (fun k p t hok ht => h.held k p t hok ht) fun x hx => hm x fun hin => hp.data x hin hx

end

/-! ## Populating a range -/

/-- the page numbers of n pages from va -/
def pagesFrom (va n : ℕ) (p : ℕ) : Prop := ∃ j < n, p = vpn (va + j * pageSize)

theorem pagesFrom_succ {n p : ℕ} (h : pagesFrom (va + pageSize) n p) : pagesFrom va (n + 1) p := by
  obtain ⟨j, hj, rfl⟩ := h
  exact ⟨j + 1, Nat.succ_lt_succ hj, by rw [Nat.succ_mul]; ring_nf⟩

/-- what the loop over n pages from va leaves behind -/
structure Fills (S : ℕ → Prop) (D : Fin 512 → Prop) (root : κ → Option ℕ) (k : κ) (prot : Prot) (va n : ℕ) (s : St)
    (out : Out) (r : Bool × St) (out' : Out) : Prop where
  grows : Grows S D root s out r.2 out' (4 * n)
  remaps : Remaps S D root k prot (pagesFrom va n) s.mem r.2.mem
  leaves : Leaves D root s.mem out → Leaves D root r.2.mem out'
  backed : 4 * n ≤ freeSum s.lists → ¬ S 0 → r.1 = true ∧ ∀ j < n, Backed root r.2.mem k (va + j * pageSize)

section

variable (hk : root k = some map.cr3) (h : Spaces S D root s out)
include hk h

/-- **The loop of amm_region_populate.** Entries of the range are set, at most four pages are used for each. When there
are that many, every page of the range is backed at the end. -/
theorem populateFrom_spec [DecidableEq κ] {n : ℕ} (hD : ∀ j < n, D (topIdx (va + j * pageSize))) (prot : Prot) :
    ∃ out', Fills S D root k prot va n s out (populateFrom s map prot va n) out' := by
  induction n generalizing s out va with
  | zero =>
    exact ⟨out, Grows.refl h, fun _ _ _ => .inl rfl, id,
      fun _ _ => ⟨rfl, fun j hj => absurd hj (Nat.not_lt_zero j)⟩⟩
  | succ n ih =>
    have hD0 : D (topIdx va) := by simpa using hD 0 (Nat.succ_pos n)
    have hD' : ∀ j < n, D (topIdx (va + pageSize + j * pageSize)) := by
      intro j hj
      have := hD (j + 1) (Nat.succ_lt_succ hj)
      rwa [Nat.succ_mul, Nat.add_comm (j * pageSize), ← Nat.add_assoc] at this
    -- the rest of the loop, from any state in which this page is done
    have hrest : ∀ {s1 : St} {out1 : Out} {d : ℕ}, Grows S D root s out s1 out1 d → d ≤ 4 →
        Remaps S D root k prot (pagesFrom va (n + 1)) s.mem s1.mem →
        (4 ≤ freeSum s.lists → ¬ S 0 → Backed root s1.mem k va) →
        (Leaves D root s.mem out → Leaves D root s1.mem out1) →
        ∃ out', Fills S D root k prot va (n + 1) s out (populateFrom s1 map prot (va + pageSize) n) out' := by
      intro s1 out1 d hg hd hr hb hl
      obtain ⟨out2, hg2, hr2, hl2, hb2⟩ := ih hg.spaces hD'
      refine ⟨out2, (hg.trans hg2).mono (by omega), hr.trans (hr2.mono fun p hp => pagesFrom_succ hp), fun h => hl2 (hl h),
        fun hfree h0 => ?_⟩
      have hcost := hg.cost
      obtain ⟨hok, hall⟩ := hb2 (by omega) h0
      refine ⟨hok, fun j hj => ?_⟩
      cases j with
      | zero =>
        exact hr2.backed hD0 (hb (by omega) h0)
      | succ j =>
        have := hall j (Nat.lt_of_succ_lt_succ hj)
        rwa [Nat.add_assoc, Nat.add_comm pageSize, ← Nat.succ_mul] at this
    rw [populateFrom]
    dsimp only
    split_ifs with hkva hz
    · exact hrest (Grows.refl h) (Nat.zero_le 4) (fun _ _ _ => .inl rfl) (fun _ _ => h.kva_backed hk hkva) id
    · cases hf : found s 0 with
      | false =>
        rw [alloc_not_found h.inv.late hf]
        refine ⟨out, (Grows.refl h).mono (Nat.zero_le _), fun _ _ _ => .inl rfl, id, fun hfree => ?_⟩
        rw [found_of_freeSum (by omega)] at hf
        cases hf
      | true =>
        obtain ⟨hg, hst⟩ := h.alloc hf
        obtain ⟨-, -, -, -, -, hS⟩ := mapFresh_spec h hk hD0 hf prot
        exact ⟨_, hg.mono (by omega), hst.leaves.remaps, hg.leaves hst.leaves, fun _ h0 => absurd (hz ▸ hS) h0⟩
    · have hf := found_of_ne h.inv.late hz
      obtain ⟨out1, hg, hr, hb, hl, -⟩ := mapFresh_spec h hk hD0 hf prot
      refine hrest hg le_rfl (hr.mono fun p hp => ⟨0, Nat.succ_pos n, ?_⟩) hb hl
      rw [hp, Nat.zero_mul, Nat.add_zero]

/-- the pages of [base, base + size), in whole pages -/
def popPages (base size : ℕ) : ℕ := (pageAlign (u64 (base + size)) - pageAlignDown base) / pageSize

omit hk h in
/-- a range of the lower half has its pages there -/
theorem page_lt {j : ℕ} (h : base + size ≤ 2 ^ 47) (hj : j < popPages base size) :
    pageAlignDown base + j * pageSize < 2 ^ 47 := by
  simp only [popPages, pageAlign, pageAlignDown, u64, pageSize] at *
  omega

omit hk h in
/-- the pages of a range of the lower half, in whole pages -/
theorem pagesFrom_range (h : base + size ≤ 2 ^ 47) (hva : va < 2 ^ 47)
    (hp : pagesFrom (pageAlignDown base) (popPages base size) (vpn va)) :
    pageAlignDown base ≤ va ∧ va < pageAlign (base + size) := by
  obtain ⟨j, hj, he⟩ := hp
  simp only [popPages, pageAlign, pageAlignDown, u64, pageSize, vpn] at *
  omega

/-- **amm_region_populate.** -/
theorem ammRegionPopulate_spec [DecidableEq κ] (hD : ∀ j < popPages base size, D (topIdx (pageAlignDown base + j * pageSize)))
    (prot : Prot) : ∃ out', Grows S D root s out (ammRegionPopulate s map base size prot).2 out' (4 * popPages base size) ∧
      Remaps S D root k prot (pagesFrom (pageAlignDown base) (popPages base size)) s.mem
        (ammRegionPopulate s map base size prot).2.mem ∧
      (Leaves D root s.mem out → Leaves D root (ammRegionPopulate s map base size prot).2.mem out') ∧
      (0 < size → 0 < popPages base size → 4 * popPages base size ≤ freeSum s.lists → ¬ S 0 → Leaves D root s.mem out →
        (∀ x, S x → x < physMapSize) → (ammRegionPopulate s map base size prot).1 ≠ 0 ∧ ∀ j < popPages base size,
          Backed root (ammRegionPopulate s map base size prot).2.mem k (pageAlignDown base + j * pageSize)) := by
  obtain ⟨o, hg, hr, hl, hb⟩ := populateFrom_spec hk h hD prot
  have hpages : popPages base size = (pageAlign (u64 (base + size)) - pageAlignDown base) / pageSize := rfl
  unfold ammRegionPopulate
  dsimp only
  rw [← hpages]
  split_ifs with hempty
  · refine ⟨out, (Grows.refl h).mono (Nat.zero_le _), fun _ _ _ => .inl rfl, id, fun hsize hpos => ?_⟩
    rcases hempty with h0 | h0
    · omega
    · rw [hpages, Nat.sub_eq_zero_of_le h0, Nat.zero_div] at hpos
      exact absurd hpos (lt_irrefl 0)
  rcases hp : populateFrom s map prot (pageAlignDown base) (popPages base size) with ⟨_ | _, s1⟩
  · rw [hp] at hg hr hl hb
    exact ⟨o, hg, hr, hl, fun _ _ hfree h0 => absurd (hb hfree h0).1 (by simp)⟩
  rw [hp] at hg hr hl hb
  refine ⟨o, hg, hr, hl, fun _ hpos hfree h0 hl0 hlow => ?_⟩
  obtain ⟨-, hall⟩ := hb hfree h0
  refine ⟨?_, hall⟩
  -- base lies in the first page
  have hvpn : vpn (pageAlignDown base + 0 * pageSize) = vpn base := by rw [Nat.zero_mul, Nat.add_zero, vpn_page]
  have hDb : D (topIdx base) := topIdx_vpn hvpn ▸ hD 0 hpos
  exact hg.spaces.backed_kva (hl hl0) hlow hk hDb (backed_vpn hvpn (hall 0 hpos))

/-- **amm_page_fault.** The page is set to a fresh one with the rights of its region. -/
theorem ammPageFault_spec [DecidableEq κ] {addr : ℕ}
    (hD : D (topIdx addr)) (write : Bool) : ∃ out', Grows S D root s out (ammPageFault s map addr write).2 out' 4 ∧
      (Leaves D root s.mem out → Leaves D root (ammPageFault s map addr write).2.mem out') ∧
      ((ammPageFault s map addr write).2 = s ∨ ∃ r, ammRegionFind map addr = some r ∧
        Remaps S D root k r.prot (· = vpn addr) s.mem (ammPageFault s map addr write).2.mem) := by
  have hsame := Grows.mono (Grows.refl h) (Nat.zero_le 4)
  have hvpn := vpn_page addr
  unfold ammPageFault
  cases hr : ammRegionFind map addr with
  | none => exact ⟨out, hsame, id, .inl rfl⟩
  | some r =>
    dsimp only
    split_ifs with hw hz
    · exact ⟨out, hsame, id, .inl rfl⟩
    · cases hf : found s 0 with
      | false =>
        rw [alloc_not_found h.inv.late hf]
        exact ⟨out, hsame, id, .inl rfl⟩
      | true =>
        obtain ⟨hg, hst⟩ := h.alloc hf
        exact ⟨_, hg.mono (by decide), hg.leaves hst.leaves, .inr ⟨r, rfl, hst.leaves.remaps⟩⟩
    · have hf := found_of_ne h.inv.late hz
      obtain ⟨o, hg, hm, -, hl, -⟩ := mapFresh_spec h hk (topIdx_vpn hvpn ▸ hD) hf r.prot
      exact ⟨o, hg, hl, .inr ⟨r, rfl, hvpn ▸ hm⟩⟩

end

/-! ## A new space -/

/-- the lower half of an address space -/
def User (i : Fin 512) : Prop := i.val < 256

theorem user_of_lt (h : va < 2 ^ 47) : User (topIdx va) := by
  show va / 2 ^ 39 % 512 < 256
  omega

end

section Create

variable {S : ℕ → Prop} {root : ℕ → Option ℕ} {out : Out}

theorem copyUpper_out {m : Mem} {new kernel x : ℕ} (h : ¬ inPage new x) : copyUpper m new kernel x = m x := by
  unfold copyUpper
  rw [if_neg]
  simp only [inPage] at h
  omega

/-- the lower half of the copy is what it was -/
theorem copyUpper_lower (m : Mem) (new kernel : ℕ) {i : Fin 512} (h : User i) :
    entries (copyUpper m new kernel) new i = entries m new i := by
  refine read_congr fun x h1 h2 => if_neg ?_
  simp only [User] at h
  omega

/-- **amm_vmap_create.** A new space has nothing in its lower half; the others stay as they are. -/
theorem ammVmapCreate_spec {v : VmSt} (h : Spaces S User root v.phys out) (hroot : root v.vmapNext = none) :
    (∃ out', (ammVmapCreate v).1 = none ∧ Grows S User root v.phys out (ammVmapCreate v).2.phys out' 1 ∧
      Steady User root v.phys.mem (ammVmapCreate v).2.phys.mem ∧
      (v.vmapNext < maxVmaps → 0 < freeSum v.phys.lists → S 0)) ∨
    ∃ t out', (ammVmapCreate v).1 = some v.vmapNext ∧ (ammVmapCreate v).2.vmaps v.vmapNext = ⟨t, [], 0⟩ ∧
      Spaces S User (update root v.vmapNext (some t)) (ammVmapCreate v).2.phys out' ∧
      (Leaves User root v.phys.mem out →
        Leaves User (update root v.vmapNext (some t)) (ammVmapCreate v).2.phys.mem out') ∧
      freeSum v.phys.lists ≤ freeSum (ammVmapCreate v).2.phys.lists + 1 ∧
      ∀ l va, User (topIdx va) → pte (update root v.vmapNext (some t)) (ammVmapCreate v).2.phys.mem l va =
        if l = v.vmapNext then 0 else pte root v.phys.mem l va := by
  have hsame := Grows.mono (Grows.refl h) (Nat.zero_le 1)
  unfold ammVmapCreate
  split_ifs with hfull
  · exact .inl ⟨out, rfl, hsame, fun _ _ _ => rfl, fun hlt => absurd hlt (by omega)⟩
  dsimp only
  cases hf : found v.phys 0 with
  | false =>
    rw [alloc_not_found h.inv.late hf, if_pos rfl]
    refine .inl ⟨out, rfl, hsame, fun _ _ _ => rfl, fun _ hpos => ?_⟩
    rw [found_of_freeSum hpos] at hf
    cases hf
  | true =>
    obtain ⟨hga, hsta⟩ := h.alloc hf
    obtain ⟨hg, hst, hheld, hpage⟩ := h.fresh_page hf
    have hz := entries_clear (ammPhysAlloc v.phys 0).2.mem (ammPhysAlloc v.phys 0).1
    generalize ammPhysAlloc v.phys 0 = r at *
    split_ifs with hr
    · have hS := (hpage r.1 ⟨le_rfl, by omega⟩).1
      exact .inl ⟨_, rfl, hga, hsta.leaves, fun _ _ => hr ▸ hS⟩
    right
    set s1 := clearPage r.2 r.1
    let root' := update root v.vmapNext (some r.1)
    -- the copy goes to the new page, which is no table yet
    have hno : ∀ x, inPage r.1 x → ¬ InTable User root s1.mem x :=
      fun x hx hin => (hpage x hx).2 (h.kept (hst.inTable hin))
    obtain ⟨hg', hst'⟩ := hg.write (m := copyUpper s1.mem r.1 s1.kernelCr3) (by
      intro x hne
      have hx : inPage r.1 x := by
        by_contra hx
        exact hne (copyUpper_out hx)
      exact ⟨hheld.kept hx, hno x hx, (hpage x hx).2⟩)
    have hstill := hst.trans hst'
    have hlower := fun j (hj : User j) =>
      (copyUpper_lower s1.mem r.1 s1.kernelCr3 hj).trans (hz j)
    generalize copyUpper s1.mem r.1 s1.kernelCr3 = m1 at *
    have hnode : ∀ l q, Ok User q → table root' m1 l q =
        if l = v.vmapNext ∧ q = [] then some r.1 else table root m1 l q := by
      intro l q hq
      refine Radix.node_plant Ok.of_snoc hroot (fun _ _ _ _ _ _ => rfl) (fun j hj => ?_) l hq
      rw [hlower j (hj.2 j rfl)]
      rfl
    have hfresh : ∀ l q, Ok User q → table root m1 l q ≠ some r.1 := by
      intro l q hq ht
      have hbase : inPage r.1 r.1 := ⟨le_rfl, by omega⟩
      exact (hpage r.1 hbase).2 (h.kept (hstill.inTable ⟨l, q, r.1, hq, ht, hbase⟩))
    have hptes : ∀ l va, User (topIdx va) → pte root' m1 l va =
        if l = v.vmapNext then 0 else pte root v.phys.mem l va := by
      intro l va hu
      have hsame := hnode l (path va) (Ok.path hu)
      rw [if_neg fun hc => absurd hc.2 (List.cons_ne_nil _ _)] at hsame
      by_cases hl : l = v.vmapNext
      · have hnone : table root m1 l (path va) = none := by
          rw [hl, table, Radix.node, hroot, Option.bind_none]
        rw [if_pos hl]
        exact pte_none (hsame.trans hnone)
      · have hsamePte := hstill.leaves l va hu
        rw [if_neg hl, ← hsamePte, pte, show root' l = root l from Function.update_of_ne hl _ _, pte]
    refine ⟨r.1, (r.1, 0) :: out, rfl, Function.update_self .., ⟨hg'.spaces.inv, hg'.spaces.low,
      hg'.spaces.shaped.of_link hfresh hnode, ?_⟩, ?_, hg'.cost, hptes⟩
    · intro l q t hq ht
      rw [show table root' (s1.setMem m1).mem l q = _ from
        hnode l q hq] at ht
      split_ifs at ht with hc
      · cases ht
        exact hheld
      · exact hg'.spaces.held l q t hq ht
    intro hleaves l va hu hb
    have hpte := hptes l va hu
    rw [Backed, show pte _ (s1.setMem m1).mem l va = _ from hpte] at hb
    rw [show pte _ (s1.setMem m1).mem l va = _ from hpte]
    split_ifs at hb ⊢ with hl
    · exact absurd rfl hb
    -- the page was in use before, so it is not the new top table
    have hdata := hleaves l va hu hb
    refine ⟨(hg'.dataPage hdata).out, ?_⟩
    rintro x hx ⟨j, q, t, hq, ht, hin⟩
    rw [show table root' (s1.setMem m1).mem j q = _ from
      hnode j q hq] at ht
    split_ifs at ht with hc
    · cases ht
      exact (hpage x hin).2 (hdata.kept hx)
    · exact (hg'.dataPage hdata).data x hx ⟨j, q, t, hq, ht, hin⟩

end Create

end OpenASD.Mm
