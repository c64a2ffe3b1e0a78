/-
The memory map on its way from the firmware to the kernel (boot/asdboot.c: efi_mem_type_to_asd, build_asd_mmap,
mark_asd_range, mark_boot_reserved), and what it means for the failure value of amm_phys_alloc.

`bootMap` is the map that the kernel gets. Base and size of an entry are the firmware's; an entry may only lose the type
FREE on the way (`bootMap_good`). Nothing on the way drops page 0, and amm_phys_init brings it in like any other page.

`alloc_zero_iff`: in every state that such a map can lead to, amm_phys_alloc gives 0 exactly when it has no block, and
then changes nothing, if and only if the block at address 0 is not the one its search finds first.
-/
import OpenASD.Mm.Coalesce

namespace OpenASD.Boot

open ByteMem OpenASD.Dyadic Mm

/-- the fields of `EFI_MEMORY_DESCRIPTOR` that the loader reads -/
structure EfiMemoryDescriptor where
  type : ℕ
  physicalStart : ℕ
  numPages : ℕ
deriving DecidableEq, Repr

def efiMemTypeToAsd : ℕ → MemType
  -- loader-owned memory
  | 1 => .loader
  | 2 => .loader
  -- boot services code and data, conventional memory
  | 3 => .free
  | 4 => .free
  | 7 => .free
  | 9 => .acpiRec
  | 10 => .acpiNvs
  | _ => .reserved

def buildAsdMmap (efi : List EfiMemoryDescriptor) : List MmapEntry :=
  efi.map fun e => ⟨e.physicalStart, e.numPages, efiMemTypeToAsd e.type⟩

/-- the loop of `mark_asd_range` over n entries -/
def markFrom (lo hi : ℕ) (type : MemType) : ℕ → List MmapEntry → List MmapEntry
  | n + 1, m :: l =>
    let rhi := u64 (m.base + m.pages * 4096)
    (if hi ≤ m.base ∨ rhi ≤ lo then m else { m with type }) :: markFrom lo hi type n l
  | _, l => l

def markAsdRange (count base size : ℕ) (type : MemType) (l : List MmapEntry) : List MmapEntry :=
  if base = 0 ∨ size = 0 then l
  else markFrom (base / 4096 * 4096) (u64 (base + size + 0xFFF) / 4096 * 4096) type count l

/-- what the loader has put into memory; a missing part is at address 0 -/
structure Loaded where
  bib : ℕ
  asdMmap : ℕ
  cmdlineBuf : ℕ
  cmdlineLen : ℕ
  initrdBuf : ℕ
  initrdSz : ℕ
  kernelPhysLo : ℕ
  kernelPhysHi : ℕ
  kernelBuf : ℕ
  kernelSz : ℕ
  fbPhys : ℕ
  fbStride : ℕ
  fbHeight : ℕ
deriving DecidableEq, Repr

/-- `sizeof(asd_bib_t)` -/
def bibSize : ℕ := 96
/-- `sizeof(asd_mmap_entry_t)` -/
def mmapEntrySize : ℕ := 24

def markBootReserved (b : Loaded) (count : ℕ) (l : List MmapEntry) : List MmapEntry :=
  let l := markAsdRange count b.bib bibSize .loader l
  let l := markAsdRange count b.asdMmap (mmapEntrySize * count) .loader l
  let l := if b.cmdlineBuf ≠ 0 ∧ b.cmdlineLen ≠ 0 then markAsdRange count b.cmdlineBuf (b.cmdlineLen + 1) .loader l else l
  let l := if b.initrdBuf ≠ 0 ∧ b.initrdSz ≠ 0 then markAsdRange count b.initrdBuf b.initrdSz .initrd l else l
  let l :=
    if b.kernelPhysLo ≠ 0 ∧ b.kernelPhysHi ≠ 0 ∧ b.kernelPhysLo < b.kernelPhysHi then
      markAsdRange count b.kernelPhysLo (b.kernelPhysHi - b.kernelPhysLo) .kernel l
    else if b.kernelBuf ≠ 0 ∧ b.kernelSz ≠ 0 then markAsdRange count b.kernelBuf b.kernelSz .kernel l
    else l
  if b.bib ≠ 0 ∧ b.fbPhys ≠ 0 ∧ b.fbStride ≠ 0 ∧ b.fbHeight ≠ 0 then
    markAsdRange count b.fbPhys (u64 (b.fbStride * b.fbHeight)) .fb l
  else l

/-- the map that the kernel gets; count is the number of entries that the loader takes the array to have -/
def bootMap (b : Loaded) (count : ℕ) (efi : List EfiMemoryDescriptor) : List MmapEntry :=
  markBootReserved b count (buildAsdMmap efi)

/-! ## Maps of the firmware -/

/-- x is a byte of the descriptor -/
def EfiMemoryDescriptor.has (e : EfiMemoryDescriptor) (x : ℕ) : Prop :=
  e.physicalStart ≤ x ∧ x < e.physicalStart + e.numPages * pageSize

/-- what the firmware promises: whole pages, no wrapping, no overlap -/
structure EfiMap (efi : List EfiMemoryDescriptor) : Prop where
  aligned : ∀ e ∈ efi, pageSize ∣ e.physicalStart
  noWrap : ∀ e ∈ efi, e.physicalStart + e.numPages * pageSize < 2 ^ 64
  disjoint : efi.Pairwise fun e f => ∀ x, ¬ (e.has x ∧ f.has x)

variable {efi : List EfiMemoryDescriptor}

theorem buildAsdMmap_good (h : EfiMap efi) : GoodMap (buildAsdMmap efi) := by
  refine ⟨?_, ?_, ?_⟩
  · intro m hm _
    obtain ⟨e, he, rfl⟩ := List.mem_map.1 hm
    exact h.aligned e he
  · intro m hm _
    obtain ⟨e, he, rfl⟩ := List.mem_map.1 hm
    exact h.noWrap e he
  · apply List.Pairwise.map _ _ h.disjoint
    intro e f hd x hx
    exact hd x ⟨hx.1.2, hx.2.2⟩

/-- an entry keeps its range, and may only lose the type FREE -/
structure Retyped (m m' : MmapEntry) : Prop where
  base : m'.base = m.base
  pages : m'.pages = m.pages
  type : m'.type = .free → m.type = .free

theorem Retyped.has {m m' : MmapEntry} (h : Retyped m m') {x : ℕ} (hx : m'.has x) : m.has x := by
  obtain ⟨hf, h1, h2⟩ := hx
  rw [h.base] at h1
  rw [h.base, h.pages] at h2
  exact ⟨h.type hf, h1, h2⟩

theorem mem_of_forall₂ {α β : Type*} {R : α → β → Prop} {l : List α} {l' : List β} (h : List.Forall₂ R l l') {b : β}
    (hb : b ∈ l') : ∃ a ∈ l, R a b := by
  induction h with
  | nil => cases hb
  | cons hr _ ih =>
    rcases List.mem_cons.1 hb with rfl | hb
    · exact ⟨_, List.mem_cons_self, hr⟩
    · obtain ⟨a, ha, hr⟩ := ih hb
      exact ⟨a, List.mem_cons_of_mem _ ha, hr⟩

theorem Retyped.good {l l' : List MmapEntry} (h : List.Forall₂ Retyped l l') (hg : GoodMap l) : GoodMap l' := by
  refine ⟨?_, ?_, ?_⟩
  · intro m' hm' hf
    obtain ⟨m, hm, hr⟩ := mem_of_forall₂ h hm'
    rw [hr.base]
    exact hg.aligned m hm (hr.type hf)
  · intro m' hm' hf
    obtain ⟨m, hm, hr⟩ := mem_of_forall₂ h hm'
    rw [hr.base, hr.pages]
    exact hg.noWrap m hm (hr.type hf)
  have hd := hg.disjoint
  clear hg
  induction h with
  | nil => exact List.Pairwise.nil
  | cons hr hrest ih =>
    rw [List.pairwise_cons] at hd ⊢
    refine ⟨fun n' hn' x hx => ?_, ih hd.2⟩
    obtain ⟨n, hn, hrn⟩ := mem_of_forall₂ hrest hn'
    exact hd.1 n hn x ⟨hr.has hx.1, hrn.has hx.2⟩

theorem Retyped.same (l : List MmapEntry) : List.Forall₂ Retyped l l :=
  List.forall₂_same.2 fun _ _ => ⟨rfl, rfl, id⟩

theorem markFrom_retyped (lo hi : ℕ) {type : MemType} (ht : type ≠ .free) (n : ℕ) (l : List MmapEntry) :
    List.Forall₂ Retyped l (markFrom lo hi type n l) := by
  induction l generalizing n with
  | nil => cases n <;> exact List.Forall₂.nil
  | cons m l ih =>
    cases n with
    | zero => exact Retyped.same _
    | succ n =>
      refine List.Forall₂.cons ?_ (ih n)
      split_ifs
      · exact ⟨rfl, rfl, id⟩
      · exact ⟨rfl, rfl, fun hf => absurd hf ht⟩

theorem markAsdRange_good (count base size : ℕ) {type : MemType} (ht : type ≠ .free) {l : List MmapEntry} (h : GoodMap l) :
    GoodMap (markAsdRange count base size type l) := by
  unfold markAsdRange
  split_ifs
  · exact h
  · exact Retyped.good (markFrom_retyped _ _ ht _ _) h

/-- **The kernel's map is well formed** if the firmware's is. -/
theorem bootMap_good (b : Loaded) (count : ℕ) (h : EfiMap efi) : GoodMap (bootMap b count efi) := by
  have h0 := buildAsdMmap_good h
  have mark : ∀ (c : Prop) [Decidable c] {l : List MmapEntry} (base size : ℕ) {type : MemType}, type ≠ .free → GoodMap l →
      GoodMap (if c then markAsdRange count base size type l else l) := by
    intro c _ l base size type ht hl
    split_ifs
    · exact markAsdRange_good count base size ht hl
    · exact hl
  have kernel : ∀ {l : List MmapEntry}, GoodMap l → GoodMap
      (if b.kernelPhysLo ≠ 0 ∧ b.kernelPhysHi ≠ 0 ∧ b.kernelPhysLo < b.kernelPhysHi then
        markAsdRange count b.kernelPhysLo (b.kernelPhysHi - b.kernelPhysLo) .kernel l
      else if b.kernelBuf ≠ 0 ∧ b.kernelSz ≠ 0 then markAsdRange count b.kernelBuf b.kernelSz .kernel l
      else l) := by
    intro l hl
    split_ifs
    · exact markAsdRange_good _ _ _ (by decide) hl
    · exact markAsdRange_good _ _ _ (by decide) hl
    · exact hl
  apply mark _ _ _ (by decide)
  apply kernel
  apply mark _ _ _ (by decide)
  apply mark _ _ _ (by decide)
  apply markAsdRange_good _ _ _ (by decide)
  exact markAsdRange_good _ _ _ (by decide) h0

/-! ## The failure value -/

/-- the search of amm_phys_alloc finds the block at address 0 first -/
def TakesZero (lists : ℕ → List ℕ) (order : ℕ) : Prop :=
  ∃ o ≤ maxOrder, order ≤ o ∧ (∀ j, order ≤ j → j < o → lists j = []) ∧ (lists o).head? = some 0

/-- there is no block for an allocation: the order is too large, or every list from it on is empty -/
def Exhausted (lists : ℕ → List ℕ) (order : ℕ) : Prop :=
  maxOrder < order ∨ ∀ o ≤ maxOrder, order ≤ o → lists o = []

/-- amm_phys_alloc gives 0 exactly if there is no block, and changes nothing then -/
def ZeroIsFailure (s : St) (order : ℕ) : Prop :=
  ((ammPhysAlloc s order).1 = 0 ↔ Exhausted s.lists order) ∧
  ((ammPhysAlloc s order).1 = 0 → (ammPhysAlloc s order).2.lists = s.lists ∧ (ammPhysAlloc s order).2.info = s.info ∧
    (ammPhysAlloc s order).2.freePages = s.freePages)

variable {s : St}

theorem exhausted_iff {order : ℕ} (h : s.earlyBoot = false) : Exhausted s.lists order ↔ found s order = false := by
  constructor
  · intro hex
    cases hf : found s order with
    | false => rfl
    | true =>
      obtain ⟨j, p, rest, h1, hj, hl, -⟩ := alloc_found h hf
      rcases hex with hbig | hnil
      · omega
      · rw [hnil j hj h1] at hl
        cases hl
  · intro hf
    refine Or.inr fun o ho hle => ?_
    by_contra hne
    obtain ⟨p, hp⟩ := List.exists_mem_of_ne_nil _ hne
    rw [found_of_mem hle ho hp] at hf
    cases hf

/-- what is taken is the head of the first list that is not empty -/
theorem takesZero_iff {order : ℕ} (h : s.earlyBoot = false) :
    TakesZero s.lists order ↔ found s order = true ∧ (ammPhysAlloc s order).1 = 0 := by
  constructor
  · rintro ⟨o, ho, hle, hfirst, hhead⟩
    have hmem : 0 ∈ s.lists o := List.mem_of_mem_head? hhead
    have hf := found_of_mem hle ho hmem
    obtain ⟨j, p, rest, h1, hj, hl, hnil, halloc⟩ := alloc_found h hf
    -- both are the first list that is not empty
    have hjo : j = o := by
      rcases Nat.lt_trichotomy j o with hlt | he | hgt
      · rw [hfirst j h1 hlt] at hl
        cases hl
      · exact he
      · rw [hnil o hle hgt] at hmem
        cases hmem
    subst hjo
    rw [hl] at hhead
    refine ⟨hf, ?_⟩
    rw [halloc]
    exact Option.some.inj hhead
  · rintro ⟨hf, hz⟩
    obtain ⟨j, p, rest, h1, hj, hl, hnil, halloc⟩ := alloc_found h hf
    rw [halloc] at hz
    have hp : p = 0 := hz
    refine ⟨j, hj, h1, hnil, ?_⟩
    rw [hl, hp]
    rfl

/-- **Zero as a failure.** In every state that a map of the firmware, a boot and a run can lead to, and for every order:
amm_phys_alloc gives 0 exactly if there is no block, with the lists, tags and the count unchanged, if and only if its
search does not find the block at address 0 first. -/
theorem alloc_zero_iff {mem : Mem} {b : Loaded} {count : ℕ} {efi : List EfiMemoryDescriptor} (he : EfiMap efi) {s : St}
    (hb : boot mem (bootMap b count efi) = some s) {ops : List Op} {y : Sys} (hr : run ⟨s, []⟩ ops = some y) (order : ℕ) :
    ZeroIsFailure y.st order ↔ ¬ TakesZero y.st.lists order := by
  obtain ⟨-, h0⟩ := boot_inv (bootMap_good b count he) hb
  have hlate := (run_inv ops h0 hr).1.late
  unfold ZeroIsFailure
  rw [exhausted_iff hlate, takesZero_iff hlate]
  cases hf : found y.st order with
  | false =>
    rw [alloc_not_found hlate hf]
    simp
  | true =>
    constructor
    · intro h hz
      have := h.1.1 hz.2
      cases this
    · intro h
      have hne : (ammPhysAlloc y.st order).1 ≠ 0 := fun hz => h ⟨rfl, hz⟩
      exact ⟨⟨fun hz => absurd hz hne, fun hz => by cases hz⟩, fun hz => absurd hz hne⟩

/-! ## A small PC -/

/-- conventional memory below 640 KiB, 64 MiB from 1 MiB on, and the loader's own pages -/
def pcEfi : List EfiMemoryDescriptor := [⟨7, 0, 160⟩, ⟨7, 0x100000, 16384⟩, ⟨2, 0x4100000, 16⟩]

def pcLoaded : Loaded where
  bib := 0x4100000
  asdMmap := 0x4101000
  cmdlineBuf := 0x4102000
  cmdlineLen := 4
  initrdBuf := 0
  initrdSz := 0
  kernelPhysLo := 0x4104000
  kernelPhysHi := 0x4108000
  kernelBuf := 0x4104000
  kernelSz := 0x4000
  fbPhys := 0
  fbStride := 0
  fbHeight := 0

theorem pcEfi_map : EfiMap pcEfi := by
  refine ⟨by decide, by decide, ?_⟩
  simp only [pcEfi, List.pairwise_cons, List.mem_cons, List.not_mem_nil, or_false, forall_eq_or_imp, forall_eq,
    EfiMemoryDescriptor.has, List.Pairwise.nil, and_true, false_implies, implies_true, pageSize]
  refine ⟨⟨fun x => ?_, fun x => ?_⟩, fun x => ?_⟩ <;> omega

theorem pc_bootMap : bootMap pcLoaded 3 pcEfi =
    [⟨0, 160, .free⟩, ⟨0x100000, 16384, .free⟩, ⟨0x4100000, 16, .kernel⟩] := by decide

theorem pc_boot (mem : Mem) : ∃ s, boot mem (bootMap pcLoaded 3 pcEfi) = some s := by
  rw [pc_bootMap]
  have htop : (ammEarlyPhysScan (St.start mem)
      [⟨0, 160, .free⟩, ⟨0x100000, 16384, .free⟩, ⟨0x4100000, 16, .kernel⟩]).physTop = 0x4100000 := rfl
  refine boot_some mem (b := 0x100000) rfl (by decide) ?_
  rw [htop]
  decide

/-- the pool takes the memory above 1 MiB; what is left are the 160 pages from address 0 on -/
theorem pc_managed {mem : Mem} (h : boot mem (bootMap pcLoaded 3 pcEfi) = some s) (x : ℕ) :
    freeByte (bootMap pcLoaded 3 pcEfi) x ∧ ¬ s.pool x ↔ x < 0xA0000 := by
  obtain ⟨-, -, hbase, hend⟩ := boot_fitted (bootMap_good pcLoaded 3 pcEfi_map) h
  rw [pc_bootMap] at hbase hend ⊢
  have hlo : s.bumpBase = 0x100000 := hbase.trans rfl
  have hhi : s.bumpEnd = 0x4100000 := hend.trans rfl
  simp only [freeByte, List.mem_cons, List.not_mem_nil, or_false, exists_eq_or_imp, exists_eq_left, MmapEntry.has,
    St.pool, hlo, hhi, pageSize, reduceCtorEq, true_and, false_and]
  omega

theorem pc_seamless {mem : Mem} (h : boot mem (bootMap pcLoaded 3 pcEfi) = some s) :
    Seamless (bootMap pcLoaded 3 pcEfi) s.pool := by
  intro o _ b _ hpool m hm n hn hlow hup
  -- both halves lie below 640 KiB, which is one entry
  have hbelow : ∀ k ∈ bootMap pcLoaded 3 pcEfi, ∀ x, k.has x → ¬ s.pool x → k = ⟨0, 160, .free⟩ := by
    intro k hk x hx hnp
    have hlt := (pc_managed h x).1 ⟨⟨k, hk, hx⟩, hnp⟩
    obtain ⟨hf, h1, -⟩ := hx
    rw [pc_bootMap] at hk
    simp only [List.mem_cons, List.not_mem_nil, or_false] at hk
    rcases hk with rfl | rfl | rfl
    · rfl
    · simp only at h1
      omega
    · cases hf
  have hpow : 2 ^ (12 + (o + 1)) = 2 ^ (12 + o) + 2 ^ (12 + o) := by
    rw [show 12 + (o + 1) = 12 + o + 1 from rfl, pow_succ]
    omega
  have h1 := hbelow m hm b (hlow b (has_base (blk o b))) (hpool b (has_base (blk (o + 1) b)))
  have h2 := hbelow n hn _ (hup _ (has_base (blk o (b + 2 ^ (12 + o))))) (hpool _ (by
    simp only [has_iff, blk]
    omega))
  rw [h1, h2]

theorem alloc_zero_iff_pc : ∃ s, boot (fun _ => 0) (bootMap pcLoaded 3 pcEfi) = some s ∧ ZeroIsFailure s 8 := by
  obtain ⟨s, hs⟩ := pc_boot fun _ => 0
  refine ⟨s, hs, (alloc_zero_iff pcEfi_map hs (show run ⟨s, []⟩ [] = some ⟨s, []⟩ from rfl) 8).2 ?_⟩
  rintro ⟨o, ho, hle, -, hhead⟩
  -- a block of 1 MiB does not fit
  obtain ⟨-, hinv⟩ := boot_inv (bootMap_good pcLoaded 3 pcEfi_map) hs
  have hbig : 2 ^ 20 ≤ 2 ^ (12 + o) := Nat.pow_le_pow_right (by decide) (by omega)
  have hin : (blk o 0).has 0xA0000 = true := by
    simp only [has_iff, blk]
    omega
  have hlt := (pc_managed hs 0xA0000).1 (hinv.tiles.subset (Inv.free_mem ho (List.mem_of_mem_head? hhead)) hin)
  exact absurd hlt (lt_irrefl _)

/-- **Page 0.** The block of 128 pages at address 0 is free, and handing it out looks like a failure. -/
theorem zero_handed_out : ∃ s, boot (fun _ => 0) (bootMap pcLoaded 3 pcEfi) = some s ∧ ¬ Exhausted s.lists 7 ∧
    (ammPhysAlloc s 7).1 = 0 ∧ (ammPhysAlloc s 7).2.freePages ≠ s.freePages := by
  obtain ⟨s, hs⟩ := pc_boot fun _ => 0
  have hgood := bootMap_good pcLoaded 3 pcEfi_map
  obtain ⟨-, hinv⟩ := boot_inv hgood hs
  obtain ⟨hfit, hlt, -⟩ := boot_fitted hgood hs
  have hc := seamless_coalesced hfit hlt hinv (pc_seamless hs)
  have hfound : found s 7 = true := by
    refine hc.allocatable hinv 7 (by decide) 0 ⟨Nat.dvd_zero _, fun x hx => ?_⟩
    simp only [has_iff, blk] at hx
    obtain ⟨c, hmem, hcx⟩ := (hinv.free_tiles.mem_iff x).1 ⟨(pc_managed hs x).2 (by omega), by simp [outBlocks]⟩
    obtain ⟨o, ho, p, hp, rfl⟩ := mem_freeBlocks.1 hmem
    exact ⟨o, ho, p, hp, hcx⟩
  obtain ⟨hinv', -⟩ := alloc_inv hinv hfound
  have hsum := alloc_freeSum hinv.late hfound
  have hmem := List.mem_append_right [] (Inv.out_mem (s := (ammPhysAlloc s 7).2) (List.mem_cons_self
    (a := ((ammPhysAlloc s 7).1, 7)) (l := [])))
  obtain ⟨k, hk⟩ := hinv'.tiles.aligned _ hmem
  have hlast : (blk 7 (ammPhysAlloc s 7).1).has ((ammPhysAlloc s 7).1 + 2 ^ 19 - 1) = true := by
    simp only [has_iff, blk]
    omega
  have hend := (pc_managed hs _).1 (hinv'.tiles.subset hmem hlast)
  have hzero : (ammPhysAlloc s 7).1 = 0 := by
    simp only [blk] at hk
    omega
  refine ⟨s, hs, ?_, hzero, ?_⟩
  · rw [exhausted_iff hinv.late, hfound]
    decide
  · rw [hinv.pages, hinv'.pages, ← hsum, u64, u64]
    omega

end OpenASD.Boot
