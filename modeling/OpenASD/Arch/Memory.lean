/-
System calls on memory (kernel/arch/syscall.c: sys_brk, sys_mmap) and the page-fault exception (kernel/arch/idt.c), over the
address spaces of `Mm.Vmap`.

`MemSt` is the whole state they share: the address spaces, the `va_map` of each process, and the two globals `g_brk_cur` and
`g_mmap_bump`, which are one for all processes.

`Good` is what holds of a kernel whose processes have user address spaces: the page tables form a forest, every region ends
below 2^47, every mapped page is one of the allocator's. `Good.step`: every call keeps it, and unmaps nothing. So
calls of other processes never change where an address leads (`spaces_separate`), and no address of user code leads into a page
table (`tables_out_of_reach`).
-/
import OpenASD.Mm.Boot
import OpenASD.Mm.Paging

namespace OpenASD.Arch

open Mm
open Function (update update_of_ne update_self)

/-! ## The calls -/

structure MemSt where
  vm : VmSt
  /-- `va_map` of each process; `none` is NULL -/
  vaMap : ℕ → Option ℕ
  /-- `g_brk_cur` -/
  brkCur : ℕ
  /-- `g_mmap_bump` -/
  mmapBump : ℕ

abbrev mmapBase : ℕ := 0x0000500000000000
abbrev mmapLimit : ℕ := 0x0000700000000000
abbrev brkBase : ℕ := 0x0000600000000000
abbrev brkLimit : ℕ := 256 * 1024 * 1024

/-- ~0, the failure of sys_mmap -/
abbrev mapFailed : ℕ := 2 ^ 64 - 1
/-- ESYS_FAULT as a register -/
abbrev esysFaultReg : ℕ := 2 ^ 64 - 14

variable (x : MemSt)

def MemSt.setPhys (s : St) : MemSt := { x with vm := { x.vm with phys := s } }

/-- the break, which starts at BRK_BASE -/
def MemSt.brk : ℕ := if x.brkCur = 0 then brkBase else x.brkCur

abbrev protRw : Prot := ⟨true, true, false⟩

/-- the region that holds every heap -/
def heapRegion : Region := ⟨brkBase, brkLimit, protRw, .heap, -1⟩

/-- `if (!amm_region_find(..)) if (amm_region_add(..) != 0) ..`; `none` when it cannot be added -/
def ensureHeap (v : VmSt) (i : ℕ) : Option VmSt :=
  match ammRegionFind (v.vmaps i) brkBase with
  | some _ => some v
  | none =>
    match ammRegionAdd v i heapRegion with
    | (r, v) => if r ≠ 0 then none else some v

/-- the growth from cur to newBrk; false when amm_region_populate fails -/
def growHeap (v : VmSt) (i cur newBrk : ℕ) : Bool × VmSt :=
  let popBase := pageAlignDown cur
  let popEnd := pageAlign newBrk
  if popBase < popEnd then
    let r := ammRegionPopulate v.phys (v.vmaps i) popBase (popEnd - popBase) protRw
    (decide (r.1 ≠ 0), { v with phys := r.2 })
  else (true, v)

def sysBrk (cur newBrk : ℕ) : ℕ × MemSt :=
  match x.vaMap cur with
  | none => (0, x)
  | some i =>
    let x := { x with brkCur := x.brk }
    if newBrk = 0 ∨ newBrk < brkBase ∨ brkBase + brkLimit < newBrk then (x.brkCur, x)
    else
      match ensureHeap x.vm i with
      | none => (x.brkCur, x)
      | some v =>
        if x.brkCur < newBrk then
          match growHeap v i x.brkCur newBrk with
          | (false, v) => (x.brkCur, { x with vm := v })
          | (true, v) => (newBrk, { x with vm := v, brkCur := newBrk })
        else (newBrk, { x with vm := v, brkCur := newBrk })

/-- `prot & (PROT_READ | PROT_WRITE | PROT_EXEC)`, read and write if none is asked for -/
def kprot (prot : ℕ) : Prot :=
  if prot &&& 7 = 0 then protRw else ⟨prot &&& 1 ≠ 0, prot &&& 2 ≠ 0, prot &&& 4 ≠ 0⟩

/-- the length in whole pages -/
def mmapBytes (len : ℕ) : ℕ := u64 (u64 (len + 4095) / 4096 * 4096)

def sysMmap (cur len prot flags fd : ℕ) : ℕ × MemSt :=
  if flags &&& 0x20 = 0 ∨ fd ≠ 2 ^ 64 - 1 ∨ len = 0 then (mapFailed, x)
  else
    match x.vaMap cur with
    | none => (esysFaultReg, x)
    | some i =>
      let bytes := mmapBytes len
      if u64 (x.mmapBump + bytes) < x.mmapBump ∨ mmapLimit < u64 (x.mmapBump + bytes) then (mapFailed, x)
      else
        let result := x.mmapBump
        let x := { x with mmapBump := u64 (x.mmapBump + bytes) }
        match ammRegionAdd x.vm i ⟨result, bytes, kprot prot, .heap, -1⟩ with
        | (r, v) =>
          if r ≠ 0 then (mapFailed, x)
          else
            let p := ammRegionPopulate v.phys (v.vmaps i) result bytes (kprot prot)
            (if p.1 = 0 then mapFailed else result, { x with vm := { v with phys := p.2 } })

/-- the #PF branch of isr_dispatch, as far as memory goes -/
def pageFault (cur cr2 : ℕ) (write : Bool) : MemSt :=
  match x.vaMap cur with
  | none => x
  | some i => x.setPhys (ammPageFault x.vm.phys (x.vm.vmaps i) cr2 write).2

inductive Call where
  | brk (cur newBrk : ℕ)
  | mmap (cur len prot flags fd : ℕ)
  | fault (cur cr2 : ℕ) (write : Bool)
deriving DecidableEq, Repr

def step : Call → MemSt
  | .brk cur newBrk => (sysBrk x cur newBrk).2
  | .mmap cur len prot flags fd => (sysMmap x cur len prot flags fd).2
  | .fault cur cr2 write => pageFault x cur cr2 write

def run (c : List Call) : MemSt := c.foldl step x

/-! ## Kernels with user address spaces -/

/-- the address spaces of the processes: tables form a forest, mapped pages are pages in use, regions end below 2^47 -/
structure UserSpaces (S : ℕ → Prop) (root : ℕ → Option ℕ) (x : MemSt) : Prop where
  tables : ∃ out, Spaces S User root x.vm.phys out ∧ Leaves User root x.vm.phys.mem out
  roots : ∀ p i, x.vaMap p = some i → root i = some (x.vm.vmaps i).cr3
  regions : ∀ p i, x.vaMap p = some i → ∀ r ∈ (x.vm.vmaps i).regions, r.base + r.size ≤ 2 ^ 47

structure Good (S : ℕ → Prop) (root : ℕ → Option ℕ) (x : MemSt) : Prop extends UserSpaces S root x where
  brk : x.brkCur = 0 ∨ brkBase ≤ x.brkCur ∧ x.brkCur ≤ brkBase + brkLimit
  bump : mmapBase ≤ x.mmapBump ∧ x.mmapBump ≤ mmapLimit
  low : ∀ a, S a → a < physMapSize
  zero : ¬ S 0

/-- the spaces of the processes have no regions and no pages -/
def Fresh (root : ℕ → Option ℕ) (x : MemSt) : Prop :=
  ∀ p i, x.vaMap p = some i → (x.vm.vmaps i).regions = [] ∧ ∀ va, User (topIdx va) → ¬ Backed root x.vm.phys.mem i va

/-- x' has the processes of x, and maps what x maps -/
structure Extends (root : ℕ → Option ℕ) (x x' : MemSt) : Prop where
  vaMap : x'.vaMap = x.vaMap
  backed : ∀ k va, User (topIdx va) → Backed root x.vm.phys.mem k va → Backed root x'.vm.phys.mem k va

section

variable {S : ℕ → Prop} {root : ℕ → Option ℕ} {x x' x'' : MemSt} {p i : ℕ}

theorem Extends.refl (root : ℕ → Option ℕ) (x : MemSt) : Extends root x x := ⟨rfl, fun _ _ _ hb => hb⟩

theorem Extends.trans (h : Extends root x x') (h' : Extends root x' x'') : Extends root x x'' :=
  ⟨h'.vaMap.trans h.vaMap, fun k va hu hb => h'.backed k va hu (h.backed k va hu hb)⟩

section

variable (h : Good S root x)
include h

theorem Good.brk_range : brkBase ≤ x.brk ∧ x.brk ≤ brkBase + brkLimit := by
  unfold MemSt.brk
  rcases h.brk with h0 | hr
  · rw [if_pos h0]
    exact ⟨le_rfl, Nat.le_add_right _ _⟩
  · have hne : x.brkCur ≠ 0 := fun h0 => absurd (h0 ▸ hr.1) (by decide)
    rw [if_neg hne]
    exact hr

/-- a region of the lower half is added to the space of a process -/
theorem Good.add (i : ℕ) (nr : Region) (hnr : nr.base + nr.size ≤ 2 ^ 47) :
    Good S root { x with vm := (ammRegionAdd x.vm i nr).2 } ∧
    Extends root x { x with vm := (ammRegionAdd x.vm i nr).2 } := by
  obtain he | ⟨-, -, map, hcr3, hreg, he⟩ := ammRegionAdd_cases x.vm i nr
  · rw [he]
    exact ⟨h, Extends.refl root x⟩
  rw [he]
  refine ⟨⟨⟨h.tables, fun q j hj => ?_, fun q j hj r hr => ?_⟩, h.brk, h.bump, h.low, h.zero⟩,
    rfl, fun _ _ _ hb => hb⟩
  · have hroot := h.roots q j hj
    by_cases hji : j = i
    · subst hji
      simpa only [update_self, hcr3] using hroot
    · simpa only [update_of_ne hji] using hroot
  by_cases hji : j = i
  · subst hji
    simp only [update_self, hreg, mem_insertSorted] at hr
    rcases hr with rfl | hr
    · exact hnr
    · exact h.regions q j hj r hr
  · simp only [update_of_ne hji] at hr
    exact h.regions q j hj r hr

/-- pages are mapped in the space of a process -/
theorem Good.remap {s : St} {out : Out} (hs : Spaces S User root s out)
    (hl : Leaves User root s.mem out) {k : ℕ} {prot : Prot} {R : ℕ → Prop}
    (hr : Remaps S User root k prot R x.vm.phys.mem s.mem) : Good S root (x.setPhys s) ∧ Extends root x (x.setPhys s) :=
  ⟨⟨⟨⟨out, hs, hl⟩, h.roots, h.regions⟩, h.brk, h.bump, h.low, h.zero⟩, rfl, fun _ _ hu hb => hr.backed hu hb⟩

/-- a range of the lower half is populated -/
theorem Good.populate (hi : x.vaMap p = some i) {base size : ℕ}
    (hD : ∀ j < popPages base size, pageAlignDown base + j * pageSize < 2 ^ 47) (prot : Prot) {r : ℕ × St}
    (hr : ammRegionPopulate x.vm.phys (x.vm.vmaps i) base size prot = r) :
    Good S root (x.setPhys r.2) ∧ Extends root x (x.setPhys r.2) ∧
    Remaps S User root i prot (pagesFrom (pageAlignDown base) (popPages base size)) x.vm.phys.mem r.2.mem ∧
    (0 < size → 0 < popPages base size → 4 * popPages base size ≤ freeSum x.vm.phys.lists →
      r.1 ≠ 0 ∧ ∀ j < popPages base size, Backed root r.2.mem i (pageAlignDown base + j * pageSize)) := by
  obtain ⟨out, hs, hl⟩ := h.tables
  obtain ⟨out', hg, hm, hl', hb⟩ := ammRegionPopulate_spec (h.roots p i hi) hs (fun j hj => user_of_lt (hD j hj)) prot
  rw [hr] at hg hm hl' hb
  obtain ⟨hgood, hext⟩ := h.remap hg.spaces (hl' hl) hm
  exact ⟨hgood, hext, hm, fun h1 h2 h3 => hb h1 h2 h3 h.zero hl h.low⟩

/-- a page fault changes nothing, or maps the page of its address with the rights of the region -/
theorem Good.pageFault_cases (p cr2 : ℕ) (write : Bool) : pageFault x p cr2 write = x ∨
    ∃ i r s, x.vaMap p = some i ∧ ammRegionFind (x.vm.vmaps i) cr2 = some r ∧ pageFault x p cr2 write = x.setPhys s ∧
      (Good S root (x.setPhys s) ∧ Extends root x (x.setPhys s)) ∧
      Remaps S User root i r.prot (· = vpn cr2) x.vm.phys.mem s.mem := by
  unfold Arch.pageFault
  cases hi : x.vaMap p with
  | none => exact .inl rfl
  | some i =>
    dsimp only
    cases hf : ammRegionFind (x.vm.vmaps i) cr2 with
    | none =>
      rw [ammPageFault, hf]
      exact .inl rfl
    | some r =>
      -- the address lies in a region, so in the lower half
      obtain ⟨hmem, hlo, hhi⟩ := regionFind_some hf
      have hlim := h.regions p i hi r hmem
      have hlow : cr2 < 2 ^ 47 := by
        have : r.lim ≤ r.base + r.size := Nat.mod_le _ _
        omega
      obtain ⟨out, hs, hl⟩ := h.tables
      obtain ⟨out', hg, hl', he | ⟨q, hq, hr⟩⟩ := ammPageFault_spec (h.roots p i hi) hs (user_of_lt hlow) write
      · rw [he]
        exact .inl rfl
      obtain rfl := Option.some.inj (hq.symm.trans hf)
      exact .inr ⟨i, q, _, rfl, hf, rfl, h.remap hg.spaces (hl' hl) hr, hr⟩

theorem Good.setBrk {b : ℕ} (h1 : brkBase ≤ b) (h2 : b ≤ brkBase + brkLimit) : Good S root { x with brkCur := b } :=
  ⟨⟨h.tables, h.roots, h.regions⟩, .inr ⟨h1, h2⟩, h.bump, h.low, h.zero⟩

theorem Good.setBump {b : ℕ} (h1 : x.mmapBump ≤ b) (h2 : b ≤ mmapLimit) : Good S root { x with mmapBump := b } :=
  ⟨⟨h.tables, h.roots, h.regions⟩, h.brk, ⟨h.bump.1.trans h1, h2⟩, h.low, h.zero⟩

end

/-! ## sys_brk -/

/-- the requests that only ask for the break -/
def idle (newBrk : ℕ) : Prop := newBrk = 0 ∨ newBrk < brkBase ∨ brkBase + brkLimit < newBrk

instance (newBrk : ℕ) : Decidable (idle newBrk) := inferInstanceAs (Decidable (_ ∨ _ ∨ _))

/-- the pages of a growth -/
def growPages (cur newBrk : ℕ) : ℕ := (pageAlign newBrk - pageAlignDown cur) / pageSize

/-- everything that sys_brk can do -/
theorem sysBrk_cases (x : MemSt) (p n : ℕ) : (x.vaMap p = none ∧ sysBrk x p n = (0, x)) ∨
    ∃ i, x.vaMap p = some i ∧ (sysBrk x p n = (x.brk, { x with brkCur := x.brk }) ∨
      ¬ idle n ∧ ∃ v, ensureHeap x.vm i = some v ∧
        (x.brk < n ∧ (growHeap v i x.brk n).1 = false ∧
            sysBrk x p n = (x.brk, { x with vm := (growHeap v i x.brk n).2, brkCur := x.brk }) ∨
          x.brk < n ∧ (growHeap v i x.brk n).1 = true ∧
            sysBrk x p n = (n, { x with vm := (growHeap v i x.brk n).2, brkCur := n }) ∨
          n ≤ x.brk ∧ sysBrk x p n = (n, { x with vm := v, brkCur := n }))) := by
  unfold sysBrk
  cases hi : x.vaMap p with
  | none => exact .inl ⟨rfl, rfl⟩
  | some i =>
    refine .inr ⟨i, rfl, ?_⟩
    dsimp only
    by_cases hidle : n = 0 ∨ n < brkBase ∨ brkBase + brkLimit < n
    · rw [if_pos hidle]
      exact .inl rfl
    rw [if_neg hidle]
    cases hv : ensureHeap x.vm i with
    | none => exact .inl rfl
    | some v =>
      refine .inr ⟨hidle, v, rfl, ?_⟩
      dsimp only
      by_cases hgrow : x.brk < n
      · rw [if_pos hgrow]
        rcases hg : growHeap v i x.brk n with ⟨_ | _, w⟩
        · exact .inl ⟨hgrow, rfl, rfl⟩
        · exact .inr (.inl ⟨hgrow, rfl, rfl⟩)
      · rw [if_neg hgrow]
        exact .inr (.inr ⟨Nat.le_of_not_lt hgrow, rfl⟩)

section

variable (h : Good S root x)
include h

theorem Good.ensureHeap {v : VmSt} (hv : ensureHeap x.vm i = some v) :
    Good S root { x with vm := v } ∧ Extends root x { x with vm := v } ∧ v.phys = x.vm.phys := by
  have hadd := h.add i heapRegion (by decide)
  unfold Arch.ensureHeap at hv
  cases hf : ammRegionFind (x.vm.vmaps i) brkBase with
  | some r =>
    rw [hf] at hv
    cases hv
    exact ⟨h, Extends.refl root x, rfl⟩
  | none =>
    rw [hf] at hv
    obtain he | ⟨-, -, map, -, -, he⟩ := ammRegionAdd_cases x.vm i heapRegion
    · rw [he] at hv
      cases hv
    · rw [he] at hv hadd
      cases hv
      exact ⟨hadd.1, hadd.2, rfl⟩

/-- growth maps the pages up to the new break -/
theorem Good.growHeap (hi : x.vaMap p = some i) {b n : ℕ} (hb : brkBase ≤ b) (hlt : b < n)
    (hn : n ≤ brkBase + brkLimit) :
    Good S root { x with vm := (growHeap x.vm i b n).2 } ∧ Extends root x { x with vm := (growHeap x.vm i b n).2 } ∧
    (4 * growPages b n ≤ freeSum x.vm.phys.lists → (growHeap x.vm i b n).1 = true ∧
      ∀ va, pageAlignDown b ≤ va → va < n → Backed root (growHeap x.vm i b n).2.phys.mem i va) := by
  have hnum : pageAlign n = (n + 4095) / 4096 * 4096 ∧ pageAlign n < 2 ^ 47 := by
    simp only [pageAlign, u64, pageSize, brkBase, brkLimit] at *
    omega
  have hdown : pageAlignDown b = b / 4096 * 4096 := rfl
  have hlt' : pageAlignDown b < pageAlign n := by omega
  have hdd : pageAlignDown (pageAlignDown b) = pageAlignDown b := by
    simp only [pageAlignDown, pageSize]
    omega
  have hpages : popPages (pageAlignDown b) (pageAlign n - pageAlignDown b) = growPages b n := by
    have h2 : pageAlign (u64 (pageAlignDown b + (pageAlign n - pageAlignDown b))) = pageAlign n := by
      rw [Nat.add_sub_cancel' hlt'.le]
      obtain ⟨h3, h4⟩ := hnum
      generalize pageAlign n = e at *
      simp only [pageAlign, u64, pageSize]
      omega
    rw [popPages, hdd, h2, growPages]
  have hgp : growPages b n * pageSize = pageAlign n - pageAlignDown b := by
    rw [growPages, hnum.1, hdown]
    simp only [pageSize]
    omega
  obtain ⟨hgood, hext, -, hback⟩ := h.populate hi
    (fun j hj => page_lt ((Nat.add_sub_cancel' hlt'.le).trans_le hnum.2.le) hj) protRw rfl
  unfold Arch.growHeap
  dsimp only
  rw [if_pos hlt']
  refine ⟨hgood, hext, fun hfree => ?_⟩
  rw [hpages] at hback
  have hpos : 0 < growPages b n := by
    by_contra hz
    have : growPages b n = 0 := by omega
    rw [this] at hgp
    omega
  obtain ⟨hne, hall⟩ := hback (by omega) hpos hfree
  refine ⟨by simpa using hne, fun va h1 h2 => ?_⟩
  have hj : (va - pageAlignDown b) / pageSize < growPages b n := by
    refine Nat.div_lt_of_lt_mul ?_
    rw [mul_comm, hgp]
    omega
  refine backed_vpn ?_ (hall _ hj)
  rw [hdd]
  simp only [vpn, pageSize]
  rw [hdown] at h1 ⊢
  omega

/-- **sys_brk keeps the kernel good.** -/
theorem Good.sysBrk (p n : ℕ) : Good S root (sysBrk x p n).2 ∧ Extends root x (sysBrk x p n).2 := by
  obtain ⟨hb1, hb2⟩ := h.brk_range
  obtain ⟨-, he⟩ | ⟨i, hi, he | ⟨hidle, v, hv, hc⟩⟩ := sysBrk_cases x p n
  · rw [he]
    exact ⟨h, Extends.refl root x⟩
  · rw [he]
    exact ⟨h.setBrk hb1 hb2, rfl, fun _ _ _ hb => hb⟩
  simp only [idle, not_or, not_lt] at hidle
  obtain ⟨hgv, hev, -⟩ := h.ensureHeap hv
  have hgrown := fun hlt => hgv.growHeap (p := p) (n := n) hi hb1 hlt hidle.2.2
  obtain ⟨hlt, -, he⟩ | ⟨hlt, -, he⟩ | ⟨-, he⟩ := hc
  · obtain ⟨hg, hx, -⟩ := hgrown hlt
    rw [he]
    exact ⟨hg.setBrk hb1 hb2, (hev.trans hx).vaMap, (hev.trans hx).backed⟩
  · obtain ⟨hg, hx, -⟩ := hgrown hlt
    rw [he]
    exact ⟨hg.setBrk hidle.2.1 hidle.2.2, (hev.trans hx).vaMap, (hev.trans hx).backed⟩
  · rw [he]
    exact ⟨hgv.setBrk hidle.2.1 hidle.2.2, rfl, hev.backed⟩

/-! ## sys_mmap -/

/-- the mapping that sys_mmap makes -/
def mmapRegion (x : MemSt) (len prot : ℕ) : Region := ⟨x.mmapBump, mmapBytes len, kprot prot, .heap, -1⟩

/-- ~0 or ESYS_FAULT -/
def Failed (r : ℕ) : Prop := r = mapFailed ∨ r = esysFaultReg

omit h in
/-- everything that sys_mmap can do -/
theorem sysMmap_cases (x : MemSt) (p len prot flags fd : ℕ) :
    Failed (sysMmap x p len prot flags fd).1 ∧ (sysMmap x p len prot flags fd).2 = x ∨
    ∃ i, x.vaMap p = some i ∧ x.mmapBump ≤ u64 (x.mmapBump + mmapBytes len) ∧
      u64 (x.mmapBump + mmapBytes len) ≤ mmapLimit ∧ ¬ (flags &&& 0x20 = 0 ∨ fd ≠ 2 ^ 64 - 1 ∨ len = 0) ∧
      ((ammRegionAdd x.vm i (mmapRegion x len prot)).1 ≠ 0 ∧
          (sysMmap x p len prot flags fd).2 = { x with mmapBump := u64 (x.mmapBump + mmapBytes len) } ∨
        (ammRegionAdd x.vm i (mmapRegion x len prot)).1 = 0 ∧ ∃ v, v = (ammRegionAdd x.vm i (mmapRegion x len prot)).2 ∧
          sysMmap x p len prot flags fd =
            (if (ammRegionPopulate v.phys (v.vmaps i) x.mmapBump (mmapBytes len) (kprot prot)).1 = 0 then mapFailed
              else x.mmapBump,
            { x with
              vm := { v with phys :=
                (ammRegionPopulate v.phys (v.vmaps i) x.mmapBump (mmapBytes len) (kprot prot)).2 }
              mmapBump := u64 (x.mmapBump + mmapBytes len) })) := by
  unfold sysMmap
  split_ifs with h1
  · exact .inl ⟨.inl rfl, rfl⟩
  cases hi : x.vaMap p with
  | none => exact .inl ⟨.inr rfl, rfl⟩
  | some i =>
    dsimp only
    by_cases h2 : u64 (x.mmapBump + mmapBytes len) < x.mmapBump ∨ mmapLimit < u64 (x.mmapBump + mmapBytes len)
    · rw [if_pos h2]
      exact .inl ⟨.inl rfl, rfl⟩
    rw [if_neg h2]
    simp only [not_or, not_lt] at h2
    refine .inr ⟨i, rfl, h2.1, h2.2, h1, ?_⟩
    unfold mmapRegion
    rcases ammRegionAdd x.vm i ⟨x.mmapBump, mmapBytes len, kprot prot, .heap, -1⟩ with ⟨r, v⟩
    by_cases hr : r = 0
    · rw [if_neg (not_not.2 hr)]
      exact .inr ⟨hr, v, rfl, rfl⟩
    · rw [if_pos hr]
      exact .inl ⟨hr, rfl⟩

omit h in
/-- the mapping lies between the cursors, which have not wrapped -/
theorem mmap_range {len : ℕ} (h1 : x.mmapBump ≤ u64 (x.mmapBump + mmapBytes len))
    (h2 : u64 (x.mmapBump + mmapBytes len) ≤ mmapLimit) : x.mmapBump + mmapBytes len ≤ mmapLimit := by
  have hlen : mmapBytes len < 2 ^ 64 := Nat.mod_lt _ (by decide)
  simp only [u64, mmapLimit] at *
  omega

/-- **sys_mmap keeps the kernel good.** -/
theorem Good.sysMmap (p len prot flags fd : ℕ) :
    Good S root (sysMmap x p len prot flags fd).2 ∧ Extends root x (sysMmap x p len prot flags fd).2 := by
  obtain ⟨-, he⟩ | ⟨i, hi, h1, h2, -, hc⟩ := sysMmap_cases x p len prot flags fd
  · rw [he]
    exact ⟨h, Extends.refl root x⟩
  have hrange := mmap_range h1 h2
  obtain ⟨-, he⟩ | ⟨-, v, rfl, he⟩ := hc
  · rw [he]
    exact ⟨h.setBump h1 h2, rfl, fun _ _ _ hb => hb⟩
  rw [he]
  have hlim : mmapLimit < 2 ^ 47 := by decide
  have hlow : x.mmapBump + mmapBytes len ≤ 2 ^ 47 := hrange.trans hlim.le
  obtain ⟨hg, hx⟩ := h.add i (mmapRegion x len prot) hlow
  obtain ⟨hg', hx', -, -⟩ := hg.populate (p := p) hi (fun j hj => page_lt hlow hj) (kprot prot) rfl
  exact ⟨hg'.setBump h1 h2, hx'.vaMap, (hx.trans hx').backed⟩

/-- **Step.** Every call keeps the kernel good and unmaps nothing. -/
theorem Good.step (c : Call) : Good S root (step x c) ∧ Extends root x (step x c) := by
  cases c with
  | brk p n => exact h.sysBrk p n
  | mmap p len prot flags fd => exact h.sysMmap p len prot flags fd
  | fault p cr2 write =>
    obtain he | ⟨-, -, s, -, -, he, hg, -⟩ := h.pageFault_cases p cr2 write
    · rw [Arch.step, he]
      exact ⟨h, Extends.refl root x⟩
    · rw [Arch.step, he]
      exact hg

theorem Good.run (c : List Call) : Good S root (run x c) := by
  induction c generalizing x with
  | nil => exact h
  | cons a c ih => exact ih (h.step a).1

end

end

/-! ## Where such kernels come from -/

/-- the kernel after boot, with no process -/
def booted (s : St) : MemSt :=
  { vm := { phys := s, vmaps := fun _ => ⟨0, [], 0⟩, vmapNext := 0, regionNext := 0 }, vaMap := fun _ => none, brkCur := 0,
    mmapBump := mmapBase }

/-- the process p gets an address space of its own, if there is one to be had -/
def attach (x : MemSt) (p : ℕ) : MemSt :=
  match ammVmapCreate x.vm with
  | (none, v) => { x with vm := v }
  | (some i, v) => { x with vm := v, vaMap := update x.vaMap p (some i) }

/-- such as `boot_inv` says boot leaves the allocator -/
theorem Good.start {S : ℕ → Prop} {s : St} (hinv : Inv S [] s []) (hlow : ∀ a, S a → a < physMapSize) (hzero : ¬ S 0) :
    Good S (fun _ => none) (booted s) :=
  ⟨⟨⟨[], Spaces.start hinv fun a ha => (hlow a ha).trans (by decide), Leaves.start User _ _⟩, nofun, nofun⟩, .inl rfl,
    ⟨le_rfl, show mmapBase ≤ mmapLimit by decide⟩, hlow, hzero⟩

theorem Good.attach {S : ℕ → Prop} {root : ℕ → Option ℕ} {x : MemSt} (h : Good S root x)
    (hnew : ∀ i, x.vm.vmapNext ≤ i → root i = none) (hroom : x.vm.vmapNext < maxVmaps) (hfree : 0 < freeSum x.vm.phys.lists)
    (p : ℕ) : ∃ root', Good S root' (attach x p) ∧ (attach x p).vaMap = update x.vaMap p (some x.vm.vmapNext) ∧
      (∀ i, (attach x p).vm.vmapNext ≤ i → root' i = none) ∧ (attach x p).vm.vmapNext = x.vm.vmapNext + 1 ∧
      (attach x p).brkCur = x.brkCur ∧ freeSum x.vm.phys.lists ≤ freeSum (attach x p).vm.phys.lists + 1 ∧
      (Fresh root x → Fresh root' (attach x p)) := by
  obtain ⟨out, hs, hl⟩ := h.tables
  have hnext := ammVmapCreate_next hroom
  have hmaps := ammVmapCreate_vmaps x.vm
  unfold Arch.attach
  obtain ⟨-, -, -, -, h0⟩ | ⟨t, out', hc, hmap, hs', hl', hcost, hpte⟩ := ammVmapCreate_spec hs (hnew _ le_rfl)
  · exact absurd (h0 hroom hfree) h.zero
  rcases hv : ammVmapCreate x.vm with ⟨_ | j, v⟩
  · rw [hv] at hc
    cases hc
  rw [hv] at hc hmap hs' hl' hcost hpte hnext hmaps
  cases hc
  dsimp only at hmap hs' hl' hcost hpte hnext hmaps
  -- the spaces of the other processes have other indices
  have hold : ∀ q j, x.vaMap q = some j → j ≠ x.vm.vmapNext := by
    rintro q j hj rfl
    have := h.roots q _ hj
    rw [hnew _ le_rfl] at this
    cases this
  have hentry : ∀ q j, update x.vaMap p (some x.vm.vmapNext) q = some j →
      j = x.vm.vmapNext ∨ j ≠ x.vm.vmapNext ∧ x.vaMap q = some j := by
    intro q j hj
    by_cases hq : q = p
    · rw [hq, update_self] at hj
      exact .inl (Option.some.inj hj).symm
    · rw [update_of_ne hq] at hj
      exact .inr ⟨hold q j hj, hj⟩
  refine ⟨update root x.vm.vmapNext (some t), ⟨⟨⟨out', hs', hl' hl⟩, ?_, ?_⟩, h.brk, h.bump, h.low, h.zero⟩, rfl, ?_,
    hnext, rfl, hcost, ?_⟩
  · intro q j hj
    obtain rfl | ⟨hne, hj⟩ := hentry q j hj
    · rw [update_self]
      exact congrArg some (congrArg Vmap.cr3 hmap).symm
    · rw [update_of_ne hne, h.roots q j hj]
      exact congrArg some (congrArg Vmap.cr3 (hmaps j hne)).symm
  · intro q j hj r hr
    obtain rfl | ⟨hne, hj⟩ := hentry q j hj
    · rw [show (v.vmaps x.vm.vmapNext).regions = [] from congrArg Vmap.regions hmap] at hr
      cases hr
    · rw [show (v.vmaps j).regions = (x.vm.vmaps j).regions from congrArg Vmap.regions (hmaps j hne)] at hr
      exact h.regions q j hj r hr
  · intro j hj
    have hge : x.vm.vmapNext + 1 ≤ j := hnext ▸ hj
    rw [update_of_ne (by omega)]
    exact hnew j (by omega)
  intro hfresh q j hj
  obtain rfl | ⟨hne, hj⟩ := hentry q j hj
  · refine ⟨congrArg Vmap.regions hmap, fun va hu hb => ?_⟩
    rw [Backed, hpte _ va hu, if_pos rfl] at hb
    exact hb rfl
  obtain ⟨hreg, hno⟩ := hfresh q j hj
  refine ⟨(congrArg Vmap.regions (hmaps j hne)).trans hreg, fun va hu hb => hno va hu ?_⟩
  rw [Backed, hpte _ va hu, if_neg hne] at hb
  exact hb

/-- process 1 has a space of its own, on sixteen pages -/
def smallProcess : MemSt := attach (booted (fewPages 4).phys) 1

/-- the top table of the process -/
def heapRoot (k : ℕ) : Option ℕ := if k = 0 then some 0x10000 else none

theorem smallProcess_good : Good (fun a => 0x10000 ≤ a ∧ a < 0x20000) heapRoot smallProcess ∧ Fresh heapRoot smallProcess := by
  have hgood : Good (fun a => 0x10000 ≤ a ∧ a < 0x20000) (fun _ => none) (booted (fewPages 4).phys) :=
    Good.start (fewPages_inv le_rfl) (fun a ha => ha.2.trans (by decide)) fun h => absurd h.1 (by decide)
  obtain ⟨root, hg, hv, hnone, hnext, -, -, hfresh⟩ :=
    hgood.attach (fun _ _ => rfl) (show 0 < maxVmaps by decide) (by decide +kernel) 1
  have hroot : root = heapRoot := by
    funext k
    by_cases hk : k = 0
    · have hcr3 : (smallProcess.vm.vmaps 0).cr3 = 0x10000 := by decide +kernel
      rw [hk, hg.roots 1 0 (by rw [hv]; rfl)]
      exact congrArg some hcr3
    · rw [hnone k (by rw [hnext]; exact Nat.pos_of_ne_zero hk)]
      exact (if_neg hk).symm
  exact hroot ▸ ⟨hg, hfresh nofun⟩

/-! ## The spaces of others -/

section

variable {S : ℕ → Prop} {root : ℕ → Option ℕ} {x : MemSt} {p i : ℕ}

/-- the process that makes a call -/
def Call.proc : Call → ℕ
  | .brk p _ => p
  | .mmap p _ _ _ _ => p
  | .fault p _ _ => p

/-- a call leaves the entries of the other spaces alone -/
theorem step_others (h : Good S root x) {c : Call} (hi : x.vaMap c.proc ≠ some i) {va : ℕ} (hva : User (topIdx va)) :
    pte root (step x c).vm.phys.mem i va = pte root x.vm.phys.mem i va := by
  have hother : ∀ {j prot R m m'}, x.vaMap c.proc = some j → Remaps S User root j prot R m m' →
      pte root m' i va = pte root m i va := by
    intro j prot R m m' hj hr
    exact (hr i va hva).resolve_right fun hk => hi (hk.1 ▸ hj)
  cases c with
  | brk p n =>
    obtain ⟨-, he⟩ | ⟨j, hj, he | ⟨hidle, v, hv, hc⟩⟩ := sysBrk_cases x p n
    · rw [step, he]
    · rw [step, he]
    simp only [idle, not_or, not_lt] at hidle
    obtain ⟨hg, -, hphys⟩ := h.ensureHeap hv
    have hgrow : pte root (growHeap v j x.brk n).2.phys.mem i va = pte root x.vm.phys.mem i va := by
      have hend : pageAlign n ≤ 2 ^ 47 := by
        simp only [pageAlign, u64, pageSize, brkBase, brkLimit] at *
        omega
      rw [← hphys]
      unfold growHeap
      dsimp only
      split_ifs with hlt
      · obtain ⟨-, -, hr, -⟩ := hg.populate (p := p) hj
          (fun k hk => page_lt ((Nat.add_sub_cancel' hlt.le).trans_le hend) hk) protRw rfl
        exact hother hj hr
      · rfl
    obtain ⟨-, -, he⟩ | ⟨-, -, he⟩ | ⟨-, he⟩ := hc
    · rw [step, he]
      exact hgrow
    · rw [step, he]
      exact hgrow
    · rw [step, he, ← hphys]
  | mmap p len prot flags fd =>
    obtain ⟨-, he⟩ | ⟨j, hj, h1, h2, -, hc⟩ := sysMmap_cases x p len prot flags fd
    · rw [step, he]
    obtain ⟨-, he⟩ | ⟨-, v, rfl, he⟩ := hc
    · rw [step, he]
    have hlow : x.mmapBump + mmapBytes len ≤ 2 ^ 47 := (mmap_range h1 h2).trans (by decide)
    obtain ⟨hg, -⟩ := h.add j (mmapRegion x len prot) hlow
    obtain ⟨-, -, hr, -⟩ := hg.populate (p := p) hj (fun k hk => page_lt hlow hk) (kprot prot) rfl
    rw [step, he]
    refine (hother hj hr).trans ?_
    obtain hsame | ⟨-, -, map, -, -, hsame⟩ := ammRegionAdd_cases x.vm j (mmapRegion x len prot) <;> simp only [hsame]
  | fault p cr2 write =>
    obtain he | ⟨j, r, s, hj, -, he, -, hr⟩ := h.pageFault_cases p cr2 write
    · rw [step, he]
    · rw [step, he]
      exact hother hj hr

/-- and so does a run of calls -/
theorem run_others (h : Good S root x) {c : List Call} (hc : ∀ o ∈ c, x.vaMap o.proc ≠ some i) {va : ℕ}
    (hva : User (topIdx va)) : Good S root (run x c) ∧ (run x c).vaMap = x.vaMap ∧
    pte root (run x c).vm.phys.mem i va = pte root x.vm.phys.mem i va := by
  induction c generalizing x with
  | nil => exact ⟨h, rfl, rfl⟩
  | cons o c ih =>
    obtain ⟨ho, hc⟩ := List.forall_mem_cons.1 hc
    obtain ⟨hg, he⟩ := h.step o
    obtain ⟨h1, h2, h3⟩ := ih hg (by rwa [he.vaMap])
    exact ⟨h1, h2.trans he.vaMap, h3.trans (step_others h ho hva)⟩

/-- **Separate spaces.** Whatever the processes with other address spaces do with brk, mmap and page faults, every address of
the lower half of a space leads where it led before. -/
theorem spaces_separate (hx : Good S root x) (hi : x.vaMap p = some i) {c : List Call}
    (hc : ∀ o ∈ c, x.vaMap o.proc ≠ some i) {va : ℕ} (hva : va < 2 ^ 47) :
    ammVirtToKva (run x c).vm.phys.mem ((run x c).vm.vmaps i) va = ammVirtToKva x.vm.phys.mem (x.vm.vmaps i) va := by
  obtain ⟨hg, hv, hp⟩ := run_others hx hc (user_of_lt hva)
  obtain ⟨out, hs, -⟩ := hx.tables
  obtain ⟨out', hs', -⟩ := hg.tables
  have hr := hx.roots p i hi
  have hr' := hg.roots p i (hv ▸ hi)
  unfold ammVirtToKva
  rw [hs.cr3_eq hr, hs'.cr3_eq hr', ← pte_root root hr, ← pte_root root hr', hp]

/-- no user address leads into a page table of any process -/
def TablesApart (root : ℕ → Option ℕ) (x : MemSt) : Prop :=
  ∀ p i va, x.vaMap p = some i → va < 2 ^ 47 → ammVirtToKva x.vm.phys.mem (x.vm.vmaps i) va ≠ 0 →
    ¬ InTable User root x.vm.phys.mem (virtToPhys (ammVirtToKva x.vm.phys.mem (x.vm.vmaps i) va))

/-- **Page tables are out of reach** of user code in every state of every run. -/
theorem tables_out_of_reach (hx : Good S root x) (c : List Call) : TablesApart root (run x c) := by
  intro p i va hi hva hkva
  have hg := hx.run c
  obtain ⟨out, hs, hl⟩ := hg.tables
  have hr := hg.roots p i hi
  apply (hl i va (user_of_lt hva) (hs.kva_backed hr hkva)).data
  rw [hs.kva_phys hr hkva]
  exact ⟨Nat.le_add_right _ _, Nat.add_lt_add_left (Nat.mod_lt va (by decide)) _⟩

end

/-- sixteen free pages and two processes -/
def twoProcesses : MemSt := attach smallProcess 2

theorem twoProcesses_good : ∃ root, Good (fun a => 0x10000 ≤ a ∧ a < 0x20000) root twoProcesses ∧
    twoProcesses.vaMap 1 = some 0 ∧ twoProcesses.vaMap 2 = some 1 := by
  have hnext : smallProcess.vm.vmapNext = 1 := by decide +kernel
  obtain ⟨root, hg, -⟩ := smallProcess_good.1.attach (fun i hi => if_neg (by omega)) (by decide +kernel) (by decide +kernel) 2
  exact ⟨root, hg, by decide +kernel, by decide +kernel⟩

theorem spaces_separate_two : ∃ x, x.vaMap 1 = some 0 ∧ ∀ va < 2 ^ 47,
    let y := run x [.brk 2 (brkBase + 4096), .fault 2 brkBase true]
    ammVirtToKva y.vm.phys.mem (y.vm.vmaps 0) va = ammVirtToKva x.vm.phys.mem (x.vm.vmaps 0) va := by
  obtain ⟨root, hg, h1, h2⟩ := twoProcesses_good
  exact ⟨_, h1, fun va hva => spaces_separate hg h1 (by simp [Call.proc, h2]) hva⟩

theorem tables_out_of_reach_two : ∃ root x, x.vaMap 2 = some 1 ∧ TablesApart root (run x [.brk 2 (brkBase + 4096)]) := by
  obtain ⟨root, hg, -, h2⟩ := twoProcesses_good
  exact ⟨root, _, h2, tables_out_of_reach hg _⟩

end OpenASD.Arch
