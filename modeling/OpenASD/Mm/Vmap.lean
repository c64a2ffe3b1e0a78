/-
Address spaces of processes (kernel/mm/mm.c: amm_vmap_create, amm_vmap_destroy, amm_region_add, amm_region_remove,
amm_region_find, amm_page_fault, amm_region_populate, amm_virt_to_kva).

A pointer to a vmap is its index in `g_vmap_pool`. The region list of a vmap is the Lean list of its regions, head first;
`g_region_pool` only counts: a descriptor is taken by every region_alloc and none is ever given back.

`cycle` is one life of a vmap: create it, work with it, destroy it. `not_repeats`: no kernel state lets such lives follow
one another for ever with the free pages restored. `life_loses_tables` is one life after which three pages are missing.
-/
import OpenASD.Mm.Tables

namespace OpenASD.Mm

open ByteMem
open Function (update update_of_ne)

/-! ## Regions -/

/-- `RGN_*` -/
inductive Kind where
  | code | stack | heap | file | shared
deriving DecidableEq, Repr

/-- `vregion_t` -/
structure Region where
  base : ℕ
  size : ℕ
  prot : Prot
  kind : Kind
  fd : ℤ
deriving DecidableEq, Repr

/-- the end of a region, as the source computes it -/
def Region.lim (r : Region) : ℕ := u64 (r.base + r.size)

/-- `vmap_t` -/
structure Vmap where
  cr3 : ℕ
  regions : List Region
  regionCount : ℕ
deriving DecidableEq, Repr

/-- the loop of `amm_region_overlaps` for [base, lim) -/
def overlapsFrom (base lim : ℕ) : List Region → Bool
  | [] => false
  | r :: rest =>
    if r.lim ≤ r.base then true
    else if base < r.lim ∧ r.base < lim then true
    else if lim ≤ r.base then false
    else overlapsFrom base lim rest

def ammRegionOverlaps (map : Vmap) (base size : ℕ) : Bool :=
  if size = 0 then false
  else
    let lim := u64 (base + size)
    if lim ≤ base then true else overlapsFrom base lim map.regions

/-- the insertion loop of `amm_region_add`, from a region that stays in front -/
def insertAfter (nr : Region) : Region → List Region → List Region
  | cur, [] => [cur, nr]
  | cur, next :: rest => if next.base < nr.base then cur :: insertAfter nr next rest else cur :: nr :: next :: rest

/-- insert sorted by base address -/
def insertSorted (nr : Region) : List Region → List Region
  | [] => [nr]
  | head :: rest => if nr.base < head.base then nr :: head :: rest else insertAfter nr head rest

/-- the first region with this base is unlinked -/
def unlinkBase (base : ℕ) : List Region → Option (List Region)
  | [] => none
  | r :: rest => if r.base = base then some rest else (unlinkBase base rest).map (r :: ·)

def ammRegionRemove (map : Vmap) (base : ℕ) : ℤ × Vmap :=
  match unlinkBase base map.regions with
  | none => (-1, map)
  | some l => (0, { map with regions := l, regionCount := (map.regionCount + 2 ^ 32 - 1) % 2 ^ 32 })

def regionFind (addr : ℕ) : List Region → Option Region
  | [] => none
  | r :: rest =>
    if r.base ≤ addr ∧ addr < r.lim then some r
    else if addr < r.base then none
    else regionFind addr rest

def ammRegionFind (map : Vmap) (addr : ℕ) : Option Region := regionFind addr map.regions

variable {l : List Region} {r : Region} {v v' : VmSt}

theorem regionFind_some {addr : ℕ} (h : regionFind addr l = some r) : r ∈ l ∧ r.base ≤ addr ∧ addr < r.lim := by
  induction l with
  | nil => cases h
  | cons q l ih =>
    rw [regionFind] at h
    split_ifs at h with h1 h2
    · cases h
      exact ⟨List.mem_cons_self, h1⟩
    · exact ⟨List.mem_cons_of_mem q (ih h).1, (ih h).2⟩

theorem insertAfter_perm (nr cur : Region) (l : List Region) : (insertAfter nr cur l).Perm (nr :: cur :: l) := by
  induction l generalizing cur with
  | nil => exact .swap ..
  | cons q l ih =>
    rw [insertAfter]
    split_ifs
    · exact ((ih q).cons cur).trans (.swap ..)
    · exact .swap ..

theorem insertSorted_perm (nr : Region) (l : List Region) : (insertSorted nr l).Perm (nr :: l) := by
  cases l with
  | nil => exact .refl _
  | cons q l =>
    rw [insertSorted]
    split_ifs
    · exact .refl _
    · exact insertAfter_perm nr q l

theorem mem_insertSorted {nr : Region} : r ∈ insertSorted nr l ↔ r = nr ∨ r ∈ l :=
  (insertSorted_perm nr l).mem_iff.trans List.mem_cons

/-! ## Pages of an address space -/

/-- NULL is 0 -/
def ammVirtToKva (m : Mem) (map : Vmap) (va : ℕ) : ℕ :=
  let e := ptLookup m (map.cr3 &&& pteAddrMask) va
  if e &&& ptePresent = 0 then 0 else u64 (physMapBase + ((e &&& pteAddrMask) ||| va % pageSize))

/-- the loop of `amm_region_populate`, n pages from va; false when no page is left -/
def populateFrom (s : St) (map : Vmap) (prot : Prot) : ℕ → ℕ → Bool × St
  | _, 0 => (true, s)
  | va, n + 1 =>
    if ammVirtToKva s.mem map va ≠ 0 then populateFrom s map prot (va + pageSize) n
    else
      let r := ammPhysAlloc s 0
      if r.1 = 0 then (false, r.2)
      else populateFrom (mapPage (clearPage r.2 r.1) map.cr3 va r.1 prot) map prot (va + pageSize) n

def ammRegionPopulate (s : St) (map : Vmap) (base size : ℕ) (prot : Prot) : ℕ × St :=
  let alignedBase := pageAlignDown base
  let alignedEnd := pageAlign (u64 (base + size))
  if size = 0 ∨ alignedEnd ≤ alignedBase then (0, s)
  else
    match populateFrom s map prot alignedBase ((alignedEnd - alignedBase) / pageSize) with
    | (false, s) => (0, s)
    | (true, s) => (ammVirtToKva s.mem map base, s)

def ammPageFault (s : St) (map : Vmap) (faultAddr : ℕ) (write : Bool) : ℤ × St :=
  match ammRegionFind map faultAddr with
  | none => (-1, s)
  | some r =>
    if write && !r.prot.write then (-1, s)
    else
      let p := ammPhysAlloc s 0
      if p.1 = 0 then (-1, p.2)
      else (0, mapPage (clearPage p.2 p.1) map.cr3 (pageAlignDown faultAddr) p.1 r.prot)

/-! ## The pools -/

abbrev maxVmaps : ℕ := 4096
abbrev maxRegions : ℕ := 1024 * 16

structure VmSt where
  phys : St
  /-- `g_vmap_pool` -/
  vmaps : ℕ → Vmap
  vmapNext : ℕ
  regionNext : ℕ

/-- `for (i = 256; i < 512; i++) new_pml4[i] = kernel_pml4[i]`: the upper halves of two different pages -/
def copyUpper (m : Mem) (new kernel : ℕ) : Mem :=
  fun x => if new + 8 * 256 ≤ x ∧ x < new + 8 * 512 then m (kernel + (x - new)) else m x

def ammVmapCreate (v : VmSt) : Option ℕ × VmSt :=
  if maxVmaps ≤ v.vmapNext then (none, v)
  else
    let i := v.vmapNext
    let r := ammPhysAlloc v.phys 0
    if r.1 = 0 then
      (none, { v with phys := r.2, vmaps := update v.vmaps i ⟨0, [], 0⟩, vmapNext := i + 1 })
    else
      let s := clearPage r.2 r.1
      (some i, { v with
        phys := s.setMem (copyUpper s.mem r.1 s.kernelCr3)
        vmaps := update v.vmaps i ⟨r.1, [], 0⟩
        vmapNext := i + 1 })

/-- `region_alloc` succeeds while the pool lasts -/
def ammRegionAdd (v : VmSt) (i : ℕ) (nr : Region) : ℤ × VmSt :=
  let map := v.vmaps i
  if nr.size = 0 ∨ ammRegionOverlaps map nr.base nr.size ∨ maxRegions ≤ v.regionNext then (-1, v)
  else
    (0, { v with
      vmaps := update v.vmaps i
        { map with regions := insertSorted nr map.regions, regionCount := (map.regionCount + 1) % 2 ^ 32 }
      regionNext := v.regionNext + 1 })

/-- amm_region_add changes one region list and the count of descriptors, or nothing -/
theorem ammRegionAdd_cases (v : VmSt) (i : ℕ) (nr : Region) :
    ammRegionAdd v i nr = (-1, v) ∨ ammRegionOverlaps (v.vmaps i) nr.base nr.size = false ∧ nr.size ≠ 0 ∧
      ∃ map : Vmap, map.cr3 = (v.vmaps i).cr3 ∧ map.regions = insertSorted nr (v.vmaps i).regions ∧
      ammRegionAdd v i nr = (0, { v with vmaps := update v.vmaps i map, regionNext := v.regionNext + 1 }) := by
  unfold ammRegionAdd
  dsimp only
  split_ifs with h
  · exact Or.inl rfl
  simp only [not_or, Bool.not_eq_true] at h
  exact Or.inr ⟨h.2.1, h.1, { v.vmaps i with
    regions := insertSorted nr (v.vmaps i).regions, regionCount := ((v.vmaps i).regionCount + 1) % 2 ^ 32 },
    rfl, rfl, rfl⟩

/-- rounds of a loop over [base, base + size) in steps of a page. When the last step leaves 64 bits the loop variable
starts again below base and the loop never ends. -/
def pageRounds (base size : ℕ) : Option ℕ :=
  let n := (size + pageSize - 1) / pageSize
  if base + n * pageSize < 2 ^ 64 then some n else none

/-- free the pages behind n pages of addresses from va -/
def freeLeaves (s : St) (cr3 : ℕ) : ℕ → ℕ → St
  | _, 0 => s
  | va, n + 1 =>
    let e := ptLookup s.mem cr3 va
    freeLeaves (if e &&& ptePresent = 0 then s else ammPhysFree s (e &&& pteAddrMask) 0) cr3 (va + pageSize) n

def freeRegions (s : St) (cr3 : ℕ) : List Region → Option St
  | [] => some s
  | r :: rest => (pageRounds r.base r.size).bind fun n => freeRegions (freeLeaves s cr3 r.base n) cr3 rest

/-- `none` when it does not return -/
def ammVmapDestroy (v : VmSt) (i : ℕ) : Option VmSt :=
  let map := v.vmaps i
  (freeRegions v.phys map.cr3 map.regions).map fun s =>
    { v with
      phys := ammPhysFree s (map.cr3 &&& pteAddrMask) 0
      vmaps := update v.vmaps i { map with regions := [], regionCount := 0 } }

/-! ## Lives of a vmap -/

inductive VmOp where
  | add (nr : Region)
  | populate (base size : ℕ) (prot : Prot)
  | fault (addr : ℕ) (write : Bool)
deriving DecidableEq, Repr

def vmStep (v : VmSt) (i : ℕ) : VmOp → VmSt
  | .add nr => (ammRegionAdd v i nr).2
  | .populate base size prot => { v with phys := (ammRegionPopulate v.phys (v.vmaps i) base size prot).2 }
  | .fault addr write => { v with phys := (ammPageFault v.phys (v.vmaps i) addr write).2 }

/-- an amm_region_add that fails for lack of a descriptor only -/
def lacksRegion (v : VmSt) (i : ℕ) : VmOp → Bool
  | .add nr => decide (nr.size ≠ 0 ∧ ammRegionOverlaps (v.vmaps i) nr.base nr.size = false ∧ maxRegions ≤ v.regionNext)
  | _ => false

/-- work with the vmap i; `none` when a descriptor is lacking -/
def work (i : ℕ) : VmSt → List VmOp → Option VmSt
  | v, [] => some v
  | v, op :: ops => if lacksRegion v i op then none else work i (vmStep v i op) ops

/-- create, work, destroy; `none` when a descriptor is lacking or the teardown does not return. Without memory for the
top table there is no vmap to work with. -/
def cycle (v : VmSt) (ops : List VmOp) : Option VmSt :=
  if maxVmaps ≤ v.vmapNext then none
  else
    match ammVmapCreate v with
    | (none, v) => some v
    | (some i, v) => (work i v ops).bind fun v => ammVmapDestroy v i

/-- n lives, one after the other -/
def cycles (ops : ℕ → List VmOp) (v : VmSt) : ℕ → Option VmSt
  | 0 => some v
  | n + 1 => (cycles ops v n).bind fun v => cycle v (ops n)

/-- any number of lives: no descriptor is lacking and the free pages come back -/
def Repeats (v : VmSt) (ops : ℕ → List VmOp) : Prop :=
  ∀ n, ∃ v', cycles ops v n = some v' ∧ v'.phys.freePages = v.phys.freePages

theorem ammRegionAdd_next (v : VmSt) (i : ℕ) (nr : Region) : (ammRegionAdd v i nr).2.vmapNext = v.vmapNext := by
  unfold ammRegionAdd
  simp only
  split_ifs <;> rfl

theorem vmStep_next (v : VmSt) (i : ℕ) (op : VmOp) : (vmStep v i op).vmapNext = v.vmapNext := by
  cases op with
  | add nr => exact ammRegionAdd_next v i nr
  | populate base size prot | fault addr write => rfl

theorem work_next {i : ℕ} {ops : List VmOp} (h : work i v ops = some v') : v'.vmapNext = v.vmapNext := by
  induction ops generalizing v with
  | nil => rw [← Option.some.inj h]
  | cons op ops ih =>
    rw [work] at h
    split_ifs at h
    rw [ih h, vmStep_next]

theorem ammVmapCreate_next (h : v.vmapNext < maxVmaps) : (ammVmapCreate v).2.vmapNext = v.vmapNext + 1 := by
  unfold ammVmapCreate
  rw [if_neg (by omega)]
  simp only
  split_ifs <;> rfl

/-- other slots of the pool stay as they are -/
theorem ammVmapCreate_vmaps (v : VmSt) (j : ℕ) (hj : j ≠ v.vmapNext) : (ammVmapCreate v).2.vmaps j = v.vmaps j := by
  unfold ammVmapCreate
  dsimp only
  split_ifs
  · rfl
  · exact update_of_ne hj _ _
  · exact update_of_ne hj _ _

/-- a life uses up a slot of the pool for good -/
theorem cycle_next {ops : List VmOp} (h : cycle v ops = some v') : v.vmapNext < maxVmaps ∧ v'.vmapNext = v.vmapNext + 1 := by
  unfold cycle at h
  split_ifs at h with hfull
  have hlt : v.vmapNext < maxVmaps := by omega
  have hnext := ammVmapCreate_next hlt
  refine ⟨hlt, ?_⟩
  rcases hc : ammVmapCreate v with ⟨_ | i, v1⟩
  · rw [hc] at h hnext
    rw [← Option.some.inj h]
    exact hnext
  rw [hc] at h hnext
  obtain ⟨v2, hw, hd⟩ := Option.bind_eq_some_iff.1 h
  obtain ⟨s, -, rfl⟩ := Option.map_eq_some_iff.1 hd
  exact (work_next hw).trans hnext

theorem cycles_next {ops : ℕ → List VmOp} {n : ℕ} (h : cycles ops v n = some v') : v'.vmapNext = v.vmapNext + n := by
  induction n generalizing v' with
  | zero => rw [← Option.some.inj h, add_zero]
  | succ n ih =>
    obtain ⟨v1, h1, h2⟩ := Option.bind_eq_some_iff.1 h
    rw [(cycle_next h2).2, ih h1, add_assoc]

/-- **No state repeats.** After at most 4096 lives the next vmap cannot be created. -/
theorem not_repeats (v : VmSt) (ops : ℕ → List VmOp) : ¬ Repeats v ops := by
  intro h
  obtain ⟨v', h', -⟩ := h (maxVmaps + 1)
  obtain ⟨v1, h1, h2⟩ := Option.bind_eq_some_iff.1 h'
  have hlt := (cycle_next h2).1
  rw [cycles_next h1] at hlt
  exact absurd hlt (Nat.not_lt.2 (Nat.le_add_left _ _))

/-- a kernel with 2 ^ n free pages at 0x10000, its own top table at 0x1000 and nothing mapped -/
def fewPages (n : ℕ) : VmSt where
  phys :=
    { St.start (fun _ => 0) with
      earlyBoot := false
      lists := fun o => if o = n then [0x10000] else []
      freePages := 2 ^ n
      totalPages := 2 ^ n
      physBase := 0x10000
      physTop := 0x10000 + 2 ^ n * pageSize
      info := fun p => if p = 16 then ⟨pageFree, n, 0⟩ else ⟨0, 0, 0⟩
      infoLen := 512
      kernelCr3 := 0x1000 }
  vmaps := fun _ => ⟨0, [], 0⟩
  vmapNext := 0
  regionNext := 0

abbrev eightPages : VmSt := fewPages 3

theorem fewPages_inv {n : ℕ} (hn : n ≤ 4) :
    Inv (fun x => 0x10000 ≤ x ∧ x < 0x10000 + 2 ^ n * pageSize) [] (fewPages n).phys [] := by
  have hfree : freeBlocks (fewPages n).phys.lists = [blk n 0x10000] := by interval_cases n <;> rfl
  have hhas : ∀ x, (blk n 0x10000).has x = true ↔ 0x10000 ≤ x ∧ x < 0x10000 + 2 ^ n * pageSize := by
    interval_cases n <;> exact Dyadic.has_iff _
  have hown : (fewPages n).phys.lists n = [0x10000] := if_pos rfl
  have hlists : ∀ o, o ≠ n → (fewPages n).phys.lists o = [] := fun o ho => if_neg ho
  have hinfo : ∀ p, p ≠ 16 → (fewPages n).phys.info p = ⟨0, 0, 0⟩ := fun p hp => if_neg hp
  have hpos : 0 < 2 ^ n := Nat.two_pow_pos n
  have hpow : 2 ^ n ≤ 2 ^ 4 := Nat.pow_le_pow_right (by decide) hn
  refine ⟨rfl, ?_, fun o _ p hp => ?_, fun b hb => ?_, fun b hb => ?_, fun x hx => ?_, fun p => ?_, fun o _ => ?_, ?_, ?_, rfl⟩
  · rw [hfree]
    refine ⟨fun b hb => ?_, fun x hx => ?_, fun x hx => ?_⟩
    · rw [List.mem_singleton.1 hb]
      interval_cases n <;> decide
    · simp [outBlocks, (hhas x).2 hx]
    · have hno : (blk n 0x10000).has x = false := Bool.eq_false_iff.2 fun h => hx ((hhas x).1 h)
      simp [outBlocks, hno]
  · by_cases ho : o = n
    · subst ho
      rw [hown, List.mem_singleton] at hp
      subst hp
      exact ⟨rfl, rfl⟩
    · rw [hlists o ho] at hp
      cases hp
  · cases hb
  · cases hb
  · rw [hinfo]
    simp only [pageSize] at hx ⊢
    omega
  · by_cases hp : p = 16
    · subst hp
      interval_cases n <;> decide
    · rw [hinfo p hp]
      exact one_dvd p
  · by_cases ho : o = n
    · subst ho
      rw [hown]
      exact ⟨rfl, trivial⟩
    · rw [hlists o ho]
      trivial
  · interval_cases n <;> rfl
  · intro x hx
    show x / pageSize + 1 < 512
    simp only [pageSize] at hx ⊢
    omega

/-- one page of heap, added and populated -/
def onePage : List VmOp :=
  [.add ⟨0x400000, 4096, ⟨true, true, false⟩, .heap, -1⟩, .populate 0x400000 4096 ⟨true, true, false⟩]

/-- five pages are taken, for the top table, the page and the three tables between them; two come back -/
theorem life_loses_tables : eightPages.phys.freePages = 8 ∧
    ((cycle eightPages onePage).map fun v => v.phys.freePages) = some 5 ∧ ¬ Repeats eightPages fun _ => onePage := by
  have hlife : ((cycle eightPages onePage).map fun v => v.phys.freePages) = some 5 := by decide +kernel
  refine ⟨rfl, hlife, fun h => ?_⟩
  obtain ⟨v, hv, hfree⟩ := h 1
  have hone : cycle eightPages onePage = some v := hv
  rw [hone, Option.map_some, hfree] at hlife
  exact absurd hlife (by decide)

end OpenASD.Mm
