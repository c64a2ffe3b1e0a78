/-
Page tables of the kernel (kernel/mm/mm.c: pt_walk_alloc, map_page, amm_kernel_pml4_init).
This module is the model only. Tables live in physical memory: entry i of the table at physical address t is the 8-byte
word at t + 8 i. Both settings of `phys_to_virt` (the firmware's identity map before the switch of CR3, PHYS_MAP_BASE
after it) reach the same physical bytes, so the model reads and writes physical memory throughout.

`mm_halt` is `none`. The two loops of amm_kernel_pml4_init that map 2 MiB pages have one body, `mapHuge`.
-/
import OpenASD.Core.Loop
import OpenASD.Mm.Phys

namespace OpenASD.Mm

open ByteMem Loop

abbrev ptePresent : ℕ := 1
abbrev pteWrite : ℕ := 2
abbrev pteUser : ℕ := 4
/-- bit 7 of a page-directory entry: it maps 2 MiB -/
abbrev ptePs : ℕ := 128
abbrev pteNx : ℕ := 2 ^ 63
abbrev pteAddrMask : ℕ := 0x000FFFFFFFFFF000

abbrev pageInfoBase : ℕ := 0xFFFF880000000000
/-- AMM_IDENTITY_LIMIT, 4 GiB -/
abbrev identityLimit : ℕ := 4 * 1024 * 1024 * 1024
/-- 2 MiB -/
abbrev hugeSize : ℕ := 2 <<< 20

def pml4Idx (v : ℕ) : ℕ := v / 2 ^ 39 % 512
def pdptIdx (v : ℕ) : ℕ := v / 2 ^ 30 % 512
def pdIdx (v : ℕ) : ℕ := v / 2 ^ 21 % 512
def ptIdx (v : ℕ) : ℕ := v / 2 ^ 12 % 512

/-- entry i of the table at t -/
def entry (m : Mem) (t i : ℕ) : ℕ := read m (t + 8 * i) 8

def setEntry (s : St) (t i e : ℕ) : St := s.setMem (write s.mem (t + 8 * i) 8 e)

/-- `k_memset(phys_to_virt(p), 0, PAGE_SIZE)` -/
def clearPage (s : St) (p : ℕ) : St := s.setMem (fill s.mem p pageSize 0)

/-- the entry for a table at n -/
abbrev tableEntry (n : ℕ) : ℕ := n ||| ptePresent ||| pteWrite ||| pteUser

/-- one level of a walk: the table below entry i of t, made on the way if the entry is not present; `none` when no page
is left for it -/
def nextTable (s : St) (t i : ℕ) : Option ℕ × St :=
  if entry s.mem t i &&& ptePresent = 0 then
    let r := ammPhysAlloc s 0
    if r.1 = 0 then (none, r.2)
    else
      let s := setEntry (clearPage r.2 r.1) t i (tableEntry r.1)
      (some (entry s.mem t i &&& pteAddrMask), s)
  else (some (entry s.mem t i &&& pteAddrMask), s)

/-- the table and index of the last-level entry for va -/
def ptWalkAlloc (s : St) (cr3 va : ℕ) : Option (ℕ × ℕ) × St :=
  match nextTable s (cr3 &&& pteAddrMask) (pml4Idx va) with
  | (none, s) => (none, s)
  | (some pdpt, s) =>
    match nextTable s pdpt (pdptIdx va) with
    | (none, s) => (none, s)
    | (some pd, s) =>
      match nextTable s pd (pdIdx va) with
      | (none, s) => (none, s)
      | (some pt, s) => (some (pt, ptIdx va), s)

/-- a walk ends at the first level that has no page left, or with the last-level table -/
theorem ptWalkAlloc_cases (s : St) (cr3 va : ℕ) :
    (∃ s1, nextTable s (cr3 &&& pteAddrMask) (pml4Idx va) = (none, s1) ∧ ptWalkAlloc s cr3 va = (none, s1)) ∨
    ∃ pdpt s1, nextTable s (cr3 &&& pteAddrMask) (pml4Idx va) = (some pdpt, s1) ∧
      ((∃ s2, nextTable s1 pdpt (pdptIdx va) = (none, s2) ∧ ptWalkAlloc s cr3 va = (none, s2)) ∨
      ∃ pd s2, nextTable s1 pdpt (pdptIdx va) = (some pd, s2) ∧
        ((∃ s3, nextTable s2 pd (pdIdx va) = (none, s3) ∧ ptWalkAlloc s cr3 va = (none, s3)) ∨
        ∃ pt s3, nextTable s2 pd (pdIdx va) = (some pt, s3) ∧ ptWalkAlloc s cr3 va = (some (pt, ptIdx va), s3))) := by
  rcases h1 : nextTable s (cr3 &&& pteAddrMask) (pml4Idx va) with ⟨_ | pdpt, s1⟩
  · exact Or.inl ⟨s1, rfl, by simp only [ptWalkAlloc, h1]⟩
  refine Or.inr ⟨pdpt, s1, rfl, ?_⟩
  rcases h2 : nextTable s1 pdpt (pdptIdx va) with ⟨_ | pd, s2⟩
  · exact Or.inl ⟨s2, rfl, by simp only [ptWalkAlloc, h1, h2]⟩
  refine Or.inr ⟨pd, s2, rfl, ?_⟩
  rcases h3 : nextTable s2 pd (pdIdx va) with ⟨_ | pt, s3⟩
  · exact Or.inl ⟨s3, rfl, by simp only [ptWalkAlloc, h1, h2, h3]⟩
  · exact Or.inr ⟨pt, s3, rfl, by simp only [ptWalkAlloc, h1, h2, h3]⟩

/-- PROT_* bits -/
structure Prot where
  read : Bool
  write : Bool
  exec : Bool
deriving DecidableEq, Repr

def pteFlags (prot : Prot) : ℕ :=
  ptePresent ||| pteUser ||| (if prot.write then pteWrite else 0) ||| (if prot.exec then 0 else pteNx)

/-- out of memory on the way is silent -/
def mapPage (s : St) (cr3 va pa : ℕ) (prot : Prot) : St :=
  match ptWalkAlloc s cr3 va with
  | (none, s) => s
  | (some (pt, i), s) => setEntry s pt i ((pa &&& pteAddrMask) ||| pteFlags prot)

/-- the body of Map 1 and Map 3: the 2 MiB page at va maps pa -/
def mapHuge (s : St) (va pa : ℕ) : Option St :=
  match nextTable s s.kernelCr3 (pml4Idx va) with
  | (none, _) => none
  | (some pdpt, s) =>
    match nextTable s pdpt (pdptIdx va) with
    | (none, _) => none
    | (some pd, s) => some (setEntry s pd (pdIdx va) (pa ||| ptePresent ||| pteWrite ||| pteUser ||| ptePs))

theorem mapHuge_some {s s' : St} {va pa : ℕ} (h : mapHuge s va pa = some s') :
    ∃ pdpt s1 pd s2, nextTable s s.kernelCr3 (pml4Idx va) = (some pdpt, s1) ∧
      nextTable s1 pdpt (pdptIdx va) = (some pd, s2) ∧
      s' = setEntry s2 pd (pdIdx va) (pa ||| ptePresent ||| pteWrite ||| pteUser ||| ptePs) := by
  unfold mapHuge at h
  rcases h1 : nextTable s s.kernelCr3 (pml4Idx va) with ⟨_ | pdpt, s1⟩
  · rw [h1] at h
    cases h
  rw [h1] at h
  simp only at h
  rcases h2 : nextTable s1 pdpt (pdptIdx va) with ⟨_ | pd, s2⟩
  · rw [h2] at h
    cases h
  · rw [h2] at h
    exact ⟨pdpt, s1, pd, s2, rfl, h2, (Option.some.inj h).symm⟩

/-- the body of Map 2: page i of the page_info array -/
def mapInfoPage (s : St) (i : ℕ) : Option St :=
  let r := ammPhysAlloc s 0
  if r.1 = 0 then none
  else some (mapPage (clearPage r.2 r.1) s.kernelCr3 (u64 (pageInfoBase + i * pageSize)) r.1 ⟨true, true, false⟩)

/-- pages of the page_info array; one entry has 8 bytes -/
def infoPages (physTop : ℕ) : ℕ := ((physTop / pageSize + 1) * 8 + pageSize - 1) / pageSize

/-- the end of Map 3 -/
def mapTop (physTop : ℕ) : ℕ := if physTop = 0 then identityLimit else physTop

/-- rounds of a loop over [0, n) in steps of 2 MiB -/
def hugeRounds (n : ℕ) : ℕ := (n + hugeSize - 1) / hugeSize

/-- the cleared page p becomes the kernel's top table -/
def setCr3 (s : St) (p : ℕ) : St := { s with mem := fill s.mem p pageSize 0, kernelCr3 := p }

def ammKernelPml4Init (s : St) : Option St :=
  let r := ammPhysAlloc s 0
  if r.1 = 0 then none
  else do
    let s ← upTo (fun i s => mapHuge s (i * hugeSize) (i * hugeSize)) (hugeRounds identityLimit) (setCr3 r.2 r.1)
    let s ← upTo (fun i s => mapInfoPage s i) (infoPages s.physTop) s
    let s ← upTo (fun i s => mapHuge s (u64 (physMapBase + i * hugeSize)) (i * hugeSize))
      (hugeRounds (mapTop s.physTop)) s
    -- from here on the array of page_info is in use; its pages were cleared above
    some { s with earlyBoot := false, info := fun _ => ⟨0, 0, 0⟩, infoLen := 512 * infoPages s.physTop }

/-- the boot order of the kernel, from power-on memory; `none` when it halts -/
def boot (mem : Mem) (mmap : List MmapEntry) : Option St :=
  (ammKernelPml4Init (ammEarlyPhysScan (St.start mem) mmap)).map fun s => ammPhysInit s mmap

end OpenASD.Mm
