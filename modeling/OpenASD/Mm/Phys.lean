/-
Physical pages of the kernel (kernel/mm/mm.c): the boot-time bump pool, the buddy free lists and the page_info tags.
This module is the model only; `Mm.Buddy` proves the allocator's invariant and `Mm.Boot` connects it to a whole boot.

Addresses are physical and numbers are the C values, so every sum or difference that could leave 64 bits is cut by
`u64`. One free list of the source is the Lean list of the blocks on it, head first; the link words that the source
keeps in the first 8 bytes of a free block are written to memory as well (`Mm.Buddy` shows that they spell out the
lists). The array of `page_info_t` is `info`, indexed
by page frame number. `infoLen` is the number of entries that are mapped: touching an entry past it would be a page
fault, which sets `trap`.
-/
import OpenASD.Core.ByteMem

namespace OpenASD.Mm

open ByteMem
open Function (update)

def u64 (n : ℕ) : ℕ := n % 2 ^ 64

abbrev pageSize : ℕ := 4096
abbrev maxOrder : ℕ := 18
/-- 64 MiB reservation -/
abbrev bumpSize : ℕ := 64 * 1024 * 1024
abbrev physMapBase : ℕ := 0xFFFFC80000000000

def pageAlign (x : ℕ) : ℕ := u64 (x + pageSize - 1) / pageSize * pageSize
def pageAlignDown (x : ℕ) : ℕ := x / pageSize * pageSize

/-! ## The boot memory map -/

/-- `ASD_MEM_*` -/
inductive MemType where
  | free | reserved | acpiRec | acpiNvs | loader | kernel | initrd | fb
deriving DecidableEq, Repr

/-- `asd_mmap_entry_t` -/
structure MmapEntry where
  base : ℕ
  pages : ℕ
  type : MemType
deriving DecidableEq, Repr

/-- `m->base + m->pages * PAGE_SIZE`, rounded down to a page -/
def MmapEntry.lim (m : MmapEntry) : ℕ := pageAlignDown (u64 (m.base + m.pages * pageSize))

/-! ## State -/

abbrev pageFree : ℕ := 1
abbrev pageAlloc : ℕ := 2

/-- the fields of `page_info_t` that the allocator uses -/
structure PageInfo where
  flags : ℕ
  order : ℕ
  refcount : ℕ
deriving DecidableEq, Repr

structure St where
  /-- physical memory -/
  mem : Mem
  earlyBoot : Bool
  bumpBase : ℕ
  bumpCur : ℕ
  bumpEnd : ℕ
  /-- `g_phys.lists`: the free blocks of each order -/
  lists : ℕ → List ℕ
  freePages : ℕ
  totalPages : ℕ
  physBase : ℕ
  physTop : ℕ
  info : ℕ → PageInfo
  infoLen : ℕ
  kernelCr3 : ℕ
  /-- a `page_info_t` outside the mapped array was touched -/
  trap : Bool

/-- the globals before the kernel runs; memory holds whatever the firmware left -/
def St.start (mem : Mem) : St :=
  { mem, earlyBoot := true, bumpBase := 0, bumpCur := 0, bumpEnd := 0, lists := fun _ => [], freePages := 0,
    totalPages := 0, physBase := 0, physTop := 0, info := fun _ => ⟨0, 0, 0⟩, infoLen := 0, kernelCr3 := 0,
    trap := false }

variable (s : St)

/-- other memory contents, all else as it is -/
def St.setMem (m : Mem) : St := { s with mem := m }

/-! ## The bump pool -/

/-- first loop of `bump_init`: the first free region with BUMP_SIZE bytes above 1 MiB -/
def bumpFirst : List MmapEntry → Option ℕ
  | [] => none
  | m :: ms =>
    if m.type ≠ .free then bumpFirst ms else
      let base := if pageAlign m.base < 0x100000 then 0x100000 else pageAlign m.base
      if m.lim ≤ base ∨ m.lim - base < bumpSize then bumpFirst ms else some base

/-- second loop of `bump_init`: the largest free region, as (base, end) -/
def bumpLargest : List MmapEntry → ℕ × ℕ → ℕ × ℕ
  | [], r => r
  | m :: ms, r =>
    if m.type ≠ .free then bumpLargest ms r else
      if pageAlign m.base < m.lim ∧ r.2 - r.1 < m.lim - pageAlign m.base then
        bumpLargest ms (pageAlign m.base, m.lim)
      else bumpLargest ms r

def bumpInit (mmap : List MmapEntry) : St :=
  match bumpFirst mmap with
  | some base => { s with bumpBase := base, bumpCur := base, bumpEnd := base + bumpSize }
  | none =>
    let r := bumpLargest mmap (s.bumpBase, s.bumpEnd)
    if r = (s.bumpBase, s.bumpEnd) then s else { s with bumpBase := r.1, bumpCur := r.1, bumpEnd := r.2 }

def bumpAlloc (order : ℕ) : ℕ × St :=
  let size := u64 (pageSize <<< order)
  let aligned := u64 (s.bumpCur + size + (2 ^ 64 - 1)) / size * size
  if s.bumpEnd < u64 (aligned + size) then (0, s)
  else (aligned, { s with bumpCur := u64 (aligned + size), mem := fill s.mem aligned size 0 })

/-! ## Free blocks -/

/-- one access to `page_info(paddr)` -/
def touch (paddr : ℕ) : St := { s with trap := s.trap || decide (s.infoLen ≤ paddr / pageSize) }

/-- change the `page_info_t` of a page -/
def tagPage (paddr : ℕ) (f : PageInfo → PageInfo) : St :=
  { touch s paddr with info := update s.info (paddr / pageSize) (f (s.info (paddr / pageSize))) }

/-- the pointer to the first block of a list, 0 at its end -/
def link : List ℕ → ℕ
  | [] => 0
  | p :: _ => u64 (physMapBase + p)

def physFreeBlock (paddr order : ℕ) : St :=
  tagPage
    { s with
      mem := write s.mem paddr 8 (link (s.lists order))
      lists := update s.lists order (paddr :: s.lists order)
      freePages := u64 (s.freePages + 2 ^ order) }
    paddr fun i => { i with flags := pageFree, order := order % 256 }

/-- the inner loop of `phys_free_range`: the largest order that fits at page i and is naturally aligned there -/
def fitOrder (base pages i : ℕ) : ℕ → ℕ
  | 0 => 0
  | o + 1 =>
    if pages < i + 2 ^ (o + 1) then fitOrder base pages i o
    else if (base + i * pageSize) % (2 ^ (o + 1) * pageSize) ≠ 0 then fitOrder base pages i o
    else o + 1

def physFreeRange (s : St) (base pages i : ℕ) : St :=
  if i < pages then
    let order := fitOrder base pages i maxOrder
    physFreeRange (physFreeBlock s (base + i * pageSize) order) base pages (i + 2 ^ order)
  else s
termination_by pages - i
decreasing_by
  have := Nat.two_pow_pos (fitOrder base pages i maxOrder)
  omega

/-- `phys_free_range(base, pg); g_phys.total_pages += pg` -/
def freeCounted (base pg : ℕ) : St :=
  let s := physFreeRange s base pg 0
  { s with totalPages := u64 (s.totalPages + pg) }

/-- the body of the loop of `amm_phys_init`; the bump pool is left out -/
def physInitEntry (m : MmapEntry) : St :=
  let base := pageAlign m.base
  if m.type ≠ .free ∨ m.lim ≤ base then s else
    let s := { s with
      physBase := if base < s.physBase then base else s.physBase
      physTop := if s.physTop < m.lim then m.lim else s.physTop }
    if s.bumpBase ≠ 0 ∧ base < s.bumpEnd ∧ s.bumpBase < m.lim then
      let s := if base < s.bumpBase then freeCounted s base ((s.bumpBase - base) / pageSize) else s
      if s.bumpEnd < m.lim then freeCounted s s.bumpEnd ((m.lim - s.bumpEnd) / pageSize) else s
    else freeCounted s base ((m.lim - base) / pageSize)

/-- `k_memset(&g_phys, 0, sizeof(g_phys)); g_phys.phys_base = -1` -/
def clearPhys : St :=
  { s with lists := fun _ => [], freePages := 0, totalPages := 0, physBase := 2 ^ 64 - 1, physTop := 0 }

def ammPhysInit (mmap : List MmapEntry) : St := mmap.foldl physInitEntry (clearPhys s)

/-- the body of the loop of `amm_early_phys_scan` -/
def earlyScanEntry (m : MmapEntry) : St :=
  let base := pageAlign m.base
  if m.type ≠ .free ∨ m.lim ≤ base then s else
    { s with
      physBase := if base < s.physBase then base else s.physBase
      physTop := if s.physTop < m.lim then m.lim else s.physTop
      totalPages := u64 (s.totalPages + (m.lim - base) / pageSize) }

def ammEarlyPhysScan (mmap : List MmapEntry) : St :=
  bumpInit (mmap.foldl earlyScanEntry (clearPhys s)) mmap

/-! ## Allocation and release -/

/-- the search of `amm_phys_alloc` through n lists from order o: the order, block and rest of the first non-empty one -/
def firstFree (lists : ℕ → List ℕ) : ℕ → ℕ → Option (ℕ × ℕ × List ℕ)
  | _, 0 => none
  | o, n + 1 =>
    match lists o with
    | [] => firstFree lists (o + 1) n
    | p :: rest => some (o, p, rest)

/-- split a block of order `order + n` down to `order`, freeing the upper halves -/
def splitDown (s : St) (paddr order : ℕ) : ℕ → St
  | 0 => s
  | n + 1 => splitDown (physFreeBlock s (paddr ^^^ pageSize <<< (order + n)) (order + n)) paddr order n

def ammPhysAlloc (order : ℕ) : ℕ × St :=
  if s.earlyBoot then bumpAlloc s order
  else if maxOrder < order then (0, s)
  else
    match firstFree s.lists order (maxOrder + 1 - order) with
    | none => (0, s)
    | some (o, paddr, rest) =>
      let s := { s with
        lists := update s.lists o rest
        freePages := u64 (s.freePages + 2 ^ 64 - 2 ^ o) }
      let s := splitDown s paddr order (o - order)
      (paddr, tagPage s paddr fun _ => ⟨pageAlloc, order % 256, 1⟩)

/-- the unlinking walk of `amm_phys_free` along one list: the word before the block b gets b's own link -/
def unlinkWord (mem : Mem) (b : ℕ) : List ℕ → Mem
  | p :: q :: rest => if p = b then mem else if q = b then write mem p 8 (link rest) else unlinkWord mem b (q :: rest)
  | _ => mem

/-- the loop of `amm_phys_free`: merge with the buddy while its tag says it is free with this order -/
def coalesce (s : St) (paddr order : ℕ) : ℕ → St × ℕ × ℕ
  | 0 => (s, paddr, order)
  | n + 1 =>
    let buddy := paddr ^^^ pageSize <<< order
    let s := touch s buddy
    let bi := s.info (buddy / pageSize)
    if bi.flags &&& pageFree = 0 ∨ bi.order ≠ order then (s, paddr, order)
    else
      let s :=
        if buddy ∈ s.lists order then
          { s with
            mem := unlinkWord s.mem buddy (s.lists order)
            lists := update s.lists order ((s.lists order).erase buddy)
            freePages := u64 (s.freePages + 2 ^ 64 - 2 ^ order) }
        else s
      coalesce s (if paddr < buddy then paddr else buddy) (order + 1) n

def ammPhysFree (paddr order : ℕ) : St :=
  let r := coalesce s paddr order (maxOrder - order)
  physFreeBlock r.1 r.2.1 r.2.2

end OpenASD.Mm
