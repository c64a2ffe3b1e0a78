/-
The page-fault exception (kernel/arch/idt.c: isr_dispatch, kill_user_fault; kernel/mm/mm.c: amm_page_fault, map_page).

isr_dispatch takes every #PF to amm_page_fault, with bit 1 of the error code as the kind of access. Bit 0, which says that
the page was present and the access not allowed, is not looked at: amm_page_fault maps a fresh page in any case.

- `isrDispatch_fault`: of the memory, the exception changes what `pageFault` changes;
- `untouched_iff`: for every fault and every address space, exactly when pages that are present keep their physical page
  and their contents;
- `fetch_wipes_page`: an instruction fetch from a page of data loses its contents.
-/
import OpenASD.Arch.Memory

namespace OpenASD.Arch

open Mm ByteMem

/-! ## The dispatcher -/

/-- `isr_frame_t`: the fields that isr_dispatch reads or sets -/
structure IsrFrame where
  vector : ℕ
  errorCode : ℕ
  rip : ℕ
  cs : ℕ
  rflags : ℕ
  rsp : ℕ
  ss : ℕ
deriving DecidableEq, Repr

abbrev vecPitTimer : ℕ := 0x20
abbrev vecKbd : ℕ := 0x21
abbrev vecSpurious : ℕ := 0x27
abbrev vecPageFault : ℕ := 14

def isrFrameUser (f : IsrFrame) : Bool := f.cs &&& 3 ≠ 0

/-- the return goes to irq_user_fault_exit in the kernel, at address `trampoline`, on the stack rsp0 -/
def killUserFault (f : IsrFrame) (trampoline rsp0 : ℕ) : IsrFrame :=
  { f with rip := trampoline, cs := 0x08, ss := 0x10, rsp := rsp0, rflags := 0x202 }

/-- what isr_dispatch does besides memory and the frame -/
inductive Handled where
  | timer
  | keyboard
  | eoi (irq : ℕ)
  | back
  | kill
  | halt
deriving DecidableEq, Repr

/-- an exception that nobody handles ends the process, or the kernel -/
def unhandled (x : MemSt) (trampoline rsp0 : ℕ) (f : IsrFrame) : Handled × IsrFrame × MemSt :=
  if isrFrameUser f then (.kill, killUserFault f trampoline rsp0, x) else (.halt, f, x)

/-- `cur` is sched_current(), cr2 the address that faulted -/
def isrDispatch (x : MemSt) (cur : Option ℕ) (cr2 trampoline rsp0 : ℕ) (f : IsrFrame) : Handled × IsrFrame × MemSt :=
  if f.vector = vecPitTimer then (.timer, f, x)
  else if f.vector = vecKbd then (.keyboard, f, x)
  else if f.vector = vecSpurious then (.back, f, x)
  else if 0x28 ≤ f.vector ∧ f.vector ≤ 0x2F then (.eoi (f.vector - 0x20), f, x)
  else if 0x20 ≤ f.vector ∧ f.vector ≤ 0x27 then (.eoi (f.vector - 0x20), f, x)
  else if f.vector = vecPageFault then
    match cur.bind x.vaMap with
    | none => unhandled x trampoline rsp0 f
    | some i =>
      let r := ammPageFault x.vm.phys (x.vm.vmaps i) cr2 (f.errorCode &&& 2 ≠ 0)
      if r.1 = 0 then (.back, f, x.setPhys r.2) else unhandled (x.setPhys r.2) trampoline rsp0 f
  else if f.vector < 32 then unhandled x trampoline rsp0 f
  else (.back, f, x)

theorem unhandled_mem (x : MemSt) (trampoline rsp0 : ℕ) (f : IsrFrame) : (unhandled x trampoline rsp0 f).2.2 = x := by
  unfold unhandled
  split_ifs <;> rfl

/-- of the memory, the exception changes what `pageFault` changes for the current process -/
theorem isrDispatch_fault (x : MemSt) (cur : Option ℕ) (cr2 trampoline rsp0 : ℕ) {f : IsrFrame}
    (hf : f.vector = vecPageFault) : (isrDispatch x cur cr2 trampoline rsp0 f).2.2 = match cur with
      | none => x
      | some p => pageFault x p cr2 (f.errorCode &&& 2 ≠ 0) := by
  unfold isrDispatch pageFault
  rw [hf, if_neg (by decide), if_neg (by decide), if_neg (by decide), if_neg (by decide), if_neg (by decide), if_pos rfl]
  cases cur with
  | none => exact unhandled_mem x trampoline rsp0 f
  | some p =>
    dsimp only [Option.bind_some]
    cases x.vaMap p with
    | none => exact unhandled_mem x trampoline rsp0 f
    | some i =>
      dsimp only
      split_ifs
      · rfl
      · exact unhandled_mem _ trampoline rsp0 f

/-! ## Pages that are present -/

variable {x : MemSt}

/-- every page that m maps has the same physical page in m', with the same bytes -/
def Untouched (root : ℕ → Option ℕ) (m m' : Mem) : Prop :=
  ∀ k va, User (topIdx va) → Backed root m k va →
    pte root m' k va &&& pteAddrMask = pte root m k va &&& pteAddrMask ∧
    ∀ y, inPage (pte root m k va &&& pteAddrMask) y → m' y = m y

/-- a fault at cr2 in the space i is not served: no region holds the address, the access is a write to a region that
must not be written, or no page is left -/
def Denied (x : MemSt) (i cr2 errorCode : ℕ) : Prop :=
  (∀ r, ammRegionFind (x.vm.vmaps i) cr2 = some r → errorCode &&& 2 ≠ 0 ∧ r.prot.write = false) ∨
  (ammPhysAlloc x.vm.phys 0).1 = 0

section

variable {S : ℕ → Prop} {root : ℕ → Option ℕ} {s s' : St} {out out' : Out}

/-- data pages keep their bytes -/
theorem Grows.untouched {d : ℕ} (hg : Grows S User root s out s' out' d) (hl : Leaves User root s.mem out)
    (hpte : ∀ k va, User (topIdx va) → Backed root s.mem k va → pte root s'.mem k va = pte root s.mem k va) :
    Untouched root s.mem s'.mem := by
  intro k va hu hb
  have hdata := hl k va hu hb
  refine ⟨by rw [hpte k va hu hb], fun y hy => ?_⟩
  exact hg.data y (hdata.kept hy) (hdata.data y hy)

variable {i cr2 errorCode : ℕ}

section

variable (hs : Spaces S User root x.vm.phys out) (hl : Leaves User root x.vm.phys.mem out)
include hs hl

/-- a fault that is denied touches no page -/
theorem denied_untouched (h : Denied x i cr2 errorCode) :
    Untouched root x.vm.phys.mem (ammPageFault x.vm.phys (x.vm.vmaps i) cr2 (errorCode &&& 2 ≠ 0)).2.mem := by
  have hself : Untouched root x.vm.phys.mem x.vm.phys.mem := fun _ _ _ _ => ⟨rfl, fun _ _ => rfl⟩
  unfold ammPageFault
  cases hr : ammRegionFind (x.vm.vmaps i) cr2 with
  | none => exact hself
  | some r =>
    dsimp only
    split_ifs with hw hz
    · exact hself
    · cases hf : found x.vm.phys 0 with
      | false =>
        rw [alloc_not_found hs.inv.late hf]
        exact hself
      | true =>
        -- page 0 is taken from the allocator and lost
        obtain ⟨hg, hst⟩ := hs.alloc hf
        exact Grows.untouched hg hl fun k va hu _ => hst.leaves k va hu
    · obtain h1 | h1 := h
      · obtain ⟨he, hp⟩ := h1 r hr
        simp [he, hp] at hw
      · exact absurd h1 hz

/-- **A fault that is served** puts a fresh page at the address, whatever was there. -/
theorem served_untouched (hroot : root i = some (x.vm.vmaps i).cr3) (hcr2 : cr2 < 2 ^ 47)
    (h : ¬ Denied x i cr2 errorCode) :
    Untouched root x.vm.phys.mem (ammPageFault x.vm.phys (x.vm.vmaps i) cr2 (errorCode &&& 2 ≠ 0)).2.mem ↔
      ¬ Backed root x.vm.phys.mem i cr2 := by
  simp only [Denied, not_or, not_forall] at h
  obtain ⟨⟨r, hr, hw⟩, hz⟩ := h
  have hw' : (decide (errorCode &&& 2 ≠ 0) && !r.prot.write) = false := by
    simpa [not_and] using hw
  have hf := found_of_ne hs.inv.late hz
  have hvpn := vpn_page cr2
  have hu := user_of_lt hcr2
  have hu' : User (topIdx (pageAlignDown cr2)) := topIdx_vpn hvpn ▸ hu
  obtain ⟨hg1, hst1, -, -⟩ := hs.fresh_page hf
  obtain ⟨out', hg, -, hpte, haddr, hpage⟩ := mapFresh_exact hs hroot hu' hf r.prot
  have he : (ammPageFault x.vm.phys (x.vm.vmaps i) cr2 (errorCode &&& 2 ≠ 0)).2 =
      mapFresh x.vm.phys (x.vm.vmaps i).cr3 (pageAlignDown cr2) r.prot := by
    unfold ammPageFault
    simp only [hr, hw', Bool.false_eq_true, if_false, if_neg hz]
  rw [he]
  constructor
  · intro hun hb
    -- the tables are present, so the entry is set to the fresh page, which was not in use
    have hwalk : mapsFresh x.vm.phys (x.vm.vmaps i).cr3 (pageAlignDown cr2) = true := by
      cases ht : table root x.vm.phys.mem i (path (pageAlignDown cr2)) with
      | none =>
        rw [Backed, ← pte_vpn hvpn, pte_none ht] at hb
        exact absurd rfl hb
      | some t =>
        have ht' := hg1.nodes i _ t (Ok.path hu') ht
        rw [mapsFresh, ptWalkAlloc_present hg1.spaces hroot hu' ht']
        rfl
    obtain ⟨hsame, -⟩ := hun i cr2 hu hb
    rw [hpte i cr2 hu, if_pos ⟨hwalk, rfl, hvpn.symm⟩, haddr] at hsame
    have hself : inPage (ammPhysAlloc x.vm.phys 0).1 (ammPhysAlloc x.vm.phys 0).1 := ⟨le_rfl, by omega⟩
    apply (hpage _ hself).2
    refine (hl i cr2 hu hb).kept ?_
    rw [← hsame]
    exact hself
  · intro hb
    refine Grows.untouched hg hl fun k va huva hback => ?_
    rw [hpte k va huva, if_neg]
    rintro ⟨-, rfl, hv⟩
    exact hb (backed_vpn (hv.trans hvpn) hback)

end

/-- **Faults and present pages.** Handling a fault changes the physical page or the contents of no present page exactly
when the faulting page is not present or the fault is denied. -/
theorem untouched_iff {x : MemSt} (hx : UserSpaces S root x) (cur : Option ℕ) (cr2 trampoline rsp0 : ℕ) (f : IsrFrame)
    (hf : f.vector = vecPageFault) : Untouched root x.vm.phys.mem (isrDispatch x cur cr2 trampoline rsp0 f).2.2.vm.phys.mem ↔
      ∀ i, cur.bind x.vaMap = some i → Backed root x.vm.phys.mem i cr2 → Denied x i cr2 f.errorCode := by
  obtain ⟨out, hs, hl⟩ := hx.tables
  have hself : Untouched root x.vm.phys.mem x.vm.phys.mem := fun _ _ _ _ => ⟨rfl, fun _ _ => rfl⟩
  rw [isrDispatch_fault x cur cr2 trampoline rsp0 hf]
  cases cur with
  | none => exact iff_of_true hself fun i e => by cases e
  | some p =>
  rw [Option.bind_some]
  dsimp only
  rw [pageFault]
  cases hp : x.vaMap p with
  | none => exact iff_of_true hself fun i e => by cases e
  | some i =>
    by_cases hd : Denied x i cr2 f.errorCode
    · refine iff_of_true (denied_untouched hs hl hd) fun j e _ => ?_
      cases e
      exact hd
    -- the address lies in a region, so in the lower half
    have hcr2 : cr2 < 2 ^ 47 := by
      simp only [Denied, not_or, not_forall] at hd
      obtain ⟨⟨r, hr, -⟩, -⟩ := hd
      obtain ⟨hmem, -, hhi⟩ := regionFind_some hr
      have hlim := hx.regions p i hp r hmem
      have hle : r.lim ≤ r.base + r.size := Nat.mod_le _ _
      omega
    refine (served_untouched hs hl (hx.roots p i hp) hcr2 hd).trans ⟨fun hb j e hback => ?_, fun h hb => ?_⟩
    · cases e
      exact absurd hback hb
    · exact hd (h i rfl hb)

end

/-- process 1 has one page of heap, at the physical address 0x11000, and has stored bytes there -/
def heapWith (b : List UInt8) : MemSt :=
  let x := step smallProcess (.brk 1 (brkBase + 4096))
  x.setPhys (x.vm.phys.setMem (put x.vm.phys.mem 0x11000 b))

theorem heapWith_good {b : List UInt8} (hb : b.length ≤ 4096) :
    Good (fun a => 0x10000 ≤ a ∧ a < 0x20000) heapRoot (heapWith b) := by
  have hg := (smallProcess_good.1.step (.brk 1 (brkBase + 4096))).1
  obtain ⟨out, hs, hl⟩ := hg.tables
  have hpte : pte heapRoot (step smallProcess (.brk 1 (brkBase + 4096))).vm.phys.mem 0 brkBase = leafEntry 0x11000 protRw := by
    decide +kernel
  have haddr : leafEntry 0x11000 protRw &&& pteAddrMask = 0x11000 := by decide
  have hpage := hl 0 brkBase (user_of_lt (by decide)) (by rw [Backed, hpte]; exact leafEntry_present _ _)
  rw [hpte, haddr] at hpage
  obtain ⟨hs', hstill⟩ := hs.data_write hpage (put _ 0x11000 b) fun x hx => put_out (by
    simp only [inPage] at hx
    omega)
  exact ⟨⟨⟨out, hs', hstill.leavesOf hl⟩, hg.roots, hg.regions⟩, hg.brk, hg.bump, hg.low, hg.zero⟩

abbrev heapProcess : MemSt := heapWith [0xAB]

/-- a read of the page above: it gets a page of its own, and the page that is there keeps its byte -/
theorem untouched_iff_heap : let y := (isrDispatch heapProcess (some 1) (brkBase + 4096) 0 0 ⟨14, 4, 0, 0x23, 0, 0, 0⟩).2.2
    Backed heapRoot heapProcess.vm.phys.mem 0 brkBase ∧ Backed heapRoot y.vm.phys.mem 0 (brkBase + 4096) ∧
      Untouched heapRoot heapProcess.vm.phys.mem y.vm.phys.mem ∧ y.vm.phys.mem 0x11000 = 0xAB := by
  refine ⟨by unfold Backed; decide +kernel, by unfold Backed; decide +kernel, ?_, by decide +kernel⟩
  apply (untouched_iff (heapWith_good (by decide)).toUserSpaces (some 1) _ 0 0 ⟨14, 4, 0, 0x23, 0, 0, 0⟩ rfl).2
  intro i hi hb
  have hmap : heapProcess.vaMap 1 = some 0 := by decide +kernel
  obtain rfl : i = 0 := Option.some.inj (hi.symm.trans hmap)
  exact absurd (show pte heapRoot heapProcess.vm.phys.mem 0 (brkBase + 4096) &&& ptePresent = 0 by decide +kernel) hb

/-- the jump into the heap: present, user, instruction fetch -/
def fetchFault : IsrFrame := ⟨14, 0x15, brkBase, 0x23, 0, 0, 0x1b⟩

/-- after the fetch -/
abbrev fetched := isrDispatch heapProcess (some 1) brkBase 0 0 fetchFault

/-- **A fetch from a page of data wipes it.** The page is present and not executable; the fault is taken for a page that is
missing, the process goes on, and its page is another one, of zeros. -/
theorem fetch_wipes_page : heapProcess.vaMap 1 = some 0 ∧ heapRoot 0 = some (heapProcess.vm.vmaps 0).cr3 ∧
    pte heapRoot heapProcess.vm.phys.mem 0 brkBase = leafEntry 0x11000 protRw ∧
    fetched.1 = .back ∧
    pte heapRoot fetched.2.2.vm.phys.mem 0 brkBase = leafEntry 0x15000 protRw ∧
    heapProcess.vm.phys.mem 0x11000 = 0xAB ∧
    fetched.2.2.vm.phys.mem 0x15000 = 0 ∧
    ¬ Untouched heapRoot heapProcess.vm.phys.mem fetched.2.2.vm.phys.mem := by
  have hbefore : pte heapRoot heapProcess.vm.phys.mem 0 brkBase = leafEntry 0x11000 protRw := by decide +kernel
  have hafter : pte heapRoot fetched.2.2.vm.phys.mem 0 brkBase = leafEntry 0x15000 protRw := by
    decide +kernel
  refine ⟨by decide +kernel, by decide +kernel, hbefore, by decide +kernel, hafter, by decide +kernel, by decide +kernel,
    fun h => ?_⟩
  have hb : Backed heapRoot heapProcess.vm.phys.mem 0 brkBase := by
    rw [Backed, hbefore]
    exact leafEntry_present _ _
  have hsame := (h 0 brkBase (user_of_lt (by decide)) hb).1
  exact absurd hsame (by decide)

end OpenASD.Arch
