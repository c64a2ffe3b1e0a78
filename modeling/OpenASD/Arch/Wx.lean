/-
Write xor execute (kernel/security/security.c: security_check_wx) over the operations that map user pages:
kernel/arch/elf.c elf_load, kernel/arch/syscall.c sys_mmap and sys_brk, and the page-fault exception.

The rights of a page are in its leaf entry; the tables above it allow everything. `Guarded` is what the operations keep:
regions are whole pages that do not meet, none is both writable and executable, and every mapped page has at most the
rights of its region.

`wx_run_sound`: so it stays in every run in which all loaded segments are writable data, sys_mmap is not asked for
both rights, and the heap grows in a writable region that reaches far enough. `wx_broken`: elf_load maps the pages of a
read-only or executable segment writable, and sys_mmap never asks security_check_wx.
-/
import OpenASD.Arch.Brk
import OpenASD.Arch.Elf
import OpenASD.Mm.Regions

namespace OpenASD.Arch

open Mm ByteMem

/-! ## Events -/

/-- elf_load into the space of a process -/
def load (x : MemSt) (cur : ℕ) (img : List UInt8) : MemSt :=
  match x.vaMap cur with
  | none => x
  | some i => { x with vm := (elfLoad x.vm i img).2 }

inductive Event where
  | call (c : Call)
  | load (cur : ℕ) (img : List UInt8)
deriving DecidableEq, Repr

def stepEvent (x : MemSt) : Event → MemSt
  | .call c => step x c
  | .load cur img => load x cur img

def runEvents (x : MemSt) (c : List Event) : MemSt := c.foldl stepEvent x

/-! ## Rights -/

/-- the rights in a leaf entry -/
def Writable (e : ℕ) : Prop := e &&& pteWrite ≠ 0
def Executable (e : ℕ) : Prop := e &&& pteNx = 0

instance (e : ℕ) : Decidable (Writable e) := inferInstanceAs (Decidable (_ ≠ _))
instance (e : ℕ) : Decidable (Executable e) := inferInstanceAs (Decidable (_ = _))

theorem leafEntry_flags (pa : ℕ) (prot : Prot) : (Writable (leafEntry pa prot) ↔ prot.write = true) ∧
    (Executable (leafEntry pa prot) ↔ prot.exec = true) := by
  rw [Writable, Executable, leafEntry, flag_or (by decide), flag_or (by decide)]
  obtain ⟨r, w, e⟩ := prot
  cases r <;> cases w <;> cases e <;> decide

/-- `security_check_wx(prot) == 0` -/
def securityCheckWx (prot : Prot) : Bool := !(prot.write && prot.exec)

/-- a region of whole pages that keeps the policy -/
structure Lawful (r : Region) : Prop where
  base : r.base % 4096 = 0
  size : r.size % 4096 = 0
  wx : securityCheckWx r.prot = true

/-- the rights a are among the rights b -/
def Below (a b : Prot) : Prop := (a.write = true → b.write = true) ∧ (a.exec = true → b.exec = true)

theorem Below.refl (a : Prot) : Below a a := ⟨id, id⟩

/-- every mapped page of the space i lies in a region and has at most its rights -/
def Ruled (root : ℕ → Option ℕ) (m : Mem) (i : ℕ) (regions : List Region) : Prop :=
  ∀ va < 2 ^ 47, Backed root m i va → ∃ r ∈ regions, r.has va ∧ (Writable (pte root m i va) → r.prot.write = true) ∧
    (Executable (pte root m i va) → r.prot.exec = true)

structure Guarded (S : ℕ → Prop) (root : ℕ → Option ℕ) (x : MemSt) : Prop extends Good S root x where
  aligned : x.mmapBump % 4096 = 0
  tidy : ∀ p i, x.vaMap p = some i → Tidy (x.vm.vmaps i).regions
  lawful : ∀ p i, x.vaMap p = some i → ∀ r ∈ (x.vm.vmaps i).regions, Lawful r
  ruled : ∀ p i, x.vaMap p = some i → Ruled root x.vm.phys.mem i (x.vm.vmaps i).regions

/-! ## The operations -/

section

variable {S : ℕ → Prop} {root : ℕ → Option ℕ} {x : MemSt} {p i : ℕ} {n : ℕ}

theorem mem_of_add {v : VmSt} {nr : Region} (h : (ammRegionAdd v i nr).1 = 0) :
    nr ∈ ((ammRegionAdd v i nr).2.vmaps i).regions := by
  obtain he | ⟨-, -, map, -, hreg, he⟩ := ammRegionAdd_cases v i nr
  · rw [he] at h
    cases h
  · rw [he]
    simp only [Function.update_self, hreg]
    exact mem_insertSorted.2 (Or.inl rfl)

section

variable (h : Guarded S root x)
include h

/-- a region is added to a space -/
theorem Guarded.add (i : ℕ) (nr : Region) (hnr : nr.base + nr.size ≤ 2 ^ 47) (hl : Lawful nr) :
    Guarded S root { x with vm := (ammRegionAdd x.vm i nr).2 } := by
  have hgood := (h.toGood.add i nr hnr).1
  obtain he | ⟨hno, hsize, map, hcr3, hreg, he⟩ := ammRegionAdd_cases x.vm i nr
  · rw [he]
    exact h
  rw [he] at hgood ⊢
  -- the list of the space i, or of another one
  have hlist : ∀ {P : List Region → Prop} {j : ℕ}, P (x.vm.vmaps j).regions →
      (j = i → P (x.vm.vmaps i).regions → P (insertSorted nr (x.vm.vmaps i).regions)) →
      P (Function.update x.vm.vmaps i map j).regions := by
    intro P j hold hnew
    by_cases hji : j = i
    · subst hji
      rw [Function.update_self, hreg]
      exact hnew rfl hold
    · rw [Function.update_of_ne hji]
      exact hold
  refine ⟨hgood, h.aligned, fun q j hj => ?_, fun q j hj => ?_, fun q j hj => ?_⟩
  · refine hlist (P := Tidy) (h.tidy q j hj) fun hji ht => ?_
    subst hji
    obtain ⟨hfit, hd⟩ := ht.not_overlaps (by omega) hsize (by omega) hno
    exact ht.insert ⟨Nat.pos_of_ne_zero hsize, hfit⟩ hd
  · refine hlist (P := fun l => ∀ r ∈ l, Lawful r) (h.lawful q j hj) fun _ hold r hr => ?_
    rcases mem_insertSorted.1 hr with rfl | hr
    · exact hl
    · exact hold r hr
  · refine hlist (P := fun l => Ruled root x.vm.phys.mem j l) (h.ruled q j hj) fun hji hold va hva hb => ?_
    obtain ⟨r, hr, hrest⟩ := hold va hva hb
    exact ⟨r, mem_insertSorted.2 (Or.inr hr), hrest⟩

/-- pages are mapped, each in a region that has the rights -/
theorem Guarded.remap {s : St} (hgood : Good S root (x.setPhys s)) {prot : Prot} {R : ℕ → Prop}
    (hr : Remaps S User root i prot R x.vm.phys.mem s.mem)
    (hR : ∀ va < 2 ^ 47, R (vpn va) → ∃ r ∈ (x.vm.vmaps i).regions, r.has va ∧ Below prot r.prot) :
    Guarded S root (x.setPhys s) := by
  have hruled : ∀ q j, x.vaMap q = some j → Ruled root s.mem j (x.vm.vmaps j).regions := by
    intro q j hj va hva hb
    rcases hr j va (user_of_lt hva) with hsame | ⟨rfl, hin, pa, -, -, hnew⟩
    · rw [Backed, hsame] at hb
      rw [hsame]
      exact h.ruled q j hj va hva hb
    · rw [hnew, (leafEntry_flags _ _).1, (leafEntry_flags _ _).2]
      exact hR va hva hin
  exact ⟨hgood, h.aligned, h.tidy, h.lawful, hruled⟩

omit h in
/-- whole pages are aligned already -/
theorem align_whole {base size : ℕ} (hb : base % 4096 = 0) (hs : size % 4096 = 0) (h : base + size ≤ 2 ^ 47) :
    pageAlignDown base = base ∧ pageAlign (base + size) = base + size := by
  simp only [pageAlignDown, pageAlign, u64, pageSize]
  omega

/-- a range is populated in a region that has the rights -/
theorem Guarded.populate (hi : x.vaMap p = some i) {base size : ℕ} (hlow : base + size ≤ 2 ^ 47)
    {prot : Prot} {r : Region} (hr : r ∈ (x.vm.vmaps i).regions) (hbelow : Below prot r.prot)
    (hlo : r.base ≤ pageAlignDown base) (hhi : pageAlign (base + size) ≤ r.base + r.size) :
    Guarded S root (x.setPhys (ammRegionPopulate x.vm.phys (x.vm.vmaps i) base size prot).2) := by
  obtain ⟨hgood, -, hmap, -⟩ := h.toGood.populate hi (fun j hj => page_lt hlow hj) prot rfl
  refine h.remap hgood hmap fun va hva hpages => ⟨r, hr, ?_, hbelow⟩
  obtain ⟨h1, h2⟩ := pagesFrom_range hlow hva hpages
  exact ⟨hlo.trans h1, h2.trans_le hhi⟩

theorem Guarded.setBrk {b : ℕ} (h1 : brkBase ≤ b) (h2 : b ≤ brkBase + brkLimit) :
    Guarded S root { x with brkCur := b } :=
  ⟨h.toGood.setBrk h1 h2, h.aligned, h.tidy, h.lawful, h.ruled⟩

theorem Guarded.pageFault (p cr2 : ℕ) (write : Bool) : Guarded S root (pageFault x p cr2 write) := by
  obtain he | ⟨i, r, s, hi, hf, he, hgood, hr⟩ := h.toGood.pageFault_cases p cr2 write
  · rw [he]
    exact h
  rw [he]
  obtain ⟨hmem, hhas⟩ := (regionFind_eq_some_iff (h.tidy p i hi)).1 hf
  have hlim := h.regions p i hi r hmem
  obtain ⟨hbase, hsize, -⟩ := h.lawful p i hi r hmem
  refine h.remap hgood.1 hr fun va hva hpage => ⟨r, hmem, ?_, Below.refl _⟩
  simp only [vpn] at hpage
  simp only [Region.has] at hhas ⊢
  omega

/-! ## sys_brk -/

/-- the region around BRK_BASE, if there is one, is writable and reaches to the new break -/
def HeapFits (map : Vmap) (newBrk : ℕ) : Prop :=
  ∀ r, ammRegionFind map brkBase = some r → r.prot.write = true ∧ pageAlign newBrk ≤ r.base + r.size

omit h in
theorem pageAlign_brk (h : n ≤ brkBase + brkLimit) : n ≤ pageAlign n ∧ pageAlign n ≤ brkBase + brkLimit := by
  simp only [pageAlign, u64, pageSize, brkBase, brkLimit] at *
  omega

/-- after ensureHeap there is a region to grow in -/
theorem Guarded.ensureHeap {v : VmSt} (hv : ensureHeap x.vm i = some v)
    (hn : n ≤ brkBase + brkLimit) : Guarded S root { x with vm := v } ∧ (HeapFits (x.vm.vmaps i) n →
    ∃ r ∈ (v.vmaps i).regions, r.base ≤ brkBase ∧ r.prot.write = true ∧ pageAlign n ≤ r.base + r.size) := by
  have hadd := h.add i heapRegion (by decide) ⟨by decide, by decide, by decide⟩
  unfold Arch.ensureHeap at hv
  cases hf : ammRegionFind (x.vm.vmaps i) brkBase with
  | some r =>
    rw [hf] at hv
    cases hv
    obtain ⟨hmem, hbase, -⟩ := regionFind_some hf
    exact ⟨h, fun hfits => ⟨r, hmem, hbase, hfits r hf⟩⟩
  | none =>
    rw [hf] at hv
    obtain he | ⟨-, -, map, -, hreg, he⟩ := ammRegionAdd_cases x.vm i heapRegion
    · rw [he] at hv
      cases hv
    rw [he] at hv hadd
    cases hv
    refine ⟨hadd, fun _ => ⟨heapRegion, ?_, le_rfl, rfl, (pageAlign_brk hn).2⟩⟩
    simp only [Function.update_self, hreg]
    exact mem_insertSorted.2 (Or.inl rfl)

/-- the heap grows in a writable region -/
theorem Guarded.growHeap (hi : x.vaMap p = some i) {b : ℕ} (hb : brkBase ≤ b)
    (hn : n ≤ brkBase + brkLimit) {r : Region} (hr : r ∈ (x.vm.vmaps i).regions) (hbase : r.base ≤ brkBase)
    (hw : r.prot.write = true) (hlim : pageAlign n ≤ r.base + r.size) :
    Guarded S root { x with vm := (growHeap x.vm i b n).2 } := by
  unfold Arch.growHeap
  dsimp only
  split_ifs with hlt
  · have hsum : pageAlignDown b + (pageAlign n - pageAlignDown b) = pageAlign n := Nat.add_sub_cancel' hlt.le
    have hend := (pageAlign_brk hn).2
    have hdown : brkBase ≤ pageAlignDown (pageAlignDown b) := by
      simp only [pageAlignDown, pageSize, brkBase] at *
      omega
    have hup : pageAlign (pageAlign n) = pageAlign n := by
      have hmul : pageAlign n % 4096 = 0 := by
        simp only [pageAlign, u64, pageSize]
        omega
      generalize pageAlign n = e at *
      simp only [pageAlign, u64, pageSize, brkBase, brkLimit] at *
      omega
    have hlow : pageAlign n ≤ 2 ^ 47 := hend.trans (by decide)
    refine h.populate hi (by rw [hsum]; exact hlow) hr ⟨fun _ => hw, fun hx => by cases hx⟩ (hbase.trans hdown) ?_
    rw [hsum, hup]
    exact hlim
  · exact h

theorem Guarded.sysBrk (hc : x.brk < n → ∀ i, x.vaMap p = some i → HeapFits (x.vm.vmaps i) n) : Guarded S root (sysBrk x p n).2 := by
  obtain ⟨hb1, hb2⟩ := h.toGood.brk_range
  obtain ⟨-, he⟩ | ⟨i, hi, he | ⟨hidle, v, hv, hcase⟩⟩ := sysBrk_cases x p n
  · rw [he]
    exact h
  · rw [he]
    exact h.setBrk hb1 hb2
  simp only [idle, not_or, not_lt] at hidle
  obtain ⟨hgv, hroom⟩ := h.ensureHeap hv hidle.2.2
  have hgrown : x.brk < n → Guarded S root { x with vm := (Arch.growHeap v i x.brk n).2 } := by
    intro hlt
    obtain ⟨r, hr, hbase, hw, hlim⟩ := hroom (hc hlt i hi)
    exact hgv.growHeap (p := p) hi hb1 hidle.2.2 hr hbase hw hlim
  obtain ⟨hlt, -, he⟩ | ⟨hlt, -, he⟩ | ⟨-, he⟩ := hcase
  · rw [he]
    exact (hgrown hlt).setBrk hb1 hb2
  · rw [he]
    exact (hgrown hlt).setBrk hidle.2.1 hidle.2.2
  · rw [he]
    exact hgv.setBrk hidle.2.1 hidle.2.2

/-! ## sys_mmap -/

omit h in
theorem mmapBytes_page (len : ℕ) : mmapBytes len % 4096 = 0 := by
  simp only [mmapBytes, u64]
  omega

theorem Guarded.sysMmap {len prot flags fd : ℕ} (hc : securityCheckWx (kprot prot) = true) :
    Guarded S root (sysMmap x p len prot flags fd).2 := by
  obtain ⟨-, he⟩ | ⟨i, hi, h1, h2, -, hcase⟩ := sysMmap_cases x p len prot flags fd
  · rw [he]
    exact h
  have hrange := mmap_range h1 h2
  have hlen := mmapBytes_page len
  have hal := h.aligned
  have hnext : u64 (x.mmapBump + mmapBytes len) % 4096 = 0 := by
    simp only [u64]
    omega
  obtain ⟨-, he⟩ | ⟨hok, v, rfl, he⟩ := hcase
  · rw [he]
    exact ⟨h.toGood.setBump h1 h2, hnext, h.tidy, h.lawful, h.ruled⟩
  rw [he]
  have hlow : x.mmapBump + mmapBytes len ≤ 2 ^ 47 := hrange.trans (by decide)
  have hadded := h.add i (mmapRegion x len prot) hlow ⟨hal, hlen, hc⟩
  have hmem := mem_of_add hok
  obtain ⟨hdown, hup⟩ := align_whole hal hlen hlow
  have hpop := hadded.populate (p := p) hi hlow hmem (Below.refl _) hdown.ge hup.le
  exact ⟨hpop.toGood.setBump h1 h2, hnext, hpop.tidy, hpop.lawful, hpop.ruled⟩

/-! ## elf_load -/

/-- the segments that keep the policy: data, below 2^47 -/
structure Phdr.Data (ph : Phdr) : Prop where
  write : ph.prot.write = true
  exec : ph.prot.exec = false
  low : ph.Low

theorem Guarded.loadSegment (hi : x.vaMap p = some i) (img : List UInt8) {ph : Phdr}
    (hph : ph.Data) : Guarded S root { x with vm := (loadSegment x.vm i img ph).2 } := by
  obtain ⟨hw, hx, hlow⟩ := hph
  obtain ⟨hend, hbase, hsize⟩ := hlow.region
  obtain he | ⟨hok, v, s, hv, hs, hcase⟩ := loadSegment_cases x.vm i img ph
  · rw [he]
    exact h
  have hlaw : Lawful ph.region := ⟨hbase, hsize, by simp [securityCheckWx, Phdr.region, hx]⟩
  have hadded := h.add i ph.region hend hlaw
  have hmem := mem_of_add hok
  rw [← hv] at hadded hmem
  have hbelow : Below { ph.prot with write := true } ph.region.prot := ⟨fun _ => hw, id⟩
  obtain ⟨hdown, hup⟩ := align_whole hbase hsize hend
  have hpop : Guarded S root (({ x with vm := v } : MemSt).setPhys s) := by
    rw [hs]
    exact hadded.populate (p := p) hi hend hmem hbelow hdown.ge hup.le
  obtain he | he := hcase
  · rw [he]
    exact hpop
  rw [he]
  obtain ⟨hgood, -, hst⟩ := hpop.toGood.fill (p := p) hi img hlow
  have hnone : Remaps S User root i ph.prot (fun _ => False) _ _ := hst.leaves.remaps
  exact hpop.remap hgood hnone fun _ _ hfalse => hfalse.elim

theorem Guarded.load {img : List UInt8} (hc : ∀ ph ∈ loads img, ph.Data) :
    Guarded S root (load x p img) := by
  unfold Arch.load
  cases hi : x.vaMap p with
  | none => exact h
  | some i =>
    refine elfLoad_keeps (P := fun v => Guarded S root { x with vm := v }) (fun v ph hph hv => ?_) h
    exact hv.loadSegment (p := p) hi img (hc ph hph)

/-! ## Runs -/

/-- writable data segments only; not both rights for sys_mmap; a heap that grows where it may -/
def Keeps (x : MemSt) : Event → Prop
  | .call (.brk p n) => x.brk < n → ∀ i, x.vaMap p = some i → HeapFits (x.vm.vmaps i) n
  | .call (.mmap _ _ prot _ _) => securityCheckWx (kprot prot) = true
  | .call (.fault _ _ _) => True
  | .load _ img => ∀ ph ∈ loads img, ph.Data

/-- every step of the run meets the condition -/
def AllKeep : MemSt → List Event → Prop
  | _, [] => True
  | x, e :: es => Keeps x e ∧ AllKeep (stepEvent x e) es

/-- **Step.** -/
theorem Guarded.step {e : Event} (he : Keeps x e) : Guarded S root (stepEvent x e) := by
  cases e with
  | call c =>
    cases c with
    | brk p n => exact h.sysBrk he
    | mmap p len prot flags fd => exact h.sysMmap he
    | fault p cr2 write => exact h.pageFault p cr2 write
  | load p img => exact h.load he

/-- **Run.** -/
theorem Guarded.run {c : List Event} (hc : AllKeep x c) : Guarded S root (runEvents x c) := by
  induction c generalizing x with
  | nil => exact h
  | cons e c ih => exact ih (h.step hc.1) hc.2

end

/-- kernels whose processes have empty spaces -/
theorem Guarded.of_fresh (h : Good S root x) (hfresh : Fresh root x) (hbump : x.mmapBump % 4096 = 0) : Guarded S root x := by
  refine ⟨h, hbump, fun q j hj => ?_, fun q j hj r hr => ?_, fun q j hj va hva hb => ?_⟩
  · rw [(hfresh q j hj).1]
    exact Tidy.nil
  · rw [(hfresh q j hj).1] at hr
    cases hr
  · exact absurd hb ((hfresh q j hj).2 va (user_of_lt hva))

end

/-- **Write xor execute.** In every run that keeps to the condition, every mapped page lies in one region of its space, it
is writable only if that region is, and it is never writable and executable. -/
theorem wx_run_sound {S : ℕ → Prop} {root : ℕ → Option ℕ} {x : MemSt} (hx : Good S root x) (hfresh : Fresh root x)
    (hbump : x.mmapBump % 4096 = 0) {c : List Event} (hc : AllKeep x c) {p i va : ℕ}
    (hi : (runEvents x c).vaMap p = some i) (hva : va < 2 ^ 47) (hb : Backed root (runEvents x c).vm.phys.mem i va) :
    (∃! r, r ∈ ((runEvents x c).vm.vmaps i).regions ∧ r.has va) ∧
    (∀ r ∈ ((runEvents x c).vm.vmaps i).regions, r.has va → Writable (pte root (runEvents x c).vm.phys.mem i va) →
      r.prot.write = true) ∧
    ¬ (Writable (pte root (runEvents x c).vm.phys.mem i va) ∧ Executable (pte root (runEvents x c).vm.phys.mem i va)) := by
  have hg := (Guarded.of_fresh hx hfresh hbump).run hc
  have htidy := hg.tidy p i hi
  obtain ⟨r, hr, hhas, hw, hex⟩ := hg.ruled p i hi va hva hb
  refine ⟨⟨r, ⟨hr, hhas⟩, fun q hq => htidy.unique hq.1 hr hq.2 hhas⟩, fun q hq hqva hwrite => ?_, fun hboth => ?_⟩
  · rw [htidy.unique hq hr hqva hhas]
    exact hw hwrite
  · have hlaw := (hg.lawful p i hi r hr).wx
    simp [securityCheckWx, hw hboth.1, hex hboth.2] at hlaw

theorem oneSegment_data : ∀ ph ∈ loads (oneSegment 6), ph.Data := by
  intro ph hph
  rw [List.mem_singleton.1 hph]
  exact ⟨by decide, by decide, by decide⟩

/-- the heap grows, a mapping is made, data is loaded, the heap faults -/
def heapRun : List Event :=
  [.call (.brk 1 (brkBase + 4096)), .call (.mmap 1 4096 3 0x20 (2 ^ 64 - 1)), .load 1 (oneSegment 6),
    .call (.fault 1 brkBase true)]

/-- the page at BRK_BASE keeps the policy -/
theorem wx_run_sound_heap : ∃ S root x, Good S root x ∧ Fresh root x ∧ x.vaMap 1 = some 0 ∧
    Backed root (runEvents x heapRun).vm.phys.mem 0 brkBase ∧
    (∃! r, r ∈ ((runEvents x heapRun).vm.vmaps 0).regions ∧ r.has brkBase) ∧
    (∀ r ∈ ((runEvents x heapRun).vm.vmaps 0).regions, r.has brkBase →
      Writable (pte root (runEvents x heapRun).vm.phys.mem 0 brkBase) → r.prot.write = true) ∧
    ¬ (Writable (pte root (runEvents x heapRun).vm.phys.mem 0 brkBase) ∧
      Executable (pte root (runEvents x heapRun).vm.phys.mem 0 brkBase)) := by
  obtain ⟨g, hfr⟩ := smallProcess_good
  have hkeep : AllKeep smallProcess heapRun := by
    refine ⟨fun _ i hi r hr => ?_, show securityCheckWx (kprot 3) = true by decide, oneSegment_data, trivial, trivial⟩
    rw [ammRegionFind, (hfr 1 i hi).1] at hr
    cases hr
  have hlast : Backed heapRoot (runEvents smallProcess heapRun).vm.phys.mem 0 brkBase := by
    unfold Backed
    decide +kernel
  have hi : (runEvents smallProcess heapRun).vaMap 1 = some 0 := by decide +kernel
  exact ⟨_, heapRoot, smallProcess, g, hfr, by decide +kernel, hlast,
    wx_run_sound g hfr (by decide) hkeep hi (show brkBase < 2 ^ 47 by decide) hlast⟩

/-- **Both rights.** The page of an executable segment is also writable, though its region is not; so is an anonymous
mapping that asks for both. -/
theorem wx_broken : (let x := runEvents twoProcesses [.load 1 (oneSegment 5)]
      let e := ptLookup x.vm.phys.mem (x.vm.vmaps 0).cr3 0x400000
      x.vaMap 1 = some 0 ∧ (x.vm.vmaps 0).regions = [⟨0x400000, 4096, ⟨true, false, true⟩, .file, -1⟩] ∧
        e &&& ptePresent ≠ 0 ∧ Writable e ∧ Executable e) ∧
    (let x := runEvents twoProcesses [.call (.mmap 1 4096 7 0x20 (2 ^ 64 - 1))]
      let e := ptLookup x.vm.phys.mem (x.vm.vmaps 0).cr3 mmapBase
      securityCheckWx (kprot 7) = false ∧ e &&& ptePresent ≠ 0 ∧ Writable e ∧ Executable e) := by
  refine ⟨⟨?_, ?_, ?_, ?_, ?_⟩, ?_, ?_, ?_, ?_⟩ <;> decide +kernel

end OpenASD.Arch
