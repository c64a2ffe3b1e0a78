/-
The ELF loader (kernel/arch/elf.c: elf_load, vm_copy_to_user, vm_zero_user), over the address spaces of `Mm.Vmap`.

An image is a list of bytes; header fields are little-endian words of it. The kernel writes user memory through its window
on physical memory, one page at a time.

- `loadSegment_cases`: everything that one segment can do;
- `elfLoad_keeps`: what every segment keeps, the loader keeps;
- `fillSegment_spec`: the bytes of a segment below 2^47 go to pages in use, so no page table changes;
- `Good.fill`: such a segment is filled in a good kernel, which stays good, and nothing is unmapped;
- `elf_confined_iff`: when a load stays below 2^47 and starts in a segment; no segment is needed (`null_image_starts`).
-/
import OpenASD.Arch.Memory

namespace OpenASD.Arch

open Mm ByteMem
open List (mem_map range replicate)

/-! ## Writing to user memory -/

/-- the loop of vm_copy_to_user and vm_zero_user: chunk by chunk, `store` writes n bytes of the source, from its offset off,
to physical memory. Every round but the last takes at least one byte, so len rounds are enough. -/
def vmChunks (store : Mem → ℕ → ℕ → ℕ → Mem) (map : Vmap) : ℕ → St → ℕ → ℕ → ℕ → Bool × St
  | 0, s, _, _, _ => (true, s)
  | fuel + 1, s, dst, off, len =>
    if len = 0 then (true, s)
    else
      let chunk := min (pageSize - dst % pageSize) len
      let kva := ammVirtToKva s.mem map dst
      if kva = 0 then (false, s)
      else
        vmChunks store map fuel (s.setMem (store s.mem (virtToPhys kva) off chunk)) (u64 (dst + chunk)) (off + chunk)
          (len - chunk)

def copyStore (src : List UInt8) (m : Mem) (pa off n : ℕ) : Mem := put m pa ((src.drop off).take n)

def zeroStore (m : Mem) (pa _off n : ℕ) : Mem := fill m pa n 0

def vmCopyToUser (s : St) (map : Vmap) (dst : ℕ) (src : List UInt8) : Bool × St :=
  vmChunks (copyStore src) map src.length s dst 0 src.length

def vmZeroUser (s : St) (map : Vmap) (dst len : ℕ) : Bool × St := vmChunks zeroStore map len s dst 0 len

/-! ## Headers -/

variable (img : List UInt8)

/-- the n-byte word at an offset of the image -/
def word (off n : ℕ) : ℕ := leNat ((img.drop off).take n)

/-- the fields of `elf64_phdr_t` that the loader reads -/
structure Phdr where
  type : ℕ
  flags : ℕ
  offset : ℕ
  vaddr : ℕ
  filesz : ℕ
  memsz : ℕ
deriving DecidableEq, Repr

def phdrAt (off : ℕ) : Phdr :=
  ⟨word img off 4, word img (off + 4) 4, word img (off + 8) 8, word img (off + 16) 8, word img (off + 32) 8,
    word img (off + 40) 8⟩

abbrev ehdrSize : ℕ := 64
abbrev phdrSize : ℕ := 56
abbrev ptLoad : ℕ := 1
abbrev ptInterp : ℕ := 3
/-- the largest segment -/
abbrev segMax : ℕ := 64 * 1024 * 1024

def ePhoff : ℕ := word img 32 8
def ePhentsize : ℕ := word img 54 2
def ePhnum : ℕ := word img 56 2

/-- the checks of elf_load on the file header -/
def ehdrOk : Bool :=
  decide (ehdrSize ≤ img.length) && decide (img.take 4 = [0x7f, 0x45, 0x4c, 0x46]) &&
    decide (word img 4 1 = 2 ∧ word img 5 1 = 1) && decide (word img 18 2 = 62) &&
    decide (word img 16 2 = 2 ∨ word img 16 2 = 3) && decide (ePhnum img ≠ 0 ∧ ePhnum img ≤ 48) &&
    decide (phdrSize ≤ ePhentsize img) && decide (ePhoff img < img.length) &&
    decide (u64 (ePhoff img + ePhnum img * ePhentsize img) ≤ img.length)

/-- the offset of program header i -/
def phOff (i : ℕ) : ℕ := u64 (ePhoff img + i * ePhentsize img)

/-! ## Segments -/

/-- PF_W is 2, PF_X is 1 -/
def Phdr.prot (ph : Phdr) : Prot := ⟨true, ph.flags &&& 2 ≠ 0, ph.flags &&& 1 ≠ 0⟩

def Phdr.segBase (ph : Phdr) : ℕ := pageAlignDown ph.vaddr

def Phdr.segSize (ph : Phdr) : ℕ := u64 (pageAlign (u64 (ph.vaddr + ph.memsz)) + 2 ^ 64 - ph.segBase)

def Phdr.region (ph : Phdr) : Region := ⟨ph.segBase, ph.segSize, ph.prot, .file, -1⟩

/-- the file bytes of a segment, then zeros up to its size in memory -/
def fillSegment (s : St) (map : Vmap) (img : List UInt8) (ph : Phdr) : Bool × St :=
  match if 0 < ph.filesz then vmCopyToUser s map ph.vaddr ((img.drop ph.offset).take ph.filesz) else (true, s) with
  | (false, s) => (false, s)
  | (true, s) =>
    if ph.filesz < ph.memsz then vmZeroUser s map (u64 (ph.vaddr + ph.filesz)) (ph.memsz - ph.filesz) else (true, s)

/-- one PT_LOAD header; false when elf_load gives up -/
def loadSegment (v : VmSt) (i : ℕ) (img : List UInt8) (ph : Phdr) : Bool × VmSt :=
  if 2 ^ 47 ≤ ph.vaddr ∨ img.length < ph.offset ∨ img.length - ph.offset < ph.filesz ∨ ph.segSize = 0 ∨
      segMax < ph.segSize then (false, v)
  else
    match ammRegionAdd v i ph.region with
    | (r, v) =>
      if r ≠ 0 then (false, v)
      else
        let p := ammRegionPopulate v.phys (v.vmaps i) ph.segBase ph.segSize { ph.prot with write := true }
        if p.1 = 0 then (false, { v with phys := p.2 })
        else
          let f := fillSegment p.2 (v.vmaps i) img ph
          (f.1, { v with phys := f.2 })

/-- the loop over the program headers at these offsets -/
def loadFrom (i : ℕ) (img : List UInt8) : VmSt → List ℕ → Bool × VmSt
  | v, [] => (true, v)
  | v, off :: rest =>
    if img.length < u64 (off + phdrSize) then (false, v)
    else if (phdrAt img off).type = ptInterp then (false, v)
    else if (phdrAt img off).type ≠ ptLoad then loadFrom i img v rest
    else
      match loadSegment v i img (phdrAt img off) with
      | (false, v) => (false, v)
      | (true, v) => loadFrom i img v rest

/-- the PT_LOAD headers -/
def loads : List Phdr :=
  ((range (ePhnum img)).map fun i => phdrAt img (phOff img i)).filter fun ph => ph.type = ptLoad

/-- the entry address, 0 on failure -/
def elfLoad (v : VmSt) (i : ℕ) (img : List UInt8) : ℕ × VmSt :=
  if ehdrOk img = false then (0, v)
  else
    match loadFrom i img v ((range (ePhnum img)).map (phOff img)) with
    | (false, v) => (0, v)
    | (true, v) => (word img 24 8, v)

/-! ## What loading does -/

/-- everything that a segment can do: fail before it has changed anything, or add its region, populate it and perhaps
fill it -/
theorem loadSegment_cases (v : VmSt) (i : ℕ) (img : List UInt8) (ph : Phdr) : (loadSegment v i img ph).2 = v ∨
    (ammRegionAdd v i ph.region).1 = 0 ∧ ∃ w s, w = (ammRegionAdd v i ph.region).2 ∧
      s = (ammRegionPopulate w.phys (w.vmaps i) ph.segBase ph.segSize { ph.prot with write := true }).2 ∧
      ((loadSegment v i img ph).2 = { w with phys := s } ∨
        (loadSegment v i img ph).2 = { w with phys := (fillSegment s (w.vmaps i) img ph).2 }) := by
  unfold loadSegment
  split_ifs with hbad
  · exact Or.inl rfl
  obtain he | ⟨-, -, map, -, -, he⟩ := ammRegionAdd_cases v i ph.region
  · rw [he]
    exact Or.inl rfl
  rw [he]
  refine Or.inr ⟨rfl, _, _, rfl, rfl, ?_⟩
  dsimp only
  rw [if_neg (by decide)]
  split_ifs
  · exact Or.inl rfl
  · exact Or.inr rfl

/-- **What every segment keeps, the loader keeps.** -/
theorem elfLoad_keeps {P : VmSt → Prop} {i : ℕ} {img : List UInt8}
    (hseg : ∀ v, ∀ ph ∈ loads img, P v → P (loadSegment v i img ph).2) {v : VmSt} (h : P v) : P (elfLoad v i img).2 := by
  have hloop : ∀ offs : List ℕ, (∀ off ∈ offs, (phdrAt img off).type = ptLoad → phdrAt img off ∈ loads img) →
      ∀ v, P v → P (loadFrom i img v offs).2 := by
    intro offs
    induction offs with
    | nil => exact fun _ v hv => hv
    | cons off rest ih =>
      intro hmem v hv
      have hrest := ih fun o ho => hmem o (List.mem_cons_of_mem off ho)
      rw [loadFrom]
      split_ifs with h1 h2 h3
      · exact hv
      · exact hv
      · exact hrest v hv
      have hkeep := hseg v _ (hmem off List.mem_cons_self (not_not.1 h3)) hv
      rcases hl : loadSegment v i img (phdrAt img off) with ⟨_ | _, w⟩ <;> rw [hl] at hkeep
      · exact hkeep
      · exact hrest w hkeep
  unfold elfLoad
  split_ifs with hhdr
  · exact h
  have hall := hloop ((range (ePhnum img)).map (phOff img)) (by
    intro off hoff htype
    obtain ⟨j, hj, rfl⟩ := mem_map.1 hoff
    exact List.mem_filter.2 ⟨mem_map.2 ⟨j, hj, rfl⟩, by simpa using htype⟩) v h
  rcases hl : loadFrom i img v ((range (ePhnum img)).map (phOff img)) with ⟨_ | _, w⟩
  all_goals
    rw [hl] at hall
    exact hall

section

variable {S : ℕ → Prop} {root : ℕ → Option ℕ} {x : MemSt} {p i : ℕ} {s : St} {out : Out}

/-- a write to the lower half of a space touches no table: each chunk stays in one page, and that is a page in use -/
theorem vmChunks_spec {store : Mem → ℕ → ℕ → ℕ → Mem}
    (hstore : ∀ m pa off n y, y < pa ∨ pa + n ≤ y → store m pa off n y = m y) {map : Vmap} {k : ℕ}
    (hk : root k = some map.cr3) (h : Spaces S User root s out) (hl : Leaves User root s.mem out) (fuel dst off len : ℕ)
    (hlow : dst + len ≤ 2 ^ 47) : Spaces S User root (vmChunks store map fuel s dst off len).2 out ∧
      Still User root s.mem (vmChunks store map fuel s dst off len).2.mem := by
  have hrefl : ∀ m, Still User root m m := fun m => ⟨fun _ _ _ => rfl, fun _ _ _ => rfl⟩
  induction fuel generalizing s dst off len with
  | zero => exact ⟨h, hrefl _⟩
  | succ fuel ih =>
    rw [vmChunks]
    dsimp only
    split_ifs with hlen hkva
    · exact ⟨h, hrefl _⟩
    · exact ⟨h, hrefl _⟩
    have hb := h.kva_backed hk hkva
    have hphys := h.kva_phys hk hkva
    have hpage := hl k dst (user_of_lt (by omega)) hb
    set chunk := min (pageSize - dst % pageSize) len with hchunk
    have hsmall : dst % pageSize + chunk ≤ 4096 := by
      simp only [hchunk, pageSize]
      omega
    obtain ⟨hs, hst⟩ := h.data_write hpage (store s.mem (virtToPhys (ammVirtToKva s.mem map dst)) off chunk) (by
        intro y hy
        apply hstore
        simp only [inPage] at hy
        omega)
    have hdst : u64 (dst + chunk) = dst + chunk := by
      apply Nat.mod_eq_of_lt
      omega
    obtain ⟨hs', hst'⟩ := ih hs (hst.leavesOf hl) (u64 (dst + chunk)) (off + chunk) (len - chunk) (by
      omega)
    exact ⟨hs', hst.trans hst'⟩

variable {ph : Phdr}

/-- filling a segment of the lower half touches no table -/
theorem fillSegment_spec {map : Vmap} {k : ℕ} (hk : root k = some map.cr3) (h : Spaces S User root s out)
    (hl : Leaves User root s.mem out) (img : List UInt8) (hlow : ph.vaddr + max ph.filesz ph.memsz ≤ 2 ^ 47) :
    Spaces S User root (fillSegment s map img ph).2 out ∧ Still User root s.mem (fillSegment s map img ph).2.mem := by
  have hcopy : ∀ src m pa off n y, y < pa ∨ pa + n ≤ y → copyStore src m pa off n y = m y := by
    intro src m pa off n y hy
    apply put_out
    simp only [List.length_take]
    omega
  have hzero : ∀ m pa off n y, y < pa ∨ pa + n ≤ y → zeroStore m pa off n y = m y := fun _ _ _ _ _ hy => fill_out hy
  -- the file bytes
  have hfile : ∀ r, r = (if 0 < ph.filesz then vmCopyToUser s map ph.vaddr ((img.drop ph.offset).take ph.filesz)
      else (true, s)) → Spaces S User root r.2 out ∧ Still User root s.mem r.2.mem := by
    rintro r rfl
    split_ifs
    · refine vmChunks_spec (hcopy _) hk h hl _ _ _ _ ?_
      simp only [List.length_take]
      omega
    · exact ⟨h, fun _ _ _ => rfl, fun _ _ _ => rfl⟩
  unfold fillSegment
  have hf := hfile _ rfl
  revert hf
  generalize (if 0 < ph.filesz then vmCopyToUser s map ph.vaddr ((img.drop ph.offset).take ph.filesz) else (true, s)) = r
  rcases r with ⟨_ | _, s1⟩
  · exact id
  intro ⟨hs1, hst1⟩
  split_ifs with hz
  · have hva : u64 (ph.vaddr + ph.filesz) = ph.vaddr + ph.filesz := by
      apply Nat.mod_eq_of_lt
      omega
    obtain ⟨hs2, hst2⟩ := vmChunks_spec hzero hk hs1 (hst1.leavesOf hl) (ph.memsz - ph.filesz)
      (u64 (ph.vaddr + ph.filesz)) 0 (ph.memsz - ph.filesz) (by
        omega)
    exact ⟨hs2, hst1.trans hst2⟩
  · exact ⟨hs1, hst1⟩

/-- the segment ends below 2^47, in the file and in memory -/
def Phdr.Low (ph : Phdr) : Prop := ph.vaddr + max ph.filesz ph.memsz ≤ 2 ^ 47

instance (ph : Phdr) : Decidable ph.Low := inferInstanceAs (Decidable (_ ≤ _))

/-- the region of such a segment consists of whole pages below 2^47 -/
theorem Phdr.Low.region (h : ph.Low) : ph.segBase + ph.segSize ≤ 2 ^ 47 ∧ ph.segBase % 4096 = 0 ∧ ph.segSize % 4096 = 0 := by
  simp only [Phdr.Low, Phdr.segSize, Phdr.segBase, pageAlign, pageAlignDown, u64, pageSize] at *
  omega

section

variable (h : Good S root x) (hi : x.vaMap p = some i)
include h hi

/-- a segment below 2^47 is filled in a good kernel -/
theorem Good.fill (img : List UInt8) (hlow : ph.Low) :
    Good S root (x.setPhys (fillSegment x.vm.phys (x.vm.vmaps i) img ph).2) ∧
    Extends root x (x.setPhys (fillSegment x.vm.phys (x.vm.vmaps i) img ph).2) ∧
    Still User root x.vm.phys.mem (fillSegment x.vm.phys (x.vm.vmaps i) img ph).2.mem := by
  obtain ⟨out, hs, hl⟩ := h.tables
  obtain ⟨hs', hst⟩ := fillSegment_spec (h.roots p i hi) hs hl img hlow
  have hr : Remaps S User root i ph.prot (fun _ => True) x.vm.phys.mem _ := hst.leaves.remaps
  obtain ⟨hgood, hext⟩ := h.remap hs' (hst.leavesOf hl) hr
  exact ⟨hgood, hext, hst⟩

end

end

/-! ## Where an image goes -/

/-- the entry of an image -/
def eEntry : ℕ := word img 24 8

/-- an address of a segment that may be executed -/
def Startable (entry : ℕ) : Prop :=
  ∃ ph ∈ loads img, ph.prot.exec = true ∧ ph.vaddr ≤ entry ∧ entry < ph.vaddr + ph.memsz

/-- the pages of the regions that were added are below 2^47, and the program starts in a segment that may be executed -/
def Confined (old new : List Region) (entry : ℕ) : Prop :=
  (∀ r ∈ new, r ∉ old → ∀ va, r.base ≤ va → va < r.base + r.size → va < 2 ^ 47) ∧ Startable img entry

section Confined

variable {v w : VmSt} {i : ℕ} {img : List UInt8}

theorem loadSegment_ok {ph : Phdr} (h : loadSegment v i img ph = (true, w)) :
    ph.segSize ≠ 0 ∧ ∀ r, r ∈ (w.vmaps i).regions ↔ r = ph.region ∨ r ∈ (v.vmaps i).regions := by
  unfold loadSegment at h
  by_cases hbad : 2 ^ 47 ≤ ph.vaddr ∨ img.length < ph.offset ∨ img.length - ph.offset < ph.filesz ∨ ph.segSize = 0 ∨
      segMax < ph.segSize
  · rw [if_pos hbad] at h
    cases h
  rw [if_neg hbad] at h
  simp only [not_or] at hbad
  refine ⟨hbad.2.2.2.1, fun r => ?_⟩
  obtain he | ⟨-, -, map, -, hmap, he⟩ := ammRegionAdd_cases v i ph.region
  · rw [he] at h
    cases h
  rw [he] at h
  dsimp only at h
  rw [if_neg (by decide)] at h
  split at h
  · cases h
  · have hw : w.vmaps = Function.update v.vmaps i map := (congrArg (fun x => x.2.vmaps) h).symm
    rw [hw, Function.update_self, hmap, mem_insertSorted]

/-- after a load without an error the regions are the old ones and those of the segments -/
theorem loadFrom_ok {offs : List ℕ} (h : loadFrom i img v offs = (true, w)) {phs : List Phdr}
    (hphs : phs = (offs.map (phdrAt img)).filter fun ph => ph.type = ptLoad) :
    (∀ ph ∈ phs, ph.segSize ≠ 0) ∧
      ∀ r, r ∈ (w.vmaps i).regions ↔ r ∈ (v.vmaps i).regions ∨ ∃ ph ∈ phs, r = ph.region := by
  induction offs generalizing v phs with
  | nil =>
    cases h
    simp [hphs]
  | cons off rest ih =>
    rw [loadFrom] at h
    rw [List.map_cons, List.filter_cons] at hphs
    split at h
    · cases h
    split at h
    · cases h
    split at h
    · rename_i h3
      rw [if_neg (by simpa using h3)] at hphs
      exact ih h hphs
    rename_i h3
    rw [if_pos (by simpa using h3)] at hphs
    rcases hl : loadSegment v i img (phdrAt img off) with ⟨_ | _, v1⟩ <;> rw [hl] at h
    · cases h
    obtain ⟨hsize, hregions⟩ := loadSegment_ok hl
    obtain ⟨hsizes, hrest⟩ := ih h rfl
    refine ⟨?_, fun r => ?_⟩
    · rw [hphs]
      exact List.forall_mem_cons.2 ⟨hsize, hsizes⟩
    · rw [hrest, hregions, hphs, List.exists_mem_cons_iff, or_assoc, or_left_comm]

/-- **Confinement.** Every load that succeeds is confined exactly if its segments end below 2^47, as they are rounded to
pages, and its entry is in one that may be executed. -/
theorem elf_confined_iff {entry : ℕ} (h : elfLoad v i img = (entry, w)) (h0 : entry ≠ 0) :
    Confined img (v.vmaps i).regions (w.vmaps i).regions entry ↔
      (∀ ph ∈ loads img, ph.region ∈ (v.vmaps i).regions ∨ ph.segBase + ph.segSize ≤ 2 ^ 47) ∧
      Startable img (eEntry img) := by
  unfold elfLoad at h
  split_ifs at h
  · exact absurd (congrArg Prod.fst h).symm h0
  rcases hl : loadFrom i img v ((range (ePhnum img)).map (phOff img)) with ⟨_ | _, w'⟩ <;> rw [hl] at h
  · exact absurd (congrArg Prod.fst h).symm h0
  obtain ⟨rfl, rfl⟩ := Prod.ext_iff.1 h
  obtain ⟨hsizes, hregions⟩ := loadFrom_ok hl (show loads img = _ by rw [List.map_map]; rfl)
  refine and_congr_left fun _ => ⟨fun hlow ph hph => or_iff_not_imp_left.2 fun hnew => ?_, fun hlow r hr hnew va _ h2 => ?_⟩
  · have hsize : 0 < ph.region.size := Nat.pos_of_ne_zero (hsizes ph hph)
    have hlast := hlow ph.region ((hregions _).2 (Or.inr ⟨ph, hph, rfl⟩)) hnew (ph.region.base + ph.region.size - 1)
      (by omega) (by omega)
    change ph.region.base + ph.region.size ≤ _
    omega
  · obtain ⟨ph, hph, rfl⟩ := ((hregions r).1 hr).resolve_left hnew
    exact lt_of_lt_of_le h2 ((hlow ph hph).resolve_left hnew)

end Confined

/-- an image of one page at 4 MiB, with these p_flags -/
def oneSegment (flags : ℕ) : List UInt8 :=
  pack [(4, 0x464C457F), (1, 2), (1, 1), (10, 0), (2, 2), (2, 62), (4, 1), (8, 0x400000), (8, 64), (8, 0), (4, 0), (2, 64),
    (2, 56), (2, 1), (2, 0), (2, 0), (2, 0)] ++
  pack [(4, 1), (4, flags), (8, 0), (8, 0x400000), (8, 0), (8, 120), (8, 4096), (8, 4096)]

/-- the segment may be read and executed, and the program starts in it -/
theorem elf_confined_iff_one : let v := (ammVmapCreate eightPages).2
    ∃ w, elfLoad v 0 (oneSegment 5) = (0x400000, w) ∧ (w.vmaps 0).regions.map Region.base = [0x400000] ∧
      Confined (oneSegment 5) (v.vmaps 0).regions (w.vmaps 0).regions 0x400000 := by
  intro v
  have hentry : (elfLoad v 0 (oneSegment 5)).1 = 0x400000 := by decide +kernel
  have hregions : ((elfLoad v 0 (oneSegment 5)).2.vmaps 0).regions.map Region.base = [0x400000] := by decide +kernel
  have hloads : loads (oneSegment 5) = [⟨1, 5, 0, 0x400000, 120, 4096⟩] := by decide +kernel
  rcases hl : elfLoad v 0 (oneSegment 5) with ⟨entry, w⟩
  rw [hl] at hentry hregions
  subst hentry
  refine ⟨w, rfl, hregions, (elf_confined_iff hl (by decide)).2 ?_⟩
  have hstart : eEntry (oneSegment 5) = 0x400000 := by decide +kernel
  rw [Startable, hloads, hstart]
  decide

/-- an executable with one program header, which is not to be loaded, and the entry 1 -/
def nullImage : List UInt8 :=
  [0x7f, 0x45, 0x4c, 0x46, 2, 1] ++ replicate 10 0 ++ [2, 0, 62, 0, 1, 0, 0, 0, 1] ++ replicate 7 0 ++ [64] ++
    replicate 21 0 ++ [56, 0, 1] ++ replicate 63 0

theorem nullImage_loads (v : VmSt) (i : ℕ) : elfLoad v i nullImage = (1, v) ∧ ¬ Startable nullImage 1 := by
  have hok : ehdrOk nullImage = true := by decide +kernel
  have hoffs : (range (ePhnum nullImage)).map (phOff nullImage) = [64] := by decide +kernel
  have htype : (phdrAt nullImage 64).type = 0 := by decide +kernel
  have hentry : word nullImage 24 8 = 1 := by decide +kernel
  have hin : ¬ nullImage.length < u64 (64 + phdrSize) := by decide +kernel
  refine ⟨by simp [elfLoad, hok, hoffs, loadFrom, htype, hentry, hin], ?_⟩
  rintro ⟨ph, hph, -⟩
  have hnone : loads nullImage = [] := by decide +kernel
  rw [hnone] at hph
  cases hph

/-- **No segment.** An image without segments is loaded, and its entry is in no segment. -/
theorem null_image_starts : ∃ v i, elfLoad v i nullImage = (1, v) ∧ ¬ Startable nullImage 1 := by
  exact ⟨_, _, nullImage_loads eightPages 0⟩

end OpenASD.Arch
