/-
The hand-over from the firmware to the kernel (boot/asdboot.c: build_and_handoff from "Step 2" on).

The loader asks for the memory map, allocates an array for its translation, asks for the map again, translates it into the
array and calls ExitBootServices with the key of the map; if the firmware refuses, it fetches and translates once more. The
map may change at every call. `buildAndHandoff` is this over an arbitrary firmware: which map is in force at each call, which
key it has, what AllocatePool gives and what a fresh buffer holds.

- `markAll_frees`: an entry that is still FREE touches nothing that was marked, if all entries are looked at;
- `fetchMap_cases`: the loop ends with the map of its last call, or runs out of tries with a buffer that was never filled;
- `handoff_faithful_iff`: the map that the kernel gets is right exactly if the loop got an answer and the map in force at
  ExitBootServices has no more entries than the one that the array was sized for;
- `map_outgrows_array`: the allocation of the array itself makes the map one entry too long.
-/
import OpenASD.Boot.Mmap

namespace OpenASD.Boot

open Mm

/-! ## The firmware -/

structure Firmware where
  /-- `desc_sz` -/
  descSize : ℕ
  /-- the map in force at the k-th call of a boot service -/
  map : ℕ → List EfiMemoryDescriptor
  /-- its key -/
  key : ℕ → ℕ
  /-- what AllocatePool gives if it is the k-th call; 0 if it fails -/
  pool : ℕ → ℕ
  /-- what a buffer allocated by the k-th call holds before it is written -/
  junk : ℕ → ℕ → EfiMemoryDescriptor
  /-- whether GetMemoryMap writes the key also when the buffer is too small -/
  keyOnSmall : Bool

variable (fw : Firmware)

/-- bytes of the map at the k-th call -/
def Firmware.size (k : ℕ) : ℕ := (fw.map k).length * fw.descSize

/-- the firmware's promises -/
structure Firmware.Correct (fw : Firmware) : Prop where
  desc_pos : 0 < fw.descSize
  maps : ∀ k, EfiMap (fw.map k)
  key : ∀ j k, fw.key j = fw.key k → fw.map j = fw.map k

/-! ## The loader -/

/-- the variables of the loader around a GetMemoryMap: number of the next call, map_sz, map_key, and what is in mmap -/
structure Snapshot where
  call : ℕ
  mapSz : ℕ
  mapKey : ℕ
  mmap : List EfiMemoryDescriptor

/-- the variables after a call with a buffer that is too small, a free_pool and an allocate_pool -/
def Snapshot.enlarge (s : Snapshot) : Snapshot where
  call := s.call + 3
  mapSz := fw.size s.call + fw.descSize * 8 + 4096
  mapKey := if fw.keyOnSmall then fw.key s.call else s.mapKey
  mmap := (List.range ((fw.size s.call + fw.descSize * 8 + 4096) / fw.descSize)).map (fw.junk (s.call + 2))

/-- the loop `for (tries = 0; tries < 4; tries++)`. When it runs out of tries, `st` is the EFI_SUCCESS of the last
allocate_pool, and the loader goes on -/
def fetchMap (fw : Firmware) : ℕ → Snapshot → Option Snapshot
  | 0, s => some s
  | tries + 1, s =>
    if fw.size s.call ≤ s.mapSz then some ⟨s.call + 1, fw.size s.call, fw.key s.call, fw.map s.call⟩
    else if fw.pool (s.call + 2) = 0 then none
    else fetchMap fw tries (s.enlarge fw)

/-- what the kernel is started with -/
structure Handoff where
  /-- where everything is -/
  boot : Loaded
  /-- entries that the array was allocated for -/
  arrayCount : ℕ
  /-- `bib->mmap_count` -/
  mmapCount : ℕ
  /-- the entries written from the array's start on -/
  entries : List MmapEntry
  /-- the call of ExitBootServices that succeeded -/
  call : ℕ
  /-- the variables before the last loop -/
  start : Snapshot

def handOver (b : Loaded) (count : ℕ) (start s : Snapshot) : Handoff where
  boot := b
  arrayCount := count
  mmapCount := s.mapSz / fw.descSize % 2 ^ 32
  entries := bootMap b count s.mmap
  call := s.call
  start := start

/-- `build_and_handoff` after the files are read; ld says what they gave. The allocations are calls 0 (command line),
2 (map), 4 (boot information block) and 5 (array) -/
def buildAndHandoff (ld : Loaded) : Option Handoff :=
  if fw.pool 2 = 0 ∨ fw.size 1 + fw.descSize * 8 < fw.size 3 then none
  else
    let count := fw.size 3 / fw.descSize
    let b := { ld with cmdlineBuf := fw.pool 0, bib := fw.pool 4, asdMmap := fw.pool 5 }
    let s0 : Snapshot := ⟨6, fw.size 3, fw.key 3, fw.map 3⟩
    match fetchMap fw 4 s0 with
    | none => none
    | some s =>
      if fw.key s.call = s.mapKey then some (handOver fw b count s0 s)
      else
        let s1 := { s with call := s.call + 1 }
        match fetchMap fw 4 s1 with
        | none => none
        | some t => if fw.key t.call = t.mapKey then some (handOver fw b count s1 t) else none

/-! ## What a hand-over has to be -/

structure Mark where
  base : ℕ
  size : ℕ
  type : MemType

/-- the test of mark_asd_range -/
def Mark.Touches (r : Mark) (m : MmapEntry) : Prop :=
  ¬ (u64 (r.base + r.size + 0xFFF) / 4096 * 4096 ≤ m.base ∨ u64 (m.base + m.pages * 4096) ≤ r.base / 4096 * 4096)

def Loaded.kernelRange (b : Loaded) : ℕ × ℕ :=
  if b.kernelPhysLo ≠ 0 ∧ b.kernelPhysHi ≠ 0 ∧ b.kernelPhysLo < b.kernelPhysHi then
    (b.kernelPhysLo, b.kernelPhysHi - b.kernelPhysLo)
  else (b.kernelBuf, b.kernelSz)

/-- what mark_boot_reserved marks -/
def Loaded.marks (b : Loaded) (count : ℕ) : List Mark :=
  [⟨b.bib, bibSize, .loader⟩, ⟨b.asdMmap, mmapEntrySize * count, .loader⟩,
    ⟨b.cmdlineBuf, if b.cmdlineLen = 0 then 0 else b.cmdlineLen + 1, .loader⟩, ⟨b.initrdBuf, b.initrdSz, .initrd⟩,
    ⟨b.kernelRange.1, b.kernelRange.2, .kernel⟩,
    ⟨b.fbPhys, if b.bib = 0 then 0 else u64 (b.fbStride * b.fbHeight), .fb⟩]

/-- what must not be given away: boot information block, map array, command line, initrd and kernel -/
def Loaded.objects (b : Loaded) (count : ℕ) : List (ℕ × ℕ) :=
  [(b.bib, bibSize), (b.asdMmap, mmapEntrySize * count), (b.cmdlineBuf, b.cmdlineLen), (b.initrdBuf, b.initrdSz),
    b.kernelRange]

/-- the entry and the object have a byte in common -/
def Overlaps (m : MmapEntry) (o : ℕ × ℕ) : Prop :=
  ∃ x, (m.base ≤ x ∧ x < m.base + m.pages * 4096) ∧ o.1 ≤ x ∧ x < o.1 + o.2

/-- base and size are the firmware's, and so is the type unless the entry touches something that is marked -/
structure Translates (rs : List Mark) (e : EfiMemoryDescriptor) (m : MmapEntry) : Prop where
  base : m.base = e.physicalStart
  pages : m.pages = e.numPages
  type : m.type = efiMemTypeToAsd e.type ∨ ∃ r ∈ rs, m.type = r.type ∧ r.Touches m

structure Faithful (fw : Firmware) (h : Handoff) : Prop where
  translated : List.Forall₂ (Translates (h.boot.marks h.arrayCount)) (fw.map h.call) h.entries
  fits : h.entries.length ≤ h.arrayCount
  count : h.mmapCount = h.entries.length
  free : ∀ m ∈ h.entries, m.type = .free → ∀ o ∈ h.boot.objects h.arrayCount, ¬ Overlaps m o

/-- one of the calls of the loop finds its buffer large enough -/
def Answered (fw : Firmware) : ℕ → Snapshot → Prop
  | 0, _ => False
  | tries + 1, s => fw.size s.call ≤ s.mapSz ∨ Answered fw tries (s.enlarge fw)

/-- an object is not at NULL and not in the last page of the address space -/
def Placed (o : ℕ × ℕ) : Prop := o.2 ≠ 0 → o.1 ≠ 0 ∧ o.1 + o.2 + 0x1000 < 2 ^ 64

/-! ## Marks -/

def markAll (count : ℕ) (rs : List Mark) (l : List MmapEntry) : List MmapEntry :=
  rs.foldl (fun l r => markAsdRange count r.base r.size r.type l) l

theorem markAsdRange_skip {count base size : ℕ} {type : MemType} {l : List MmapEntry} (h : base = 0 ∨ size = 0) :
    markAsdRange count base size type l = l := if_pos h

/-- the conditions before the calls of mark_asd_range only leave out calls that do nothing -/
theorem markBootReserved_eq (b : Loaded) (count : ℕ) (l : List MmapEntry) :
    markBootReserved b count l = markAll count (b.marks count) l := by
  have guard : ∀ (c : Prop) [Decidable c] (base size : ℕ) (type : MemType) (l : List MmapEntry), (¬ c → base = 0 ∨ size = 0) →
      (if c then markAsdRange count base size type l else l) = markAsdRange count base size type l := by
    intro c _ base size type l hskip
    split_ifs with hc
    · rfl
    · rw [markAsdRange_skip (hskip hc)]
  have cmdline : ∀ l, (if b.cmdlineBuf ≠ 0 ∧ b.cmdlineLen ≠ 0 then
      markAsdRange count b.cmdlineBuf (b.cmdlineLen + 1) .loader l else l) =
      markAsdRange count b.cmdlineBuf (if b.cmdlineLen = 0 then 0 else b.cmdlineLen + 1) .loader l := by
    intro l
    by_cases hlen : b.cmdlineLen = 0
    · rw [if_neg (fun h => h.2 hlen), if_pos hlen, markAsdRange_skip (.inr rfl)]
    · rw [if_neg hlen]
      exact guard _ _ _ _ _ fun h => .inl (by tauto)
  have kernel : ∀ l, (if b.kernelPhysLo ≠ 0 ∧ b.kernelPhysHi ≠ 0 ∧ b.kernelPhysLo < b.kernelPhysHi then
      markAsdRange count b.kernelPhysLo (b.kernelPhysHi - b.kernelPhysLo) .kernel l
      else if b.kernelBuf ≠ 0 ∧ b.kernelSz ≠ 0 then markAsdRange count b.kernelBuf b.kernelSz .kernel l else l) =
      markAsdRange count b.kernelRange.1 b.kernelRange.2 .kernel l := by
    intro l
    unfold Loaded.kernelRange
    by_cases helf : b.kernelPhysLo ≠ 0 ∧ b.kernelPhysHi ≠ 0 ∧ b.kernelPhysLo < b.kernelPhysHi
    · rw [if_pos helf, if_pos helf]
    · rw [if_neg helf, if_neg helf]
      exact guard _ _ _ _ _ fun h => by tauto
  have fb : ∀ l, (if b.bib ≠ 0 ∧ b.fbPhys ≠ 0 ∧ b.fbStride ≠ 0 ∧ b.fbHeight ≠ 0 then
      markAsdRange count b.fbPhys (u64 (b.fbStride * b.fbHeight)) .fb l else l) =
      markAsdRange count b.fbPhys (if b.bib = 0 then 0 else u64 (b.fbStride * b.fbHeight)) .fb l := by
    intro l
    by_cases hbib : b.bib = 0
    · rw [if_neg (fun h => h.1 hbib), if_pos hbib, markAsdRange_skip (.inr rfl)]
    rw [if_neg hbib]
    refine guard _ _ _ _ _ fun h => ?_
    by_cases hphys : b.fbPhys = 0
    · exact .inl hphys
    · right
      rcases (by tauto : b.fbStride = 0 ∨ b.fbHeight = 0) with h0 | h0 <;> simp [h0, u64]
  unfold markBootReserved
  simp only [cmdline, kernel, fb, guard _ _ _ _ _ (fun h : ¬ (b.initrdBuf ≠ 0 ∧ b.initrdSz ≠ 0) => by tauto)]
  rfl

section

variable {count : ℕ} {r : Mark} {rs : List Mark} {l : List MmapEntry} {m m' : MmapEntry}

/-- what marks may do to an entry -/
structure MarkedBy (rs : List Mark) (m m' : MmapEntry) : Prop where
  base : m'.base = m.base
  pages : m'.pages = m.pages
  type : m'.type = m.type ∨ ∃ r ∈ rs, m'.type = r.type ∧ r.Touches m'

theorem MarkedBy.refl (rs : List Mark) (m : MmapEntry) : MarkedBy rs m m := ⟨rfl, rfl, .inl rfl⟩

theorem Mark.Touches.congr (h : r.Touches m) (hb : m'.base = m.base) (hp : m'.pages = m.pages) : r.Touches m' := by
  unfold Mark.Touches at h ⊢
  rwa [hb, hp]

theorem MarkedBy.trans {m'' : MmapEntry} (h : MarkedBy [r] m m') (h' : MarkedBy rs m' m'') : MarkedBy (r :: rs) m m'' := by
  refine ⟨h'.base.trans h.base, h'.pages.trans h.pages, ?_⟩
  rcases h'.type with hsame | ⟨q, hq, ht, htouch⟩
  · rcases h.type with hsame' | ⟨q, hq, ht, htouch⟩
    · exact .inl (hsame.trans hsame')
    · obtain rfl := List.mem_singleton.1 hq
      exact .inr ⟨q, List.mem_cons_self, hsame.trans ht, htouch.congr h'.base h'.pages⟩
  · exact .inr ⟨q, List.mem_cons_of_mem r hq, ht, htouch⟩

theorem markFrom_markedBy (r : Mark) (n : ℕ) (l : List MmapEntry) : List.Forall₂ (MarkedBy [r]) l
      (markFrom (r.base / 4096 * 4096) (u64 (r.base + r.size + 0xFFF) / 4096 * 4096) r.type n l) := by
  induction l generalizing n with
  | nil => cases n <;> exact List.Forall₂.nil
  | cons m l ih =>
    cases n with
    | zero => exact List.forall₂_same.2 fun m _ => MarkedBy.refl [r] m
    | succ n =>
      refine List.Forall₂.cons ?_ (ih n)
      split_ifs with hfar
      · exact MarkedBy.refl [r] m
      · exact ⟨rfl, rfl, .inr ⟨r, List.mem_singleton_self r, rfl, hfar⟩⟩

theorem markAsdRange_markedBy (count : ℕ) (r : Mark) (l : List MmapEntry) :
    List.Forall₂ (MarkedBy [r]) l (markAsdRange count r.base r.size r.type l) := by
  unfold markAsdRange
  split_ifs
  · exact List.forall₂_same.2 fun m _ => MarkedBy.refl [r] m
  · exact markFrom_markedBy r count l

theorem MarkedBy.comp {l' l'' : List MmapEntry} (h : List.Forall₂ (MarkedBy [r]) l l')
    (h' : List.Forall₂ (MarkedBy rs) l' l'') : List.Forall₂ (MarkedBy (r :: rs)) l l'' := by
  induction h generalizing l'' with
  | nil =>
    cases h'
    exact List.Forall₂.nil
  | cons hm _ ih =>
    cases h' with
    | cons hm' h' => exact List.Forall₂.cons (hm.trans hm') (ih h')

theorem markAll_markedBy (count : ℕ) (rs : List Mark) (l : List MmapEntry) :
    List.Forall₂ (MarkedBy rs) l (markAll count rs l) := by
  induction rs generalizing l with
  | nil => exact List.forall₂_same.2 fun m _ => MarkedBy.refl [] m
  | cons r rs ih =>
    exact MarkedBy.comp (markAsdRange_markedBy count r l) (ih (markAsdRange count r.base r.size r.type l))

theorem markFrom_frees (hr : r.type ≠ .free) {n : ℕ} (hn : l.length ≤ n)
    (hm : m ∈ markFrom (r.base / 4096 * 4096) (u64 (r.base + r.size + 0xFFF) / 4096 * 4096) r.type n l)
    (hfree : m.type = .free) : ¬ r.Touches m := by
  induction l generalizing n with
  | nil => cases n <;> cases hm
  | cons k l ih =>
    cases n with
    | zero => exact absurd hn (Nat.not_succ_le_zero _)
    | succ n =>
      rcases List.mem_cons.1 hm with rfl | hm
      · split_ifs at hfree ⊢ with hfar
        · exact not_not.2 hfar
        · exact absurd hfree hr
      · exact ih (Nat.le_of_succ_le_succ hn) hm

/-- **Marks.** If every entry is looked at, one that is still FREE touches nothing that was marked. -/
theorem markAll_frees (hrs : ∀ r ∈ rs, r.type ≠ .free) (hcount : l.length ≤ count) (hm : m ∈ markAll count rs l)
    (hfree : m.type = .free) : ∀ r ∈ rs, r.base ≠ 0 → r.size ≠ 0 → ¬ r.Touches m := by
  induction rs generalizing l with
  | nil => simp
  | cons q rs ih =>
    intro r hr hbase hsize
    have hmark := markAsdRange_markedBy count q l
    have hlen := hmark.length_eq
    rcases List.mem_cons.1 hr with rfl | hr
    · -- the entry before the other marks was FREE too, and the mark r has just left it so
      obtain ⟨k, hk, hmk⟩ := mem_of_forall₂ (markAll_markedBy count rs (markAsdRange count r.base r.size r.type l)) hm
      have hkfree : k.type = .free := by
        rcases hmk.type with hsame | ⟨q', hq', ht, -⟩
        · rw [← hsame, hfree]
        · exact absurd (ht.symm.trans hfree) (hrs q' (List.mem_cons_of_mem r hq'))
      rw [markAsdRange, if_neg (not_or.2 ⟨hbase, hsize⟩)] at hk
      intro htouch
      exact markFrom_frees (hrs r List.mem_cons_self) hcount hk hkfree (htouch.congr hmk.base.symm hmk.pages.symm)
    · exact ih (fun r hr => hrs r (List.mem_cons_of_mem q hr)) (hlen ▸ hcount) hm r hr hbase hsize

end

/-! ## From the firmware's map to the kernel's -/

section

variable (b : Loaded) (count : ℕ) (efi : List EfiMemoryDescriptor)

theorem bootMap_eq : bootMap b count efi = markAll count (b.marks count) (buildAsdMmap efi) :=
  markBootReserved_eq b count _

theorem bootMap_translates : List.Forall₂ (Translates (b.marks count)) efi (bootMap b count efi) := by
  rw [bootMap_eq]
  have h := markAll_markedBy count (b.marks count) (buildAsdMmap efi)
  rw [buildAsdMmap, List.forall₂_map_left_iff] at h
  exact h.imp fun _ _ hm => ⟨hm.base, hm.pages, hm.type⟩

theorem length_bootMap : (bootMap b count efi).length = efi.length :=
  (bootMap_translates b count efi).length_eq.symm

theorem Loaded.marks_type : ∀ r ∈ b.marks count, r.type ≠ .free := by
  simp [Loaded.marks]

variable {b count efi} {m : MmapEntry} {o : ℕ × ℕ}

theorem Overlaps.touches {r : Mark} (h : Overlaps m o) (hb : r.base = o.1) (hs : o.2 ≤ r.size)
    (hs' : r.size ≤ o.2 + 1) (hp : o.1 + o.2 + 0x1000 < 2 ^ 64) (hm : m.base + m.pages * 4096 < 2 ^ 64) : r.Touches m := by
  obtain ⟨x, ⟨h1, h2⟩, h3, h4⟩ := h
  unfold Mark.Touches
  rw [hb, u64, u64, Nat.mod_eq_of_lt hm, Nat.mod_eq_of_lt (by omega)]
  omega

/-- every object has its mark -/
theorem Loaded.object_marked (ho : o ∈ b.objects count) (hsize : o.2 ≠ 0) :
    ∃ r ∈ b.marks count, r.base = o.1 ∧ o.2 ≤ r.size ∧ r.size ≤ o.2 + 1 := by
  simp only [Loaded.objects, List.mem_cons, List.not_mem_nil, or_false] at ho
  rcases ho with rfl | rfl | rfl | rfl | rfl
  · exact ⟨_, List.mem_cons_self, rfl, le_rfl, Nat.le_succ _⟩
  · exact ⟨_, List.mem_cons_of_mem _ List.mem_cons_self, rfl, le_rfl, Nat.le_succ _⟩
  · refine ⟨⟨b.cmdlineBuf, if b.cmdlineLen = 0 then 0 else b.cmdlineLen + 1, .loader⟩, by simp [Loaded.marks], rfl, ?_⟩
    simp only [hsize, if_false]
    exact ⟨Nat.le_succ _, le_rfl⟩
  · exact ⟨⟨b.initrdBuf, b.initrdSz, .initrd⟩, by simp [Loaded.marks], rfl, le_rfl, Nat.le_succ _⟩
  · exact ⟨⟨b.kernelRange.1, b.kernelRange.2, .kernel⟩, by simp [Loaded.marks], rfl, le_rfl, Nat.le_succ _⟩

/-- no FREE entry overlaps an object, if the loader looks at every entry -/
theorem bootMap_frees (he : EfiMap efi) (hcount : efi.length ≤ count) (hm : m ∈ bootMap b count efi)
    (hfree : m.type = .free) (ho : o ∈ b.objects count) (hp : Placed o) : ¬ Overlaps m o := by
  intro hover
  obtain ⟨e, hmem, htr⟩ : ∃ e ∈ efi, Translates (b.marks count) e m :=
    mem_of_forall₂ (bootMap_translates b count efi) hm
  have hwrap : m.base + m.pages * 4096 < 2 ^ 64 := by
    rw [htr.base, htr.pages]
    exact he.noWrap e hmem
  have hsize : o.2 ≠ 0 := by
    obtain ⟨x, -, h3, h4⟩ := hover
    omega
  obtain ⟨hbase, hend⟩ := hp hsize
  obtain ⟨r, hr, hrb, hrs, hrs'⟩ := Loaded.object_marked ho hsize
  rw [bootMap_eq] at hm
  refine markAll_frees (b.marks_type count) ?_ hm hfree r hr (hrb ▸ hbase) (by omega) (hover.touches hrb hrs hrs' hend hwrap)
  simpa [buildAsdMmap] using hcount

end

/-! ## Fetching the map -/

section

variable {fw : Firmware} {s t : Snapshot}

/-- the variables after a GetMemoryMap, as the k-th call, that fills the buffer -/
def snapshotAt (fw : Firmware) (k : ℕ) : Snapshot := ⟨k + 1, fw.size k, fw.key k, fw.map k⟩

/-- the key that the loader has is that of a map not larger than map_sz -/
def Known (fw : Firmware) (s : Snapshot) : Prop := ∃ j, fw.key j = s.mapKey ∧ fw.size j ≤ s.mapSz

/-- the loader takes the buffer to have more entries than the map of its key has -/
def Unfilled (fw : Firmware) (s : Snapshot) : Prop := ∃ j, fw.key j = s.mapKey ∧ (fw.map j).length < s.mmap.length

theorem known_snapshotAt (fw : Firmware) (k : ℕ) : Known fw (snapshotAt fw k) := ⟨k, rfl, le_rfl⟩

section

variable (hd : 0 < fw.descSize)
include hd

theorem size_div (k : ℕ) : fw.size k / fw.descSize = (fw.map k).length := Nat.mul_div_cancel _ hd

/-- a larger buffer is for more entries than any map that the loader has a key of -/
theorem enlarge_unfilled (hs : Known fw s) (hsmall : s.mapSz < fw.size s.call) :
    Known fw (s.enlarge fw) ∧ Unfilled fw (s.enlarge fw) := by
  obtain ⟨j, hkey, hsize⟩ : ∃ j, fw.key j = (s.enlarge fw).mapKey ∧ fw.size j ≤ fw.size s.call := by
    obtain ⟨j, hkey, hsize⟩ := hs
    cases hflag : fw.keyOnSmall with
    | true => exact ⟨s.call, by simp [Snapshot.enlarge, hflag], le_rfl⟩
    | false => exact ⟨j, by simp [Snapshot.enlarge, hflag, hkey], by omega⟩
  refine ⟨⟨j, hkey, ?_⟩, ⟨j, hkey, ?_⟩⟩
  · simp only [Snapshot.enlarge]
    omega
  have hroom : ((fw.map j).length + 1) * fw.descSize ≤ fw.size s.call + fw.descSize * 8 + 4096 := by
    rw [Nat.succ_mul]
    have : (fw.map j).length * fw.descSize = fw.size j := rfl
    omega
  simpa [Snapshot.enlarge] using (Nat.le_div_iff_mul_le hd).2 hroom

/-- **The loop.** It ends with the map of its last call, or after its tries with a buffer that was never filled. -/
theorem fetchMap_cases {n : ℕ} (hs : Known fw s) (h0 : n = 0 → Unfilled fw s) (h : fetchMap fw n s = some t) :
    Known fw t ∧ (Answered fw n s ∧ (∃ k, t = snapshotAt fw k) ∨ ¬ Answered fw n s ∧ Unfilled fw t) := by
  induction n generalizing s with
  | zero =>
    obtain rfl := Option.some.inj h
    exact ⟨hs, .inr ⟨id, h0 rfl⟩⟩
  | succ n ih =>
    rw [fetchMap] at h
    by_cases hfit : fw.size s.call ≤ s.mapSz
    · rw [if_pos hfit] at h
      obtain rfl := Option.some.inj h
      exact ⟨known_snapshotAt fw s.call, .inl ⟨.inl hfit, s.call, rfl⟩⟩
    rw [if_neg hfit] at h
    obtain ⟨-, h⟩ := Option.ite_none_left_eq_some.1 h
    obtain ⟨hknown, hun⟩ := enlarge_unfilled hd hs (Nat.lt_of_not_le hfit)
    have hanswer : Answered fw (n + 1) s ↔ Answered fw n (s.enlarge fw) := or_iff_right hfit
    rw [hanswer]
    exact ih hknown (fun _ => hun) h

/-- the last loop before a successful ExitBootServices -/
theorem buildAndHandoff_cases {ld : Loaded} {h : Handoff} (hrun : buildAndHandoff fw ld = some h) :
    ∃ b s t, Known fw s ∧ fetchMap fw 4 s = some t ∧ fw.key t.call = t.mapKey ∧
      h = handOver fw b (fw.map 3).length s t := by
  obtain ⟨-, hrun⟩ := Option.ite_none_left_eq_some.1 hrun
  rw [size_div hd] at hrun
  have hs0 : Known fw ⟨6, fw.size 3, fw.key 3, fw.map 3⟩ := ⟨3, rfl, le_rfl⟩
  cases hf : fetchMap fw 4 ⟨6, fw.size 3, fw.key 3, fw.map 3⟩ with
  | none => simp [hf] at hrun
  | some s =>
    simp only [hf] at hrun
    by_cases hkey : fw.key s.call = s.mapKey
    · rw [if_pos hkey] at hrun
      exact ⟨_, _, s, hs0, hf, hkey, (Option.some.inj hrun).symm⟩
    rw [if_neg hkey] at hrun
    -- once more, from what the first loop has left
    have hs1 : Known fw { s with call := s.call + 1 } := (fetchMap_cases hd (n := 4) hs0 (fun h => absurd h (by decide)) hf).1
    cases hg : fetchMap fw 4 { s with call := s.call + 1 } with
    | none => simp [hg] at hrun
    | some t =>
      simp only [hg] at hrun
      obtain ⟨hkey', hrun⟩ := Option.ite_none_right_eq_some.1 hrun
      exact ⟨_, _, t, hs1, hg, hkey', (Option.some.inj hrun).symm⟩

end

end

/-! ## The hand-over -/

/-- **The hand-over.** For every correct firmware and every hand-over: the kernel gets a translation of the map in force at
ExitBootServices that fits into its array, with the right count and no FREE entry over what is in use, if and only if one of
the calls of the last loop got the map and it has no more entries than the array was sized for (and fewer than 2^32). -/
theorem handoff_faithful_iff {fw : Firmware} (hfw : fw.Correct) {ld : Loaded} {h : Handoff}
    (hrun : buildAndHandoff fw ld = some h) (hplaced : ∀ o ∈ h.boot.objects h.arrayCount, Placed o) :
    Faithful fw h ↔ Answered fw 4 h.start ∧ (fw.map h.call).length ≤ (fw.map 3).length ∧
      (fw.map h.call).length < 2 ^ 32 := by
  obtain ⟨b, s, t, hs, hfetch, hkey, rfl⟩ := buildAndHandoff_cases hfw.desc_pos hrun
  have hlen : (handOver fw b (fw.map 3).length s t).entries.length = t.mmap.length := length_bootMap _ _ _
  obtain ⟨-, ⟨hans, k, rfl⟩ | ⟨hno, j, hj, hlt⟩⟩ := fetchMap_cases hfw.desc_pos (n := 4) hs (fun h => absurd h (by decide)) hfetch
  · -- the buffer holds the map that is in force
    have hcall : fw.map (handOver fw b (fw.map 3).length s (snapshotAt fw k)).call = fw.map k := hfw.key _ _ hkey
    have hcount : (handOver fw b (fw.map 3).length s (snapshotAt fw k)).mmapCount = (fw.map k).length % 2 ^ 32 := by
      simp only [handOver, snapshotAt, size_div hfw.desc_pos]
    rw [hcall]
    constructor
    · intro hf
      have hfits := hf.fits
      have hsame := hf.count
      rw [hlen] at hfits hsame
      exact ⟨hans, hfits, hsame ▸ Nat.mod_lt _ (Nat.two_pow_pos 32)⟩
    rintro ⟨-, hfits, hlt⟩
    refine ⟨?_, hlen ▸ hfits, ?_, ?_⟩
    · rw [hcall]
      exact bootMap_translates b _ (fw.map k)
    · rw [hcount, hlen, Nat.mod_eq_of_lt hlt]
      rfl
    · intro m hm hfree o ho
      exact bootMap_frees (hfw.maps k) hfits hm hfree ho (hplaced o ho)
  · -- the key is that of a map with fewer entries than the kernel is told
    constructor
    · intro hf
      have htrans := hf.translated.length_eq
      have hcall : fw.map (handOver fw b (fw.map 3).length s t).call = fw.map j := hfw.key _ _ (hkey.trans hj.symm)
      rw [hlen, hcall] at htrans
      exact absurd htrans hlt.ne
    · rintro ⟨hans, -⟩
      exact absurd hans hno

/-- the small PC with a map that changes at the sixth call, if at all -/
def pcFirmware (later : List EfiMemoryDescriptor) : Firmware where
  descSize := 48
  map := fun k => if k < 6 then pcEfi else later
  key := fun k => if k < 6 then 0 else 1
  pool := fun k => 0x4102000 + k * 0x100
  junk := fun _ _ => ⟨0, 0, 0⟩
  keyOnSmall := false

theorem pcFirmware_correct {later : List EfiMemoryDescriptor} (h : EfiMap later) : (pcFirmware later).Correct := by
  refine ⟨Nat.succ_pos 47, fun k => ?_, fun j k hkey => ?_⟩
  · simp only [pcFirmware]
    split_ifs
    · exact pcEfi_map
    · exact h
  simp only [pcFirmware] at hkey ⊢
  split_ifs at hkey ⊢ <;> rfl

theorem handoff_faithful_iff_pc : ∃ h, buildAndHandoff (pcFirmware pcEfi) pcLoaded = some h ∧
    h.mmapCount = 3 ∧ Faithful (pcFirmware pcEfi) h := by
  have hrun : buildAndHandoff (pcFirmware pcEfi) pcLoaded = some _ := rfl
  refine ⟨_, hrun, by decide, (handoff_faithful_iff (pcFirmware_correct pcEfi_map) hrun ?_).2 ⟨.inl ?_, ?_, ?_⟩⟩
  · unfold Placed
    decide
  · decide
  · decide
  · decide

/-- the map when the pool has taken a page of conventional memory -/
def grownEfi : List EfiMemoryDescriptor := [⟨7, 0, 160⟩, ⟨2, 0x100000, 1⟩, ⟨7, 0x101000, 16383⟩, ⟨2, 0x4100000, 16⟩]

theorem grownEfi_map : EfiMap grownEfi := by
  refine ⟨by decide, by decide, ?_⟩
  simp only [grownEfi, List.pairwise_cons, List.mem_cons, List.not_mem_nil, or_false, forall_eq_or_imp, forall_eq,
    EfiMemoryDescriptor.has, List.Pairwise.nil, and_true, false_implies, implies_true, pageSize]
  refine ⟨⟨fun x => ?_, fun x => ?_, fun x => ?_⟩, ⟨fun x => ?_, fun x => ?_⟩, fun x => ?_⟩ <;> omega

/-- **The map outgrows its array.** The map has three entries when the array is allocated and four afterwards: the loader
writes four entries into an array of three. -/
theorem map_outgrows_array : (pcFirmware grownEfi).Correct ∧ ∃ h, buildAndHandoff (pcFirmware grownEfi) pcLoaded = some h ∧
    h.arrayCount = 3 ∧ h.entries.length = 4 ∧ h.mmapCount = 4 :=
  ⟨pcFirmware_correct grownEfi_map, _, rfl, by decide, by decide, by decide⟩

end OpenASD.Boot
