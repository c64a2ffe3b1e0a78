/-
The kernel heap (kernel/mm/mm.c: slab_class, slab_new, kmalloc, kfree).
This module is the model and the lemmas about one slab header; `Mm.Heap` proves what runs of the heap keep.

A slab is one buddy block. Its header is the first 64 bytes of the block, in memory as the source lays it out:
`free_count` at 0, `obj_size` at 4, `capacity` at 8 (32-bit words), `next` at 16 (pointer), `bitmap` at 24 (36 bytes).
The list of slabs of a class is the Lean list of their physical addresses, head first; the `next` words are written to
memory as well. Pointers given to callers are virtual, PHYS_MAP_BASE above the physical address; 0 is NULL.

`kmalloc` is `none` where its search for an order never ends: for sizes above 2^63 the shifted page size wraps to 0.
-/
import OpenASD.Core.Bitmap
import OpenASD.Mm.Phys

namespace OpenASD.Mm

open ByteMem Bitmap

abbrev slabHdrSz : ℕ := 64

def slabSizes : List ℕ := [8, 16, 32, 64, 128, 256, 512, 1024, 2048, 4096]

def slabSize (cls : ℕ) : ℕ := slabSizes.getD cls 0

def slabClass (size : ℕ) : Option ℕ := slabSizes.findIdx? fun n => decide (size ≤ n)

def physToVirt (p : ℕ) : ℕ := u64 (physMapBase + p)

def virtToPhys (v : ℕ) : ℕ := u64 (v + (2 ^ 64 - physMapBase))

theorem virtToPhys_physToVirt {p : ℕ} (h : p < 2 ^ 64) : virtToPhys (physToVirt p) = p := by
  simp only [virtToPhys, physToVirt, u64, physMapBase]
  omega

/-! ## Slab headers -/

def hdrFree (m : Mem) (s : ℕ) : ℕ := read m s 4
def hdrSize (m : Mem) (s : ℕ) : ℕ := read m (s + 4) 4
def hdrCap (m : Mem) (s : ℕ) : ℕ := read m (s + 8) 4

/-- address of the bitmap -/
def hdrMap (s : ℕ) : ℕ := s + 24

/-- pages of a slab -/
def slabPages (cls : ℕ) : ℕ := if 2048 ≤ slabSize cls then 2 else 1

def slabOrder (cls : ℕ) : ℕ := if slabPages cls = 2 then 1 else 0

/-- `(slab_pages * PAGE_SIZE - SLAB_HDR_SZ) / obj_sz` -/
def rawCap (cls : ℕ) : ℕ := (slabPages cls * pageSize - slabHdrSz) / slabSize cls

/-- the header that `slab_new` writes: `free_count` is set before `capacity` is cut to 288 -/
def newHeader (m : Mem) (s cls : ℕ) : Mem :=
  let m := fill m s slabHdrSz 0
  let m := write m (s + 4) 4 (slabSize cls)
  let m := write m (s + 8) 4 (rawCap cls)
  let m := write m s 4 (hdrCap m s)
  if 288 < hdrCap m s then write m (s + 8) 4 288 else m

/-- the heap: physical memory and `g_slab_heads` -/
structure Heap where
  st : St
  heads : ℕ → List ℕ

/-- `slab_new`: none is NULL -/
def slabNew (s : St) (cls : ℕ) : Option ℕ × St :=
  let r := ammPhysAlloc s (slabOrder cls)
  if r.1 = 0 then (none, r.2) else (some r.1, r.2.setMem (newHeader r.2.mem r.1 cls))

/-- put a new slab at the head of its list -/
def pushSlab (h : Heap) (cls s : ℕ) : Heap :=
  { st := h.st.setMem (write h.st.mem (s + 16) 8 (link (h.heads cls)))
    heads := Function.update h.heads cls (s :: h.heads cls) }

/-! ## kmalloc -/

/-- the slot that the bitmap search settles on: 0 when every bit is set -/
def freeSlot (m : Mem) (s : ℕ) : ℕ := (firstZero m (hdrMap s) (hdrCap m s)).getD 0

/-- mark a slot taken and count it -/
def takeSlot (m : Mem) (s slot : ℕ) : Mem :=
  let m := setBit m (hdrMap s) slot
  write m s 4 ((hdrFree m s + 2 ^ 32 - 1) % 2 ^ 32)

def allocSlot (h : Heap) (cls s : ℕ) : ℕ × Heap :=
  let slot := freeSlot h.st.mem s
  (physToVirt (s + slabHdrSz + slot * slabSize cls),
    { h with st := h.st.setMem (takeSlot h.st.mem s slot) })

/-- the first slab of the list with `free_count` not 0 -/
def openSlab (h : Heap) (cls : ℕ) : Option ℕ := (h.heads cls).find? fun s => decide (hdrFree h.st.mem s ≠ 0)

/-- the order of a large allocation; from order 52 on the shifted page size is 0 in 64 bits -/
def largeOrder (size : ℕ) : Option ℕ := (List.range 52).find? fun o => decide (size ≤ pageSize <<< o)

def kmalloc (h : Heap) (size : ℕ) : Option (ℕ × Heap) :=
  if size = 0 then some (0, h)
  else
    match slabClass size with
    | none =>
      match largeOrder size with
      | none => none
      | some order =>
        let r := ammPhysAlloc h.st order
        some (if r.1 = 0 then 0 else physToVirt r.1, { h with st := r.2 })
    | some cls =>
      match openSlab h cls with
      | some s => some (allocSlot h cls s)
      | none =>
        match slabNew h.st cls with
        | (none, st) => some (0, { h with st })
        | (some s, st) => some (allocSlot (pushSlab { h with st } cls s) cls s)

/-! ## kfree -/

/-- `obj_size` looks like that of a slab -/
def looksSlab (m : Mem) (s : ℕ) : Bool := decide (8 ≤ hdrSize m s ∧ hdrSize m s ≤ 4096)

/-- mark a slot free and count it -/
def dropSlot (m : Mem) (s slot : ℕ) : Mem :=
  let m := clearBit m (hdrMap s) slot
  write m s 4 ((hdrFree m s + 1) % 2 ^ 32)

/-- the header that `kfree` works with: the page of the pointer, or the page before it when that page's tag has order 1
and the page is the second of a pair -/
def hdrOf (s : St) (ptr : ℕ) : ℕ :=
  let p := virtToPhys (ptr / pageSize * pageSize)
  if (s.info (p / pageSize)).order = 1 ∧ pageSize ≤ ptr % (2 * pageSize) then u64 (p + (2 ^ 64 - pageSize)) else p

def kfree (h : Heap) (ptr : ℕ) : Heap :=
  if ptr = 0 then h
  else
    let pa := virtToPhys ptr
    let st := touch h.st pa
    let order := (st.info (pa / pageSize)).order
    if ptr % pageSize = 0 ∧ looksSlab st.mem pa then { h with st := ammPhysFree st pa order }
    else
      let st := touch st (virtToPhys (ptr / pageSize * pageSize))
      let s := hdrOf st ptr
      if looksSlab st.mem s then
        let slot := u64 (pa + 2 ^ 64 - (s + slabHdrSz)) / hdrSize st.mem s % 2 ^ 32
        if hdrCap st.mem s ≤ slot then { h with st }
        else if bit st.mem (hdrMap s) slot then { h with st := st.setMem (dropSlot st.mem s slot) }
        else { h with st }
      else { h with st := ammPhysFree st pa order }

/-! ## Size classes -/

/-- slots that the bitmap manages -/
def slabCap (cls : ℕ) : ℕ := if 288 < rawCap cls then 288 else rawCap cls

/-- what every class satisfies: sizes are plausible, slots exist, are managed by the bitmap and end inside the block -/
theorem class_facts : ∀ cls < 10, 8 ≤ slabSize cls ∧ slabSize cls ≤ 4096 ∧ 0 < slabCap cls ∧ slabCap cls ≤ 288 ∧
    slabCap cls ≤ rawCap cls ∧ rawCap cls < 2 ^ 9 ∧
    slabHdrSz + slabCap cls * slabSize cls ≤ pageSize * 2 ^ slabOrder cls ∧ slabOrder cls ≤ 1 := by
  decide

/-- only 8-byte slabs have more room than the bitmap manages -/
theorem rawCap_eq : ∀ cls < 10, cls ≠ 0 → rawCap cls = slabCap cls := by decide

/-- no slot starts at a page boundary; only the third slot of a 2048-byte slab starts in a second page -/
theorem slot_offset : ∀ cls < 10, ∀ i < slabCap cls, (slabHdrSz + i * slabSize cls) % pageSize ≠ 0 ∧
    (pageSize ≤ slabHdrSz + i * slabSize cls ↔ cls = 8 ∧ i = 2) := by
  decide +kernel

theorem slabSize_inj : ∀ cls < 10, ∀ c < 10, slabSize cls = slabSize c → cls = c := by decide

variable {size : ℕ}

theorem slabClass_some {cls : ℕ} (h : slabClass size = some cls) : cls < 10 ∧ size ≤ slabSize cls := by
  obtain ⟨hlt, hle, -⟩ := List.findIdx?_eq_some_iff_getElem.1 h
  refine ⟨hlt, ?_⟩
  rw [slabSize, List.getD_eq_getElem?_getD, List.getElem?_eq_getElem hlt, Option.getD_some]
  exact of_decide_eq_true hle

theorem slabClass_gt {cls c : ℕ} (h : slabClass size = some cls) (hc : c < cls) : slabSize c < size := by
  obtain ⟨hlt, -, hbefore⟩ := List.findIdx?_eq_some_iff_getElem.1 h
  have hb := hbefore c hc
  rw [slabSize, List.getD_eq_getElem?_getD, List.getElem?_eq_getElem (hc.trans hlt), Option.getD_some]
  simpa using hb

theorem slabClass_none (h : slabClass size = none) : 4096 < size := by
  have hlast := List.findIdx?_eq_none_iff.1 h 4096 (by decide)
  simpa using hlast

theorem largeOrder_some {order : ℕ} (h : largeOrder size = some order) : size ≤ pageSize * 2 ^ order := by
  have h1 := List.find?_some h
  rw [decide_eq_true_eq, Nat.shiftLeft_eq] at h1
  exact h1

/-! ## One slab -/

/-- the header of a slab in order: its counts agree with its bitmap. `free_count` exceeds the clear bits by the slots
that were cut off `capacity`. -/
structure SlabOk (m : Mem) (cls s : ℕ) : Prop where
  size : hdrSize m s = slabSize cls
  cap : hdrCap m s = slabCap cls
  free : hdrFree m s = (rawCap cls - slabCap cls) + zeros m (hdrMap s) (slabCap cls)

section Header

variable {m m' : Mem} {cls s i : ℕ} {x : ℕ}

theorem bit_write_count (m : Mem) (s v j : ℕ) : bit (write m s 4 v) (hdrMap s) j = bit m (hdrMap s) j :=
  bit_congr (write_out (by rw [hdrMap]; omega))

/-- the `next` word is no part of what the counts say -/
theorem SlabOk.congr (h : SlabOk m cls s) (hc : cls < 10)
    (hm : ∀ x, s ≤ x → x < s + slabHdrSz → x < s + 16 ∨ s + 24 ≤ x → m' x = m x) : SlabOk m' cls s := by
  obtain ⟨-, -, -, hcap, -⟩ := class_facts cls hc
  simp only [slabHdrSz] at hm
  have hword : ∀ o, o + 4 ≤ 16 → read m' (s + o) 4 = read m (s + o) 4 := by
    intro o ho
    exact read_congr fun x h1 h2 => hm x (by omega) (by omega) (by omega)
  refine ⟨?_, ?_, ?_⟩
  · rw [hdrSize, hword 4 (by omega)]
    exact h.size
  · rw [hdrCap, hword 8 (by omega)]
    exact h.cap
  have hz : zeros m' (hdrMap s) (slabCap cls) = zeros m (hdrMap s) (slabCap cls) := by
    refine zeros_congr fun j hj => bit_congr ?_
    rw [hdrMap]
    exact hm _ (by omega) (by omega) (by omega)
  rw [hz, ← h.free]
  exact hword 0 (by omega)

/-- a new count, after a change in one byte of the bitmap -/
theorem SlabOk.recount (h : SlabOk m cls s) {b : Mem} {f : ℕ → ℕ} (hb : ∀ x, x ≠ hdrMap s + i / 8 → b x = m x)
    (hf : f (hdrFree m s) % 2 ^ 32 = (rawCap cls - slabCap cls) + zeros b (hdrMap s) (slabCap cls)) :
    SlabOk (write b s 4 (f (hdrFree b s))) cls s := by
  have hword : ∀ o, o + 4 ≤ 24 → read b (s + o) 4 = read m (s + o) 4 := fun o ho =>
    read_congr fun x h1 h2 => hb x (by rw [hdrMap]; omega)
  have hfree : hdrFree b s = hdrFree m s := hword 0 (by omega)
  refine ⟨?_, ?_, ?_⟩
  · rw [hdrSize, read_write_of_disjoint (by omega)]
    exact (hword 4 (by omega)).trans h.size
  · rw [hdrCap, read_write_of_disjoint (by omega)]
    exact (hword 8 (by omega)).trans h.cap
  · rw [zeros_congr fun j _ => bit_write_count b s _ j, ← hf, hfree, hdrFree, read_write]
    norm_num

theorem takeSlot_out (hi : i < 288) (hx : x < s ∨ s + slabHdrSz ≤ x) : takeSlot m s i x = m x := by
  simp only [slabHdrSz] at hx
  rw [takeSlot, write_out (by omega), setBit_out (by rw [hdrMap]; omega)]

theorem dropSlot_out (h1 : x < s ∨ s + 4 ≤ x) (h2 : x ≠ hdrMap s + i / 8) : dropSlot m s i x = m x := by
  rw [dropSlot, write_out h1, clearBit_out h2]

theorem bit_takeSlot (j : ℕ) : bit (takeSlot m s i) (hdrMap s) j = (decide (j = i) || bit m (hdrMap s) j) := by
  rw [takeSlot, bit_write_count, bit_setBit]

theorem bit_dropSlot (j : ℕ) : bit (dropSlot m s i) (hdrMap s) j = (!decide (j = i) && bit m (hdrMap s) j) := by
  rw [dropSlot, bit_write_count, bit_clearBit]

/-- taking a clear slot keeps the header in order -/
theorem SlabOk.take (h : SlabOk m cls s) (hc : cls < 10) (hi : i < slabCap cls) (hb : bit m (hdrMap s) i = false) :
    SlabOk (takeSlot m s i) cls s := by
  obtain ⟨-, -, -, hcap, hle, hraw, -⟩ := class_facts cls hc
  have hz := zeros_setBit hi hb
  have hzle := zeros_le m (hdrMap s) (slabCap cls)
  have hfree := h.free
  exact h.recount (f := fun n => (n + 2 ^ 32 - 1) % 2 ^ 32) (fun x hx => setBit_out hx) (by omega)

theorem zeros_dropSlot {n : ℕ} (hi : i < n) (hb : bit m (hdrMap s) i = true) :
    zeros (dropSlot m s i) (hdrMap s) n = zeros m (hdrMap s) n + 1 := by
  rw [← zeros_clearBit hi hb]
  exact zeros_congr fun j _ => bit_write_count _ _ _ j

/-- dropping a taken slot keeps the header in order -/
theorem SlabOk.drop (h : SlabOk m cls s) (hc : cls < 10) (hi : i < slabCap cls) (hb : bit m (hdrMap s) i = true) :
    SlabOk (dropSlot m s i) cls s := by
  obtain ⟨-, -, -, hcap, hle, hraw, -⟩ := class_facts cls hc
  have hz := zeros_clearBit hi hb
  have hzle := zeros_le m (hdrMap s) (slabCap cls)
  have hfree := h.free
  exact h.recount (f := fun n => (n + 1) % 2 ^ 32) (fun x hx => clearBit_out hx) (by omega)

/-- a slab with a free slot in its count and, for 8-byte objects, in its bitmap gives a clear slot -/
theorem SlabOk.freeSlot (h : SlabOk m cls s) (hc : cls < 10) (hfree : hdrFree m s ≠ 0)
    (h0 : cls = 0 → ∃ j < 288, bit m (hdrMap s) j = false) :
    Mm.freeSlot m s < slabCap cls ∧ bit m (hdrMap s) (Mm.freeSlot m s) = false := by
  have hex : ∃ j < slabCap cls, bit m (hdrMap s) j = false := by
    by_cases hcls : cls = 0
    · subst hcls
      exact h0 rfl
    by_contra hno
    have hz : zeros m (hdrMap s) (slabCap cls) = 0 := by
      rw [zeros_eq_zero]
      intro j hj
      by_contra hb
      exact hno ⟨j, hj, by simpa using hb⟩
    apply hfree
    rw [h.free, rawCap_eq cls hc hcls, hz, Nat.sub_self]
  unfold Mm.freeSlot
  rw [h.cap]
  rcases hz : firstZero m (hdrMap s) (slabCap cls) with _ | i
  · obtain ⟨j, hj, hb⟩ := hex
    rw [firstZero_none.1 hz j hj] at hb
    cases hb
  · obtain ⟨h1, h2, -⟩ := firstZero_some hz
    exact ⟨h1, h2⟩

theorem newHeader_out (hx : x < s ∨ s + slabHdrSz ≤ x) : newHeader m s cls x = m x := by
  simp only [slabHdrSz] at hx
  have h0 : ∀ v w : ℕ, write (write (write (fill m s slabHdrSz 0) (s + 4) 4 (slabSize cls)) (s + 8) 4 v) s 4 w x = m x := by
    intro v w
    rw [write_out (by omega), write_out (by omega), write_out (by omega), fill_out hx]
  unfold newHeader
  split_ifs
  · rw [write_out (by omega)]
    exact h0 _ _
  · exact h0 _ _

/-- the header of a new slab is in order and all its slots are free -/
theorem newHeader_ok (hc : cls < 10) : SlabOk (newHeader m s cls) cls s ∧
    ∀ j < slabCap cls, bit (newHeader m s cls) (hdrMap s) j = false := by
  obtain ⟨-, hsz, -, hcap, hle, hraw, -⟩ := class_facts cls hc
  set m1 := write (write (fill m s slabHdrSz 0) (s + 4) 4 (slabSize cls)) (s + 8) 4 (rawCap cls) with hm1
  have hcap1 : hdrCap m1 s = rawCap cls := by
    rw [hdrCap, hm1, read_write]
    exact Nat.mod_eq_of_lt (by omega)
  set m2 := write m1 s 4 (hdrCap m1 s) with hm2
  have hcap2 : hdrCap m2 s = rawCap cls := by
    rw [hdrCap, hm2, read_write_of_disjoint (by omega)]
    exact hcap1
  have hnew : newHeader m s cls = if 288 < rawCap cls then write m2 (s + 8) 4 288 else m2 := by
    unfold newHeader
    simp only
    rw [← hm1, ← hm2, hcap2]
  have hsize2 : hdrSize m2 s = slabSize cls := by
    rw [hdrSize, hm2, read_write_of_disjoint (by omega), hm1, read_write_of_disjoint (by omega), read_write]
    exact Nat.mod_eq_of_lt (by omega)
  have hfree2 : hdrFree m2 s = rawCap cls := by
    rw [hdrFree, hm2, read_write, hcap1]
    exact Nat.mod_eq_of_lt (by omega)
  -- the fields after the cut of the capacity
  have hfields : hdrSize (newHeader m s cls) s = slabSize cls ∧ hdrCap (newHeader m s cls) s = slabCap cls ∧
      hdrFree (newHeader m s cls) s = rawCap cls := by
    rw [hnew, slabCap]
    split_ifs with hbig
    · refine ⟨?_, ?_, ?_⟩
      · rw [hdrSize, read_write_of_disjoint (by omega)]
        exact hsize2
      · rw [hdrCap, read_write]
        norm_num
      · rw [hdrFree, read_write_of_disjoint (by omega)]
        exact hfree2
    · exact ⟨hsize2, hcap2, hfree2⟩
  have hbits : ∀ j < slabCap cls, bit (newHeader m s cls) (hdrMap s) j = false := by
    intro j hj
    have hbyte : newHeader m s cls (hdrMap s + j / 8) = 0 := by
      have h2 : m2 (hdrMap s + j / 8) = 0 := by
        rw [hdrMap, hm2, write_out (by omega), hm1, write_out (by omega), write_out (by omega),
          fill_in (by omega) (by simp only [slabHdrSz]; omega)]
      rw [hnew]
      split_ifs
      · rw [write_out (by rw [hdrMap]; omega), h2]
      · exact h2
    rw [bit, hbyte]
    exact Nat.zero_testBit _
  refine ⟨⟨hfields.1, hfields.2.1, ?_⟩, hbits⟩
  have hz : zeros (newHeader m s cls) (hdrMap s) (slabCap cls) = slabCap cls := by
    rw [zeros, List.countP_eq_length.2, List.length_range]
    intro j hj
    rw [hbits j (List.mem_range.1 hj)]
    rfl
  omega

end Header

end OpenASD.Mm
