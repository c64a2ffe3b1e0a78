/-
Runs of the kernel heap: any sequence of kmalloc, kfree of live pointers, and writes of owners into their own objects,
after any boot and any use of the page allocator by others.

Ghost state of a run: `live`, the (pointer, requested size) pairs that callers hold, and `out`, the blocks that the page
allocator has handed out. A `Place` says where an object really lies: a slot of a slab, or a whole buddy block.

Two slips of the source bound the results. `slab_new` counts 504 free slots for 8-byte slabs but manages 288, so once
all 288 are taken the search finds no slot and hands out slot 0 again. And `kfree` finds the header of a two-page slab
from its first page only: the tag of a second page never has order 1. `good` says that a step runs into neither.

Results:
- `good_run_inv`: runs of good steps keep every object in a place of its own;
- `good_run_sound`: in such runs live objects are disjoint, large enough and inside their block behind its header.
Witness: `eight_byte_overlap`, 289 objects of 8 bytes, two of them at one address.
-/
import OpenASD.Mm.Boot
import OpenASD.Mm.Slab

namespace OpenASD.Mm

open ByteMem Bitmap OpenASD.Dyadic
open Function (update update_of_ne update_self)
open List (map_cons mem_append_right mem_cons mem_cons_of_mem mem_cons_self mem_map mem_singleton_self nodup_cons
  replicate)
open Prod (fst)

/-! ## The system -/

structure HSys where
  heap : Heap
  out : Out
  /-- (pointer, requested size) -/
  live : List (ℕ × ℕ)

inductive HOp where
  | kmalloc (size : ℕ)
  | kfree (ptr size : ℕ)
  /-- an owner writes a byte of its object -/
  | store (x : ℕ) (v : UInt8)

/-- the bytes that an allocation of this size occupies -/
def objLen (size : ℕ) : ℕ :=
  match slabClass size with
  | some cls => slabSize cls
  | none => match largeOrder size with
    | some order => pageSize * 2 ^ order
    | none => 0

/-- x is a byte of the object -/
def ownByte (a : ℕ × ℕ) (x : ℕ) : Bool := decide (virtToPhys a.1 ≤ x ∧ x < virtToPhys a.1 + objLen a.2)

/-- the order that `kmalloc` asks the page allocator for, if it does -/
def askOrder (h : Heap) (size : ℕ) : Option ℕ :=
  if size = 0 then none
  else
    match slabClass size with
    | none => largeOrder size
    | some cls => if (openSlab h cls).isSome then none else some (slabOrder cls)

/-- the blocks handed out after `kmalloc` -/
def outAfter (y : HSys) (size : ℕ) : Out :=
  match askOrder y.heap size with
  | some order => if found y.heap.st order then ((ammPhysAlloc y.heap.st order).1, order) :: y.out else y.out
  | none => y.out

/-- the blocks handed out after `kfree` of an object: a large one gives its block back -/
def outWithout (y : HSys) (ptr size : ℕ) : Out :=
  match slabClass size, largeOrder size with
  | none, some order => y.out.erase (virtToPhys ptr, order)
  | _, _ => y.out

local instance lawful_block : LawfulBEq (ℕ × ℕ) := inferInstance

def hstep (y : HSys) : HOp → Option HSys
  | .kmalloc size => (kmalloc y.heap size).map fun r =>
      ⟨r.2, outAfter y size, if r.1 = 0 then y.live else (r.1, size) :: y.live⟩
  | .kfree ptr size =>
    if (ptr, size) ∈ y.live then some ⟨kfree y.heap ptr, outWithout y ptr size, y.live.erase (ptr, size)⟩ else none
  | .store x v =>
    if y.live.any (fun a => ownByte a x) then
      some { y with heap := { y.heap with st := y.heap.st.setMem (update y.heap.st.mem x v) } }
    else none

def hrun (y : HSys) : List HOp → Option HSys
  | [] => some y
  | o :: ops => (hstep y o).bind fun y' => hrun y' ops

theorem hrun_append (y : HSys) (a b : List HOp) : hrun y (a ++ b) = (hrun y a).bind fun y' => hrun y' b := by
  induction a generalizing y with
  | nil => rfl
  | cons o a ih => simp only [List.cons_append, hrun, ih, Option.bind_assoc]

/-- the pointer is in the second page of a two-page slab -/
def secondPage (ptr size : ℕ) : Prop := 1024 < size ∧ size ≤ 4096 ∧ pageSize ≤ ptr % (2 * pageSize)

/-- the step runs into neither slip: no 8-byte object from a slab whose 288 slots are all taken, and no `kfree` of a
pointer in the second page of a slab -/
def good (y : HSys) : HOp → Prop
  | .kmalloc size => 0 < size → size ≤ 8 → ∀ s, openSlab y.heap 0 = some s →
      ∃ i < 288, bit y.heap.st.mem (hdrMap s) i = false
  | .kfree ptr size => ¬ secondPage ptr size
  | .store _ _ => True

/-- every step of the run is good in the state in which it is taken -/
def allGood (y : HSys) : List HOp → Prop
  | [] => True
  | o :: ops => good y o ∧ ∀ y', hstep y o = some y' → allGood y' ops

/-- the heap before its first use; the page allocator may have been used by others -/
def HSys.start (y : Sys) : HSys := ⟨⟨y.st, fun _ => []⟩, y.out, []⟩

/-! ## Places -/

inductive Place where
  | slot (cls s i : ℕ)
  | block (p order : ℕ)
deriving DecidableEq

def Place.addr : Place → ℕ
  | .slot cls s i => s + slabHdrSz + i * slabSize cls
  | .block p _ => p

def Place.len : Place → ℕ
  | .slot cls _ _ => slabSize cls
  | .block _ order => pageSize * 2 ^ order

/-- the buddy block of a place -/
def Place.home : Place → ℕ × ℕ
  | .slot cls s _ => (s, slabOrder cls)
  | .block p order => (p, order)

/-- bytes of the block that belong to the header -/
def Place.hdr : Place → ℕ
  | .slot _ _ _ => slabHdrSz
  | .block _ _ => 0

/-- the place is taken by an allocation of this size -/
def Placed (y : HSys) (size : ℕ) : Place → Prop
  | .slot cls s i => slabClass size = some cls ∧ s ∈ y.heap.heads cls ∧ i < slabCap cls ∧
      bit y.heap.st.mem (hdrMap s) i = true
  | .block p order => slabClass size = none ∧ largeOrder size = some order ∧ (p, order) ∈ y.out ∧
      ∀ cls < 10, p ∉ y.heap.heads cls

structure HInv (S : ℕ → Prop) (y : HSys) (pls : List (Place × ℕ)) : Prop where
  buddy : Inv S [] y.heap.st y.out
  low : ∀ x, S x → x < 2 ^ 64
  slabs : ∀ cls < 10, ∀ s ∈ y.heap.heads cls, (s, slabOrder cls) ∈ y.out ∧ SlabOk y.heap.st.mem cls s
  live : y.live = pls.map fun a => (physToVirt a.1.addr, a.2)
  nodup : (pls.map fst).Nodup
  placed : ∀ a ∈ pls, Placed y a.2 a.1
  nonnull : ∀ a ∈ pls, physToVirt a.1.addr ≠ 0

variable {b : ℕ × ℕ} {cls : ℕ}

section Places

variable {S : ℕ → Prop} {y : HSys} {pls : List (Place × ℕ)} {size : ℕ} {pl : Place}

theorem placed_len (h : Placed y size pl) : pl.len = objLen size := by
  cases pl with
  | slot cls s i => simp only [Place.len, objLen, h.1]
  | block p order => simp only [Place.len, objLen, h.1, h.2.1]

theorem size_le_objLen (h : Placed y size pl) : size ≤ objLen size := by
  rw [← placed_len h]
  cases pl with
  | slot cls s i => exact (slabClass_some h.1).2
  | block p order => exact largeOrder_some h.2.1

theorem HInv.home_mem (h : HInv S y pls) (hp : Placed y size pl) : pl.home ∈ y.out := by
  cases pl with
  | slot cls s i => exact (h.slabs cls (slabClass_some hp.1).1 s hp.2.1).1
  | block p order => exact hp.2.2.1

/-- an object lies in its block, behind the header -/
theorem placed_inside (hp : Placed y size pl) :
    pl.home.1 + pl.hdr ≤ pl.addr ∧ pl.addr + pl.len ≤ pl.home.1 + pageSize * 2 ^ pl.home.2 ∧ 0 < pl.len := by
  cases pl with
  | slot cls s i =>
    obtain ⟨h8, -, -, -, -, -, hfit, -⟩ := class_facts cls (slabClass_some hp.1).1
    have hi : (i + 1) * slabSize cls ≤ slabCap cls * slabSize cls := Nat.mul_le_mul_right _ hp.2.2.1
    rw [Nat.succ_mul] at hi
    simp only [Place.home, Place.hdr, Place.addr, Place.len]
    omega
  | block p order =>
    have := Nat.two_pow_pos order
    simp only [Place.home, Place.hdr, Place.addr, Place.len, pageSize]
    omega

theorem home_has (b : ℕ × ℕ) (x : ℕ) : (blk b.2 b.1).has x = true ↔ b.1 ≤ x ∧ x < b.1 + pageSize * 2 ^ b.2 := by
  rw [has_iff, blk, block_bytes, mul_comm]

theorem placed_has (hp : Placed y size pl) {x : ℕ} (h1 : pl.addr ≤ x) (h2 : x < pl.addr + pl.len) :
    (blk pl.home.2 pl.home.1).has x = true := by
  obtain ⟨i1, i2, -⟩ := placed_inside hp
  rw [home_has]
  omega

/-- blocks handed out that share a byte are the same block -/
theorem Inv.out_eq {s : St} {out : Out} (h : Inv S [] s out) {c : ℕ × ℕ} (hb : b ∈ out) (hc : c ∈ out) {x : ℕ}
    (hbx : (blk b.2 b.1).has x = true) (hcx : (blk c.2 c.1).has x = true) : b = c := by
  have e := h.tiles.eq_of_has (mem_append_right _ (Inv.out_mem hb)) (mem_append_right _ (Inv.out_mem hc)) hbx hcx
  simp only [blk, Block.mk.injEq] at e
  exact Prod.ext e.2 (by omega)

/-- two slabs at one address have one class -/
theorem HInv.class_eq (h : HInv S y pls) {c s : ℕ} (hc : cls < 10) (hc' : c < 10) (hs : s ∈ y.heap.heads cls)
    (hs' : s ∈ y.heap.heads c) : cls = c :=
  slabSize_inj cls hc c hc' ((h.slabs cls hc s hs).2.size.symm.trans (h.slabs c hc' s hs').2.size)

/-- **Different places are disjoint.** -/
theorem HInv.places_disjoint (h : HInv S y pls) {n : ℕ} {pl' : Place} (hp : Placed y size pl) (hp' : Placed y n pl')
    (hne : pl ≠ pl') : pl.addr + pl.len ≤ pl'.addr ∨ pl'.addr + pl'.len ≤ pl.addr := by
  by_contra hov
  rw [not_or, Nat.not_le, Nat.not_le] at hov
  -- a common byte, so a common block
  obtain ⟨x, h1, h2, h3, h4⟩ : ∃ x, pl.addr ≤ x ∧ x < pl.addr + pl.len ∧ pl'.addr ≤ x ∧ x < pl'.addr + pl'.len := by
    rcases Nat.le_total pl.addr pl'.addr with hle | hle
    · exact ⟨pl'.addr, hle, hov.1, le_rfl, Nat.lt_add_of_pos_right (placed_inside hp').2.2⟩
    · exact ⟨pl.addr, le_rfl, Nat.lt_add_of_pos_right (placed_inside hp).2.2, hle, hov.2⟩
  have hhome := h.buddy.out_eq (h.home_mem hp) (h.home_mem hp') (placed_has hp h1 h2) (placed_has hp' h3 h4)
  cases pl with
  | slot cls s i =>
    cases pl' with
    | slot c t j =>
      have hst : s = t := congrArg fst hhome
      subst hst
      have hcc := h.class_eq (slabClass_some hp.1).1 (slabClass_some hp'.1).1 hp.2.1 hp'.2.1
      subst hcc
      have hij : i ≠ j := fun e => hne (by rw [e])
      simp only [Place.addr, Place.len] at h1 h2 h3 h4
      rcases Nat.lt_or_gt_of_ne hij with hlt | hlt
      · have := Nat.mul_le_mul_right (slabSize cls) (Nat.succ_le_of_lt hlt)
        rw [Nat.succ_mul] at this
        omega
      · have := Nat.mul_le_mul_right (slabSize cls) (Nat.succ_le_of_lt hlt)
        rw [Nat.succ_mul] at this
        omega
    | block p order =>
      have hsp : s = p := congrArg fst hhome
      exact hp'.2.2.2 cls (slabClass_some hp.1).1 (hsp ▸ hp.2.1)
  | block p order =>
    cases pl' with
    | slot c t j =>
      have hpt : p = t := congrArg fst hhome
      exact hp.2.2.2 c (slabClass_some hp'.1).1 (hpt ▸ hp'.2.1)
    | block q o =>
      have e : (p, order) = (q, o) := hhome
      simp only [Prod.mk.injEq] at e
      exact hne (by rw [e.1, e.2])

end Places

/-! ## Moves of the heap -/

variable {size p : ℕ} {pl : Place}

section Moves

variable {S : ℕ → Prop} {y : HSys} {pls : List (Place × ℕ)}

theorem HInv.out_page (h : HInv S y pls) (hb : b ∈ y.out) : pageSize ∣ b.1 :=
  dvd_page (h.buddy.tiles.aligned (blk b.2 b.1) (mem_append_right _ (Inv.out_mem hb)))

variable {x c s t i order : ℕ}

theorem header_has (b : ℕ × ℕ) (h1 : b.1 ≤ x) (h2 : x < b.1 + slabHdrSz) : (blk b.2 b.1).has x = true := by
  have := Nat.two_pow_pos b.2
  rw [home_has]
  simp only [slabHdrSz, pageSize] at *
  omega

/-- the header of one slab is not in the block of another -/
theorem HInv.header_ne (h : HInv S y pls) (hc : cls < 10) (hs : s ∈ y.heap.heads cls)
    (ht : (t, slabOrder c) ∈ y.out) (hne : t ≠ s) (h1 : s ≤ x) (h2 : x < s + slabHdrSz) : ¬ (t ≤ x ∧ x < t + slabHdrSz) := by
  rintro ⟨h3, h4⟩
  have e := h.buddy.out_eq (h.slabs cls hc s hs).1 ht (header_has (s, slabOrder cls) h1 h2)
    (header_has (t, slabOrder c) h3 h4)
  exact hne (congrArg fst e).symm

/-- an object has no byte in the header of a slab -/
theorem HInv.header_free (h : HInv S y pls) (hc : cls < 10) (hs : s ∈ y.heap.heads cls)
    (hp : Placed y size pl) (h1 : pl.addr ≤ x) (h2 : x < pl.addr + pl.len) : ¬ (s ≤ x ∧ x < s + slabHdrSz) := by
  rintro ⟨h3, h4⟩
  have e := h.buddy.out_eq (h.slabs cls hc s hs).1 (h.home_mem hp) (header_has (s, slabOrder cls) h3 h4)
    (placed_has hp h1 h2)
  have hbase : s = pl.home.1 := congrArg fst e
  have hin := (placed_inside hp).1
  cases pl with
  | slot c t i =>
    simp only [Place.home, Place.hdr] at hbase hin
    omega
  | block p order => exact hp.2.2.2 cls hc ((show s = p from hbase) ▸ hs)

/-- the bitmap has room for all slots -/
theorem slot_lt (hc : cls < 10) (hi : i < slabCap cls) : i < 288 := hi.trans_le (class_facts cls hc).2.2.2.1

/-- a slot keeps its bit while its header bytes stay -/
theorem bit_of_header {m m' : Mem} (hc : cls < 10) (hi : i < slabCap cls) (hm : ∀ x, s ≤ x → x < s + slabHdrSz → m' x = m x) :
    bit m' (hdrMap s) i = bit m (hdrMap s) i := by
  have hi' := slot_lt hc hi
  refine bit_congr (hm _ ?_ ?_)
  · simp only [hdrMap]
    omega
  · simp only [hdrMap, slabHdrSz]
    omega

section

variable (h : HInv S y pls)
include h

/-- the heap survives any change that keeps the slab headers and the blocks it uses -/
theorem HInv.reframe {st' : St} {out' : Out} {pls' : List (Place × ℕ)} (hb : Inv S [] st' out')
    (hs : ∀ cls < 10, ∀ s ∈ y.heap.heads cls, (s, slabOrder cls) ∈ out' ∧
      ∀ x, s ≤ x → x < s + slabHdrSz → st'.mem x = y.heap.st.mem x)
    (hsub : pls'.Sublist pls) (hbig : ∀ a ∈ pls', a.1.home ∈ out') :
    HInv S ⟨⟨st', y.heap.heads⟩, out', pls'.map fun a => (physToVirt a.1.addr, a.2)⟩ pls' := by
  refine ⟨hb, h.low, fun cls hc s hsm => ?_, rfl, h.nodup.sublist (hsub.map _), fun a ha => ?_, fun a ha => ?_⟩
  · exact ⟨(hs cls hc s hsm).1, (h.slabs cls hc s hsm).2.congr hc fun x h1 h2 _ => (hs cls hc s hsm).2 x h1 h2⟩
  · have hp := h.placed a (hsub.subset ha)
    rcases a with ⟨pl, n⟩
    cases pl with
    | slot cls s i =>
      obtain ⟨h1, h2, h3, h4⟩ := hp
      have hc := (slabClass_some h1).1
      refine ⟨h1, h2, h3, ?_⟩
      rw [← h4]
      exact bit_of_header hc h3 (hs cls hc s h2).2
    | block p order => exact ⟨hp.1, hp.2.1, hbig _ ha, hp.2.2.2⟩
  · exact h.nonnull a (hsub.subset ha)

section

variable (hc : cls < 10) (hs : s ∈ y.heap.heads cls)
include hc hs

/-- slots are never at the address whose pointer is NULL -/
theorem HInv.slot_nonnull
    (hi : i < slabCap cls) : physToVirt (Place.slot cls s i).addr ≠ 0 := by
  have hal : pageSize ∣ s := h.out_page (h.slabs cls hc s hs).1
  have hoff := (slot_offset cls hc i hi).1
  simp only [Place.addr, physToVirt, u64, physMapBase, pageSize] at *
  omega

/-- the heap survives a change of one slab's header that keeps it in order: objects are those of other places and the
slots of the slab that are marked -/
theorem HInv.editSlab (m' : Mem)
    (hframe : ∀ x, ¬ (s ≤ x ∧ x < s + slabHdrSz) → m' x = y.heap.st.mem x) (hok : SlabOk m' cls s)
    (pls' : List (Place × ℕ)) (hnd : (pls'.map fst).Nodup)
    (hpl : ∀ a ∈ pls', (∃ i < slabCap cls, a.1 = .slot cls s i ∧ slabClass a.2 = some cls ∧
      bit m' (hdrMap s) i = true) ∨ (a ∈ pls ∧ ∀ c i, a.1 ≠ .slot c s i)) :
    HInv S ⟨⟨y.heap.st.setMem m', y.heap.heads⟩, y.out, pls'.map fun a => (physToVirt a.1.addr, a.2)⟩ pls' := by
  obtain ⟨hout, -⟩ := h.slabs cls hc s hs
  have hkeep : ∀ c < 10, ∀ t ∈ y.heap.heads c, t ≠ s → ∀ x, t ≤ x → x < t + slabHdrSz → m' x = y.heap.st.mem x := by
    intro c hc' t ht hts x h1 h2
    exact hframe x (h.header_ne hc' ht hout (fun e => hts e.symm) h1 h2)
  refine ⟨?_, h.low, fun c hc' t ht => ?_, rfl, hnd, fun a ha => ?_, fun a ha => ?_⟩
  · refine h.buddy.owner_write fun x hx => hframe x fun hin => hx ⟨_, hout, ?_⟩
    exact header_has (s, slabOrder cls) hin.1 hin.2
  · refine ⟨(h.slabs c hc' t ht).1, ?_⟩
    by_cases hts : t = s
    · subst hts
      have hcc := h.class_eq hc hc' hs ht
      subst hcc
      exact hok
    · exact (h.slabs c hc' t ht).2.congr hc' fun x h1 h2 _ => hkeep c hc' t ht hts x h1 h2
  · rcases hpl a ha with ⟨i, hi, ha1, ha2, hb⟩ | ⟨ha', hne⟩
    · rw [ha1]
      exact ⟨ha2, hs, hi, hb⟩
    have hp := h.placed a ha'
    rcases a with ⟨pl, n⟩
    cases pl with
    | slot c t j =>
      obtain ⟨h1, h2, h3, h4⟩ := hp
      have hc' := (slabClass_some h1).1
      have hts : t ≠ s := fun e => hne c j (by rw [e])
      refine ⟨h1, h2, h3, ?_⟩
      rw [← h4]
      exact bit_of_header hc' h3 (hkeep c hc' t h2 hts)
    | block p order => exact hp
  · rcases hpl a ha with ⟨i, hi, ha1, -, -⟩ | ⟨ha', -⟩
    · rw [ha1]
      exact h.slot_nonnull hc hs hi
    · exact h.nonnull a ha'

/-- a live object in this slab is one of its slots, taken and of its class -/
theorem HInv.slot_of {a : Place × ℕ}
    (ha : a ∈ pls) : (∃ i < slabCap cls, a.1 = .slot cls s i ∧ slabClass a.2 = some cls ∧
      bit y.heap.st.mem (hdrMap s) i = true) ∨ ∀ c i, a.1 ≠ .slot c s i := by
  have hp := h.placed a ha
  rcases a with ⟨pl, n⟩
  cases pl with
  | slot c t j =>
    by_cases hts : t = s
    · subst hts
      have hcc := h.class_eq hc (slabClass_some hp.1).1 hs hp.2.1
      subst hcc
      exact .inl ⟨j, hp.2.2.1, rfl, hp.1, hp.2.2.2⟩
    · refine .inr fun c' i e => hts ?_
      injection e
  | block p order => exact .inr fun c i e => by cases e

end

/-- taking a clear slot of a slab adds an object -/
theorem HInv.take (hcls : slabClass size = some cls) (hs : s ∈ y.heap.heads cls)
    (hi : i < slabCap cls) (hbit : bit y.heap.st.mem (hdrMap s) i = false) :
    HInv S ⟨⟨y.heap.st.setMem (takeSlot y.heap.st.mem s i), y.heap.heads⟩, y.out,
      (physToVirt (Place.slot cls s i).addr, size) :: y.live⟩ ((.slot cls s i, size) :: pls) := by
  have hc := (slabClass_some hcls).1
  have hi' := slot_lt hc hi
  rw [h.live]
  refine h.editSlab hc hs _ (fun x hx => takeSlot_out hi' (by omega)) ((h.slabs cls hc s hs).2.take hc hi hbit)
    ((.slot cls s i, size) :: pls) ?_ ?_
  · rw [map_cons, nodup_cons]
    refine ⟨fun hmem => ?_, h.nodup⟩
    -- the slot was clear, so nobody held it
    obtain ⟨⟨pl, n⟩, ha, hpl⟩ := mem_map.1 hmem
    have hp := h.placed _ ha
    have e : pl = .slot cls s i := hpl
    subst e
    exact Bool.noConfusion (hbit.symm.trans hp.2.2.2)
  · intro a ha
    rcases mem_cons.1 ha with rfl | ha
    · exact .inl ⟨i, hi, rfl, hcls, by rw [bit_takeSlot, decide_eq_true rfl, Bool.true_or]⟩
    · rcases h.slot_of hc hs ha with ⟨j, hj, h1, h2, h3⟩ | hne
      · exact .inl ⟨j, hj, h1, h2, by rw [bit_takeSlot, h3, Bool.or_true]⟩
      · exact .inr ⟨ha, hne⟩

/-- dropping the slot of an object removes it -/
theorem HInv.drop (ha : (Place.slot cls s i, size) ∈ pls) :
    HInv S ⟨⟨y.heap.st.setMem (dropSlot y.heap.st.mem s i), y.heap.heads⟩, y.out,
      (pls.erase (.slot cls s i, size)).map fun a => (physToVirt a.1.addr, a.2)⟩ (pls.erase (.slot cls s i, size)) := by
  obtain ⟨hcls, hs, hi, hbit⟩ := h.placed _ ha
  have hc := (slabClass_some hcls).1
  have hi' := slot_lt hc hi
  have hnd := (List.perm_cons_erase ha).map fst |>.nodup_iff.1 h.nodup
  rw [map_cons, nodup_cons] at hnd
  refine h.editSlab hc hs _ (fun x hx => ?_) ((h.slabs cls hc s hs).2.drop hc hi hbit) _ hnd.2 ?_
  · simp only [slabHdrSz] at hx
    exact dropSlot_out (by omega) (by rw [hdrMap]; omega)
  intro a ha'
  have hmem := List.mem_of_mem_erase ha'
  rcases h.slot_of hc hs hmem with ⟨j, hj, h1, h2, h3⟩ | hne
  · have hji : j ≠ i := by
      rintro rfl
      exact hnd.1 (mem_map.2 ⟨a, ha', h1⟩)
    exact .inl ⟨j, hj, h1, h2, by rw [bit_dropSlot, h3, decide_eq_false hji]; rfl⟩
  · exact .inr ⟨hmem, hne⟩

end

/-- a block just handed out starts where no other block starts -/
theorem Inv.new_base {s : St} {out : Out} (h : Inv S [] s ((p, order) :: out)) (hb : b ∈ out) :
    b.1 ≠ p := by
  have ht : Tiling (freeBlocks s.lists ++ (blk order p :: outBlocks out)) S := h.tiles
  exact (ht.perm List.perm_middle).head_base_ne (mem_append_right _ (mem_map.2 ⟨b, hb, rfl⟩))

/-- a block from the page allocator is new to the heap -/
theorem HInv.alloc (h : HInv S y pls) (hf : found y.heap.st order = true) :
    HInv S ⟨⟨(ammPhysAlloc y.heap.st order).2, y.heap.heads⟩, ((ammPhysAlloc y.heap.st order).1, order) :: y.out, y.live⟩
      pls ∧
    (∀ c < 10, (ammPhysAlloc y.heap.st order).1 ∉ y.heap.heads c) ∧
    ∀ a ∈ pls, a.1.home.1 ≠ (ammPhysAlloc y.heap.st order).1 := by
  obtain ⟨hi, hfr⟩ := alloc_inv h.buddy hf
  refine ⟨?_, fun c hc hmem => ?_, fun a ha => ?_⟩
  · rw [h.live]
    refine h.reframe hi (fun cls hc s hs => ?_) (List.Sublist.refl pls) fun a ha => ?_
    · have hout := (h.slabs cls hc s hs).1
      refine ⟨mem_cons_of_mem _ hout, fun x h1 h2 => hfr.mem x fun _ => ⟨_, hout, ?_⟩⟩
      exact header_has (s, slabOrder cls) h1 h2
    · exact mem_cons_of_mem _ (h.home_mem (h.placed a ha))
  · exact hi.new_base (h.slabs c hc _ hmem).1 rfl
  · exact hi.new_base (h.home_mem (h.placed a ha))

/-- a block handed out becomes a large object -/
theorem HInv.addBlock (h : HInv S y pls) (hcls : slabClass size = none)
    (hord : largeOrder size = some order) (hout : (p, order) ∈ y.out) (hnew : ∀ c < 10, p ∉ y.heap.heads c)
    (hfree : ∀ a ∈ pls, a.1.home.1 ≠ p) (hnn : physToVirt p ≠ 0) :
    HInv S { y with live := (physToVirt p, size) :: y.live } ((.block p order, size) :: pls) := by
  refine ⟨h.buddy, h.low, h.slabs, ?_, ?_, fun a ha => ?_, fun a ha => ?_⟩
  · rw [map_cons, h.live]
    rfl
  · rw [map_cons, nodup_cons]
    refine ⟨fun hmem => ?_, h.nodup⟩
    obtain ⟨a, ha, hpl⟩ := mem_map.1 hmem
    refine hfree a ha ?_
    rw [hpl]
    rfl
  · rcases mem_cons.1 ha with rfl | ha
    · exact ⟨hcls, hord, hout, hnew⟩
    · exact h.placed a ha
  · rcases mem_cons.1 ha with rfl | ha
    · exact hnn
    · exact h.nonnull a ha

theorem mem_pushSlab {h : Heap} : t ∈ (pushSlab h cls s).heads c ↔ (c = cls ∧ t = s) ∨ t ∈ h.heads c := by
  have e : (pushSlab h cls s).heads c = if c = cls then s :: h.heads cls else h.heads c := Function.update_apply _ _ _ _
  rw [e]
  split_ifs with hc
  · rw [hc, mem_cons, and_iff_right rfl]
  · simp [hc]

/-- the heap after the block p was made a slab -/
def Heap.withSlab (h : Heap) (cls p : ℕ) : Heap :=
  pushSlab ⟨h.st.setMem (newHeader h.st.mem p cls), h.heads⟩ cls p

theorem mem_withSlab (h : Heap) (cls p : ℕ) : p ∈ (h.withSlab cls p).heads cls := mem_pushSlab.2 (.inl ⟨rfl, rfl⟩)

/-- a block handed out becomes an empty slab -/
theorem HInv.addSlab (h : HInv S y pls) (hc : cls < 10) (hout : (p, slabOrder cls) ∈ y.out)
    (hnew : ∀ c < 10, p ∉ y.heap.heads c) (hfree : ∀ a ∈ pls, a.1.home.1 ≠ p) :
    HInv S ⟨y.heap.withSlab cls p, y.out, y.live⟩ pls ∧
    ∀ j < slabCap cls, bit (y.heap.withSlab cls p).st.mem (hdrMap p) j = false := by
  set h' : Heap := y.heap.withSlab cls p with hh'
  have hframe : ∀ x, ¬ (p ≤ x ∧ x < p + slabHdrSz) → h'.st.mem x = y.heap.st.mem x := by
    intro x hx
    simp only [slabHdrSz] at hx
    show write (newHeader y.heap.st.mem p cls) (p + 16) 8 _ x = _
    rw [write_out (by omega), newHeader_out (by simp only [slabHdrSz]; omega)]
  obtain ⟨hok, hbits⟩ := newHeader_ok (m := y.heap.st.mem) (s := p) hc
  have hkeep : ∀ c < 10, ∀ t ∈ y.heap.heads c, ∀ x, t ≤ x → x < t + slabHdrSz → h'.st.mem x = y.heap.st.mem x := by
    intro c hc' t ht x h1 h2
    refine hframe x (h.header_ne hc' ht hout (fun e => hnew c hc' ?_) h1 h2)
    rwa [e]
  refine ⟨⟨?_, h.low, fun c hc' t ht => ?_, h.live, h.nodup, fun a ha => ?_, h.nonnull⟩, fun j hj => ?_⟩
  · refine h.buddy.owner_write fun x hx => hframe x fun hin => hx ⟨_, hout, ?_⟩
    exact header_has (p, slabOrder cls) hin.1 hin.2
  · rcases mem_pushSlab.1 ht with ⟨rfl, rfl⟩ | ht
    · exact ⟨hout, hok.congr hc fun x _ _ hx => write_out hx⟩
    · exact ⟨(h.slabs c hc' t ht).1, (h.slabs c hc' t ht).2.congr hc' fun x h1 h2 _ => hkeep c hc' t ht x h1 h2⟩
  · have hp := h.placed a ha
    have hhome := hfree a ha
    rcases a with ⟨pl, n⟩
    cases pl with
    | slot c t j =>
      obtain ⟨h1, h2, h3, h4⟩ := hp
      have hc' := (slabClass_some h1).1
      refine ⟨h1, mem_pushSlab.2 (.inr h2), h3, ?_⟩
      rw [← h4]
      exact bit_of_header hc' h3 (hkeep c hc' t h2)
    | block q order =>
      refine ⟨hp.1, hp.2.1, hp.2.2.1, fun c hc' hmem => ?_⟩
      rcases mem_pushSlab.1 hmem with ⟨-, rfl⟩ | hmem
      · exact hhome rfl
      · exact hp.2.2.2 c hc' hmem
  · show bit (write (newHeader y.heap.st.mem p cls) (p + 16) 8 _) (hdrMap p) j = false
    rw [bit_congr (write_out (by rw [hdrMap]; omega))]
    exact hbits j hj

end Moves

/-! ## Steps -/

section Steps

variable {S : ℕ → Prop} {y y' : HSys} {pls : List (Place × ℕ)}

variable {s order x : ℕ}

section

variable (h : HInv S y pls)
include h

/-- an open slab gives a slot -/
theorem HInv.allocSlot (hcls : slabClass size = some cls)
    (hs : s ∈ y.heap.heads cls) (hfree : hdrFree y.heap.st.mem s ≠ 0)
    (h0 : cls = 0 → ∃ j < 288, bit y.heap.st.mem (hdrMap s) j = false) : (allocSlot y.heap cls s).1 ≠ 0 ∧
    ∃ pls', HInv S ⟨(allocSlot y.heap cls s).2, y.out, ((allocSlot y.heap cls s).1, size) :: y.live⟩ pls' := by
  have hc := (slabClass_some hcls).1
  obtain ⟨hi, hb⟩ := (h.slabs cls hc s hs).2.freeSlot hc hfree h0
  have hnn := h.slot_nonnull hc hs hi
  exact ⟨hnn, _, h.take hcls hs hi hb⟩

/-- a slab with a clear slot counts it as free -/
theorem HInv.free_pos (hc : cls < 10) (hs : s ∈ y.heap.heads cls) {j : ℕ} (hj : j < slabCap cls)
    (hb : bit y.heap.st.mem (hdrMap s) j = false) : hdrFree y.heap.st.mem s ≠ 0 := by
  have hz : zeros y.heap.st.mem (hdrMap s) (slabCap cls) ≠ 0 := by
    intro hz
    rw [zeros_eq_zero.1 hz j hj] at hb
    cases hb
  rw [(h.slabs cls hc s hs).2.free]
  omega

/-- `kmalloc` of a large object: one block, or NULL -/
theorem kmalloc_large (h0 : size ≠ 0) (hcls : slabClass size = none)
    (hord : largeOrder size = some order) (hs : hstep y (.kmalloc size) = some y') : ∃ pls', HInv S y' pls' := by
  obtain ⟨r, hk, rfl⟩ := Option.map_eq_some_iff.1 hs
  rw [kmalloc, if_neg h0, hcls] at hk
  simp only [hord] at hk
  cases hk
  have hask : askOrder y.heap size = some order := by simp only [askOrder, if_neg h0, hcls, hord]
  rcases hf : found y.heap.st order with _ | _
  · have hout : outAfter y size = y.out := by simp [outAfter, hask, hf]
    rw [alloc_not_found h.buddy.late hf, hout]
    exact ⟨pls, h⟩
  obtain ⟨hi, hnew, hfree⟩ := h.alloc hf
  have hout : outAfter y size = ((ammPhysAlloc y.heap.st order).1, order) :: y.out := by
    simp [outAfter, hask, hf]
  rw [hout]
  -- a block at physical address 0, or one whose pointer is 0, is lost: the caller sees NULL
  by_cases hp0 : (ammPhysAlloc y.heap.st order).1 = 0
  · rw [if_pos hp0]
    exact ⟨pls, hi⟩
  rw [if_neg hp0]
  by_cases hnn : physToVirt (ammPhysAlloc y.heap.st order).1 = 0
  · rw [if_pos hnn]
    exact ⟨pls, hi⟩
  · rw [if_neg hnn]
    exact ⟨_, hi.addBlock hcls hord mem_cons_self hnew hfree hnn⟩

section

variable (h0 : size ≠ 0) (hcls : slabClass size = some cls)
include h0 hcls

omit h in
/-- a small object from an open slab -/
theorem hstep_open
    (hopen : openSlab y.heap cls = some s) (hnn : (allocSlot y.heap cls s).1 ≠ 0) : hstep y (.kmalloc size) =
      some ⟨(allocSlot y.heap cls s).2, y.out, ((allocSlot y.heap cls s).1, size) :: y.live⟩ := by
  have hout : outAfter y size = y.out := by simp [outAfter, askOrder, h0, hcls, hopen]
  simp only [hstep, kmalloc, if_neg h0, hcls, hopen, Option.map_some, hout, if_neg hnn]

omit h in
/-- a small object from a new slab in the block p -/
theorem hstep_new {st : St}
    (hopen : openSlab y.heap cls = none) (hf : found y.heap.st (slabOrder cls) = true)
    (hal : ammPhysAlloc y.heap.st (slabOrder cls) = (p, st)) (hp : p ≠ 0) {r : ℕ × Heap}
    (hr : allocSlot (Heap.withSlab ⟨st, y.heap.heads⟩ cls p) cls p = r) (hnn : r.1 ≠ 0) :
    hstep y (.kmalloc size) = some ⟨r.2, (p, slabOrder cls) :: y.out, (r.1, size) :: y.live⟩ := by
  have hout : outAfter y size = (p, slabOrder cls) :: y.out := by simp [outAfter, askOrder, h0, hcls, hopen, hf, hal]
  have hslab : slabNew y.heap.st cls = (some p, st.setMem (newHeader st.mem p cls)) := by
    rw [slabNew, hal]
    exact if_neg hp
  have hk : kmalloc y.heap size = some r := by
    simp only [kmalloc, if_neg h0, hcls, hopen, hslab]
    exact congrArg some hr
  simp only [hstep, hk, Option.map_some, hout, if_neg hnn]

omit h0 hcls in
/-- the state with a new slab in the block p -/
theorem HInv.newSlab {st : St} (hc : cls < 10)
    (hf : found y.heap.st (slabOrder cls) = true) (hal : ammPhysAlloc y.heap.st (slabOrder cls) = (p, st)) :
    HInv S ⟨Heap.withSlab ⟨st, y.heap.heads⟩ cls p, (p, slabOrder cls) :: y.out, y.live⟩ pls ∧
    ∀ j < slabCap cls, bit (Heap.withSlab ⟨st, y.heap.heads⟩ cls p).st.mem (hdrMap p) j = false := by
  obtain ⟨hi, hnew, hfree⟩ := h.alloc hf
  rw [hal] at hi hnew hfree
  exact hi.addSlab hc mem_cons_self hnew hfree

/-- `kmalloc` of a small object when no slab of its class is open: a new slab, or NULL -/
theorem kmalloc_new
    (hopen : openSlab y.heap cls = none) (hs : hstep y (.kmalloc size) = some y') : ∃ pls', HInv S y' pls' := by
  have hc := (slabClass_some hcls).1
  have hask : askOrder y.heap size = some (slabOrder cls) := by simp [askOrder, h0, hcls, hopen]
  rcases hal : ammPhysAlloc y.heap.st (slabOrder cls) with ⟨p, st⟩
  rcases hf : found y.heap.st (slabOrder cls) with _ | _
  · have hnone := alloc_not_found h.buddy.late hf
    have hslab : slabNew y.heap.st cls = (none, y.heap.st) := by
      rw [slabNew, hnone]
      exact if_pos rfl
    simp only [hstep, kmalloc, if_neg h0, hcls, hopen, hslab, Option.map_some, outAfter, hask, hf,
      Bool.false_eq_true, if_false, if_true] at hs
    cases hs
    exact ⟨pls, h⟩
  by_cases hp0 : p = 0
  · have hslab : slabNew y.heap.st cls = (none, st) := by
      rw [slabNew, hal]
      exact if_pos hp0
    simp only [hstep, kmalloc, if_neg h0, hcls, hopen, hslab, Option.map_some, outAfter, hask, hf, hal,
      if_true] at hs
    cases hs
    obtain ⟨hi, -⟩ := h.alloc hf
    rw [hal] at hi
    exact ⟨pls, hi⟩
  · obtain ⟨hi, hbits⟩ := h.newSlab hc hf hal
    have hhead := mem_withSlab ⟨st, y.heap.heads⟩ cls p
    have hpos := (class_facts cls hc).2.2.1
    obtain ⟨hnn, pls', hi'⟩ := hi.allocSlot hcls hhead (hi.free_pos hc hhead hpos (hbits 0 hpos)) (by
      rintro rfl
      exact ⟨0, by decide, hbits 0 (by decide)⟩)
    rw [hstep_new h0 hcls hopen hf hal hp0 rfl hnn] at hs
    cases hs
    exact ⟨pls', hi'⟩

/-- `kmalloc` of a small object from an open slab -/
theorem kmalloc_open
    (hopen : openSlab y.heap cls = some s) (hg : good y (.kmalloc size)) (hs : hstep y (.kmalloc size) = some y') :
    ∃ pls', HInv S y' pls' := by
  have hmem := List.mem_of_find?_eq_some hopen
  have hfree := List.find?_some hopen
  obtain ⟨hnn, pls', hi⟩ := h.allocSlot hcls hmem (of_decide_eq_true hfree) (by
    rintro rfl
    exact hg (Nat.pos_of_ne_zero h0) (slabClass_some hcls).2 s hopen)
  rw [hstep_open h0 hcls hopen hnn] at hs
  cases hs
  exact ⟨pls', hi⟩

end

theorem kmalloc_inv (hg : good y (.kmalloc size))
    (hs : hstep y (.kmalloc size) = some y') : ∃ pls', HInv S y' pls' := by
  by_cases h0 : size = 0
  · obtain ⟨r, hk, rfl⟩ := Option.map_eq_some_iff.1 hs
    rw [kmalloc, if_pos h0] at hk
    cases hk
    have hout : outAfter y size = y.out := by simp only [outAfter, askOrder, if_pos h0]
    rw [hout]
    exact ⟨pls, h⟩
  rcases hcls : slabClass size with _ | cls
  · rcases hord : largeOrder size with _ | order
    · -- the search for an order does not end
      simp [hstep, kmalloc, h0, hcls, hord] at hs
    · exact kmalloc_large h h0 hcls hord hs
  · rcases hopen : openSlab y.heap cls with _ | s
    · exact kmalloc_new h h0 hcls hopen hs
    · exact kmalloc_open h h0 hcls hopen hg hs

/-! ## kfree -/

omit h in
theorem touch_eq {s : St} (ht : s.trap = false) (h : p / pageSize < s.infoLen) : touch s p = s := by
  have hd : decide (s.infoLen ≤ p / pageSize) = false := decide_eq_false (Nat.not_le.2 h)
  rw [touch, ht, hd]
  cases s
  simp only at ht
  rw [ht]
  rfl

/-- reading the tag of a page that holds a byte of S does not fault -/
theorem HInv.touch (hx : S x) : Mm.touch y.heap.st x = y.heap.st :=
  touch_eq h.buddy.trap (lt_trans (Nat.lt_succ_self _) (h.buddy.bound x hx))

/-- bytes of blocks handed out are in S -/
theorem HInv.out_mem (hb : b ∈ y.out) (hx : (blk b.2 b.1).has x = true) : S x :=
  h.buddy.tiles.subset (mem_append_right _ (Inv.out_mem hb)) hx

theorem HInv.addr_mem (hp : Placed y size pl) : S pl.addr := by
  have hin := placed_inside hp
  exact h.out_mem (h.home_mem hp) (placed_has hp le_rfl (by omega))

/-- places taken at one address are the same -/
theorem HInv.place_inj {m n : ℕ} {pl' : Place} (hp : Placed y m pl) (hp' : Placed y n pl')
    (e : physToVirt pl.addr = physToVirt pl'.addr) : pl = pl' := by
  have haddr : pl.addr = pl'.addr := by
    rw [← virtToPhys_physToVirt (h.low _ (h.addr_mem hp)), e, virtToPhys_physToVirt (h.low _ (h.addr_mem hp'))]
  by_contra hne
  have h1 := (placed_inside hp).2.2
  have h2 := (placed_inside hp').2.2
  rcases h.places_disjoint hp hp' hne with hd | hd <;> omega

omit h in
theorem map_erase_of {α β : Type} [BEq α] [LawfulBEq α] [BEq β] [LawfulBEq β] (f : α → β) {a : α} {l : List α}
    (h : ∀ b ∈ l, f b = f a → b = a) : (l.map f).erase (f a) = (l.erase a).map f := by
  induction l with
  | nil => rfl
  | cons b l ih =>
    by_cases hb : b = a
    · subst hb
      rw [map_cons, List.erase_cons_head, List.erase_cons_head]
    · have hf : f b ≠ f a := fun e => hb (h b mem_cons_self e)
      rw [map_cons, List.erase_cons_tail (by simpa using hf), List.erase_cons_tail (by simpa using hb),
        map_cons, ih fun c hc => h c (mem_cons_of_mem b hc)]

/-- the list of live objects without one of them -/
theorem HInv.live_erase (ha : (pl, size) ∈ pls) :
    y.live.erase (physToVirt pl.addr, size) = (pls.erase (pl, size)).map fun a => (physToVirt a.1.addr, a.2) := by
  rw [h.live]
  refine map_erase_of (fun a : Place × ℕ => (physToVirt a.1.addr, a.2)) (a := (pl, size)) fun b hb e => ?_
  simp only [Prod.mk.injEq] at e
  exact Prod.ext (h.place_inj (h.placed b hb) (h.placed _ ha) e.1) e.2

omit h in
/-- where `kfree` looks for things, for an address behind the start of a block -/
theorem page_of_ptr {d : ℕ} (hs : pageSize ∣ s) (hd : d < pageSize) (hlt : s + d < 2 ^ 64) :
    physToVirt (s + d) % pageSize = d ∧ virtToPhys (physToVirt (s + d) / pageSize * pageSize) = s := by
  simp only [physToVirt, virtToPhys, u64, physMapBase, pageSize] at *
  omega

omit h in
theorem pair_of_ptr {off : ℕ} (hs : 2 * pageSize ∣ s) (hoff : off < 2 * pageSize) :
    physToVirt (s + off) % (2 * pageSize) = off := by
  simp only [physToVirt, u64, physMapBase, pageSize] at *
  omega

theorem HInv.out_pair (hb : (p, 1) ∈ y.out) : 2 * pageSize ∣ p :=
  h.buddy.tiles.aligned (blk 1 p) (mem_append_right _ (Inv.out_mem hb))

/-- the header that `kfree` works with is the start of the block, if the pointer is in its first page -/
theorem HInv.hdrOf_eq {d : ℕ} (hb : (s, order) ∈ y.out) (hd : d < pageSize)
    (hlt : s + d < 2 ^ 64) : hdrOf y.heap.st (physToVirt (s + d)) = s := by
  have hpage := page_of_ptr (h.out_page hb) hd hlt
  unfold hdrOf
  rw [hpage.2, if_neg]
  rintro ⟨hord, hpar⟩
  rw [(h.buddy.outTag _ hb).2] at hord
  subst hord
  rw [pair_of_ptr (h.out_pair hb) (by simp only [pageSize] at *; omega)] at hpar
  omega

/-- `kfree` of a slot in the first page of its slab clears its bit -/
theorem HInv.kfree_slot {i : ℕ} (ha : (Place.slot cls s i, size) ∈ pls)
    (hoff : slabHdrSz + i * slabSize cls < pageSize) : kfree y.heap (physToVirt (Place.slot cls s i).addr) =
      ⟨y.heap.st.setMem (dropSlot y.heap.st.mem s i), y.heap.heads⟩ := by
  have hp := h.placed _ ha
  obtain ⟨hcls, hs, hi, hbit⟩ := hp
  have hc := (slabClass_some hcls).1
  obtain ⟨h8, h4096, -, hcap, -⟩ := class_facts cls hc
  obtain ⟨hout, hok⟩ := h.slabs cls hc s hs
  have hS := h.addr_mem (h.placed _ ha)
  have haddr : (Place.slot cls s i).addr = s + (slabHdrSz + i * slabSize cls) := add_assoc _ _ _
  have hlt := h.low _ hS
  rw [haddr] at hlt hS
  have hSs : S s := h.out_mem hout (has_base (blk (slabOrder cls) s))
  obtain ⟨hmod, hpage⟩ := page_of_ptr (h.out_page hout) hoff hlt
  have hhdr := h.hdrOf_eq hout hoff hlt
  have hlooks : looksSlab y.heap.st.mem s = true := by
    rw [looksSlab, hok.size]
    exact decide_eq_true ⟨h8, h4096⟩
  have hslot : u64 (s + (slabHdrSz + i * slabSize cls) + 2 ^ 64 - (s + slabHdrSz)) / slabSize cls % 2 ^ 32 = i := by
    have e : u64 (s + (slabHdrSz + i * slabSize cls) + 2 ^ 64 - (s + slabHdrSz)) = i * slabSize cls := by
      simp only [u64, slabHdrSz, pageSize] at *
      omega
    rw [e, Nat.mul_div_cancel _ (by omega)]
    exact Nat.mod_eq_of_lt (by omega)
  have hnn := h.nonnull _ ha
  rw [haddr] at hnn ⊢
  unfold kfree
  rw [if_neg hnn, virtToPhys_physToVirt hlt]
  simp only
  rw [h.touch hS, hmod, if_neg (by rintro ⟨h0, -⟩; simp only [slabHdrSz] at h0; omega), hpage, h.touch hSs, hhdr,
    if_pos hlooks, hok.size, hslot, hok.cap, if_neg (Nat.not_le.2 hi), if_pos hbit]

/-- `kfree` of a large object gives its block back, whatever its bytes look like -/
theorem HInv.kfree_block (ha : (Place.block p order, size) ∈ pls) :
    kfree y.heap (physToVirt p) = ⟨ammPhysFree y.heap.st p order, y.heap.heads⟩ := by
  obtain ⟨-, -, hout, -⟩ := h.placed _ ha
  have hS : S p := h.addr_mem (h.placed _ ha)
  have hlt := h.low _ hS
  have hnn : physToVirt p ≠ 0 := h.nonnull _ ha
  have htag := (h.buddy.outTag _ hout).2
  obtain ⟨hmod, hpage⟩ := page_of_ptr (h.out_page hout) (d := 0) (by decide) hlt
  have hhdr := h.hdrOf_eq hout (d := 0) (by decide) hlt
  rw [add_zero] at hmod hpage hhdr
  unfold kfree
  rw [if_neg hnn, virtToPhys_physToVirt hlt]
  simp only
  rw [h.touch hS, hpage, h.touch hS, hhdr, htag]
  by_cases hl : looksSlab y.heap.st.mem p = true
  · rw [if_pos ⟨hmod, hl⟩]
  · rw [if_neg fun hb => hl hb.2, if_neg hl]

/-- a slot starts in the second page of its slab exactly when its pointer is a second-page pointer -/
theorem HInv.secondPage_iff {i : ℕ} (ha : (Place.slot cls s i, size) ∈ pls) :
    secondPage (physToVirt (Place.slot cls s i).addr) size ↔ pageSize ≤ slabHdrSz + i * slabSize cls := by
  obtain ⟨hcls, hs, hi, -⟩ := h.placed _ ha
  have hc := (slabClass_some hcls).1
  have hout := (h.slabs cls hc s hs).1
  have haddr : (Place.slot cls s i).addr = s + (slabHdrSz + i * slabSize cls) := add_assoc _ _ _
  obtain ⟨-, -, -, -, -, -, hfit, -⟩ := class_facts cls hc
  have hend : (i + 1) * slabSize cls ≤ slabCap cls * slabSize cls := Nat.mul_le_mul_right _ hi
  rw [Nat.succ_mul] at hend
  rw [haddr]
  constructor
  · rintro ⟨h1, -, h3⟩
    -- the class has two pages, so the offset is the offset in the pair
    have hord : slabOrder cls = 1 := by
      have hle := (slabClass_some hcls).2
      have : ∀ c < 10, 1024 < slabSize c → slabOrder c = 1 := by decide
      exact this cls hc (lt_of_lt_of_le h1 hle)
    rw [hord] at hout hfit
    obtain ⟨h8, -⟩ := class_facts cls hc
    rwa [pair_of_ptr (h.out_pair hout) (by simp only [pageSize] at *; omega)] at h3
  · intro hoff
    obtain ⟨rfl, rfl⟩ := (slot_offset cls hc i hi).2.1 hoff
    refine ⟨slabClass_gt hcls (c := 7) (by decide), (slabClass_some hcls).2.trans (by decide), ?_⟩
    rw [pair_of_ptr (h.out_pair hout) (by decide)]
    exact hoff

/-- a large object has its block for itself -/
theorem HInv.home_ne (ha : (Place.block p order, size) ∈ pls) {b : Place × ℕ}
    (hb : b ∈ pls.erase (Place.block p order, size)) : b.1.home ≠ (p, order) := by
  intro e
  have hbp := h.placed b (List.mem_of_mem_erase hb)
  rcases b with ⟨pl, n⟩
  cases pl with
  | slot c s j =>
    have hsp : s = p := congrArg fst e
    exact (h.placed _ ha).2.2.2 c (slabClass_some hbp.1).1 (hsp ▸ hbp.2.1)
  | block q o =>
    have hnd := (List.perm_cons_erase ha).map fst |>.nodup_iff.1 h.nodup
    rw [map_cons, nodup_cons] at hnd
    have e' : (q, o) = (p, order) := e
    simp only [Prod.mk.injEq] at e'
    refine hnd.1 (mem_map.2 ⟨_, hb, ?_⟩)
    rw [e'.1, e'.2]

theorem kfree_inv {ptr : ℕ} (hg : good y (.kfree ptr size))
    (hs : hstep y (.kfree ptr size) = some y') : ∃ pls', HInv S y' pls' := by
  simp only [hstep] at hs
  split_ifs at hs with hmem
  cases hs
  rw [h.live] at hmem
  obtain ⟨⟨pl, n⟩, ha, he⟩ := mem_map.1 hmem
  obtain ⟨rfl, rfl⟩ := he
  rw [h.live_erase ha]
  cases pl with
  | slot cls s i =>
    have hcls := (h.placed _ ha).1
    have hout : outWithout y (physToVirt (Place.slot cls s i).addr) n = y.out := by simp only [outWithout, hcls]
    have hoff : slabHdrSz + i * slabSize cls < pageSize :=
      Nat.lt_of_not_le fun hoff => hg ((h.secondPage_iff ha).2 hoff)
    rw [hout, h.kfree_slot ha hoff]
    exact ⟨_, h.drop ha⟩
  | block p order =>
    obtain ⟨hcls, hord, hmem', hnew⟩ := h.placed _ ha
    have hlt := h.low _ (h.addr_mem (h.placed _ ha))
    have hout : outWithout y (physToVirt p) n = y.out.erase (p, order) := by
      simp only [outWithout, hcls, hord, virtToPhys_physToVirt (show p < 2 ^ 64 from hlt)]
    obtain ⟨hi, hfr⟩ := free_inv h.buddy hmem'
    simp only [Place.addr]
    rw [hout, h.kfree_block ha]
    refine ⟨_, h.reframe hi (fun c hc s hs => ?_) (List.erase_sublist) fun b hb => ?_⟩
    · have hsout : (s, slabOrder c) ∈ y.out.erase (p, order) := by
        refine (List.mem_erase_of_ne fun e => ?_).2 (h.slabs c hc s hs).1
        have hsp : s = p := congrArg fst e
        exact hnew c hc (hsp ▸ hs)
      refine ⟨hsout, fun x h1 h2 => hfr.mem x fun _ => ⟨_, hsout, ?_⟩⟩
      exact header_has (s, slabOrder c) h1 h2
    · exact (List.mem_erase_of_ne (h.home_ne ha hb)).2 (h.home_mem (h.placed b (List.mem_of_mem_erase hb)))

theorem store_inv {v : UInt8} (hs : hstep y (.store x v) = some y') : ∃ pls', HInv S y' pls' := by
  simp only [hstep] at hs
  split_ifs at hs with hany
  cases hs
  obtain ⟨a, ha, hx⟩ := List.any_eq_true.1 hany
  rw [h.live] at ha
  obtain ⟨⟨pl, n⟩, hpl, rfl⟩ := mem_map.1 ha
  have hp := h.placed _ hpl
  have hlt := h.low _ (h.addr_mem hp)
  simp only [ownByte, decide_eq_true_eq, virtToPhys_physToVirt hlt, ← placed_len hp] at hx
  have hfar : ∀ z, z ≠ x → update y.heap.st.mem x v z = y.heap.st.mem z :=
    fun z hz => update_of_ne hz _ _
  have hb : Inv S [] (y.heap.st.setMem (update y.heap.st.mem x v)) y.out := by
    refine h.buddy.owner_write fun z hz => hfar z ?_
    rintro rfl
    exact hz ⟨_, h.home_mem hp, placed_has hp hx.1 hx.2⟩
  have hi := h.reframe hb (fun c hc s hs => ⟨(h.slabs c hc s hs).1, fun z h1 h2 => hfar z ?_⟩) (List.Sublist.refl pls)
    fun a ha => h.home_mem (h.placed a ha)
  · rw [← h.live] at hi
    exact ⟨pls, hi⟩
  · rintro rfl
    exact h.header_free hc hs hp hx.1 hx.2 ⟨h1, h2⟩

/-- **One good step.** -/
theorem hstep_inv {o : HOp} (hg : good y o) (hs : hstep y o = some y') : ∃ pls', HInv S y' pls' := by
  cases o with
  | kmalloc size => exact kmalloc_inv h hg hs
  | kfree ptr size => exact kfree_inv h hg hs
  | store x v => exact store_inv h hs

/-- **Good runs keep every object in a place of its own.** -/
theorem good_run_inv {ops : List HOp} (hg : allGood y ops) (hr : hrun y ops = some y') : ∃ pls', HInv S y' pls' := by
  induction ops generalizing y pls with
  | nil =>
    cases hr
    exact ⟨pls, h⟩
  | cons o ops ih =>
    obtain ⟨y1, h1, h2⟩ := Option.bind_eq_some_iff.1 hr
    obtain ⟨pls1, hi⟩ := hstep_inv h hg.1 h1
    exact ih hi (hg.2 y1 h1) h2

end

end Steps

/-! ## Whole runs -/

variable {S : ℕ → Prop}

/-- the heap is empty before its first use -/
theorem start_inv {y : Sys} (h : Inv S [] y.st y.out) (hlow : ∀ x, S x → x < 2 ^ 64) :
    HInv S (HSys.start y) [] := by
  refine ⟨h, hlow, ?_, rfl, List.nodup_nil, ?_, ?_⟩
  · intro cls _ s hs
    cases hs
  · intro a ha
    cases ha
  · intro a ha
    cases ha

variable {y : HSys}

/-- from power-on: a boot, any use of the page allocator, then a good run of the heap -/
theorem booted_inv {mem : Mem} {mmap : List MmapEntry} (hm : GoodMap mmap) {s : St} (hb : boot mem mmap = some s)
    {pre : List Op} {z : Sys} (hz : run ⟨s, []⟩ pre = some z) {ops : List HOp}
    (hg : allGood (HSys.start z) ops) (hr : hrun (HSys.start z) ops = some y) :
    ∃ pls, HInv (fun x => freeByte mmap x ∧ ¬ s.pool x) y pls := by
  obtain ⟨-, hi⟩ := boot_inv hm hb
  obtain ⟨hi', -⟩ := run_inv pre hi hz
  refine good_run_inv (start_inv hi' ?_) hg hr
  rintro x ⟨⟨m, hmem, hf, h1, h2⟩, -⟩
  exact h2.trans (hm.noWrap m hmem hf)

/-! ## Filling a slab -/

/-- the class has one slab, at p, whose first k slots are the ones taken -/
structure Filled (S : ℕ → Prop) (y : HSys) (cls p k size : ℕ) (pls : List (Place × ℕ)) : Prop where
  inv : HInv S y pls
  heads : y.heap.heads cls = [p]
  bits : ∀ j < slabCap cls, bit y.heap.st.mem (hdrMap p) j = decide (j < k)
  live : ∀ j < k, (physToVirt (Place.slot cls p j).addr, size) ∈ y.live

section Fill

variable {S : ℕ → Prop} {y : HSys} {pls : List (Place × ℕ)} {cls p k size : ℕ}

section

variable (h : Filled S y cls p k size pls)
include h

theorem Filled.mem : p ∈ y.heap.heads cls := by
  rw [h.heads]
  exact mem_singleton_self p

theorem Filled.clear (hk : k < slabCap cls) : bit y.heap.st.mem (hdrMap p) k = false := by
  rw [h.bits k hk]
  exact decide_eq_false (lt_irrefl k)

/-- taking slot k of such a slab -/
theorem Filled.take (hcls : slabClass size = some cls) (hk : k < slabCap cls) :
    (allocSlot y.heap cls p).1 = physToVirt (Place.slot cls p k).addr ∧ ∃ pls', Filled S ⟨(allocSlot y.heap cls p).2,
      y.out, ((allocSlot y.heap cls p).1, size) :: y.live⟩ cls p (k + 1) size pls' := by
  have hc := (slabClass_some hcls).1
  have hs := h.mem
  have hok := (h.inv.slabs cls hc p hs).2
  have hslot : freeSlot y.heap.st.mem p = k := by
    rw [freeSlot, hok.cap, firstZero_eq hk h.bits]
    rfl
  have hptr : (allocSlot y.heap cls p).1 = physToVirt (Place.slot cls p k).addr := by
    rw [Mm.allocSlot, hslot]
    rfl
  have hmem : (allocSlot y.heap cls p).2 = ⟨y.heap.st.setMem (takeSlot y.heap.st.mem p k), y.heap.heads⟩ := by
    rw [Mm.allocSlot, hslot]
  have hbit := h.clear hk
  refine ⟨hptr, (.slot cls p k, size) :: pls, ?_⟩
  rw [hptr, hmem]
  refine ⟨h.inv.take hcls hs hk hbit, h.heads, fun j hj => ?_, fun j hj => ?_⟩
  · show bit (takeSlot y.heap.st.mem p k) (hdrMap p) j = _
    rw [bit_takeSlot, h.bits j hj, ← Bool.decide_or]
    exact decide_eq_decide.2 (by omega)
  · rcases Nat.lt_succ_iff_lt_or_eq.1 hj with hlt | rfl
    · exact mem_cons_of_mem _ (h.live j hlt)
    · exact mem_cons_self

/-- the slab is the open one of its class while its count is not 0 -/
theorem Filled.openSlab (hfree : hdrFree y.heap.st.mem p ≠ 0) : openSlab y.heap cls = some p := by
  rw [Mm.openSlab, h.heads, List.find?_cons_of_pos (by simpa using hfree)]

/-- the taken slots are places of the run -/
theorem Filled.placed (hcls : slabClass size = some cls) {j : ℕ} (hj : j < k)
    (hcap : j < slabCap cls) : (Place.slot cls p j, size) ∈ pls := by
  have hlive := h.live j hj
  rw [h.inv.live] at hlive
  obtain ⟨⟨pl, n⟩, ha, e⟩ := mem_map.1 hlive
  simp only [Prod.mk.injEq] at e
  have hp : Placed y size (Place.slot cls p j) := by
    refine ⟨hcls, h.mem, hcap, ?_⟩
    rw [h.bits j hcap]
    exact decide_eq_true hj
  rw [← h.inv.place_inj (h.inv.placed _ ha) hp e.1, ← e.2]
  exact ha

theorem Filled.step (h0 : size ≠ 0) (hcls : slabClass size = some cls)
    (hk : k < slabCap cls) : ∃ y' pls', hstep y (.kmalloc size) = some y' ∧ Filled S y' cls p (k + 1) size pls' := by
  have hc := (slabClass_some hcls).1
  have hs := h.mem
  have hfree : hdrFree y.heap.st.mem p ≠ 0 := h.inv.free_pos hc hs hk (h.clear hk)
  obtain ⟨hptr, pls', hi⟩ := h.take hcls hk
  have hnn : (Mm.allocSlot y.heap cls p).1 ≠ 0 := by
    rw [hptr]
    exact h.inv.slot_nonnull hc hs hk
  exact ⟨_, pls', hstep_open h0 hcls (h.openSlab hfree) hnn, hi⟩

/-- n more objects, as long as the bitmap has slots for them -/
theorem Filled.steps (h0 : size ≠ 0) (hcls : slabClass size = some cls) (n : ℕ)
    (hn : k + n ≤ slabCap cls) : ∃ y' pls', hrun y (replicate n (.kmalloc size)) = some y' ∧
      Filled S y' cls p (k + n) size pls' := by
  induction n generalizing y k pls with
  | zero => exact ⟨y, pls, rfl, h⟩
  | succ n ih =>
    obtain ⟨y1, pls1, h1, hi⟩ := h.step h0 hcls (by omega)
    obtain ⟨y2, pls2, h2, hi2⟩ := ih hi (by omega)
    refine ⟨y2, pls2, ?_, ?_⟩
    · rw [List.replicate_succ, hrun, h1]
      exact h2
    · have e : k + (n + 1) = k + 1 + n := by omega
      rw [e]
      exact hi2

end

/-- the first object of a class without slabs -/
theorem filled_first (h : HInv S y pls) (h0 : size ≠ 0) (hcls : slabClass size = some cls)
    (hnil : y.heap.heads cls = []) (hf : found y.heap.st (slabOrder cls) = true)
    (hp : (ammPhysAlloc y.heap.st (slabOrder cls)).1 ≠ 0) : ∃ y' pls', hstep y (.kmalloc size) = some y' ∧
      Filled S y' cls (ammPhysAlloc y.heap.st (slabOrder cls)).1 1 size pls' := by
  have hc := (slabClass_some hcls).1
  rcases hal : ammPhysAlloc y.heap.st (slabOrder cls) with ⟨p, st⟩
  rw [hal] at hp
  obtain ⟨hi, hbits⟩ := h.newSlab hc hf hal
  have hheads : (Heap.withSlab ⟨st, y.heap.heads⟩ cls p).heads cls = [p] := by
    have e : (Heap.withSlab ⟨st, y.heap.heads⟩ cls p).heads cls = p :: y.heap.heads cls := update_self _ _ _
    rw [e, hnil]
  have hz : Filled S ⟨Heap.withSlab ⟨st, y.heap.heads⟩ cls p, (p, slabOrder cls) :: y.out, y.live⟩ cls p 0 size pls :=
    ⟨hi, hheads, fun j hj => by rw [hbits j hj]; rfl, fun j hj => absurd hj (Nat.not_lt_zero j)⟩
  have hpos := (class_facts cls hc).2.2.1
  obtain ⟨hptr, pls', hi'⟩ := hz.take hcls hpos
  have hopen : openSlab y.heap cls = none := by
    rw [Mm.openSlab, hnil]
    rfl
  have hnn : (Mm.allocSlot (Heap.withSlab ⟨st, y.heap.heads⟩ cls p) cls p).1 ≠ 0 := by
    rw [hptr]
    exact hi.slot_nonnull hc (mem_withSlab _ cls p) hpos
  exact ⟨_, pls', hstep_new h0 hcls hopen hf hal hp rfl hnn, hi'⟩

end Fill

/-- what the heap promises about live objects -/
structure HeapSound (y : HSys) : Prop where
  /-- objects share no byte -/
  disjoint : y.live.Pairwise fun a b => ∀ x, ¬ (ownByte a x = true ∧ ownByte b x = true)
  /-- objects are as large as requested -/
  sized : ∀ a ∈ y.live, a.2 ≤ objLen a.2
  /-- an object is in a slab of its class, behind the header, or in a block of its own -/
  inside : ∀ a ∈ y.live,
    (∃ cls s, slabClass a.2 = some cls ∧ s ∈ y.heap.heads cls ∧ (s, slabOrder cls) ∈ y.out ∧
      s + slabHdrSz ≤ virtToPhys a.1 ∧ virtToPhys a.1 + objLen a.2 ≤ s + pageSize * 2 ^ slabOrder cls) ∨
    ∃ order, slabClass a.2 = none ∧ (virtToPhys a.1, order) ∈ y.out ∧ objLen a.2 ≤ pageSize * 2 ^ order

theorem HInv.sound {pls : List (Place × ℕ)} (h : HInv S y pls) : HeapSound y := by
  have haddr : ∀ a ∈ pls, virtToPhys (physToVirt a.1.addr) = a.1.addr := by
    intro a ha
    exact virtToPhys_physToVirt (h.low _ (h.addr_mem (h.placed a ha)))
  refine ⟨?_, ?_, ?_⟩
  · rw [h.live, List.pairwise_map]
    have hnd : pls.Pairwise fun a b => a.1 ≠ b.1 := List.pairwise_map.1 h.nodup
    refine hnd.imp_of_mem fun {a b} ha hb hne x hx => ?_
    have hpa := h.placed a ha
    have hpb := h.placed b hb
    simp only [ownByte, decide_eq_true_eq, haddr a ha, haddr b hb, ← placed_len hpa, ← placed_len hpb] at hx
    rcases h.places_disjoint hpa hpb hne with hd | hd <;> omega
  · intro a ha
    rw [h.live] at ha
    obtain ⟨b, hb, rfl⟩ := mem_map.1 ha
    exact size_le_objLen (h.placed b hb)
  intro a ha
  rw [h.live] at ha
  obtain ⟨b, hb, rfl⟩ := mem_map.1 ha
  have hp := h.placed b hb
  have hin := placed_inside hp
  have hlen := placed_len hp
  have hhome := h.home_mem hp
  simp only [haddr b hb, ← hlen]
  rcases b with ⟨pl, n⟩
  cases pl with
  | slot cls s i => exact .inl ⟨cls, s, hp.1, hp.2.1, hhome, hin.1, hin.2.1⟩
  | block p order => exact .inr ⟨order, hp.1, hhome, le_rfl⟩

/-- an 8-byte slab whose slots are all taken still counts as open, and its slot 0 is handed out once more -/
theorem Filled.overfull {pls : List (Place × ℕ)}
    (h : Filled S y 0 p 288 size pls) (h0 : size ≠ 0) (hcls : slabClass size = some 0) :
    ∃ y', hstep y (.kmalloc size) = some y' ∧ ¬ HeapSound y' := by
  have hs := h.mem
  have hok := (h.inv.slabs 0 (by decide) p hs).2
  have hset : ∀ j < slabCap 0, bit y.heap.st.mem (hdrMap p) j = true := by
    intro j hj
    rw [h.bits j hj]
    exact decide_eq_true hj
  have hfree : hdrFree y.heap.st.mem p ≠ 0 := by
    have hraw : rawCap 0 - slabCap 0 = 216 := by decide
    rw [hok.free, hraw]
    omega
  have hslot : freeSlot y.heap.st.mem p = 0 := by
    rw [freeSlot, hok.cap, firstZero_none.2 hset]
    rfl
  have hptr : (Mm.allocSlot y.heap 0 p).1 = physToVirt (Place.slot 0 p 0).addr := by
    rw [Mm.allocSlot, hslot]
    rfl
  have hnn : (Mm.allocSlot y.heap 0 p).1 ≠ 0 := by
    rw [hptr]
    exact h.inv.slot_nonnull (by decide) hs (by decide)
  refine ⟨_, hstep_open h0 hcls (h.openSlab hfree) hnn, fun hsound => ?_⟩
  -- the new object and the one that already holds slot 0 share their first byte
  have hfirst : ownByte (physToVirt (Place.slot 0 p 0).addr, size)
      (virtToPhys (physToVirt (Place.slot 0 p 0).addr)) = true := by
    have hlen : objLen size = 8 := by
      rw [objLen, hcls]
      rfl
    exact decide_eq_true ⟨le_rfl, by rw [hlen]; exact Nat.lt_add_of_pos_right (by decide)⟩
  have hshare := (List.pairwise_cons.1 hsound.disjoint).1 _ (h.live 0 (by decide))
  rw [hptr] at hshare
  exact hshare _ ⟨hfirst, hfirst⟩

/-- **Live objects are disjoint.** After every boot and every use of the page allocator, in every run of the heap whose
steps are all good, live objects share no byte, are as large as requested and lie inside their block behind its
header. -/
theorem good_run_sound {mem : Mem} {mmap : List MmapEntry} (hm : GoodMap mmap) {s : St} (hb : boot mem mmap = some s)
    {pre : List Op} {z : Sys} (hz : run ⟨s, []⟩ pre = some z) {ops : List HOp} {y : HSys}
    (hg : allGood (HSys.start z) ops) (hr : hrun (HSys.start z) ops = some y) : HeapSound y := by
  obtain ⟨pls, hi⟩ := booted_inv hm hb hz hg hr
  exact hi.sound

/-- the first objects of a small size after a boot with the small map -/
theorem smallMap_fill {s : St} (hb : boot (fun _ => 0) smallMap = some s) (size cls n : ℕ) (h0 : size ≠ 0)
    (hcls : slabClass size = some cls) (hn : n + 1 ≤ slabCap cls) :
    ∃ y p pls, hrun (HSys.start ⟨s, []⟩) (replicate (n + 1) (.kmalloc size)) = some y ∧
      Filled (fun x => freeByte smallMap x ∧ ¬ s.pool x) y cls p (n + 1) size pls := by
  have hc := class_facts cls (slabClass_some hcls).1
  have ho : slabOrder cls ≤ 8 := hc.2.2.2.2.2.2.2.trans (by decide)
  obtain ⟨hf, hp⟩ := smallMap_found hb ho
  have hpre : run ⟨s, []⟩ [] = some ⟨s, []⟩ := rfl
  have hgood : allGood (HSys.start ⟨s, []⟩) [] := trivial
  obtain ⟨pls0, hi⟩ := booted_inv smallMap_good hb hpre hgood rfl
  obtain ⟨y1, pls1, h1, hf1⟩ := filled_first hi h0 hcls rfl hf hp
  obtain ⟨y2, pls2, h2, hf2⟩ := hf1.steps h0 hcls n (by omega)
  refine ⟨y2, _, pls2, ?_, Nat.add_comm 1 n ▸ hf2⟩
  rw [List.replicate_succ, hrun, h1]
  exact h2

/-- three objects of 64 bytes, of which one is freed again -/
theorem good_run_sound_three : ∃ s y ptr, boot (fun _ => 0) smallMap = some s ∧
    hrun (HSys.start ⟨s, []⟩) (replicate 3 (.kmalloc 64) ++ [.kfree ptr 64]) = some y ∧ 2 ≤ y.live.length ∧ HeapSound y := by
  obtain ⟨s, hs⟩ := smallMap_boot fun _ => 0
  obtain ⟨y, p, pls, hy, hf⟩ := smallMap_fill hs 64 3 2 (by decide) (by decide) (by decide)
  obtain ⟨ptr, hlive⟩ : ∃ ptr, (ptr, 64) ∈ y.live := ⟨_, hf.live 0 (by decide)⟩
  have hrun' : hrun (HSys.start ⟨s, []⟩) (replicate 3 (.kmalloc 64) ++ [.kfree ptr 64]) =
      some ⟨kfree y.heap ptr, outWithout y ptr 64, y.live.erase (ptr, 64)⟩ := by
    rw [hrun_append, hy, Option.bind_some, hrun, hstep, if_pos hlive]
    rfl
  have hcount : 3 ≤ y.live.length := by
    have hsub : [0, 1, 2].map (fun j => (Place.slot 3 p j, 64)) ⊆ pls := by
      intro a ha
      obtain ⟨j, hj, rfl⟩ := mem_map.1 ha
      exact hf.placed (by decide) (by simp at hj; omega) (by simp at hj; rcases hj with rfl | rfl | rfl <;> decide)
    rw [hf.inv.live, List.length_map]
    exact (List.Nodup.subperm (by simp) hsub).length_le
  have hg : allGood (HSys.start ⟨s, []⟩) (replicate 3 (.kmalloc 64) ++ [.kfree ptr 64]) :=
    ⟨fun _ h => absurd h (by decide), fun _ _ => ⟨fun _ h => absurd h (by decide), fun _ _ =>
      ⟨fun _ h => absurd h (by decide), fun _ _ => ⟨fun h => absurd h.1 (by decide), fun _ _ => trivial⟩⟩⟩⟩
  have hpre : run ⟨s, []⟩ [] = some ⟨s, []⟩ := rfl
  refine ⟨s, _, ptr, hs, hrun', ?_, good_run_sound smallMap_good hs hpre hg hrun'⟩
  rw [List.length_erase_of_mem hlive]
  omega

/-- 289 objects of 8 bytes: the last one is the first one once more -/
theorem eight_byte_overlap : ∃ s y, boot (fun _ => 0) smallMap = some s ∧
    hrun (HSys.start ⟨s, []⟩) (replicate 289 (.kmalloc 8)) = some y ∧ ¬ HeapSound y := by
  obtain ⟨s, hs⟩ := smallMap_boot fun _ => 0
  obtain ⟨y, p, pls, hy, hf⟩ := smallMap_fill hs 8 0 287 (by decide) (by decide) (by decide)
  obtain ⟨y', hy', hno⟩ := hf.overfull (by decide) (by decide)
  refine ⟨s, y', hs, ?_, hno⟩
  rw [show (289 : ℕ) = 288 + 1 from rfl, List.replicate_succ', hrun_append, hy]
  simp only [Option.bind_some, hrun, hy']

end OpenASD.Mm
