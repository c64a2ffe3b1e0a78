/-
Page tables as a forest (kernel/mm/mm.c: pt_walk_alloc, map_page and the walks of amm_virt_to_kva and amm_vmap_destroy).

A table of the forest is found from the top table of an address space by at most three indices; the entries of the tables
at depth three are the leaves. D says which entries of a top table belong to the forest: the lower half for user address
spaces, where no two spaces share a table, or a part of the upper half for the kernel's own.

`Spaces` is the invariant: no table is found twice, every table is a whole page, and a page of the buddy allocator is a
table only while it is handed out. It is kept by every step of a walk that makes tables:
- `nextTable_spec`, `ptWalkAlloc_spec`: tables are made, no leaf changes;
- `mapPage_exact`: one leaf changes, that of the page, unless a table could not be made;
- `Spaces.alloc`, `Spaces.fresh_page`: pages that are no tables.
-/
import OpenASD.Core.Radix
import OpenASD.Mm.Buddy
import OpenASD.Mm.PageTable

namespace OpenASD.Mm

open ByteMem OpenASD.Dyadic

/-! ## Bits of an entry -/

theorem addr_and (x : ℕ) : x &&& pteAddrMask = x / 4096 % 2 ^ 40 * 4096 := by
  have hmask : pteAddrMask = (2 ^ 40 - 1) <<< 12 := by decide
  have hshift : x &&& (2 ^ 40 - 1) <<< 12 = (x >>> 12 &&& (2 ^ 40 - 1)) <<< 12 := by
    apply Nat.eq_of_testBit_eq
    intro i
    simp only [Nat.testBit_and, Nat.testBit_shiftLeft, Nat.testBit_shiftRight]
    by_cases hi : 12 ≤ i
    · simp [hi, Nat.add_sub_cancel' hi]
    · simp [hi]
  rw [hmask, hshift, Nat.and_two_pow_sub_one_eq_mod, Nat.shiftLeft_eq, Nat.shiftRight_eq_div_pow]

variable {t : ℕ}

/-- a page's address goes through the mask unchanged -/
theorem addr_of_page (h1 : 4096 ∣ t) (h2 : t < 2 ^ 52) : t &&& pteAddrMask = t := by
  rw [addr_and]
  omega

theorem addr_page (x : ℕ) : 4096 ∣ x &&& pteAddrMask ∧ x &&& pteAddrMask < 2 ^ 52 := by
  rw [addr_and]
  omega

/-- flags outside the address bits leave the address as it is -/
theorem addr_or {a f : ℕ} (h : f &&& pteAddrMask = 0) : (a &&& pteAddrMask ||| f) &&& pteAddrMask = a &&& pteAddrMask := by
  rw [Nat.and_or_distrib_right, h, Nat.or_zero, Nat.and_assoc, Nat.and_self]

/-- a bit outside the address bits is a bit of the flags -/
theorem flag_or {a f b : ℕ} (h : pteAddrMask &&& b = 0) : (a &&& pteAddrMask ||| f) &&& b = f &&& b := by
  rw [Nat.and_or_distrib_right, Nat.and_assoc, h, Nat.and_zero, Nat.zero_or]

variable {n : ℕ}

/-- what nextTable stores for the table at a page n -/
theorem table_entry (h1 : 4096 ∣ n) (h2 : n < 2 ^ 52) :
    tableEntry n &&& ptePresent ≠ 0 ∧ tableEntry n &&& pteAddrMask = n ∧ tableEntry n < 2 ^ 64 := by
  have hn := addr_of_page h1 h2
  have he : tableEntry n = (n &&& pteAddrMask) ||| 7 := by
    rw [tableEntry, hn, Nat.or_assoc, Nat.or_assoc]
    rfl
  rw [he]
  refine ⟨?_, ?_, ?_⟩
  · rw [flag_or (by decide)]
    decide
  · rw [addr_or (by decide), hn]
  · exact Nat.or_lt_two_pow (lt_trans (addr_page n).2 (by decide)) (by decide)

/-! ## The forest -/

/-- the table that an entry leads to -/
def child (e : ℕ) : Option ℕ := if e &&& ptePresent = 0 then none else some (e &&& pteAddrMask)

def entries (m : Mem) (t : ℕ) (i : Fin 512) : ℕ := entry m t i

/-- the indices of the tables above va -/
def topIdx (va : ℕ) : Fin 512 := ⟨pml4Idx va, Nat.mod_lt _ (by decide)⟩
def midIdx (va : ℕ) : Fin 512 := ⟨pdptIdx va, Nat.mod_lt _ (by decide)⟩
def lowIdx (va : ℕ) : Fin 512 := ⟨pdIdx va, Nat.mod_lt _ (by decide)⟩
def leafIdx (va : ℕ) : Fin 512 := ⟨ptIdx va, Nat.mod_lt _ (by decide)⟩

def path (va : ℕ) : List (Fin 512) := [topIdx va, midIdx va, lowIdx va]

/-- the page number of va within the 48 bits that a walk looks at -/
def vpn (va : ℕ) : ℕ := va / 4096 % 2 ^ 36

/-- the four indices are nine bits each of the page number -/
theorem idx_vpn (va : ℕ) : pml4Idx va = vpn va / 2 ^ 27 ∧ pdptIdx va = vpn va / 2 ^ 18 % 512 ∧
    pdIdx va = vpn va / 2 ^ 9 % 512 ∧ ptIdx va = vpn va % 512 := by
  have h1 : va / 2 ^ 39 = va / 4096 / 2 ^ 27 := (Nat.div_div_eq_div_mul va 4096 (2 ^ 27)).symm
  have h2 : va / 2 ^ 30 = va / 4096 / 2 ^ 18 := (Nat.div_div_eq_div_mul va 4096 (2 ^ 18)).symm
  have h3 : va / 2 ^ 21 = va / 4096 / 2 ^ 9 := (Nat.div_div_eq_div_mul va 4096 (2 ^ 9)).symm
  have h4 : va / 2 ^ 12 = va / 4096 := rfl
  rw [pml4Idx, pdptIdx, pdIdx, ptIdx, vpn, h1, h2, h3, h4]
  refine ⟨?_, ?_, ?_, ?_⟩ <;> omega

theorem vpn_digits (va : ℕ) : vpn va = pml4Idx va * 2 ^ 27 + pdptIdx va * 2 ^ 18 + pdIdx va * 2 ^ 9 + ptIdx va := by
  obtain ⟨h1, h2, h3, h4⟩ := idx_vpn va
  rw [h1, h2, h3, h4]
  omega

theorem path_eq_iff (va vb : ℕ) : path va = path vb ∧ leafIdx va = leafIdx vb ↔ vpn va = vpn vb := by
  simp only [path, topIdx, midIdx, lowIdx, leafIdx, List.cons.injEq, Fin.ext_iff, and_true]
  constructor
  · rintro ⟨⟨h1, h2, h3⟩, h4⟩
    rw [vpn_digits va, vpn_digits vb, h1, h2, h3, h4]
  intro h
  obtain ⟨a1, a2, a3, a4⟩ := idx_vpn va
  obtain ⟨b1, b2, b3, b4⟩ := idx_vpn vb
  rw [a1, a2, a3, a4, b1, b2, b3, b4, h]
  exact ⟨⟨rfl, rfl, rfl⟩, rfl⟩

variable {va : ℕ}

theorem topIdx_vpn {vb : ℕ} (h : vpn va = vpn vb) : topIdx va = topIdx vb := by
  have hp := ((path_eq_iff va vb).2 h).1
  simp only [path, List.cons.injEq] at hp
  exact hp.1

/-- paths of tables; the first index is one of D -/
def Ok (D : Fin 512 → Prop) (p : List (Fin 512)) : Prop := p.length ≤ 3 ∧ ∀ i ∈ p.head?, D i

theorem Ok.of_snoc {D : Fin 512 → Prop} (p : List (Fin 512)) (i : Fin 512) (h : Ok D (p ++ [i])) : Ok D p := by
  obtain ⟨h1, h2⟩ := h
  rw [List.length_append, List.length_singleton] at h1
  refine ⟨by omega, fun j hj => h2 j ?_⟩
  cases p with
  | nil => cases hj
  | cons a p => exact hj

theorem Ok.path {D : Fin 512 → Prop} (h : D (topIdx va)) : Ok D (path va) := by
  refine ⟨le_rfl, fun i hi => ?_⟩
  cases hi
  exact h

variable {m : Mem}

section

variable {κ : Type} (root : κ → Option ℕ)

/-- the table at a path of the space k -/
def table (m : Mem) (k : κ) (p : List (Fin 512)) : Option ℕ := Radix.node child (entries m) root k p

/-- the walk that amm_virt_to_kva and amm_vmap_destroy have in common: the last-level entry for va, or 0 when a table on
the way is not present -/
def ptLookup (m : Mem) (cr3 va : ℕ) : ℕ :=
  let e := entry m cr3 (pml4Idx va)
  if e &&& ptePresent = 0 then 0
  else
    let e := entry m (e &&& pteAddrMask) (pdptIdx va)
    if e &&& ptePresent = 0 then 0
    else
      let e := entry m (e &&& pteAddrMask) (pdIdx va)
      if e &&& ptePresent = 0 then 0 else entry m (e &&& pteAddrMask) (ptIdx va)

/-- the last-level entry for va in the space k -/
def pte (m : Mem) (k : κ) (va : ℕ) : ℕ :=
  match root k with
  | none => 0
  | some t => ptLookup m t va

theorem pte_root {k : κ} (h : root k = some t) (va : ℕ) : pte root m k va = ptLookup m t va := by
  rw [pte, h]

/-- the walk reads the leaf in the forest -/
theorem pte_eq (m : Mem) (k : κ) (va : ℕ) :
    pte root m k va = ((table root m k (path va)).map fun t => entry m t (leafIdx va)).getD 0 := by
  unfold pte table Radix.node
  cases root k with
  | none => rfl
  | some t =>
    simp only [Option.bind_some, path, Radix.descend, ptLookup, child, entries, topIdx, midIdx, lowIdx, leafIdx]
    split_ifs <;> simp_all

variable {root}

variable {k : κ} {m : Mem}

/-- a table that is missing leaves nothing below it -/
theorem table_above {p : List (Fin 512)} {i : Fin 512} {c : ℕ} (h : table root m k (p ++ [i]) = some c) :
    ∃ t, table root m k p = some t := by
  cases ht : table root m k p with
  | none => cases (Radix.node_snoc_none ht i).symm.trans h
  | some t => exact ⟨t, rfl⟩

theorem pte_some (h : table root m k (path va) = some t) : pte root m k va = entries m t (leafIdx va) := by
  rw [pte_eq, h]
  rfl

theorem pte_none (h : table root m k (path va) = none) : pte root m k va = 0 := by
  rw [pte_eq, h]
  rfl

end

/-! ## Entries and bytes -/

/-- x is a byte of the page at t -/
def inPage (t x : ℕ) : Prop := t ≤ x ∧ x < t + 4096

variable {t x : ℕ} {u : ℕ} {S : ℕ → Prop} {out : Out}

theorem inPage_disjoint (ht : 4096 ∣ t) (hu : 4096 ∣ u) (h1 : inPage t x) (h2 : inPage u x) : t = u := by
  obtain ⟨a1, a2⟩ := h1
  obtain ⟨b1, b2⟩ := h2
  omega

theorem entries_congr {m' : Mem} (h : ∀ x, inPage t x → m' x = m x) (i : Fin 512) : entries m' t i = entries m t i := by
  refine read_congr fun x h1 h2 => h x ⟨by omega, ?_⟩
  omega

theorem entries_clear (m : Mem) (t : ℕ) (i : Fin 512) : entries (fill m t pageSize 0) t i = 0 := by
  exact read_fill_zero (by omega) (by simp only [pageSize]; omega)

/-- the words of page-aligned tables overlap only when they are the same -/
theorem entries_write (ht : 4096 ∣ t) (hu : 4096 ∣ u) (i j : Fin 512) {e : ℕ} (he : e < 2 ^ 64) :
    entries (write m (t + 8 * i) 8 e) u j = if (u, j) = (t, i) then e else entries m u j := by
  split_ifs with h
  · obtain ⟨rfl, rfl⟩ := Prod.mk.injEq .. ▸ h
    exact (read_write m _ 8 e).trans (Nat.mod_eq_of_lt he)
  refine read_write_of_disjoint ?_
  by_contra hn
  apply h
  have htu : u = t := by omega
  subst htu
  rw [Fin.ext (by omega : (j : ℕ) = i)]

/-! ## The invariant -/

/-- x is no byte of the allocator's own: it lies outside the managed pages or in a block handed out -/
def Kept (S : ℕ → Prop) (out : Out) (x : ℕ) : Prop := S x → ∃ b ∈ out, (blk b.2 b.1).has x = true

/-- t is a whole page, and handed out if it is one of the allocator's -/
structure Held (S : ℕ → Prop) (out : Out) (t : ℕ) : Prop where
  page : 4096 ∣ t
  low : t < 2 ^ 52
  out : ∀ x, inPage t x → S x → (t, 0) ∈ out

theorem blk_page : (blk 0 t).has x = true ↔ inPage t x := by
  simp only [has_iff, blk, inPage, add_zero]
  rfl

theorem Held.kept (h : Held S out t) (hx : inPage t x) : Kept S out x :=
  fun hS => ⟨(t, 0), h.out x hx hS, blk_page.2 hx⟩

theorem Held.mono {out' : Out} (h : Held S out t) (hsub : ∀ b ∈ out, b ∈ out') : Held S out' t :=
  { h with out := fun x hx hS => hsub _ (h.out x hx hS) }

theorem Kept.mono {out' : Out} (h : Kept S out x) (hsub : ∀ b ∈ out, b ∈ out') : Kept S out' x := by
  intro hS
  obtain ⟨b, hb, hx⟩ := h hS
  exact ⟨b, hsub b hb, hx⟩

section

variable {κ : Type} {S : ℕ → Prop} {D : Fin 512 → Prop} {root : κ → Option ℕ} {s s' s'' : St} {out out' out'' : Out}

/-- the tables of the address spaces under D -/
structure Spaces (S : ℕ → Prop) (D : Fin 512 → Prop) (root : κ → Option ℕ) (s : St) (out : Out) : Prop where
  inv : Inv S [] s out
  low : ∀ x, S x → x < 2 ^ 52
  shaped : Radix.Shaped child (Ok D) (entries s.mem) root
  held : ∀ k p t, Ok D p → table root s.mem k p = some t → Held S out t

/-- without a space there is no table -/
theorem Spaces.start (h : Inv S [] s out) (hlow : ∀ x, S x → x < 2 ^ 52) : Spaces S D (fun _ : κ => none) s out := by
  have hnone : ∀ (k : κ) q, table (fun _ : κ => none) s.mem k q = none := fun _ _ => rfl
  refine ⟨h, hlow, fun k l p q t _ _ ht => ?_, fun k p t _ ht => ?_⟩
  · cases (hnone k p).symm.trans ht
  · cases (hnone k p).symm.trans ht

/-- x lies in a table -/
def InTable (D : Fin 512 → Prop) (root : κ → Option ℕ) (m : Mem) (x : ℕ) : Prop :=
  ∃ k p t, Ok D p ∧ table root m k p = some t ∧ inPage t x

/-- no leaf differs -/
def Steady (D : Fin 512 → Prop) (root : κ → Option ℕ) (m m' : Mem) : Prop :=
  ∀ k va, D (topIdx va) → pte root m' k va = pte root m k va

variable {m m' : Mem} {x d e t va cr3 : ℕ} {i : Fin 512} {k : κ} {p : List (Fin 512)}

theorem Steady.trans {m'' : Mem} (h : Steady D root m m') (h' : Steady D root m' m'') : Steady D root m m'' :=
  fun k va hD => (h' k va hD).trans (h k va hD)

/-- no table and no leaf differs -/
structure Still (D : Fin 512 → Prop) (root : κ → Option ℕ) (m m' : Mem) : Prop where
  tables : ∀ k p, Ok D p → table root m' k p = table root m k p
  leaves : Steady D root m m'

theorem Still.trans {m'' : Mem} (h : Still D root m m') (h' : Still D root m' m'') : Still D root m m'' :=
  ⟨fun k p hp => (h'.tables k p hp).trans (h.tables k p hp), h.leaves.trans h'.leaves⟩

theorem Still.inTable (h : Still D root m m') (hx : InTable D root m' x) : InTable D root m x := by
  obtain ⟨k, p, t, hp, ht, hin⟩ := hx
  exact ⟨k, p, t, hp, (h.tables k p hp).symm.trans ht, hin⟩

/-- what any step with the tables may do: tables stay where they are, new ones are pages that were the allocator's, other
bytes in use stay as they are, and at most d free pages are used up -/
structure Grows (S : ℕ → Prop) (D : Fin 512 → Prop) (root : κ → Option ℕ) (s : St) (out : Out) (s' : St) (out' : Out)
    (d : ℕ) : Prop where
  spaces : Spaces S D root s' out'
  more : out <:+ out'
  nodes : ∀ k p t, Ok D p → table root s.mem k p = some t → table root s'.mem k p = some t
  fresh : ∀ x, InTable D root s'.mem x → InTable D root s.mem x ∨ ¬ Kept S out x
  data : ∀ x, Kept S out x → ¬ InTable D root s.mem x → s'.mem x = s.mem x
  cost : freeSum s.lists ≤ freeSum s'.lists + d
  cr3 : s'.kernelCr3 = s.kernelCr3

theorem Grows.refl (h : Spaces S D root s out) : Grows S D root s out s out 0 :=
  ⟨h, List.suffix_rfl, fun _ _ _ _ ht => ht, fun _ hx => .inl hx, fun _ _ _ => rfl, le_rfl, rfl⟩

section

variable (h : Grows S D root s out s' out' d)
include h

theorem Grows.trans {d' : ℕ} (h' : Grows S D root s' out' s'' out'' d') : Grows S D root s out s'' out'' (d + d') := by
  refine ⟨h'.spaces, h.more.trans h'.more, fun k p t hp ht => h'.nodes k p t hp (h.nodes k p t hp ht), ?_, ?_, ?_,
    h'.cr3.trans h.cr3⟩
  · intro x hx
    rcases h'.fresh x hx with hx | hx
    · exact h.fresh x hx
    · exact .inr fun hk => hx (hk.mono fun b hb => h.more.subset hb)
  · intro x hk hx
    have hx' : ¬ InTable D root s'.mem x := by
      intro hin
      exact (h.fresh x hin).elim hx fun hn => hn hk
    rw [h'.data x (hk.mono fun b hb => h.more.subset hb) hx', h.data x hk hx]
  · have h1 := h.cost
    have h2 := h'.cost
    omega

theorem Grows.mono {d' : ℕ} (hd : d ≤ d') : Grows S D root s out s' out' d' :=
  { h with cost := h.cost.trans (Nat.add_le_add_left hd _) }

/-- tables stay tables -/
theorem Grows.inTable (hx : InTable D root s.mem x) : InTable D root s'.mem x := by
  obtain ⟨k, p, t, hp, ht, hin⟩ := hx
  exact ⟨k, p, t, hp, h.nodes k p t hp ht, hin⟩

end

section

variable (h : Spaces S D root s out)
include h

/-- steps that touch no byte of a table -/
theorem Spaces.same (hi : Inv S [] s' out')
    (hheld : ∀ k p t, Ok D p → table root s.mem k p = some t → Held S out' t)
    (hm : ∀ x, InTable D root s.mem x → s'.mem x = s.mem x) : Spaces S D root s' out' ∧ Still D root s.mem s'.mem := by
  have hent : ∀ k p t i, Ok D p → table root s.mem k p = some t → entries s'.mem t i = entries s.mem t i :=
    fun k p t i hp ht => entries_congr (fun x hx => hm x ⟨k, p, t, hp, ht, hx⟩) i
  have hnode : ∀ k p, Ok D p → table root s'.mem k p = table root s.mem k p :=
    fun k p hp => Radix.node_congr Ok.of_snoc (fun l q t i hq ht => hent l q t i (Ok.of_snoc q i hq) ht) k hp
  refine ⟨⟨hi, h.low, h.shaped.of_node hnode, ?_⟩, hnode, ?_⟩
  · intro k p t hp ht
    rw [hnode k p hp] at ht
    exact hheld k p t hp ht
  intro k va hD
  have hsame := hnode k (path va) (Ok.path hD)
  cases ht : table root s.mem k (path va) with
  | none => rw [pte_none (hsame.trans ht), pte_none ht]
  | some t => rw [pte_some (hsame.trans ht), pte_some ht, hent k (path va) t (leafIdx va) (Ok.path hD) ht]

omit h in
/-- the block handed out last is aligned, and its bytes were the allocator's -/
theorem Inv.head_out {p o : ℕ} (h : Inv S [] s ((p, o) :: out)) :
    2 ^ (12 + o) ∣ p ∧ ∀ x, (blk o p).has x = true → S x ∧ ¬ Kept S out x := by
  have hmem : blk o p ∈ [] ++ (freeBlocks s.lists ++ outBlocks ((p, o) :: out)) := by simp [outBlocks]
  refine ⟨h.tiles.aligned _ hmem, fun x hx => ?_⟩
  have hS := h.tiles.subset hmem hx
  refine ⟨hS, fun hk => ?_⟩
  obtain ⟨b, hb, hbx⟩ := hk hS
  have hp := (List.pairwise_append.1 ((List.pairwise_append.1 h.tiles.pairwise).2.1)).2.1
  rw [outBlocks, List.map_cons, List.pairwise_cons] at hp
  exact hp.1 _ (List.mem_map.2 ⟨b, hb, rfl⟩) x ⟨hx, hbx⟩

/-- bytes of tables are in use -/
theorem Spaces.kept (hx : InTable D root s.mem x) : Kept S out x := by
  obtain ⟨k, p, t, hp, ht, hin⟩ := hx
  exact (h.held k p t hp ht).kept hin

/-- a block is handed out -/
theorem Spaces.alloc {o : ℕ} (hf : found s o = true) :
    Grows S D root s out (ammPhysAlloc s o).2 (((ammPhysAlloc s o).1, o) :: out) (2 ^ o) ∧
    Still D root s.mem (ammPhysAlloc s o).2.mem := by
  obtain ⟨hi, hfr⟩ := alloc_inv h.inv hf
  have hsub : ∀ b ∈ out, b ∈ ((ammPhysAlloc s o).1, o) :: out := fun b hb => List.mem_cons_of_mem _ hb
  obtain ⟨hs, hst⟩ := h.same hi (fun k p t hp ht => (h.held k p t hp ht).mono hsub)
    (fun x hx => hfr.mem x (h.kept hx))
  exact ⟨⟨hs, List.suffix_cons _ _, fun k p t hp ht => (hst.tables k p hp).trans ht,
    fun x hx => .inl (hst.inTable hx), fun x hk _ => hfr.mem x hk, (alloc_freeSum h.inv.late hf).ge, hfr.cr3⟩, hst⟩

omit h in
/-- bytes that the step took from the allocator, and that are no table, may be written -/
theorem Grows.write (h : Grows S D root s out s' out' d)
    (hm : ∀ x, m x ≠ s'.mem x → Kept S out' x ∧ ¬ InTable D root s'.mem x ∧ ¬ Kept S out x) :
    Grows S D root s out (s'.setMem m) out' d ∧ Still D root s'.mem m := by
  have hi : Inv S [] (s'.setMem m) out' := by
    refine h.spaces.inv.write_kept fun x hS hno => ?_
    by_contra hne
    exact hno ((hm x hne).1 hS)
  have htab : ∀ x, InTable D root s'.mem x → m x = s'.mem x := by
    intro x hx
    by_contra hne
    exact (hm x hne).2.1 hx
  obtain ⟨hs, hst⟩ := h.spaces.same hi (fun k p t hp ht => h.spaces.held k p t hp ht) htab
  refine ⟨⟨hs, h.more, fun k p t hp ht => (hst.tables k p hp).trans (h.nodes k p t hp ht),
    fun x hx => h.fresh x (hst.inTable hx), fun x hk hx => ?_, h.cost, h.cr3⟩, hst⟩
  rw [← h.data x hk hx]
  by_contra hne
  exact (hm x hne).2.2 hk

/-- **Fresh page.** A page that is handed out and cleared was the allocator's and is no table. -/
theorem Spaces.fresh_page (hf : found s 0 = true) :
    Grows S D root s out (clearPage (ammPhysAlloc s 0).2 (ammPhysAlloc s 0).1) (((ammPhysAlloc s 0).1, 0) :: out) 1 ∧
    Still D root s.mem (clearPage (ammPhysAlloc s 0).2 (ammPhysAlloc s 0).1).mem ∧
    Held S (((ammPhysAlloc s 0).1, 0) :: out) (ammPhysAlloc s 0).1 ∧
    ∀ x, inPage (ammPhysAlloc s 0).1 x → S x ∧ ¬ Kept S out x := by
  obtain ⟨hg, hst⟩ := h.alloc hf
  obtain ⟨hal, hnew⟩ := Inv.head_out hg.spaces.inv
  generalize ammPhysAlloc s 0 = r at *
  have hpage : ∀ x, inPage r.1 x → S x ∧ ¬ Kept S out x := fun x hx => hnew x (blk_page.2 hx)
  have hclear : ∀ x, fill r.2.mem r.1 pageSize 0 x ≠ r.2.mem x → inPage r.1 x := by
    intro x hne
    by_contra hout
    exact hne (fill_out (by simp only [inPage, pageSize] at *; omega))
  obtain ⟨hg', hst'⟩ := hg.write (m := fill r.2.mem r.1 pageSize 0) (by
    intro x hne
    have hx := hclear x hne
    exact ⟨fun _ => ⟨(r.1, 0), List.mem_cons_self, blk_page.2 hx⟩, fun hin => (hpage x hx).2 (h.kept (hst.inTable hin)),
      (hpage x hx).2⟩)
  have hS := (hpage r.1 ⟨le_rfl, by omega⟩).1
  exact ⟨hg', hst.trans hst', ⟨hal, h.low r.1 hS, fun _ _ _ => List.mem_cons_self⟩, hpage⟩

end

/-! ## Stores into tables -/

/-- a store into a table changes no other page -/
theorem setEntry_out (hx : ¬ inPage t x) : (setEntry s t i e).mem x = s.mem x := by
  refine write_out ?_
  simp only [inPage] at hx
  omega

section

variable (h : Spaces S D root s out)
include h

theorem Spaces.setEntry_inv (hp : Ok D p)
    (ht : table root s.mem k p = some t) (i : Fin 512) (e : ℕ) : Inv S [] (setEntry s t i e) out := by
  refine h.inv.write_kept fun x hS hno => setEntry_out fun hx => ?_
  exact hno ((h.held k p t hp ht).kept hx hS)

/-- the entries of tables after a store into one of them -/
theorem Spaces.setEntry_entries {l : κ} {q : List (Fin 512)} (hp : Ok D p)
    (ht : table root s.mem k p = some t) (hq : Ok D q) (hu : table root s.mem l q = some u) (i j : Fin 512)
    (he : e < 2 ^ 64) : entries (setEntry s t i e).mem u j = if (u, j) = (t, i) then e else entries s.mem u j :=
  entries_write (h.held k p t hp ht).page (h.held l q u hq hu).page i j he

section

variable (hD : D (topIdx va)) (ht : table root s.mem k (path va) = some t) (he : e < 2 ^ 64)
include hD ht he

/-- a store into a leaf moves no table -/
theorem Spaces.store_tables (l : κ) {q : List (Fin 512)} (hq : Ok D q) :
    table root (setEntry s t (leafIdx va) e).mem l q = table root s.mem l q := by
  have hp := Ok.path hD
  have hleaf : ¬ Ok D (path va ++ [leafIdx va]) := fun hok => absurd hok.1 (by simp [path])
  refine Radix.node_store Ok.of_snoc h.shaped hp ht hleaf (fun l q u j hq hu hne => ?_) l hq
  rw [h.setEntry_entries hp ht hq hu _ j he, if_neg hne]

/-- **Leaf store.** It changes the entry of one page in one space. -/
theorem Spaces.store [DecidableEq κ] :
    Grows S D root s out (setEntry s t (leafIdx va) e) out 0 ∧ ∀ l vb, D (topIdx vb) →
      pte root (setEntry s t (leafIdx va) e).mem l vb = if l = k ∧ vpn vb = vpn va then e else pte root s.mem l vb := by
  have hp := Ok.path hD
  have hnode := fun l q hq => h.store_tables hD ht he l (q := q) hq
  have hin : ∀ x, InTable D root (setEntry s t (leafIdx va) e).mem x → InTable D root s.mem x := by
    rintro x ⟨l, q, u, hq, hu, hx⟩
    exact ⟨l, q, u, hq, (hnode l q hq).symm.trans hu, hx⟩
  refine ⟨⟨⟨h.setEntry_inv hp ht _ e, h.low, h.shaped.of_node hnode, ?_⟩, List.suffix_rfl,
    fun l q u hq hu => (hnode l q hq).trans hu, fun x hx => .inl (hin x hx), ?_, le_rfl, rfl⟩, ?_⟩
  · intro l q u hq hu
    exact h.held l q u hq ((hnode l q hq).symm.trans hu)
  · intro x _ hx
    exact setEntry_out fun hin => hx ⟨k, path va, t, hp, ht, hin⟩
  intro l vb hDb
  have hsame := hnode l (path vb) (Ok.path hDb)
  cases hu : table root s.mem l (path vb) with
  | none =>
    rw [pte_none (hsame.trans hu), pte_none hu, if_neg]
    rintro ⟨rfl, hv⟩
    rw [((path_eq_iff vb va).2 hv).1, ht] at hu
    cases hu
  | some u =>
    have hent := h.setEntry_entries hp ht (Ok.path hDb) hu (leafIdx va) (leafIdx vb) he
    -- the leaf is the one stored to exactly when space, tables and last index agree
    have hiff : (u, leafIdx vb) = (t, leafIdx va) ↔ l = k ∧ vpn vb = vpn va := by
      rw [← path_eq_iff, Prod.mk.injEq]
      constructor
      · rintro ⟨rfl, hi⟩
        obtain ⟨h1, h2⟩ := h.shaped l k _ _ u (Ok.path hDb) hp hu ht
        exact ⟨h1, h2, hi⟩
      · rintro ⟨rfl, h2, hi⟩
        rw [h2, ht] at hu
        exact ⟨(Option.some.inj hu).symm, hi⟩
    rw [pte_some (hsame.trans hu), pte_some hu, hent]
    exact if_congr hiff rfl rfl

end

/-- the tables after an entry that is not present has been made to lead to a cleared page -/
theorem Spaces.link_tables [DecidableEq κ]
    (hp : Ok D (p ++ [i])) (ht : table root s.mem k p = some t) (h0 : child (entries s.mem t i) = none)
    (hn : Held S out n) (hne : ∀ l q, Ok D q → table root s.mem l q ≠ some n) (hz : ∀ j, entries s.mem n j = 0) :
    (∀ j, entries (setEntry s t i (tableEntry n)).mem n j = 0) ∧
    ∀ l q, Ok D q → table root (setEntry s t i (tableEntry n)).mem l q =
      if l = k ∧ q = p ++ [i] then some n else table root s.mem l q := by
  have hp' := Ok.of_snoc p i hp
  obtain ⟨he1, he2, he3⟩ := table_entry hn.page hn.low
  generalize tableEntry n = e at *
  have hnt : n ≠ t := fun e => hne k p hp' (e ▸ ht)
  have hset : child (entries (setEntry s t i e).mem t i) = some n := by
    rw [h.setEntry_entries hp' ht hp' ht i i he3, if_pos rfl, child, if_neg he1, he2]
  have hempty : ∀ j, entries (setEntry s t i e).mem n j = 0 := by
    intro j
    refine (entries_write (h.held k p t hp' ht).page hn.page i j he3).trans ?_
    rw [if_neg fun e => hnt (congrArg Prod.fst e), hz]
  refine ⟨hempty, fun l q hq => ?_⟩
  refine Radix.node_link Ok.of_snoc h.shaped hp ht h0 (fun l q u j hq hu hne => ?_) hset (fun j => ?_) l hq
  · rw [h.setEntry_entries hp' ht hq hu i j he3, if_neg hne]
  · rw [hempty j]
    rfl

end

/-- **Link.** An entry that is not present gets a cleared page that the step took from the allocator. -/
theorem Grows.link (h : Grows S D root s out s' out' d)
    (hp : Ok D (p ++ [i])) (ht : table root s'.mem k p = some t) (h0 : child (entries s'.mem t i) = none)
    (hn : Held S out' n) (hfresh : ∀ x, inPage n x → ¬ Kept S out x ∧ ¬ InTable D root s'.mem x)
    (hz : ∀ j, entries s'.mem n j = 0) :
    Grows S D root s out (setEntry s' t i (tableEntry n)) out' d ∧
    Steady D root s'.mem (setEntry s' t i (tableEntry n)).mem ∧
    table root (setEntry s' t i (tableEntry n)).mem k (p ++ [i]) = some n := by
  classical
  have hp' := Ok.of_snoc p i hp
  have hbase : inPage n n := ⟨le_rfl, by omega⟩
  -- the new table is none of the old ones
  have hne : ∀ l q, Ok D q → table root s'.mem l q ≠ some n := fun l q hq hu => (hfresh n hbase).2 ⟨l, q, n, hq, hu, hbase⟩
  obtain ⟨hempty, hnode⟩ := h.spaces.link_tables hp ht h0 hn hne hz
  obtain ⟨-, -, he3⟩ := table_entry hn.page hn.low
  generalize tableEntry n = e at *
  have hold : table root s'.mem k (p ++ [i]) = none := (Radix.node_snoc_some ht i).trans h0
  have hkeep : ∀ l q u, Ok D q → table root s'.mem l q = some u → table root (setEntry s' t i e).mem l q = some u := by
    intro l q u hq hu
    rw [hnode l q hq, if_neg, hu]
    rintro ⟨rfl, rfl⟩
    rw [hold] at hu
    cases hu
  refine ⟨⟨⟨h.spaces.setEntry_inv hp' ht i e, h.spaces.low, h.spaces.shaped.of_link hne hnode, ?_⟩, h.more,
    fun l q u hq hu => hkeep l q u hq (h.nodes l q u hq hu), ?_, ?_, h.cost, h.cr3⟩, ?_, ?_⟩
  · intro l q u hq hu
    rw [hnode l q hq] at hu
    split_ifs at hu with hc
    · cases hu
      exact hn
    · exact h.spaces.held l q u hq hu
  · rintro x ⟨l, q, u, hq, hu, hx⟩
    rw [hnode l q hq] at hu
    split_ifs at hu with hc
    · cases hu
      exact .inr (hfresh x hx).1
    · exact h.fresh x ⟨l, q, u, hq, hu, hx⟩
  · intro x hk hx
    rw [← h.data x hk hx]
    refine setEntry_out fun hin => ?_
    exact (h.fresh x ⟨k, p, t, hp', ht, hin⟩).elim hx fun hno => hno hk
  · -- a leaf below the new table was 0 and is 0; the others are in tables that the store does not touch
    intro l va hD
    have hsame := hnode l (path va) (Ok.path hD)
    by_cases hc : l = k ∧ path va = p ++ [i]
    · rw [if_pos hc] at hsame
      obtain ⟨rfl, hc⟩ := hc
      rw [pte_some hsame, hempty, pte_none (hc ▸ hold)]
    rw [if_neg hc] at hsame
    cases hu : table root s'.mem l (path va) with
    | none => rw [pte_none (hsame.trans hu), pte_none hu]
    | some u =>
      rw [pte_some (hsame.trans hu), pte_some hu, h.spaces.setEntry_entries hp' ht (Ok.path hD) hu i (leafIdx va) he3]
      refine if_neg fun e => ?_
      obtain ⟨rfl, -⟩ := Prod.mk.injEq .. ▸ e
      have hlen := congrArg List.length (h.spaces.shaped l k _ _ u (Ok.path hD) hp' hu ht).2
      have h3 := hp.1
      rw [List.length_append, List.length_singleton] at h3
      simp only [path, List.length_cons, List.length_nil] at hlen
      omega
  · rw [hnode k _ hp, if_pos ⟨rfl, rfl⟩]

/-! ## Walks that make tables -/

/-- the page that the allocator hands out becomes the table at the path q of k; nothing else changes -/
structure Planted [DecidableEq κ] (S : ℕ → Prop) (D : Fin 512 → Prop) (root : κ → Option ℕ) (s : St) (out : Out) (s' : St)
    (k : κ) (q : List (Fin 512)) : Prop where
  grows : Grows S D root s out s' (((ammPhysAlloc s 0).1, 0) :: out) 1
  steady : Steady D root s.mem s'.mem
  tables : ∀ l r, Ok D r → table root s'.mem l r =
    if l = k ∧ r = q then some (ammPhysAlloc s 0).1 else table root s.mem l r
  lists : s'.lists = (ammPhysAlloc s 0).2.lists

section

variable (h : Spaces S D root s out)
include h

/-- everything that one level of a walk can do -/
theorem nextTable_cases [DecidableEq κ] (hp : Ok D (p ++ [i])) (ht : table root s.mem k p = some t) :
    (∃ c, table root s.mem k (p ++ [i]) = some c ∧ nextTable s t i = (some c, s)) ∨ table root s.mem k (p ++ [i]) = none ∧
      (found s 0 = false ∧ nextTable s t i = (none, s) ∨
        found s 0 = true ∧ (ammPhysAlloc s 0).1 = 0 ∧ nextTable s t i = (none, (ammPhysAlloc s 0).2) ∨
        found s 0 = true ∧ (ammPhysAlloc s 0).1 ≠ 0 ∧ ∃ s', nextTable s t i = (some (ammPhysAlloc s 0).1, s') ∧
          Planted S D root s out s' k (p ++ [i])) := by
  have hbelow : table root s.mem k (p ++ [i]) = child (entry s.mem t i) := Radix.node_snoc_some ht i
  unfold nextTable
  by_cases hpre : entry s.mem t i &&& ptePresent = 0
  · rw [child, if_pos hpre] at hbelow
    rw [if_pos hpre]
    refine .inr ⟨hbelow, ?_⟩
    cases hf : found s 0 with
    | false =>
      rw [alloc_not_found h.inv.late hf]
      exact .inl ⟨rfl, rfl⟩
    | true =>
      refine .inr ?_
      obtain ⟨hg, hst, hheld, hpage⟩ := h.fresh_page hf
      have hz := entries_clear (ammPhysAlloc s 0).2.mem (ammPhysAlloc s 0).1
      by_cases hr : (ammPhysAlloc s 0).1 = 0
      · -- the allocator's page 0 is taken for a failure, and lost
        rw [if_pos hr]
        exact .inl ⟨rfl, hr, rfl⟩
      rw [if_neg hr]
      have ht' := hg.nodes k p t (Ok.of_snoc p i hp) ht
      have hnone : child (entries (clearPage (ammPhysAlloc s 0).2 (ammPhysAlloc s 0).1).mem t i) = none :=
        (Radix.node_snoc_some ht' i).symm.trans ((hst.tables k _ hp).trans hbelow)
      have hnew : ∀ x, inPage (ammPhysAlloc s 0).1 x →
          ¬ InTable D root (clearPage (ammPhysAlloc s 0).2 (ammPhysAlloc s 0).1).mem x :=
        fun x hx hin => (hpage x hx).2 (h.kept (hst.inTable hin))
      obtain ⟨hg', hst', htab⟩ := hg.link hp ht' hnone hheld (fun x hx => ⟨(hpage x hx).2, hnew x hx⟩) hz
      have hbase : inPage (ammPhysAlloc s 0).1 (ammPhysAlloc s 0).1 := ⟨le_rfl, by omega⟩
      obtain ⟨-, hnode⟩ := hg.spaces.link_tables hp ht' hnone hheld
        (fun l q hq hu => hnew _ hbase ⟨l, q, _, hq, hu, hbase⟩) hz
      refine .inr ⟨rfl, hr, _, ?_, hg', hst.leaves.trans hst', fun l q hq => ?_, rfl⟩
      · -- the walk reads back the entry it has stored
        have hpres := (Radix.node_snoc_some (hg'.nodes k p t (Ok.of_snoc p i hp) ht) i).symm.trans htab
        rw [child, Option.ite_none_left_eq_some] at hpres
        exact Prod.ext (congrArg some (Option.some.inj hpres.2)) rfl
      · rw [hnode l q hq, hst.tables l q hq]
  · rw [if_neg hpre]
    rw [child, if_neg hpre] at hbelow
    exact .inl ⟨_, hbelow, rfl⟩

/-- **One level of a walk.** It ends at the table below the entry, which is made if a page is left; no leaf changes. -/
theorem nextTable_spec (hp : Ok D (p ++ [i])) (ht : table root s.mem k p = some t) :
    ∃ out', Grows S D root s out (nextTable s t i).2 out' 1 ∧ Steady D root s.mem (nextTable s t i).2.mem ∧
      (∀ c, (nextTable s t i).1 = some c → table root (nextTable s t i).2.mem k (p ++ [i]) = some c) ∧
      (0 < freeSum s.lists → ¬ S 0 → (nextTable s t i).1 ≠ none) := by
  classical
  have hsame := (Grows.refl h).mono (Nat.zero_le 1)
  obtain ⟨c, hc, he⟩ | ⟨-, ⟨hf, he⟩ | ⟨hf, hr, he⟩ | ⟨-, -, s', he, hpl⟩⟩ := nextTable_cases h hp ht
  · rw [he]
    exact ⟨out, hsame, fun _ _ _ => rfl, fun _ e => e ▸ hc, fun _ _ e => (by cases e)⟩
  · rw [he]
    refine ⟨out, hsame, fun _ _ _ => rfl, fun _ e => (by cases e), fun hpos => ?_⟩
    rw [found_of_freeSum hpos] at hf
    cases hf
  · obtain ⟨hg, hst⟩ := h.alloc hf
    obtain ⟨-, -, -, hpage⟩ := h.fresh_page hf
    have hS := (hpage _ ⟨le_rfl, by omega⟩).1
    rw [he]
    exact ⟨_, hg, hst.leaves, fun _ e => (by cases e), fun _ h0 => absurd (hr ▸ hS) h0⟩
  · rw [he]
    refine ⟨_, hpl.grows, hpl.steady, fun c e => ?_, fun _ _ e => (by cases e)⟩
    rw [hpl.tables k _ hp, if_pos ⟨rfl, rfl⟩]
    exact e

section

variable (hk : root k = some cr3) (hD : D (topIdx va))
include hk hD

/-- the levels on the way to va, from the top table -/
theorem Spaces.levels :
    Ok D ([] ++ [topIdx va]) ∧ Ok D ([topIdx va] ++ [midIdx va]) ∧ Ok D ([topIdx va, midIdx va] ++ [lowIdx va]) ∧
      table root s.mem k [] = some cr3 ∧ cr3 &&& pteAddrMask = cr3 := by
  have hok1 : Ok D ([] ++ [topIdx va]) := ⟨by simp, fun i hi => by cases hi; exact hD⟩
  have ht0 : table root s.mem k [] = some cr3 := (Radix.node_nil k).trans hk
  have hheld := h.held k [] cr3 (Ok.of_snoc [] _ hok1) ht0
  exact ⟨hok1, ⟨by simp, fun i hi => by cases hi; exact hD⟩, ⟨by simp, fun i hi => by cases hi; exact hD⟩, ht0,
    addr_of_page hheld.page hheld.low⟩

/-- **Walk.** It ends at the last-level table for va, unless a table could not be made; no leaf changes. -/
theorem ptWalkAlloc_spec :
    ∃ out', Grows S D root s out (ptWalkAlloc s cr3 va).2 out' 3 ∧ Steady D root s.mem (ptWalkAlloc s cr3 va).2.mem ∧
      (∀ e, (ptWalkAlloc s cr3 va).1 = some e →
        table root (ptWalkAlloc s cr3 va).2.mem k (path va) = some e.1 ∧ e.2 = leafIdx va) ∧
      (3 ≤ freeSum s.lists → ¬ S 0 → (ptWalkAlloc s cr3 va).1 ≠ none) := by
  obtain ⟨hok1, hok2, hok3, ht0, hcr3⟩ := h.levels hk hD
  obtain ⟨o1, g1, st1, t1, f1⟩ := nextTable_spec h hok1 ht0
  have hc := ptWalkAlloc_cases s cr3 va
  rw [hcr3] at hc
  obtain ⟨s1, e1, hw⟩ | ⟨pdpt, s1, e1, hc⟩ := hc
  · rw [hw]
    rw [show nextTable s cr3 (topIdx va) = (none, s1) from e1] at g1 st1 f1
    exact ⟨o1, g1.mono (by decide), st1, fun e he => (by cases he), fun hf h0 _ => f1 (by omega) h0 rfl⟩
  rw [show nextTable s cr3 (topIdx va) = (some pdpt, s1) from e1] at g1 st1 t1
  obtain ⟨o2, g2, st2, t2, f2⟩ := nextTable_spec g1.spaces hok2 (t1 pdpt rfl)
  have hcost1 := g1.cost
  obtain ⟨s2, e2, hw⟩ | ⟨pd, s2, e2, hc⟩ := hc
  · rw [hw]
    rw [show nextTable s1 pdpt (midIdx va) = (none, s2) from e2] at g2 st2 f2
    refine ⟨o2, (g1.trans g2).mono (by decide), st1.trans st2, fun e he => (by cases he), fun hf h0 _ => f2 ?_ h0 rfl⟩
    show 0 < freeSum s1.lists
    simp only at hcost1
    omega
  rw [show nextTable s1 pdpt (midIdx va) = (some pd, s2) from e2] at g2 st2 t2
  obtain ⟨o3, g3, st3, t3, f3⟩ := nextTable_spec g2.spaces hok3 (t2 pd rfl)
  have hcost2 := g2.cost
  obtain ⟨s3, e3, hw⟩ | ⟨pt, s3, e3, hw⟩ := hc
  · rw [hw]
    rw [show nextTable s2 pd (lowIdx va) = (none, s3) from e3] at g3 st3 f3
    refine ⟨o3, (g1.trans g2).trans g3, (st1.trans st2).trans st3, fun e he => (by cases he), fun hf h0 _ => f3 ?_ h0 rfl⟩
    show 0 < freeSum s2.lists
    simp only at hcost1 hcost2
    omega
  · rw [hw]
    rw [show nextTable s2 pd (lowIdx va) = (some pt, s3) from e3] at g3 st3 t3
    refine ⟨o3, (g1.trans g2).trans g3, (st1.trans st2).trans st3, fun e he => ?_, fun _ _ hn => (by cases hn)⟩
    cases he
    exact ⟨t3 pt rfl, rfl⟩

/-- where all tables are present, a walk takes no page -/
theorem ptWalkAlloc_present
    (ht : table root s.mem k (path va) = some t) : ptWalkAlloc s cr3 va = (some (t, ptIdx va), s) := by
  classical
  obtain ⟨hok1, hok2, hok3, ht0, hcr3⟩ := h.levels hk hD
  have hlow : table root s.mem k ([topIdx va, midIdx va] ++ [lowIdx va]) = some t := ht
  obtain ⟨pd, hpd⟩ := table_above hlow
  obtain ⟨pdpt, hpdpt⟩ := table_above (show table root s.mem k ([topIdx va] ++ [midIdx va]) = some pd from hpd)
  have level : ∀ {q : List (Fin 512)} {i : Fin 512} {u c : ℕ}, Ok D (q ++ [i]) → table root s.mem k q = some u →
      table root s.mem k (q ++ [i]) = some c → nextTable s u i = (some c, s) := by
    intro q i u c hq hu hc
    obtain ⟨d, hd, he⟩ | ⟨hnone, -⟩ := nextTable_cases h hq hu
    · rw [he, ← hd, hc]
    · rw [hc] at hnone
      cases hnone
  have e1 := level hok1 ht0 hpdpt
  have e2 := level hok2 hpdpt hpd
  have e3 := level hok3 hpd hlow
  simp only [topIdx, midIdx, lowIdx] at e1 e2 e3
  simp only [ptWalkAlloc, hcr3, e1, e2, e3]

end

end

theorem pteFlags_lt (prot : Prot) : pteFlags prot < 2 ^ 64 := by
  obtain ⟨r, w, x⟩ := prot
  cases r <;> cases w <;> cases x <;> decide

theorem leaf_lt (pa : ℕ) (prot : Prot) : (pa &&& pteAddrMask) ||| pteFlags prot < 2 ^ 64 :=
  Nat.or_lt_two_pow (lt_trans (addr_page pa).2 (by decide)) (pteFlags_lt prot)

section

variable (h : Spaces S D root s out) (hk : root k = some cr3) (hD : D (topIdx va)) (pa : ℕ) (prot : Prot)
include h hk hD pa prot

/-- **Mapping one page.** The entry of the page is set exactly when the walk has found its table; no other entry changes. -/
theorem mapPage_exact [DecidableEq κ] : ∃ out', Grows S D root s out (mapPage s cr3 va pa prot) out' 3 ∧
      ∀ l vb, D (topIdx vb) → pte root (mapPage s cr3 va pa prot).mem l vb =
        if (ptWalkAlloc s cr3 va).1.isSome = true ∧ l = k ∧ vpn vb = vpn va then (pa &&& pteAddrMask) ||| pteFlags prot
        else pte root s.mem l vb := by
  obtain ⟨o1, g, st, ht, -⟩ := ptWalkAlloc_spec h hk hD
  unfold mapPage
  rcases hw : ptWalkAlloc s cr3 va with ⟨_ | ⟨pt, i⟩, s1⟩
  · rw [hw] at g st
    exact ⟨o1, g, fun l vb hDb => (by simpa using st l vb hDb)⟩
  rw [hw] at g st ht
  obtain ⟨ht, rfl⟩ := ht (pt, i) rfl
  obtain ⟨g', hpte⟩ := g.spaces.store hD ht (leaf_lt pa prot)
  refine ⟨o1, g.trans g', fun l vb hDb => ?_⟩
  rw [hpte l vb hDb, st l vb hDb]
  simp only [Option.isSome_some, true_and]

end

end

end OpenASD.Mm
