/-
Page tables as a map (kernel/mm/mm.c: pt_walk_alloc, map_page, amm_vmap_create, amm_virt_to_kva).

`book` is the abstract model: for every address space a finite map from page numbers to physical pages, in which map_page
sets one key. `MapRun` are the runs of the code: address spaces are created, blocks are handed out, and map_page is called
on spaces created in the run, with no page table lacking.

- `Tracks`: the tables agree with the map; `Tracks.step` and `Tracks.run` keep it;
- `maps_refine`: after every run amm_virt_to_kva reads the map, and one more map_page changes one translation of one space.
-/
import OpenASD.Mm.Boot
import OpenASD.Mm.Paging

namespace OpenASD.Mm

open Function (update update_of_ne update_self)

/-! ## The abstract map -/

/-- the physical page behind a page number of an address space -/
abbrev PageMap : Type := ℕ → ℕ → Option ℕ

def PageMap.set (T : PageMap) (j n pa : ℕ) : PageMap := update T j (update (T j) n (some pa))

theorem PageMap.set_self (T : PageMap) (j n pa : ℕ) : T.set j n pa j n = some pa := by
  rw [PageMap.set, update_self, update_self]

theorem PageMap.set_other (T : PageMap) {j n l m : ℕ} (pa : ℕ) (h : (l, m) ≠ (j, n)) : T.set j n pa l m = T l m := by
  unfold PageMap.set
  by_cases hl : l = j
  · subst hl
    rw [update_self, update_of_ne fun e : m = n => h (by rw [e])]
  · rw [update_of_ne hl]

/-- the address in the kernel's window of an offset in a page; NULL without one -/
def PageMap.kva : Option ℕ → ℕ → ℕ
  | none, _ => 0
  | some pa, off => u64 (physMapBase + (pa + off))

/-! ## Runs -/

inductive MapOp where
  | create
  | alloc (order : ℕ)
  | map (j va pa : ℕ) (prot : Prot)
deriving DecidableEq, Repr

/-- `none` when a page table cannot be allocated -/
def mapStep (v : VmSt) : MapOp → Option VmSt
  | .create => some (ammVmapCreate v).2
  | .alloc order => some { v with phys := (ammPhysAlloc v.phys order).2 }
  | .map j va pa prot =>
    if (ptWalkAlloc v.phys (v.vmaps j).cr3 va).1.isSome then
      some { v with phys := mapPage v.phys (v.vmaps j).cr3 va pa prot }
    else none

def bookStep (T : PageMap) : MapOp → PageMap
  | .map j va pa _ => T.set j (va / pageSize) pa
  | _ => T

/-- the map that the calls ask for -/
def book (ops : List MapOp) : PageMap := ops.foldl bookStep fun _ _ => none

/-- amm_vmap_create has made the vmap j, from the slot `first` of the pool on -/
def Created (first : ℕ) (v : VmSt) (j : ℕ) : Prop := first ≤ j ∧ j < v.vmapNext ∧ (v.vmaps j).cr3 ≠ 0

instance (first : ℕ) (v : VmSt) (j : ℕ) : Decidable (Created first v j) := inferInstanceAs (Decidable (_ ∧ _ ∧ _))

/-- map_page is called with a user address of a space that exists and with a physical page -/
def Fits (first : ℕ) (v : VmSt) : MapOp → Prop
  | .map j va pa _ => Created first v j ∧ va < 2 ^ 47 ∧ 4096 ∣ pa ∧ pa < 2 ^ 52
  | _ => True

/-- from v, the calls lead to v' -/
def MapRun (first : ℕ) : VmSt → List MapOp → VmSt → Prop
  | v, [], v' => v' = v
  | v, op :: ops, v' => Fits first v op ∧ ∃ w, mapStep v op = some w ∧ MapRun first w ops v'

/-! ## The tables agree with the map -/

/-- the leaf e maps this page, or none -/
def Leaf (e : ℕ) : Option ℕ → Prop
  | none => e = 0
  | some pa => 4096 ∣ pa ∧ pa < 2 ^ 52 ∧ ∃ prot, e = leafEntry pa prot

structure Tracks (S : ℕ → Prop) (root : ℕ → Option ℕ) (first : ℕ) (v : VmSt) (T : PageMap) : Prop where
  spaces : ∃ out, Spaces S User root v.phys out
  roots : ∀ j, Created first v j → root j = some (v.vmaps j).cr3
  later : ∀ j, v.vmapNext ≤ j → root j = none ∧ ∀ n, T j n = none
  leaf : ∀ j va, Created first v j → va < 2 ^ 47 → Leaf (pte root v.phys.mem j va) (T j (va / pageSize))

section

variable {S : ℕ → Prop} {root : ℕ → Option ℕ} {first : ℕ} {v w : VmSt} {T : PageMap}

/-- below 2^47 the number of a page is its address over the page size -/
theorem vpn_user {va : ℕ} (h : va < 2 ^ 47) : vpn va = va / pageSize := by
  simp only [vpn, pageSize]
  omega

section

variable (h : Tracks S root first v T)
include h

/-- **Lookup.** amm_virt_to_kva reads the map. -/
theorem Tracks.kva {j va : ℕ} (hj : Created first v j) (hva : va < 2 ^ 47) :
    ammVirtToKva v.phys.mem (v.vmaps j) va = PageMap.kva (T j (va / pageSize)) (va % pageSize) := by
  obtain ⟨out, hs⟩ := h.spaces
  have hroot := h.roots j hj
  unfold ammVirtToKva
  rw [hs.cr3_eq hroot, ← pte_root root hroot]
  have hleaf := h.leaf j va hj hva
  cases hT : T j (va / pageSize) with
  | none =>
    rw [hT] at hleaf
    rw [hleaf]
    rfl
  | some pa =>
    rw [hT] at hleaf
    obtain ⟨hal, hlt, prot, he⟩ := hleaf
    rw [he, if_neg (leafEntry_present pa prot), page_or, leafEntry_addr, addr_of_page hal hlt]
    rfl

/-- a step that changes neither a leaf nor the pool -/
theorem Tracks.steady {s : St} {out : Out} (hs : Spaces S User root s out)
    (hst : Steady User root v.phys.mem s.mem) : Tracks S root first { v with phys := s } T where
  spaces := ⟨out, hs⟩
  roots := h.roots
  later := h.later
  leaf := by
    intro j va hj hva
    rw [show pte root s.mem j va = _ from hst j va (user_of_lt hva)]
    exact h.leaf j va hj hva

theorem Tracks.alloc (order : ℕ) : Tracks S root first { v with phys := (ammPhysAlloc v.phys order).2 } T := by
  obtain ⟨out, hs⟩ := h.spaces
  cases hf : found v.phys order with
  | false =>
    rw [alloc_not_found hs.inv.late hf]
    exact h
  | true =>
    obtain ⟨hg, hst⟩ := hs.alloc hf
    exact h.steady hg.spaces hst.leaves

/-- **map_page** sets one key. -/
theorem Tracks.map {j va pa : ℕ} {prot : Prot} (hj : Created first v j) (hva : va < 2 ^ 47)
    (hal : 4096 ∣ pa) (hlt : pa < 2 ^ 52) (hw : (ptWalkAlloc v.phys (v.vmaps j).cr3 va).1.isSome = true) :
    Tracks S root first { v with phys := mapPage v.phys (v.vmaps j).cr3 va pa prot } (T.set j (va / pageSize) pa) := by
  obtain ⟨out, hs⟩ := h.spaces
  obtain ⟨out', hg, hpte⟩ := mapPage_exact hs (h.roots j hj) (user_of_lt hva) pa prot
  refine ⟨⟨out', hg.spaces⟩, h.roots, fun l hl => ⟨(h.later l hl).1, fun n => ?_⟩, fun l vb hl hvb => ?_⟩
  · have hlj : l ≠ j := fun e => absurd hj.2.1 (Nat.not_lt.2 (e ▸ hl))
    rw [T.set_other pa fun e => hlj (congrArg Prod.fst e)]
    exact (h.later l hl).2 n
  rw [show pte root _ l vb = _ from hpte l vb (user_of_lt hvb), vpn_user hva, vpn_user hvb]
  by_cases hkey : (l, vb / pageSize) = (j, va / pageSize)
  · obtain ⟨rfl, hn⟩ := Prod.mk.injEq .. ▸ hkey
    rw [if_pos ⟨hw, rfl, hn⟩, hn, T.set_self]
    exact ⟨hal, hlt, prot, rfl⟩
  · rw [if_neg fun hc => hkey (Prod.ext hc.2.1 hc.2.2), T.set_other pa hkey]
    exact h.leaf l vb hl hvb

end

/-- amm_vmap_create takes the next slot, or none; without a page the slot has no table -/
theorem create_next (v : VmSt) : v.vmapNext ≤ (ammVmapCreate v).2.vmapNext ∧
    (ammVmapCreate v).2.vmapNext ≤ v.vmapNext + 1 ∧
    (v.vmapNext < (ammVmapCreate v).2.vmapNext ∧ ((ammVmapCreate v).2.vmaps v.vmapNext).cr3 ≠ 0 ↔
      (ammVmapCreate v).1 = some v.vmapNext) := by
  unfold ammVmapCreate
  dsimp only
  split_ifs with hfull h0
  · simp
  · simp
  · simp [h0]

/-- the vmaps that exist after amm_vmap_create: the old ones, and the one it returns -/
theorem created_create {j : ℕ} (h : Created first (ammVmapCreate v).2 j) :
    Created first v j ∧ (ammVmapCreate v).2.vmaps j = v.vmaps j ∧ j ≠ v.vmapNext ∨
    j = v.vmapNext ∧ (ammVmapCreate v).1 = some j := by
  obtain ⟨h1, h2⟩ := h
  obtain ⟨-, hle, hmade⟩ := create_next v
  by_cases hj : j = v.vmapNext
  · subst hj
    exact .inr ⟨rfl, hmade.1 h2⟩
  · have hsame := ammVmapCreate_vmaps v j hj
    rw [hsame] at h2
    exact .inl ⟨⟨h1, by omega, h2.2⟩, hsame, hj⟩

section

variable (h : Tracks S root first v T)
include h

/-- **amm_vmap_create** adds a space without pages, or none. -/
theorem Tracks.create : ∃ root', Tracks S root' first (ammVmapCreate v).2 T := by
  obtain ⟨out, hs⟩ := h.spaces
  obtain ⟨hnext, -, hmade⟩ := create_next v
  obtain ⟨out', hc, hg, hst, -⟩ | ⟨t, out', hc, hmap, hs', -, -, hpte⟩ := ammVmapCreate_spec hs (h.later _ le_rfl).1
  · -- no space has been made
    have hold : ∀ {j}, Created first (ammVmapCreate v).2 j →
        Created first v j ∧ (ammVmapCreate v).2.vmaps j = v.vmaps j := by
      intro j hj
      obtain ⟨h1, h2, -⟩ | ⟨-, h2⟩ := created_create hj
      · exact ⟨h1, h2⟩
      · rw [hc] at h2
        cases h2
    refine ⟨root, ⟨out', hg.spaces⟩, fun j hj => ?_, fun j hj => h.later j (hnext.trans hj),
      fun j va hj => (h.steady hg.spaces hst).leaf j va (hold hj).1⟩
    rw [(hold hj).2]
    exact h.roots j (hold hj).1
  have hlt := (hmade.2 hc).1
  refine ⟨update root v.vmapNext (some t), ⟨out', hs'⟩, fun j hj => ?_, fun j hj => ?_, fun j va hj hva => ?_⟩
  · obtain ⟨h1, h2, h3⟩ | ⟨rfl, -⟩ := created_create hj
    · rw [update_of_ne h3, h2]
      exact h.roots j h1
    · rw [update_self, hmap]
  · rw [update_of_ne (by omega)]
    exact h.later j (hnext.trans hj)
  · rw [hpte j va (user_of_lt hva)]
    obtain ⟨h1, -, h3⟩ | ⟨rfl, -⟩ := created_create hj
    · rw [if_neg h3]
      exact h.leaf j va h1 hva
    · rw [if_pos rfl, (h.later _ le_rfl).2]
      rfl

/-- **Step.** -/
theorem Tracks.step {op : MapOp} (hfit : Fits first v op) (hw : mapStep v op = some w) :
    ∃ root', Tracks S root' first w (bookStep T op) := by
  cases op with
  | create =>
    cases hw
    exact h.create
  | alloc order =>
    cases hw
    exact ⟨root, h.alloc order⟩
  | map j va pa prot =>
    obtain ⟨hj, hva, hal, hlt⟩ := hfit
    rw [mapStep, Option.ite_none_right_eq_some] at hw
    obtain ⟨hwalk, he⟩ := hw
    cases he
    exact ⟨root, h.map hj hva hal hlt hwalk⟩

/-- **Run.** -/
theorem Tracks.run {ops : List MapOp} (hr : MapRun first v ops w) :
    ∃ root', Tracks S root' first w (ops.foldl bookStep T) := by
  induction ops generalizing v root T with
  | nil =>
    cases hr
    exact ⟨root, h⟩
  | cons op ops ih =>
    obtain ⟨hfit, u, hu, hrest⟩ := hr
    obtain ⟨root', h'⟩ := h.step hfit hu
    exact ih h' hrest

end

end

/-- no space has been created yet -/
theorem Tracks.start {S : ℕ → Prop} {v : VmSt} {out : Out} (h : Inv S [] v.phys out) (hlow : ∀ x, S x → x < 2 ^ 52) :
    Tracks S (fun _ => none) v.vmapNext v fun _ _ => none := by
  have hcr : ∀ {j}, ¬ Created v.vmapNext v j := fun hj => absurd hj.2.1 (Nat.not_lt.2 hj.1)
  exact ⟨⟨out, Spaces.start h hlow⟩, fun j hj => absurd hj hcr, fun j _ => ⟨rfl, fun _ => rfl⟩,
    fun j va hj => absurd hj hcr⟩

/-- **The page tables refine a map.** While the blocks of the allocator are disjoint and lie in physical memory, after every
run amm_virt_to_kva gives the page of the latest map_page and the offset, NULL for pages never mapped; and one more
map_page changes the translation of no other page and of no other space. -/
theorem maps_refine {S : ℕ → Prop} {v₀ v : VmSt} {out : Out} (hinv : Inv S [] v₀.phys out) (hlow : ∀ x, S x → x < 2 ^ 52)
    {ops : List MapOp} (hrun : MapRun v₀.vmapNext v₀ ops v) : (∀ j va, Created v₀.vmapNext v j → va < 2 ^ 47 →
      ammVirtToKva v.phys.mem (v.vmaps j) va = PageMap.kva (book ops j (va / pageSize)) (va % pageSize)) ∧
    ∀ j va pa prot w, Fits v₀.vmapNext v (.map j va pa prot) → mapStep v (.map j va pa prot) = some w →
      ∀ l vb, Created v₀.vmapNext v l → vb < 2 ^ 47 → (l, vb / pageSize) ≠ (j, va / pageSize) →
        ammVirtToKva w.phys.mem (w.vmaps l) vb = ammVirtToKva v.phys.mem (v.vmaps l) vb := by
  obtain ⟨root, h⟩ := (Tracks.start hinv hlow).run hrun
  refine ⟨fun j va hj hva => h.kva hj hva, fun j va pa prot w hfit hw l vb hl hvb hne => ?_⟩
  rw [mapStep, Option.ite_none_right_eq_some] at hw
  obtain ⟨hwalk, he⟩ := hw
  cases he
  have h' : Tracks S root _ { v with phys := mapPage v.phys (v.vmaps j).cr3 va pa prot } _ :=
    h.map hfit.1 hfit.2.1 hfit.2.2.1 hfit.2.2.2 hwalk
  rw [h.kva hl hvb]
  refine (h'.kva hl hvb).trans ?_
  rw [PageMap.set_other _ pa hne]

/-- a space is created and one page of it is mapped -/
def oneMapping : List MapOp := [.create, .map 0 0x400000 0x7000 ⟨true, true, false⟩]

theorem maps_refine_one : ∃ v, MapRun 0 eightPages oneMapping v ∧ Created 0 v 0 ∧
    ammVirtToKva v.phys.mem (v.vmaps 0) 0x400123 = physMapBase + 0x7123 := by
  have hwalk : (ptWalkAlloc (ammVmapCreate eightPages).2.phys ((ammVmapCreate eightPages).2.vmaps 0).cr3
      0x400000).1.isSome = true := by decide +kernel
  have hcreated : Created 0 (ammVmapCreate eightPages).2 0 := by decide +kernel
  have hstep : mapStep (ammVmapCreate eightPages).2 (.map 0 0x400000 0x7000 ⟨true, true, false⟩) = some
      { (ammVmapCreate eightPages).2 with
        phys := mapPage (ammVmapCreate eightPages).2.phys ((ammVmapCreate eightPages).2.vmaps 0).cr3 0x400000 0x7000
          ⟨true, true, false⟩ } := by
    rw [mapStep, if_pos hwalk]
  have hrun : MapRun 0 eightPages oneMapping _ :=
    ⟨trivial, _, rfl, ⟨hcreated, by decide, by decide, by decide⟩, _, hstep, rfl⟩
  have hstill := And.intro hcreated.1 hcreated.2
  refine ⟨_, hrun, hstill, ?_⟩
  exact (maps_refine (fewPages_inv (by decide)) (fun x hx => lt_trans hx.2 (by decide)) hrun).1 0 0x400123 hstill (by decide)

end OpenASD.Mm
