/-
What amm_page_fault and amm_region_populate report when memory runs out (kernel/mm/mm.c).

Both take a page and pass it to map_page, which needs up to three more pages for tables and returns nothing, whether it got
them or not. So a page can be taken and never mapped while the caller is told that all is well; and page 0, which the
allocator may hand out, is a failure to every caller.

`answer s` is the pattern of answers that the allocator is going to give. `Granted`: along the pages of a range, every page
that is missing gets itself and its tables, up to one that gets nothing at all.

- `populateFrom_reports`: the loop of amm_region_populate with and without it;
- `reports_iff`: for every vmap, range and pattern, exactly when the two functions report what they did;
- `silent_failures`: runs of both that report a success and leave pages that are not there.
-/
import OpenASD.Mm.Paging
import OpenASD.Mm.Walk

namespace OpenASD.Mm

open ByteMem OpenASD.Dyadic

/-! ## Pages in use -/

/-- x lies in a block of the free lists -/
def FreeAt (s : St) (x : ℕ) : Prop := ∃ b ∈ freeBlocks s.lists, b.has x = true

section

variable {κ : Type} {S : ℕ → Prop} {root : κ → Option ℕ} {s s' : St} {out out' : Out} {k : κ} {pa : ℕ} {va n : ℕ}

/-- the page pa is a table of an address space, or mapped in one -/
def Used (root : κ → Option ℕ) (m : Mem) (pa : ℕ) : Prop :=
  InTable User root m pa ∨ ∃ k va, User (topIdx va) ∧ Backed root m k va ∧ pte root m k va &&& pteAddrMask = pa

/-- pages taken from the allocator between s and s' are in use -/
def NoneLost (root : κ → Option ℕ) (s s' : St) : Prop :=
  ∀ pa, 4096 ∣ pa → FreeAt s pa → FreeAt s' pa ∨ Used root s'.mem pa

theorem NoneLost.refl (root : κ → Option ℕ) (s : St) : NoneLost root s s := fun _ _ h => .inl h

/-- the free bytes are those that are managed and not handed out -/
theorem freeAt_iff (h : Inv S [] s out) {x : ℕ} : FreeAt s x ↔ ¬ Kept S out x := by
  constructor
  · rintro ⟨b, hb, hx⟩ hk
    obtain ⟨hS, hno⟩ := h.not_out (c := b) hb hx
    exact hno (hk hS)
  intro hk
  simp only [Kept, not_forall, exists_prop] at hk
  obtain ⟨hS, hno⟩ := hk
  obtain ⟨b, hb, hx⟩ := (h.tiles.mem_iff x).1 hS
  rw [List.nil_append] at hb
  rcases List.mem_append.1 hb with hb | hb
  · exact ⟨b, hb, hx⟩
  · obtain ⟨c, hc, rfl⟩ := List.mem_map.1 hb
    exact absurd ⟨c, hc, hx⟩ hno

theorem used_kept (hs : Spaces S User root s out) (hl : Leaves User root s.mem out) (h : Used root s.mem pa) :
    Kept S out pa := by
  rcases h with hin | ⟨k, va, hu, hb, rfl⟩
  · exact hs.kept hin
  · exact (hl k va hu hb).kept ⟨le_rfl, by omega⟩

/-- a page that is taken and not used is lost, whatever pages are mapped later -/
theorem Grows.not_used {d e p : ℕ} {c : κ → ℕ → Prop} [∀ l vb, Decidable (c l vb)] (hg : Grows S User root s out s' out' d)
    (hpte : ∀ l vb, User (topIdx vb) → pte root s'.mem l vb = if c l vb then e else pte root s.mem l vb)
    (he : e &&& pteAddrMask = p) (hp : ¬ Kept S out p) (hk : Kept S out pa) (h : ¬ Used root s.mem pa) :
    ¬ Used root s'.mem pa := by
  rintro (hin | ⟨l, vb, hu, hb, ha⟩)
  · rcases hg.fresh pa hin with hold | hnew
    · exact h (.inl hold)
    · exact hnew hk
  rw [Backed, hpte l vb hu] at hb
  rw [hpte l vb hu] at ha
  split_ifs at hb ha with hc
  · exact hp ((he.symm.trans ha) ▸ hk)
  · exact h (.inr ⟨l, vb, hu, hb, ha⟩)

/-- tables and leaves that stay use the same pages -/
theorem Still.used {m m' : Mem} (hst : Still User root m m') (h : Used root m' pa) : Used root m pa := by
  rcases h with hin | ⟨l, vb, hu, hb, ha⟩
  · exact .inl (hst.inTable hin)
  · rw [Backed, hst.leaves l vb hu] at hb
    rw [hst.leaves l vb hu] at ha
    exact .inr ⟨l, vb, hu, hb, ha⟩

section

variable (h : Spaces S User root s out) (hl : Leaves User root s.mem out) (hf : found s 0 = true)
include h hl hf

/-- the page that the allocator hands out was free, and nobody uses it -/
theorem fresh_lost :
    4096 ∣ (ammPhysAlloc s 0).1 ∧ FreeAt s (ammPhysAlloc s 0).1 ∧ ¬ Used root s.mem (ammPhysAlloc s 0).1 := by
  obtain ⟨-, -, hheld, hpage⟩ := h.fresh_page hf
  have hnew := (hpage _ ⟨le_rfl, by omega⟩).2
  exact ⟨hheld.page, (freeAt_iff h.inv).2 hnew, fun hu => hnew (used_kept h hl hu)⟩

/-- page 0 is handed out, taken for a failure and lost -/
theorem zero_lost : ¬ NoneLost root s (ammPhysAlloc s 0).2 := by
  obtain ⟨hg, hst⟩ := h.alloc hf
  obtain ⟨hal, hfree, hno⟩ := fresh_lost h hl hf
  intro hnone
  obtain hfree' | hu := hnone _ hal hfree
  · refine (freeAt_iff hg.spaces.inv).1 hfree' fun _ => ⟨_, List.mem_cons_self, ?_⟩
    exact blk_page.2 ⟨le_rfl, by omega⟩
  · exact hno (hst.used hu)

end

/-! ## A fresh page is mapped -/

/-- the pages taken are the page at va and the tables above it that were missing -/
structure Served (S : ℕ → Prop) (root : κ → Option ℕ) (k : κ) (s : St) (out : Out) (va : ℕ) (s' : St) (out' : Out) :
    Prop where
  lists : s'.lists = (takes s (1 + lacks (has root s.mem k) (above va))).lists
  tables : ∀ q, Ok User q → (has root s'.mem k q = true ↔ has root s.mem k q = true ∨ q ∈ above va)
  inv : Inv S [] s' out'
  used : ∀ b ∈ out', b ∈ out ∨ b = ((ammPhysAlloc s 0).1, 0) ∨ ∀ x, (blk b.2 b.1).has x = true → InTable User root s'.mem x

/-- **Fresh page.** It is mapped exactly when the answers for it and for the tables that are missing are all pages. -/
theorem mapFresh_made (h : Spaces S User root s out) {cr3 : ℕ} (hk : root k = some cr3) (hu : User (topIdx va))
    (hf : found s 0 = true) (h0 : (ammPhysAlloc s 0).1 ≠ 0) (prot : Prot) :
    (∀ j ≤ lacks (has root s.mem k) (above va), Given (answer s j)) ∧ mapsFresh s cr3 va = true ∧
      (∃ out', Served S root k s out va (mapFresh s cr3 va prot) out') ∨
    ¬ (∀ j ≤ lacks (has root s.mem k) (above va), Given (answer s j)) ∧ mapsFresh s cr3 va = false ∧
      pte root s.mem k va = 0 := by
  obtain ⟨hg, hst, -, -⟩ := h.fresh_page hf
  let s1 := clearPage (ammPhysAlloc s 0).2 (ammPhysAlloc s 0).1
  have hlists : s1.lists = (takes s 1).lists := rfl
  have hans := answer_shift hlists h.inv.late hg.spaces.inv.late
  have hhas : ∀ q, Ok User q → has root s1.mem k q = has root s.mem k q :=
    fun q hq => congrArg Option.isSome (hst.tables k q hq)
  have hlacks : lacks (has root s1.mem k) (above va) = lacks (has root s.mem k) (above va) := by
    refine List.countP_congr fun q hq => ?_
    rw [hhas q (ok_above hu hq)]
  have hfirst : Given (answer s 0) := by
    rw [answer_zero_some hf]
    exact ⟨Option.some_ne_none _, fun e => h0 (Option.some.inj e)⟩
  have hm := mapPage_made hg.spaces hk hu (ammPhysAlloc s 0).1 prot
  rw [hlacks, hst.leaves k va hu] at hm
  obtain ⟨hall, hw, out', hmade⟩ | ⟨⟨j, hj, hno⟩, hw, hz⟩ := hm
  · refine .inl ⟨fun j hj => ?_, hw, out', ?_, fun q hq => ?_, hmade.grows.spaces.inv, fun b hb => ?_⟩
    · cases j with
      | zero => exact hfirst
      | succ j =>
        have := hall j (by omega)
        rwa [hans, Nat.add_comm] at this
    · rw [hmade.lists, takes_add]
      exact takes_lists hlists hg.spaces.inv.late (takes_late h.inv.late 1) _
    · rw [hmade.tables k q hq, hhas q hq]
      simp only [true_and]
    rcases hmade.used b hb with hb | hb
    · rcases List.mem_cons.1 hb with rfl | hb
      · exact .inr (.inl rfl)
      · exact .inl hb
    · exact .inr (.inr hb)
  · exact .inr ⟨fun hall => (hans j ▸ hno) (hall (1 + j) (by omega)), hw, hz⟩

/-- a page that was free and is taken by it is the page at va or a table -/
theorem Served.free (hv : Served S root k s out va s' out') (hs : Spaces S User root s out) (hf : found s 0 = true)
    (hal : 4096 ∣ pa) (h : FreeAt s pa) : FreeAt s' pa ∨ pa = (ammPhysAlloc s 0).1 ∨ InTable User root s'.mem pa := by
  rw [freeAt_iff hs.inv] at h
  rw [freeAt_iff hv.inv, or_iff_not_imp_left, not_not]
  intro hk
  have hS : S pa := by
    by_contra hn
    exact h fun hS => absurd hS hn
  obtain ⟨b, hb, hx⟩ := hk hS
  rcases hv.used b hb with hold | rfl | hin
  · exact absurd (fun _ => ⟨b, hold, hx⟩) h
  · obtain ⟨-, -, hheld, -⟩ := hs.fresh_page hf
    exact .inl (inPage_disjoint hal hheld.page ⟨le_rfl, by omega⟩ (blk_page.1 hx))
  · exact .inr (hin pa hx)

/-! ## Populating a range -/

/-- the tables after those above va have been made -/
def grown (T : List (Fin 512) → Bool) (va : ℕ) : List (Fin 512) → Bool := fun q => T q || decide (q ∈ above va)

/-- along n pages from va, with the answers a of the allocator: a page that is not there (P) gets a page and one for each
table that is missing (T), up to a page for which nothing is left -/
def Granted (P : ℕ → Bool) : (ℕ → Option ℕ) → (List (Fin 512) → Bool) → ℕ → ℕ → Prop
  | _, _, _, 0 => True
  | a, T, va, n + 1 =>
    if P va then Granted P a T (va + pageSize) n
    else a 0 = none ∨ (∀ j ≤ lacks T (above va), Given (a j)) ∧
      Granted P (fun j => a (1 + lacks T (above va) + j)) (grown T va) (va + pageSize) n

instance decidableGranted (P : ℕ → Bool) : ∀ a T va n, Decidable (Granted P a T va n)
  | _, _, _, 0 => isTrue trivial
  | a, T, va, n + 1 =>
    haveI := decidableGranted P a T (va + pageSize) n
    haveI := decidableGranted P (fun j => a (1 + lacks T (above va) + j)) (grown T va) (va + pageSize) n
    inferInstanceAs (Decidable (if P va then Granted P a T (va + pageSize) n
      else a 0 = none ∨ (∀ j ≤ lacks T (above va), Given (a j)) ∧
        Granted P (fun j => a (1 + lacks T (above va) + j)) (grown T va) (va + pageSize) n))

/-- the first page of a range of the lower half, and the rest -/
theorem range_rest (h : va + (n + 1) * pageSize ≤ 2 ^ 47) : User (topIdx va) ∧
    va + pageSize + n * pageSize ≤ 2 ^ 47 ∧ ∀ j < n, User (topIdx (va + pageSize + j * pageSize)) := by
  simp only [pageSize] at h ⊢
  exact ⟨user_of_lt (by omega), by omega, fun j hj => user_of_lt (by omega)⟩

/-- only the tables of the lower half matter -/
theorem Granted.congr {P : ℕ → Bool} {a : ℕ → Option ℕ} {T T' : List (Fin 512) → Bool}
    (h : Granted P a T va n) (hlow : va + n * pageSize ≤ 2 ^ 47) (hT : ∀ q, Ok User q → T q = T' q) :
    Granted P a T' va n := by
  induction n generalizing a T T' va with
  | zero => trivial
  | succ n ih =>
    obtain ⟨hu, hnext, -⟩ := range_rest hlow
    have hlacks : lacks T (above va) = lacks T' (above va) :=
      List.countP_congr fun q hq => by rw [hT q (ok_above hu hq)]
    rw [Granted] at h ⊢
    split_ifs at h ⊢
    · exact ih h hnext hT
    rw [hlacks] at h
    rcases h with h | ⟨hall, h⟩
    · exact .inl h
    · refine .inr ⟨hall, ih h hnext fun q hq => ?_⟩
      rw [grown, grown, hT q hq]

/-- everything that one round of the loop can do -/
theorem populateFrom_cases (h : Spaces S User root s out) (map : Vmap) (prot : Prot) (va n : ℕ) :
    ammVirtToKva s.mem map va ≠ 0 ∧
      populateFrom s map prot va (n + 1) = populateFrom s map prot (va + pageSize) n ∨
    ammVirtToKva s.mem map va = 0 ∧
      (found s 0 = false ∧ populateFrom s map prot va (n + 1) = (false, s) ∨
        found s 0 = true ∧ (ammPhysAlloc s 0).1 = 0 ∧
          populateFrom s map prot va (n + 1) = (false, (ammPhysAlloc s 0).2) ∨
        found s 0 = true ∧ (ammPhysAlloc s 0).1 ≠ 0 ∧ populateFrom s map prot va (n + 1) =
          populateFrom (mapFresh s map.cr3 va prot) map prot (va + pageSize) n) := by
  rw [populateFrom]
  by_cases hkva : ammVirtToKva s.mem map va = 0
  · rw [if_neg (not_not.2 hkva)]
    refine .inr ⟨hkva, ?_⟩
    cases hf : found s 0 with
    | false =>
      rw [alloc_not_found h.inv.late hf]
      exact .inl ⟨rfl, rfl⟩
    | true =>
      by_cases h0 : (ammPhysAlloc s 0).1 = 0
      · rw [if_pos h0]
        exact .inr (.inl ⟨rfl, h0, rfl⟩)
      · rw [if_neg h0]
        exact .inr (.inr ⟨rfl, h0, rfl⟩)
  · rw [if_pos hkva]
    exact .inl ⟨hkva, rfl⟩

/-- the rest of the range does not have the page va -/
theorem not_pagesFrom (h : va + (n + 1) * pageSize ≤ 2 ^ 47) : ¬ pagesFrom (va + pageSize) n (vpn va) := by
  rintro ⟨j, hj, he⟩
  simp only [vpn, pageSize] at *
  omega

theorem later_page (va j : ℕ) : va + pageSize + j * pageSize = va + (j + 1) * pageSize := by
  rw [Nat.succ_mul]
  omega

/-- the address that amm_virt_to_kva gives is decided by the entry -/
theorem Spaces.kva_congr (h : Spaces S User root s out) {map : Vmap} (hk : root k = some map.cr3)
    (hpte : pte root s'.mem k va = pte root s.mem k va) : ammVirtToKva s'.mem map va = ammVirtToKva s.mem map va := by
  unfold ammVirtToKva
  rw [h.cr3_eq hk, ← pte_root root hk, ← pte_root root hk, hpte]

theorem above_page (addr : ℕ) : above (pageAlignDown addr) = above addr := by
  have hp := ((path_eq_iff _ _).2 (vpn_page addr)).1
  have hq := hp
  simp only [path, List.cons.injEq, and_true] at hq
  rw [above, above, hp, hq.1, hq.2.1]

/-- the pages of a range of the lower half -/
theorem range_pages {base size : ℕ} (h : base + size ≤ 2 ^ 47) :
    pageAlignDown base + popPages base size * pageSize ≤ 2 ^ 47 ∧
    (∀ j < popPages base size, pageAlignDown base + j * pageSize < base + size) ∧
    ∀ va, pageAlignDown base ≤ va → va < base + size → ∃ j < popPages base size,
      vpn (pageAlignDown base + j * pageSize) = vpn va := by
  simp only [popPages, pageAlign, pageAlignDown, u64, pageSize, vpn]
  refine ⟨by omega, fun j hj => by omega, fun va h1 h2 => ⟨va / 4096 - base / 4096, by omega, ?_⟩⟩
  omega

variable [DecidableEq κ] {map : Vmap} {P : ℕ → Bool} {va n : ℕ} (h : Spaces S User root s out)
  (hl : Leaves User root s.mem out) (hk : root k = some map.cr3)

include h hl hk

/-- what a round leaves for the rest of the range: the invariants, and the pages that are still missing -/
theorem mapFresh_rest (hlow : va + (n + 1) * pageSize ≤ 2 ^ 47) (hf : found s 0 = true) (prot : Prot) :
    ∃ out', Grows S User root s out (mapFresh s map.cr3 va prot) out' 4 ∧
      Leaves User root (mapFresh s map.cr3 va prot).mem out' ∧
      DataPage User root (mapFresh s map.cr3 va prot).mem out' (ammPhysAlloc s 0).1 ∧
      (∀ l vb, User (topIdx vb) → pte root (mapFresh s map.cr3 va prot).mem l vb =
        if mapsFresh s map.cr3 va = true ∧ l = k ∧ vpn vb = vpn va then leafEntry (ammPhysAlloc s 0).1 prot
        else pte root s.mem l vb) ∧
      leafEntry (ammPhysAlloc s 0).1 prot &&& pteAddrMask = (ammPhysAlloc s 0).1 ∧
      ¬ Kept S out (ammPhysAlloc s 0).1 ∧
      ∀ j < n, ammVirtToKva (mapFresh s map.cr3 va prot).mem map (va + pageSize + j * pageSize) =
        ammVirtToKva s.mem map (va + pageSize + j * pageSize) := by
  obtain ⟨hu, -, hrest⟩ := range_rest hlow
  obtain ⟨out', hg, hdata, hpte, haddr, hpage⟩ := mapFresh_exact h hk hu hf prot
  refine ⟨out', hg, hl.fresh hg hdata haddr hpte, hdata, hpte, haddr, (hpage _ ⟨le_rfl, by omega⟩).2, fun j hj => ?_⟩
  apply h.kva_congr hk
  rw [hpte k _ (hrest j hj), if_neg]
  rintro ⟨-, -, hv⟩
  exact not_pagesFrom hlow ⟨j, hj, hv.symm⟩

section

variable (hlow : va + n * pageSize ≤ 2 ^ 47)
include hlow

/-- a page that is taken and not used stays so to the end of the loop -/
theorem populateFrom_lost (prot : Prot) (hpa : Kept S out pa) (hno : ¬ Used root s.mem pa) :
    ¬ FreeAt (populateFrom s map prot va n).2 pa ∧ ¬ Used root (populateFrom s map prot va n).2.mem pa := by
  induction n generalizing s out va with
  | zero => exact ⟨fun hfree => (freeAt_iff h.inv).1 hfree hpa, hno⟩
  | succ n ih =>
    have hnext : va + pageSize + n * pageSize ≤ 2 ^ 47 := by rwa [later_page]
    obtain ⟨-, he⟩ | ⟨-, ⟨-, he⟩ | ⟨hf, -, he⟩ | ⟨hf, -, he⟩⟩ := populateFrom_cases h map prot va n
    · rw [he]
      exact ih h hl hnext hpa hno
    · rw [he]
      exact ⟨fun hfree => (freeAt_iff h.inv).1 hfree hpa, hno⟩
    · obtain ⟨hg, hst⟩ := h.alloc hf
      rw [he]
      exact ⟨fun hfree => (freeAt_iff hg.spaces.inv).1 hfree (hpa.mono fun b hb => hg.more.subset hb),
        fun hu => hno (hst.used hu)⟩
    · obtain ⟨out', hg, hl', -, hpte, haddr, hp, -⟩ := mapFresh_rest h hl hk hlow hf prot
      rw [he]
      exact ih hg.spaces hl' hnext (hpa.mono fun b hb => hg.more.subset hb) (hg.not_used hpte haddr hp hpa hno)

/-- **The loop.** When it ends, every page is there exactly if the pages were granted; and exactly then no page is lost. -/
theorem populateFrom_reports
    (hP : ∀ j < n, P (va + j * pageSize) = decide (ammVirtToKva s.mem map (va + j * pageSize) ≠ 0)) (prot : Prot) :
    ((populateFrom s map prot va n).1 = true →
      ((∀ j < n, Backed root (populateFrom s map prot va n).2.mem k (va + j * pageSize)) ↔
        Granted P (answer s) (has root s.mem k) va n)) ∧
    (NoneLost root s (populateFrom s map prot va n).2 ↔ Granted P (answer s) (has root s.mem k) va n) := by
  induction n generalizing s out va with
  | zero =>
    exact ⟨fun _ => iff_of_true (fun j hj => absurd hj (Nat.not_lt_zero j)) trivial, iff_of_true (NoneLost.refl root s) trivial⟩
  | succ n ih =>
    obtain ⟨hu, hnext, hDn⟩ := range_rest hlow
    have h0 := hP 0 (Nat.succ_pos n)
    rw [Nat.zero_mul, Nat.add_zero] at h0
    -- the first page, and the rest
    have hsplit : ∀ m : Mem, (∀ j < n + 1, Backed root m k (va + j * pageSize)) ↔
        Backed root m k va ∧ ∀ j < n, Backed root m k (va + pageSize + j * pageSize) := by
      intro m
      simp only [Nat.forall_lt_succ_left, Nat.zero_mul, Nat.add_zero, later_page]
    rw [Granted, h0, hsplit]
    obtain ⟨hkva, he⟩ | ⟨hkva, hcase⟩ := populateFrom_cases h map prot va n
    · rw [if_pos (by simpa using hkva), he]
      obtain ⟨hpages, hnone⟩ := ih h hl hnext fun j hj => by rw [later_page]; exact hP (j + 1) (Nat.succ_lt_succ hj)
      obtain ⟨-, -, hr, -, -⟩ := populateFrom_spec hk h hDn prot
      exact ⟨fun hok => (and_iff_right (hr.backed hu (h.kva_backed hk hkva))).trans (hpages hok), hnone⟩
    rw [if_neg (by simpa using hkva)]
    obtain ⟨hf, he⟩ | ⟨hf, hz, he⟩ | ⟨hf, hz, he⟩ := hcase
    · rw [he]
      exact ⟨fun e => (by cases e), iff_of_true (NoneLost.refl root s) (.inl (answer_zero_none hf))⟩
    · rw [he, answer_zero_some hf]
      refine ⟨fun e => (by cases e), iff_of_false (zero_lost h hl hf) ?_⟩
      rintro (hgr | ⟨hgr, -⟩)
      · cases hgr
      · exact absurd (congrArg some hz) ((answer_zero_some hf) ▸ (hgr 0 (Nat.zero_le _)).2)
    have hsome : answer s 0 ≠ none := by
      rw [answer_zero_some hf]
      exact Option.some_ne_none _
    rw [he, or_iff_right hsome]
    obtain ⟨out1, hg, hl1, hdata, hpte, haddr, -, hsame⟩ := mapFresh_rest h hl hk hlow hf prot
    obtain ⟨out3, hg', hr, -, -⟩ := populateFrom_spec hk hg.spaces hDn prot
    have hmade := mapFresh_made h hk hu hf hz prot
    generalize mapFresh s map.cr3 va prot = s1 at *
    obtain ⟨hgiven, hw, out2, hv⟩ | ⟨hno, hw, hz⟩ := hmade
    · -- this page is done, so the rest decides
      have hrest : Granted P (fun j => answer s (1 + lacks (has root s.mem k) (above va) + j)) (grown (has root s.mem k) va)
          (va + pageSize) n ↔ Granted P (answer s1) (has root s1.mem k) (va + pageSize) n := by
        have hfun : (fun j => answer s (1 + lacks (has root s.mem k) (above va) + j)) = answer s1 :=
          funext fun j => (answer_shift hv.lists h.inv.late hg.spaces.inv.late j).symm
        have htables : ∀ q, Ok User q → grown (has root s.mem k) va q = has root s1.mem k q :=
          fun q hq => by rw [Bool.eq_iff_iff, hv.tables q hq, grown, Bool.or_eq_true, decide_eq_true_eq]
        rw [hfun]
        exact ⟨fun hgr => hgr.congr hnext htables, fun hgr => hgr.congr hnext fun q hq => (htables q hq).symm⟩
      obtain ⟨hpages, hnone⟩ := ih hg.spaces hl1 hnext fun j hj => by
        rw [hsame j hj, later_page]
        exact hP (j + 1) (Nat.succ_lt_succ hj)
      have hleaf : pte root s1.mem k va = leafEntry (ammPhysAlloc s 0).1 prot := by
        rw [hpte k va hu, if_pos ⟨hw, rfl, rfl⟩]
      have hback : Backed root s1.mem k va := by
        rw [Backed, hleaf]
        exact leafEntry_present _ prot
      rw [and_iff_right hgiven, hrest]
      refine ⟨fun hok => (and_iff_right (hr.backed hu hback)).trans (hpages hok), Iff.trans ⟨?_, ?_⟩ hnone⟩
      · intro hall pa hal hfree
        refine hall pa hal ?_
        rw [freeAt_iff hg.spaces.inv] at hfree
        rw [freeAt_iff h.inv]
        exact fun hkept => hfree (hkept.mono fun b hb => hg.more.subset hb)
      intro hall pa hal hfree
      obtain hfree | rfl | hin := hv.free h hf hal hfree
      · exact hall pa hal hfree
      · -- the page mapped at va stays there
        refine .inr (.inr ⟨k, va, hu, hr.backed hu hback, ?_⟩)
        obtain hkeep | ⟨-, hp, -⟩ := hr k va hu
        · rw [hkeep, hleaf, haddr]
        · exact absurd hp (not_pagesFrom hlow)
      · exact .inr (.inl (hg'.inTable hin))
    · -- the page has been taken, and map_page has not mapped it
      obtain ⟨hal, hfree, hunused⟩ := fresh_lost h hl hf
      have hsteady : ∀ l vb, User (topIdx vb) → pte root s1.mem l vb = pte root s.mem l vb := by
        intro l vb hub
        rw [hpte l vb hub, if_neg fun hc => absurd (hw.symm.trans hc.1) (by decide)]
      have hself : inPage (ammPhysAlloc s 0).1 (ammPhysAlloc s 0).1 := ⟨le_rfl, by omega⟩
      have hidle : ¬ Used root s1.mem (ammPhysAlloc s 0).1 := by
        rintro (hin | ⟨l, vb, hub, hb, ha⟩)
        · exact hdata.data _ hself hin
        · rw [Backed, hsteady l vb hub] at hb
          rw [hsteady l vb hub] at ha
          exact hunused (.inr ⟨l, vb, hub, hb, ha⟩)
      obtain ⟨h1, h2⟩ := populateFrom_lost hg.spaces hl1 hk hnext prot (hdata.kept (S := S) hself) hidle
      have hnot : ∀ {Q : Prop}, ¬ ((∀ j ≤ lacks (has root s.mem k) (above va), Given (answer s j)) ∧ Q) := fun hgr => hno hgr.1
      refine ⟨fun _ => iff_of_false (fun hb => ?_) hnot, iff_of_false (fun hnone => (hnone _ hal hfree).elim h1 h2) hnot⟩
      obtain hkeep | ⟨-, hp, -⟩ := hr k va hu
      · rw [Backed, hkeep, hsteady k va hu, hz] at hb
        exact hb.1 rfl
      · exact absurd hp (not_pagesFrom hlow)

end

/-! ## What the functions report -/

/-- amm_page_fault: 0 means that the page is there, and a failure that no page has been lost -/
def FaultSound (root : κ → Option ℕ) (k : κ) (s : St) (map : Vmap) (addr : ℕ) (write : Bool) : Prop :=
  ((ammPageFault s map addr write).1 = 0 → Backed root (ammPageFault s map addr write).2.mem k addr) ∧
  ((ammPageFault s map addr write).1 ≠ 0 → NoneLost root s (ammPageFault s map addr write).2)

/-- amm_region_populate: a pointer means that every page of the range is there, and NULL that no page has been lost -/
def PopulateSound (root : κ → Option ℕ) (k : κ) (s : St) (map : Vmap) (base size : ℕ) (prot : Prot) : Prop :=
  ((ammRegionPopulate s map base size prot).1 ≠ 0 → ∀ va, pageAlignDown base ≤ va → va < base + size →
    Backed root (ammRegionPopulate s map base size prot).2.mem k va) ∧
  ((ammRegionPopulate s map base size prot).1 = 0 → NoneLost root s (ammRegionPopulate s map base size prot).2)

/-- a fault that a region allows gets nothing, or its page and the tables for it -/
def FaultGranted (root : κ → Option ℕ) (k : κ) (s : St) (map : Vmap) (addr : ℕ) (write : Bool) : Prop :=
  ∀ r, ammRegionFind map addr = some r → (write = true → r.prot.write = true) →
    answer s 0 = none ∨ ∀ j ≤ lacks (has root s.mem k) (above addr), Given (answer s j)

/-- the pages of the range, as they are before the call, are granted -/
def RangeGranted (root : κ → Option ℕ) (k : κ) (s : St) (map : Vmap) (base size : ℕ) : Prop :=
  Granted (fun va => decide (ammVirtToKva s.mem map va ≠ 0)) (answer s) (has root s.mem k) (pageAlignDown base)
    (popPages base size)

theorem faultSound_iff {addr : ℕ} (haddr : addr < 2 ^ 47) (write : Bool) :
    FaultSound root k s map addr write ↔ FaultGranted root k s map addr write := by
  have hvpn := vpn_page addr
  have hu : User (topIdx (pageAlignDown addr)) := topIdx_vpn hvpn ▸ user_of_lt haddr
  have hfail : (-1 : ℤ) ≠ 0 := by decide
  unfold FaultSound FaultGranted ammPageFault
  cases hr : ammRegionFind map addr with
  | none => exact iff_of_true ⟨fun e => absurd e hfail, fun _ => NoneLost.refl root s⟩ fun r e => by cases e
  | some r =>
    dsimp only
    by_cases hw : (write && !r.prot.write) = true
    · rw [if_pos hw]
      refine iff_of_true ⟨fun e => absurd e hfail, fun _ => NoneLost.refl root s⟩ fun q e hq => ?_
      cases e
      simp only [Bool.and_eq_true, Bool.not_eq_true'] at hw
      exact absurd (hq hw.1) (by rw [hw.2]; decide)
    rw [if_neg hw]
    have hallow : write = true → r.prot.write = true := by simpa using hw
    cases hf : found s 0 with
    | false =>
      rw [alloc_not_found h.inv.late hf]
      exact iff_of_true ⟨fun e => absurd e hfail, fun _ => NoneLost.refl root s⟩ fun q _ _ =>
        .inl (answer_zero_none hf)
    | true =>
      by_cases hz : (ammPhysAlloc s 0).1 = 0
      · -- page 0
        rw [if_pos hz]
        refine iff_of_false (fun hs => zero_lost h hl hf (hs.2 hfail)) fun hg => ?_
        obtain hg | hg := hg r rfl hallow
        · rw [answer_zero_some hf] at hg
          cases hg
        · exact (hg 0 (Nat.zero_le _)).2 (by rw [answer_zero_some hf, hz])
      rw [if_neg hz]
      obtain ⟨-, -, -, hpte, -, -⟩ := mapFresh_exact h hk hu hf r.prot
      have hentry := hpte k (pageAlignDown addr) hu
      have hmade := mapFresh_made h hk hu hf hz r.prot
      rw [above_page] at hmade
      obtain ⟨hall, hw, -⟩ | ⟨hno, hw, hnone⟩ := hmade
      · rw [if_pos ⟨hw, rfl, rfl⟩] at hentry
        refine iff_of_true ⟨fun _ => backed_vpn hvpn ?_, fun e => absurd rfl e⟩ fun _ _ _ => .inr hall
        rw [Backed, hentry]
        exact leafEntry_present _ _
      rw [if_neg fun hc => absurd (hw.symm.trans hc.1) (by decide), hnone] at hentry
      refine iff_of_false (fun hs => ?_) fun hg => ?_
      · have hb := backed_vpn hvpn.symm (hs.1 rfl)
        rw [Backed, hentry] at hb
        exact hb rfl
      obtain hg | hg := hg r rfl hallow
      · rw [answer_zero_some hf] at hg
        cases hg
      · exact hno hg

theorem populateSound_iff {base size : ℕ} (hlow : base + size ≤ 2 ^ 47) (prot : Prot) :
    PopulateSound root k s map base size prot ↔ size = 0 ∨ RangeGranted root k s map base size := by
  obtain ⟨hlow', hin, hcover⟩ := range_pages hlow
  have hpages : popPages base size = (pageAlign (u64 (base + size)) - pageAlignDown base) / pageSize := rfl
  unfold PopulateSound ammRegionPopulate
  dsimp only
  rw [← hpages]
  by_cases hempty : size = 0 ∨ pageAlign (u64 (base + size)) ≤ pageAlignDown base
  · rw [if_pos hempty]
    refine iff_of_true ⟨fun e => absurd rfl e, fun _ => NoneLost.refl root s⟩ (hempty.imp_right fun hle => ?_)
    rw [RangeGranted, hpages, Nat.sub_eq_zero_of_le hle, Nat.zero_div]
    trivial
  rw [if_neg hempty, or_iff_right fun e => hempty (.inl e)]
  obtain ⟨hall, hnone⟩ := populateFrom_reports (P := fun va => decide (ammVirtToKva s.mem map va ≠ 0)) h hl hk hlow'
    (fun _ _ => rfl) prot
  rcases hp : populateFrom s map prot (pageAlignDown base) (popPages base size) with ⟨_ | _, s'⟩
  · rw [hp] at hnone
    exact ⟨fun hsound => hnone.1 (hsound.2 rfl), fun hgr => ⟨fun e => absurd rfl e, fun _ => hnone.2 hgr⟩⟩
  rw [hp] at hall hnone
  refine ⟨fun hsound => ?_, fun hgr => ⟨fun _ va h1 h2 => ?_, fun _ => hnone.2 hgr⟩⟩
  · by_cases hz : ammVirtToKva s'.mem map base = 0
    · exact hnone.1 (hsound.2 hz)
    · exact (hall rfl).1 fun j hj => hsound.1 hz _ (Nat.le_add_right _ _) (hin j hj)
  · obtain ⟨j, hj, hv⟩ := hcover va h1 h2
    exact backed_vpn hv ((hall rfl).2 hgr j hj)

/-- **Reports.** For every vmap, every user address and range and every pattern of answers of the allocator, amm_page_fault
and amm_region_populate report what they did exactly when no page table is refused to a page that was granted, and page 0
is not handed out. -/
theorem reports_iff :
    (∀ addr write, addr < 2 ^ 47 → (FaultSound root k s map addr write ↔ FaultGranted root k s map addr write)) ∧
    ∀ base size prot, base + size ≤ 2 ^ 47 →
      (PopulateSound root k s map base size prot ↔ size = 0 ∨ RangeGranted root k s map base size) :=
  ⟨fun _ write ha => faultSound_iff h hl hk ha write, fun _ _ prot hr => populateSound_iff h hl hk hr prot⟩

end

/-- the state after the first address space has been created: its top table is at 0x10000, and seven pages are free -/
def oneSpace : St := (ammVmapCreate eightPages).2.phys

/-- that space, with a page of heap to come -/
def oneMap : Vmap := ⟨0x10000, [⟨0x400000, 4096, ⟨true, true, false⟩, .heap, -1⟩], 1⟩

def oneRoot : ℕ → Option ℕ := Function.update (fun _ => none) 0 (some 0x10000)

theorem reports_iff_one : ∃ S out, Spaces S User oneRoot oneSpace out ∧ Leaves User oneRoot oneSpace.mem out ∧
    PopulateSound oneRoot 0 oneSpace oneMap 0x5FF000 0x2000 ⟨true, true, false⟩ := by
  have hstart : Spaces (fun x => 0x10000 ≤ x ∧ x < 0x18000) User (fun _ : ℕ => none) eightPages.phys [] :=
    Spaces.start (fewPages_inv (n := 3) (by decide)) fun x hx => lt_trans hx.2 (by decide)
  have hleaves : Leaves User (fun _ : ℕ => none) eightPages.phys.mem [] := Leaves.start User _ _
  have hcr3 : ((ammVmapCreate eightPages).2.vmaps 0).cr3 = 0x10000 := by decide +kernel
  obtain ⟨-, hc, -⟩ | ⟨t, out, -, hmap, hs, hl, -⟩ := ammVmapCreate_spec hstart (v := eightPages) rfl
  · exact absurd hc (by decide +kernel)
  have ht : t = 0x10000 := by
    rw [← hcr3]
    exact (congrArg Vmap.cr3 hmap).symm
  subst ht
  have hk : oneRoot 0 = some oneMap.cr3 := rfl
  refine ⟨_, out, hs, hl hleaves, ?_⟩
  apply ((reports_iff hs (hl hleaves) hk).2 0x5FF000 0x2000 ⟨true, true, false⟩ (by decide)).2
  right
  unfold RangeGranted
  decide +kernel

/-- others have taken all pages but one -/
def oneLeft : St := (ammPhysAlloc (ammPhysAlloc oneSpace 2).2 1).2

/-- others have taken two pages -/
def fiveLeft : St := (ammPhysAlloc oneSpace 1).2

/-- a fault with one page left -/
abbrev faulted : ℤ × St := ammPageFault oneLeft oneMap 0x400000 false

/-- two pages with five left -/
abbrev populated : ℕ × St := ammRegionPopulate fiveLeft oneMap 0x5FF000 0x2000 ⟨true, true, false⟩

/-- **Silent failures.** With one page left, amm_page_fault takes it, finds none for the tables and returns 0. With five,
amm_region_populate maps the first of two pages, takes the last for the second, finds none for its table and returns the
address of the first. Both pages are not there. -/
theorem silent_failures : faulted.1 = 0 ∧
    ptLookup faulted.2.mem 0x10000 0x400000 = 0 ∧
    ¬ FaultSound oneRoot 0 oneLeft oneMap 0x400000 false ∧
    populated.1 = physMapBase + 0x11000 ∧
    ptLookup populated.2.mem 0x10000 0x600000 = 0 ∧
    ¬ PopulateSound oneRoot 0 fiveLeft oneMap 0x5FF000 0x2000 ⟨true, true, false⟩ := by
  have h1 : faulted.1 = 0 := by decide +kernel
  have h2 : ptLookup faulted.2.mem 0x10000 0x400000 = 0 := by decide +kernel
  have h3 : populated.1 = physMapBase + 0x11000 := by decide +kernel
  have h4 : ptLookup populated.2.mem 0x10000 0x600000 = 0 := by decide +kernel
  refine ⟨h1, h2, fun hs => ?_, h3, h4, fun hs => ?_⟩
  · have hb := hs.1 h1
    rw [Backed, pte_root oneRoot rfl, h2] at hb
    exact hb rfl
  · have hb := hs.1 (by rw [h3]; decide) 0x600000 (by decide) (by decide)
    rw [Backed, pte_root oneRoot rfl, h4] at hb
    exact hb rfl

end OpenASD.Mm
