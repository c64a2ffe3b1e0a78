/-
The region list with its pointers (kernel/mm/mm.c: region_alloc, amm_region_overlaps, amm_region_add, amm_region_remove,
amm_region_find). A pointer to a descriptor is its index in `g_region_pool`; NULL is `none`. The loops follow the next
pointers; one that visits more nodes than the pool has does not end, and the call is `none`.

`Models`: the lists of all vmaps are doubly linked lists of descriptors, no descriptor is on two of them, and their
regions are those of the list model in `Mm.Vmap`.
- `regionAdd_models`, `regionRemove_models`: each call ends, gives what the list model gives and keeps this;
- `region_list_sound`: after every sequence of calls the list of every vmap is sorted, without overlap or wrapping, its
  links and its count fit together, an addition fails exactly when it has to, and a lookup finds the region of an address.
-/
import OpenASD.Core.DList
import OpenASD.Mm.Regions

namespace OpenASD.Mm

open DList
open Function (update update_eq_self update_of_ne update_self)
open List (length_cons length_map map_cons mem_cons_self range)

/-- `vregion_t` with its links -/
structure Desc where
  region : Region
  prev : Option ℕ
  next : Option ℕ
deriving DecidableEq, Repr

abbrev Pool : Type := ℕ → Desc

/-- the fields of `vmap_t` that belong to the list -/
structure RgMap where
  head : Option ℕ
  regionCount : ℕ
deriving DecidableEq, Repr

structure RgSt where
  /-- `g_region_pool` -/
  pool : Pool
  regionNext : ℕ
  maps : ℕ → RgMap

variable (pool : Pool)

def setPrev (i : ℕ) (p : Option ℕ) : Pool := update pool i { pool i with prev := p }

def setNext (i : ℕ) (n : Option ℕ) : Pool := update pool i { pool i with next := n }

/-- `if (n) n->prev = p` -/
def setPrevOf (n p : Option ℕ) : Pool := n.elim pool fun i => setPrev pool i p

/-- `if (n) n->next = p` -/
def setNextOf (n p : Option ℕ) : Pool := n.elim pool fun i => setNext pool i p

/-- nodes that a loop may visit -/
abbrev walkLimit : ℕ := maxRegions + 1

def overlapsLoop (pool : Pool) (base lim : ℕ) : ℕ → Option ℕ → Option Bool
  | _, none => some false
  | 0, some _ => none
  | n + 1, some i =>
    let r := (pool i).region
    if r.lim ≤ r.base then some true
    else if base < r.lim ∧ r.base < lim then some true
    else if lim ≤ r.base then some false
    else overlapsLoop pool base lim n (pool i).next

variable (st : RgSt)

def regionOverlaps (j base size : ℕ) : Option Bool :=
  if size = 0 then some false
  else
    let lim := u64 (base + size)
    if lim ≤ base then some true else overlapsLoop st.pool base lim walkLimit (st.maps j).head

/-- `while (cur->next && cur->next->base < base) cur = cur->next` -/
def insertPoint (pool : Pool) (base : ℕ) : ℕ → ℕ → Option ℕ
  | 0, _ => none
  | n + 1, cur =>
    match (pool cur).next with
    | none => some cur
    | some y => if (pool y).region.base < base then insertPoint pool base n y else some cur

/-- the node x goes behind cur -/
def linkBehind (x cur : ℕ) : Pool :=
  let pool := setPrev (setNext pool x (pool cur).next) x (some cur)
  setNext (setPrevOf pool (pool cur).next (some x)) cur (some x)

/-- insert the node x sorted by base address: the pool and the head pointer after it -/
def linkSorted (head : Option ℕ) (x : ℕ) : Option (Pool × Option ℕ) :=
  match head with
  | none => some (setNext pool x none, some x)
  | some h =>
    if (pool x).region.base < (pool h).region.base then some (setPrev (setNext pool x (some h)) h (some x), some x)
    else (insertPoint pool (pool x).region.base walkLimit h).map fun cur => (linkBehind pool x cur, some h)

def regionAdd (j : ℕ) (nr : Region) : Option (ℤ × RgSt) :=
  if nr.size = 0 then some (-1, st)
  else
    (regionOverlaps st j nr.base nr.size).bind fun overlap =>
      if overlap = true ∨ maxRegions ≤ st.regionNext then some (-1, st)
      else
        let x := st.regionNext
        (linkSorted (update st.pool x ⟨nr, none, none⟩) (st.maps j).head x).map fun r =>
          (0, { pool := r.1
                regionNext := x + 1
                maps := update st.maps j ⟨r.2, ((st.maps j).regionCount + 1) % 2 ^ 32⟩ })

/-- `while (r && r->base != base) r = r->next` -/
def baseLoop (pool : Pool) (base : ℕ) : ℕ → Option ℕ → Option (Option ℕ)
  | _, none => some none
  | 0, some _ => none
  | n + 1, some i => if (pool i).region.base = base then some (some i) else baseLoop pool base n (pool i).next

/-- the node r is taken out: the pool and the head pointer after it -/
def unlinkNode (head : Option ℕ) (r : ℕ) : Pool × Option ℕ :=
  let head := (pool r).prev.elim (pool r).next fun _ => head
  let pool := setNextOf pool (pool r).prev (pool r).next
  (setPrevOf pool (pool r).next (pool r).prev, head)

def regionRemove (j base : ℕ) : Option (ℤ × RgSt) :=
  (baseLoop st.pool base walkLimit (st.maps j).head).map fun
    | none => (-1, st)
    | some r =>
      let q := unlinkNode st.pool (st.maps j).head r
      (0, { st with
        pool := q.1
        maps := update st.maps j ⟨q.2, ((st.maps j).regionCount + 2 ^ 32 - 1) % 2 ^ 32⟩ })

def findLoop (pool : Pool) (addr : ℕ) : ℕ → Option ℕ → Option (Option ℕ)
  | _, none => some none
  | 0, some _ => none
  | n + 1, some i =>
    let r := (pool i).region
    if r.base ≤ addr ∧ addr < r.lim then some (some i)
    else if addr < r.base then some none
    else findLoop pool addr n (pool i).next

def regionLookup (j addr : ℕ) : Option (Option ℕ) := findLoop st.pool addr walkLimit (st.maps j).head

/-! ## The links of the pool -/

def links : Links ℕ := ⟨fun i => (pool i).prev, fun i => (pool i).next⟩

def reg (i : ℕ) : Region := (pool i).region

section

variable {pool : Pool} {i j x c h : ℕ} {p n : Option ℕ}

/-- a field of the descriptors after a store into one of them -/
theorem field_store {β : Type} (f : Desc → β) (pool : Pool) (i : ℕ) (d : Desc) :
    (fun j => f (update pool i d j)) = update (fun j => f (pool j)) i (f d) :=
  funext fun j => Function.apply_update (fun _ => f) pool i d j

theorem links_setPrev : links (setPrev pool i p) = (links pool).setPrev i p :=
  congrArg₂ Links.mk (field_store Desc.prev pool i _) ((field_store Desc.next pool i _).trans (update_eq_self i _))

theorem links_setNext : links (setNext pool i n) = (links pool).setNext i n :=
  congrArg₂ Links.mk ((field_store Desc.prev pool i _).trans (update_eq_self i _)) (field_store Desc.next pool i _)

theorem links_setPrevOf : links (setPrevOf pool n p) = (links pool).setPrevOf n p := by
  cases n with
  | none => rfl
  | some i => exact links_setPrev

theorem links_setNextOf : links (setNextOf pool n p) = (links pool).setNextOf n p := by
  cases n with
  | none => rfl
  | some i => exact links_setNext

@[simp] theorem reg_setPrev : reg (setPrev pool i p) = reg pool :=
  (field_store Desc.region pool i _).trans (update_eq_self i _)

@[simp] theorem reg_setNext : reg (setNext pool i n) = reg pool :=
  (field_store Desc.region pool i _).trans (update_eq_self i _)

@[simp] theorem reg_setPrevOf : reg (setPrevOf pool n p) = reg pool := by
  cases n with
  | none => rfl
  | some i => exact reg_setPrev

@[simp] theorem reg_setNextOf : reg (setNextOf pool n p) = reg pool := by
  cases n with
  | none => rfl
  | some i => exact reg_setNext

theorem setPrevOf_out (hi : n ≠ some i) : setPrevOf pool n p i = pool i := by
  cases n with
  | none => rfl
  | some y => exact update_of_ne (fun he => hi (congrArg some he.symm)) _ _

theorem setNextOf_out (hi : n ≠ some i) : setNextOf pool n p i = pool i := by
  cases n with
  | none => rfl
  | some y => exact update_of_ne (fun he => hi (congrArg some he.symm)) _ _

/-! ## The loops -/

variable {k t : Option ℕ} {l : List ℕ}

theorem overlapsLoop_eq (hs : Seg (links pool) p n l t none) {fuel base lim : ℕ} (hf : l.length ≤ fuel) :
    overlapsLoop pool base lim fuel n = some (overlapsFrom base lim (l.map (reg pool))) := by
  induction l generalizing p n fuel with
  | nil =>
    rw [hs.2]
    cases fuel <;> rfl
  | cons i l ih =>
    obtain ⟨rfl, -, hrest⟩ := hs
    obtain ⟨f, rfl⟩ : ∃ f, fuel = f + 1 := Nat.exists_eq_add_of_le' (Nat.le_trans (Nat.succ_pos _) hf)
    have hnext := ih hrest (Nat.le_of_succ_le_succ hf)
    have hreg : (pool i).region = reg pool i := rfl
    rw [overlapsLoop, map_cons, overlapsFrom]
    simp only [hreg]
    split_ifs
    · rfl
    · rfl
    · rfl
    · exact hnext

variable {fuel : ℕ}

theorem baseLoop_eq (base : ℕ) (hs : Seg (links pool) p n l t none) (hf : l.length ≤ fuel) :
    baseLoop pool base fuel n = some none ∧ unlinkBase base (l.map (reg pool)) = none ∨
    ∃ l₁ r l₂, l = l₁ ++ r :: l₂ ∧ baseLoop pool base fuel n = some (some r) ∧
      unlinkBase base (l.map (reg pool)) = some ((l₁ ++ l₂).map (reg pool)) := by
  induction l generalizing p n fuel with
  | nil =>
    left
    rw [hs.2]
    cases fuel <;> exact ⟨rfl, rfl⟩
  | cons i l ih =>
    obtain ⟨rfl, -, hrest⟩ := hs
    obtain ⟨f, rfl⟩ : ∃ f, fuel = f + 1 := Nat.exists_eq_add_of_le' (Nat.le_trans (Nat.succ_pos _) hf)
    rw [baseLoop, map_cons, unlinkBase]
    by_cases hb : (pool i).region.base = base
    · right
      have hb' : (reg pool i).base = base := hb
      rw [if_pos hb, if_pos hb']
      exact ⟨[], i, l, rfl, rfl, rfl⟩
    have hb' : ¬ (reg pool i).base = base := hb
    rw [if_neg hb, if_neg hb']
    rcases ih hrest (Nat.le_of_succ_le_succ hf) with ⟨h1, h2⟩ | ⟨l₁, r, l₂, rfl, h1, h2⟩
    · left
      rw [h2]
      exact ⟨h1, rfl⟩
    · right
      rw [h2]
      exact ⟨i :: l₁, r, l₂, rfl, h1, rfl⟩

theorem findLoop_eq (addr : ℕ) (hs : Seg (links pool) p n l t none) (hf : l.length ≤ fuel) :
    ∃ o, findLoop pool addr fuel n = some o ∧ o.map (reg pool) = regionFind addr (l.map (reg pool)) ∧
      ∀ r, o = some r → r ∈ l := by
  induction l generalizing p n fuel with
  | nil =>
    rw [hs.2]
    refine ⟨none, ?_, rfl, fun r hr => by cases hr⟩
    cases fuel <;> rfl
  | cons i l ih =>
    obtain ⟨rfl, -, hrest⟩ := hs
    obtain ⟨f, rfl⟩ : ∃ f, fuel = f + 1 := Nat.exists_eq_add_of_le' (Nat.le_trans (Nat.succ_pos _) hf)
    have hreg : (pool i).region = reg pool i := rfl
    rw [findLoop, map_cons, regionFind]
    simp only [hreg]
    split_ifs
    · exact ⟨some i, rfl, rfl, fun r hr => by cases hr; exact mem_cons_self⟩
    · exact ⟨none, rfl, rfl, fun r hr => by cases hr⟩
    · obtain ⟨o, h1, h2, h3⟩ := ih hrest (Nat.le_of_succ_le_succ hf)
      exact ⟨o, h1, h2, fun r hr => List.mem_cons_of_mem i (h3 r hr)⟩

/-- the loop of amm_region_add stops at the node behind which the list model inserts -/
theorem insertPoint_eq (nr : Region) (hs : Seg (links pool) p (some c) (c :: l) t none)
    (hf : (c :: l).length ≤ fuel) : ∃ l₁ d l₂, c :: l = l₁ ++ d :: l₂ ∧ insertPoint pool nr.base fuel c = some d ∧
      insertAfter nr (reg pool c) (l.map (reg pool)) = l₁.map (reg pool) ++ reg pool d :: nr :: l₂.map (reg pool) := by
  induction l generalizing p c fuel with
  | nil =>
    obtain ⟨f, rfl⟩ : ∃ f, fuel = f + 1 := Nat.exists_eq_add_of_le' hf
    have hnext : (pool c).next = none := hs.2.2.2
    refine ⟨[], c, [], rfl, ?_, rfl⟩
    rw [insertPoint, hnext]
  | cons i l ih =>
    obtain ⟨f, rfl⟩ : ∃ f, fuel = f + 1 := Nat.exists_eq_add_of_le' (Nat.le_trans (Nat.succ_pos _) hf)
    have hrest := hs.2.2
    have hnext : (pool c).next = some i := hrest.1
    rw [insertPoint, hnext, map_cons, insertAfter]
    have hreg : (pool i).region.base = (reg pool i).base := rfl
    simp only [hreg]
    split_ifs with hlt
    · have hrest' : Seg (links pool) (some c) (some i) (i :: l) t none := ⟨rfl, hrest.2⟩
      obtain ⟨l₁, d, l₂, he, h1, h2⟩ := ih hrest' (Nat.le_of_succ_le_succ hf)
      exact ⟨c :: l₁, d, l₂, by rw [he]; rfl, h1, by rw [h2]; rfl⟩
    · exact ⟨[], c, i :: l, rfl, rfl, rfl⟩

/-! ## Changing a list -/

theorem threaded_length (hl : Threaded (links pool) n l) (hb : ∀ i ∈ l, i < maxRegions) : l.length ≤ maxRegions := by
  have hsub : l ⊆ range maxRegions := fun i hi => List.mem_range.2 (hb i hi)
  calc l.length ≤ (range maxRegions).length := (hl.1.subperm hsub).length_le
    _ = maxRegions := List.length_range

variable {l₁ l₂ : List ℕ}

theorem linkBehind_threaded (hl : Threaded (links pool) n (l₁ ++ c :: l₂)) (hx : x ∉ l₁ ++ c :: l₂) :
    Threaded (links (linkBehind pool x c)) n (l₁ ++ c :: x :: l₂) ∧ reg (linkBehind pool x c) = reg pool ∧
    ∀ i, i ≠ x → i ∉ l₁ ++ c :: l₂ → linkBehind pool x c i = pool i := by
  have hc : c ∈ l₁ ++ c :: l₂ := List.mem_append_right l₁ mem_cons_self
  have hcx : c ≠ x := fun he => hx (he ▸ hc)
  -- the stores into the new node leave cur as it is
  have hcur : setPrev (setNext pool x (pool c).next) x (some c) c = pool c :=
    (update_of_ne hcx _ _).trans (update_of_ne hcx _ _)
  have hdef : linkBehind pool x c = setNext (setPrevOf (setPrev (setNext pool x (pool c).next) x (some c))
      (pool c).next (some x)) c (some x) := by
    simp only [linkBehind, hcur]
  refine ⟨?_, ?_, ?_⟩
  · rw [hdef, links_setNext, links_setPrevOf, links_setPrev, links_setNext]
    exact hl.insert hx
  · rw [hdef, reg_setNext, reg_setPrevOf, reg_setPrev, reg_setNext]
  intro i hix hil
  have hic : i ≠ c := fun he => hil (he ▸ hc)
  rw [hdef, setNext, update_of_ne hic, setPrevOf_out, setPrev, update_of_ne hix, setNext,
    update_of_ne hix]
  intro he
  exact hil ((hl.mem hc).1 i he)

/-- **Insertion.** The new node gets its place in the list, and no descriptor outside it changes. -/
theorem linkSorted_threaded (hl : Threaded (links pool) n l) (hlen : l.length ≤ maxRegions) (hx : x ∉ l)
    (hprev : (pool x).prev = none) : ∃ pool' n' l', linkSorted pool n x = some (pool', n') ∧
      Threaded (links pool') n' l' ∧ l'.map (reg pool') = insertSorted (reg pool x) (l.map (reg pool)) ∧
      l'.Perm (x :: l) ∧ ∀ i, i ≠ x → i ∉ l → pool' i = pool i := by
  obtain ⟨hnd, t, hs⟩ := hl
  cases l with
  | nil =>
    obtain ⟨-, rfl⟩ := hs
    have hpush := Threaded.push (Threaded.nil (links pool)) hx hprev
    refine ⟨setNext pool x none, some x, [x], rfl, ?_, ?_, List.Perm.refl _, ?_⟩
    · rw [links_setNext]
      exact hpush
    · rw [reg_setNext]
      rfl
    · intro i hi _
      exact update_of_ne hi _ _
  | cons h l =>
    have hl : Threaded (links pool) n (h :: l) := ⟨hnd, t, hs⟩
    obtain rfl := hs.1
    have hreg : ∀ i, (pool i).region = reg pool i := fun _ => rfl
    rw [linkSorted, map_cons, insertSorted]
    simp only [hreg]
    split_ifs with hlt
    · have hpush := hl.push hx hprev
      refine ⟨_, _, x :: h :: l, rfl, ?_, ?_, List.Perm.refl _, ?_⟩
      · rw [links_setPrev, links_setNext]
        exact hpush
      · rw [reg_setPrev, reg_setNext]
        rfl
      · intro i hi hil
        have hih : i ≠ h := fun he => hil (he ▸ mem_cons_self)
        exact (update_of_ne hih _ _).trans (update_of_ne hi _ _)
    · obtain ⟨l₁, d, l₂, he, h1, h2⟩ := insertPoint_eq (reg pool x) hs (Nat.le_succ_of_le hlen)
      rw [he] at hl hx ⊢
      obtain ⟨g1, g2, g3⟩ := linkBehind_threaded hl hx
      rw [h1]
      refine ⟨_, _, l₁ ++ d :: x :: l₂, rfl, g1, ?_, ?_, g3⟩
      · rw [h2, g2, List.map_append, map_cons, map_cons]
      · calc (l₁ ++ d :: x :: l₂).Perm (l₁ ++ x :: d :: l₂) := (List.Perm.swap _ _ _).append_left _
          _ |>.Perm (x :: (l₁ ++ d :: l₂)) := List.perm_middle

theorem unlinkNode_threaded {r : ℕ} (hl : Threaded (links pool) n (l₁ ++ r :: l₂)) :
    Threaded (links (unlinkNode pool n r).1) (unlinkNode pool n r).2 (l₁ ++ l₂) ∧
    reg (unlinkNode pool n r).1 = reg pool ∧ ∀ i ∉ l₁ ++ r :: l₂, (unlinkNode pool n r).1 i = pool i := by
  have hr : r ∈ l₁ ++ r :: l₂ := List.mem_append_right l₁ mem_cons_self
  have hne : (pool r).prev ≠ some r := by
    obtain ⟨hnd, t, hs⟩ := hl
    exact hs.prev_ne hnd (by simp) hr
  -- the store into the node before leaves r as it is
  have hsame : setNextOf pool (pool r).prev (pool r).next r = pool r := setNextOf_out hne
  have hdef : unlinkNode pool n r = (setPrevOf (setNextOf pool (pool r).prev (pool r).next) (pool r).next (pool r).prev,
      (pool r).prev.elim (pool r).next fun _ => n) := by
    simp only [unlinkNode, hsame]
  rw [hdef]
  refine ⟨?_, ?_, ?_⟩
  · rw [links_setPrevOf, links_setNextOf]
    exact hl.unlink
  · rw [reg_setPrevOf, reg_setNextOf]
  intro i hi
  obtain ⟨hnext, hprev⟩ := hl.mem hr
  have h1 : (pool r).next ≠ some i := fun he => hi (hnext i he)
  have h2 : (pool r).prev ≠ some i := fun he => hi (hprev i he)
  exact (setPrevOf_out h1).trans (setNextOf_out h2)

end

/-! ## The list model -/

/-- the pointers and the list model agree; ids are the nodes of each list -/
structure Models (st : RgSt) (v : VmSt) (ids : ℕ → List ℕ) : Prop where
  next : v.regionNext = st.regionNext
  room : st.regionNext ≤ maxRegions
  threaded : ∀ j, Threaded (links st.pool) (st.maps j).head (ids j)
  regions : ∀ j, (v.vmaps j).regions = (ids j).map (reg st.pool)
  count : ∀ j, (v.vmaps j).regionCount = (st.maps j).regionCount
  used : ∀ j, ∀ i ∈ ids j, i < st.regionNext
  apart : ∀ j k, j ≠ k → ∀ i ∈ ids j, i ∉ ids k

section

variable {st : RgSt} {v : VmSt} {ids : ℕ → List ℕ}

section

variable (h : Models st v ids)
include h

theorem Models.length_le (j : ℕ) : (ids j).length ≤ maxRegions :=
  threaded_length (h.threaded j) fun i hi => lt_of_lt_of_le (h.used j i hi) h.room

theorem regionOverlaps_eq (j base size : ℕ) :
    regionOverlaps st j base size = some (ammRegionOverlaps (v.vmaps j) base size) := by
  obtain ⟨-, t, hs⟩ := h.threaded j
  have hloop : ∀ lim, overlapsLoop st.pool base lim walkLimit (st.maps j).head =
      some (overlapsFrom base lim (v.vmaps j).regions) := by
    intro lim
    rw [h.regions j]
    exact overlapsLoop_eq hs (Nat.le_succ_of_le (h.length_le j))
  unfold regionOverlaps ammRegionOverlaps
  simp only [hloop]
  split_ifs <;> rfl

/-- one list changes; the others, whose descriptors are not touched, stay -/
theorem Models.change {j : ℕ} {pool : Pool} {m : RgMap} {map : Vmap} {l : List ℕ} {next : ℕ}
    (hnext : st.regionNext ≤ next) (hroom : next ≤ maxRegions) (ht : Threaded (links pool) m.head l)
    (hmap : map.regions = l.map (reg pool)) (hcount : map.regionCount = m.regionCount)
    (hused : ∀ i ∈ l, i ∈ ids j ∨ st.regionNext ≤ i ∧ i < next)
    (hout : ∀ i < st.regionNext, i ∉ ids j → pool i = st.pool i) :
    Models ⟨pool, next, update st.maps j m⟩ { v with vmaps := update v.vmaps j map, regionNext := next }
      (update ids j l) := by
  have hkeep : ∀ k, k ≠ j → ∀ i ∈ ids k, pool i = st.pool i :=
    fun k hk i hi => hout i (h.used k i hi) (h.apart k j hk i hi)
  have hfar : ∀ k, k ≠ j → ∀ i ∈ l, i ∉ ids k := by
    intro k hk i hi hik
    rcases hused i hi with hi | hi
    · exact h.apart j k (Ne.symm hk) i hi hik
    · exact absurd (h.used k i hik) (Nat.not_lt.2 hi.1)
  have hlist : ∀ k, Threaded (links pool) (update st.maps j m k).head (update ids j l k) ∧
      (update v.vmaps j map k).regions = (update ids j l k).map (reg pool) ∧
      (update v.vmaps j map k).regionCount = (update st.maps j m k).regionCount ∧ ∀ i ∈ update ids j l k, i < next := by
    intro k
    by_cases hk : k = j
    · subst hk
      simp only [update_self]
      refine ⟨ht, hmap, hcount, fun i hi => ?_⟩
      rcases hused i hi with hi | hi
      · exact lt_of_lt_of_le (h.used k i hi) hnext
      · exact hi.2
    simp only [update_of_ne hk]
    refine ⟨(h.threaded k).congr fun i hi => ?_, ?_, h.count k, fun i hi => lt_of_lt_of_le (h.used k i hi) hnext⟩
    · simp only [links, hkeep k hk i hi, and_self]
    · rw [h.regions k]
      refine List.map_congr_left fun i hi => ?_
      simp only [reg, hkeep k hk i hi]
  refine ⟨rfl, hroom, fun k => (hlist k).1, fun k => (hlist k).2.1, fun k => (hlist k).2.2.1, fun k => (hlist k).2.2.2, ?_⟩
  intro a b hab i hia hib
  by_cases ha : a = j
  · subst ha
    rw [update_self] at hia
    rw [update_of_ne (Ne.symm hab)] at hib
    exact hfar b (Ne.symm hab) i hia hib
  rw [update_of_ne ha] at hia
  by_cases hb : b = j
  · subst hb
    rw [update_self] at hib
    exact hfar a ha i hib hia
  · rw [update_of_ne hb] at hib
    exact h.apart a b hab i hia hib

/-- **amm_region_add follows the list model.** -/
theorem regionAdd_models (j : ℕ) (nr : Region) :
    ∃ st' ids', regionAdd st j nr = some ((ammRegionAdd v j nr).1, st') ∧ Models st' (ammRegionAdd v j nr).2 ids' ∧
      ((ammRegionAdd v j nr).1 = 0 ∨ (ammRegionAdd v j nr).1 = -1 ∧ st' = st) := by
  unfold regionAdd ammRegionAdd
  dsimp only
  rw [regionOverlaps_eq h, Option.bind_some, h.next]
  by_cases hsize : nr.size = 0
  · rw [if_pos hsize, if_pos (.inl hsize)]
    exact ⟨st, ids, rfl, h, .inr ⟨rfl, rfl⟩⟩
  by_cases hno : ammRegionOverlaps (v.vmaps j) nr.base nr.size = true ∨ maxRegions ≤ st.regionNext
  · rw [if_neg hsize, if_pos hno, if_pos (.inr hno)]
    exact ⟨st, ids, rfl, h, .inr ⟨rfl, rfl⟩⟩
  rw [if_neg hsize, if_neg hno, if_neg (not_or.2 ⟨hsize, hno⟩)]
  -- the descriptor is new, so that preparing it changes no list
  have hfresh : ∀ k, st.regionNext ∉ ids k := fun k hk => lt_irrefl _ (h.used k _ hk)
  have hold : ∀ i ∈ ids j, update st.pool st.regionNext ⟨nr, none, none⟩ i = st.pool i :=
    fun i hi => update_of_ne (fun he : i = st.regionNext => hfresh j (he ▸ hi)) _ _
  have ht : Threaded (links (update st.pool st.regionNext ⟨nr, none, none⟩)) (st.maps j).head (ids j) :=
    (h.threaded j).congr fun i hi => by simp only [links, hold i hi, and_self]
  obtain ⟨pool', n', l', he, ht', hmap, hperm, hout⟩ := linkSorted_threaded ht (h.length_le j) (hfresh j)
    (by rw [update_self])
  rw [he]
  have hregs : insertSorted nr (v.vmaps j).regions = l'.map (reg pool') := by
    have hsame : (ids j).map (reg (update st.pool st.regionNext ⟨nr, none, none⟩)) = (ids j).map (reg st.pool) :=
      List.map_congr_left fun i hi => by simp only [reg, hold i hi]
    rw [hmap, hsame, h.regions j, reg, update_self]
  refine ⟨_, _, rfl, h.change (m := ⟨n', ((st.maps j).regionCount + 1) % 2 ^ 32⟩) (Nat.le_succ _) (by omega) ht' hregs
    ?_ ?_ ?_, .inl rfl⟩
  · rw [h.count j]
  · intro i hi
    rcases List.mem_cons.1 (hperm.mem_iff.1 hi) with rfl | hi
    · exact .inr ⟨le_rfl, Nat.lt_succ_self _⟩
    · exact .inl hi
  · intro i hi hij
    have hne : i ≠ st.regionNext := Nat.ne_of_lt hi
    exact (hout i hne hij).trans (update_of_ne hne _ _)

end

/-- amm_region_remove on the list model -/
def removeRegion (v : VmSt) (j base : ℕ) : ℤ × VmSt :=
  let r := ammRegionRemove (v.vmaps j) base
  (r.1, { v with vmaps := update v.vmaps j r.2 })

/-- **amm_region_remove follows the list model.** -/
theorem regionRemove_models (h : Models st v ids) (j base : ℕ) :
    ∃ st' ids', regionRemove st j base = some ((removeRegion v j base).1, st') ∧
      Models st' (removeRegion v j base).2 ids' ∧ ((removeRegion v j base).1 = -1 → st' = st) := by
  obtain ⟨-, t, hs⟩ := h.threaded j
  unfold regionRemove removeRegion ammRegionRemove
  rw [h.regions j]
  rcases baseLoop_eq base hs (Nat.le_succ_of_le (h.length_le j)) with ⟨h1, h2⟩ | ⟨l₁, r, l₂, hl, h1, h2⟩
  · rw [h1, h2]
    refine ⟨st, ids, rfl, ?_, fun _ => rfl⟩
    dsimp only
    rw [update_eq_self]
    exact h
  rw [h1, h2]
  have hthr := h.threaded j
  rw [hl] at hthr
  obtain ⟨g1, g2, g3⟩ := unlinkNode_threaded hthr
  have hsub : ∀ i ∈ l₁ ++ l₂, i ∈ ids j := by
    intro i hi
    rw [hl]
    rcases List.mem_append.1 hi with hi | hi
    · exact List.mem_append_left _ hi
    · exact List.mem_append_right _ (List.mem_cons_of_mem r hi)
  have hregs : (⟨(v.vmaps j).cr3, (l₁ ++ l₂).map (reg st.pool), ((v.vmaps j).regionCount + 2 ^ 32 - 1) % 2 ^ 32⟩ :
      Vmap).regions = (l₁ ++ l₂).map (reg (unlinkNode st.pool (st.maps j).head r).1) := by rw [g2]
  have hm := h.change (m := ⟨(unlinkNode st.pool (st.maps j).head r).2, ((st.maps j).regionCount + 2 ^ 32 - 1) % 2 ^ 32⟩)
    le_rfl h.room g1 hregs (by rw [h.count j]) (fun i hi => .inl (hsub i hi)) fun i _ hi => g3 i (hl ▸ hi)
  refine ⟨_, update ids j (l₁ ++ l₂), rfl, ?_, fun e : (0 : ℤ) = -1 => absurd e (by decide)⟩
  have hn := h.next
  have hv : ∀ f : ℕ → Vmap, { v with vmaps := f, regionNext := st.regionNext } = { v with vmaps := f } := by
    intro f
    rw [← hn]
  rw [hv] at hm
  exact hm

end

/-! ## Sequences of calls -/

/-- addresses and sizes are any 64-bit values -/
inductive RgOp where
  | add (j : ℕ) (base size : UInt64) (prot : Prot) (kind : Kind) (fd : ℤ)
  | remove (j : ℕ) (base : UInt64)

def rgStep (st : RgSt) : RgOp → Option (ℤ × RgSt)
  | .add j base size prot kind fd => regionAdd st j ⟨base.toNat, size.toNat, prot, kind, fd⟩
  | .remove j base => regionRemove st j base.toNat

def rgRun (st : RgSt) : List RgOp → Option RgSt
  | [] => some st
  | op :: ops => (rgStep st op).bind fun r => rgRun r.2 ops

/-- before the first call: no region anywhere, whatever the pool holds -/
def RgSt.start : RgSt := ⟨pool, 0, fun _ => ⟨none, 0⟩⟩

/-- tidy lists with the right counts -/
def Orderly (v : VmSt) : Prop := ∀ j, Tidy (v.vmaps j).regions ∧ (v.vmaps j).regionCount = (v.vmaps j).regions.length

section

variable {st : RgSt} {v : VmSt} {ids : ℕ → List ℕ}

theorem Orderly.add (h : Orderly v) (hm : Models st v ids) (j : ℕ) {nr : Region} (hb : nr.base < 2 ^ 64)
    (hs : nr.size < 2 ^ 64) : Orderly (ammRegionAdd v j nr).2 := by
  unfold ammRegionAdd
  dsimp only
  split_ifs with hfail
  · exact h
  simp only [not_or, Bool.not_eq_true] at hfail
  obtain ⟨hsize, hover, -⟩ := hfail
  intro k
  by_cases hk : k = j
  · subst hk
    simp only [update_self]
    obtain ⟨ht, hc⟩ := h k
    obtain ⟨hplain, hdis⟩ := ht.not_overlaps hb hsize hs hover
    refine ⟨ht.insert ⟨Nat.pos_of_ne_zero hsize, hplain⟩ hdis, ?_⟩
    have hlen := hm.length_le k
    rw [(insertSorted_perm nr _).length_eq, length_cons, hc, hm.regions k, length_map]
    exact Nat.mod_eq_of_lt (lt_of_le_of_lt (Nat.succ_le_succ hlen) (by decide))
  · simp only [update_of_ne hk]
    exact h k

theorem Orderly.remove (h : Orderly v) (hm : Models st v ids) (j base : ℕ) : Orderly (removeRegion v j base).2 := by
  intro k
  by_cases hk : k = j
  · subst hk
    simp only [removeRegion, ammRegionRemove, update_self]
    cases hu : unlinkBase base (v.vmaps k).regions with
    | none => exact h k
    | some l =>
      obtain ⟨ht, hc⟩ := h k
      obtain ⟨hsub, r, -, hperm⟩ := unlinkBase_some hu
      refine ⟨ht.sublist hsub, ?_⟩
      have hlt : _ = l.length + 1 := hperm.length_eq
      have hlen := hm.length_le k
      have hids : (v.vmaps k).regions.length = (ids k).length := by rw [hm.regions k, length_map]
      simp only [maxRegions] at hlen
      dsimp only
      omega
  · simp only [removeRegion, update_of_ne hk]
    exact h k

/-- one call keeps the agreement and the order -/
theorem rgStep_keeps (h : Models st v ids) (ho : Orderly v) (op : RgOp) :
    ∃ r st' v' ids', rgStep st op = some (r, st') ∧ Models st' v' ids' ∧ Orderly v' := by
  cases op with
  | add j base size prot kind fd =>
    obtain ⟨st', ids', he, hm, -⟩ := regionAdd_models h j ⟨base.toNat, size.toNat, prot, kind, fd⟩
    exact ⟨_, st', _, ids', he, hm, ho.add h j base.toNat_lt size.toNat_lt⟩
  | remove j base =>
    obtain ⟨st', ids', he, hm, -⟩ := regionRemove_models h j base.toNat
    exact ⟨_, st', _, ids', he, hm, ho.remove h j base.toNat⟩

/-- **Every sequence of calls** ends and keeps them. -/
theorem rgRun_keeps (h : Models st v ids) (ho : Orderly v) (ops : List RgOp) :
    ∃ st' v' ids', rgRun st ops = some st' ∧ Models st' v' ids' ∧ Orderly v' := by
  induction ops generalizing st v ids with
  | nil => exact ⟨st, v, ids, rfl, h, ho⟩
  | cons op ops ih =>
    obtain ⟨r, st1, v1, ids1, he, h1, ho1⟩ := rgStep_keeps h ho op
    obtain ⟨st2, v2, ids2, he2, h2, ho2⟩ := ih h1 ho1
    exact ⟨st2, v2, ids2, by rw [rgRun, he, Option.bind_some, he2], h2, ho2⟩

/-- before the first call -/
theorem start_models (pool : Pool) : ∃ v ids, Models (RgSt.start pool) v ids ∧ Orderly v := by
  refine ⟨⟨St.start fun _ => 0, fun _ => ⟨0, [], 0⟩, 0, 0⟩, fun _ => [], ⟨rfl, Nat.zero_le _, ?_, ?_, ?_, ?_, ?_⟩, ?_⟩
  · exact fun _ => Threaded.nil _
  · exact fun _ => rfl
  · exact fun _ => rfl
  · exact fun _ i hi => by cases hi
  · exact fun _ _ _ i hi => by cases hi
  · exact fun _ => ⟨Tidy.nil, rfl⟩

/-- the list of the vmap j: its nodes, its links, its order and its count -/
structure RegionList (st : RgSt) (j : ℕ) (ids : List ℕ) : Prop where
  linked : Threaded (links st.pool) (st.maps j).head ids
  sorted : ids.Pairwise fun a b => (reg st.pool a).base < (reg st.pool b).base
  disjoint : ids.Pairwise fun a b => ¬ (reg st.pool a).Meets (reg st.pool b)
  noWrap : ∀ i ∈ ids, 0 < (reg st.pool i).size ∧ (reg st.pool i).base + (reg st.pool i).size < 2 ^ 64
  count : (st.maps j).regionCount = ids.length

/-- in st' the list of the vmap j has the regions rs, and the others are what they were -/
def Relists (st : RgSt) (ids : ℕ → List ℕ) (st' : RgSt) (j : ℕ) (rs : List Region) : Prop :=
  ∃ ids' : ℕ → List ℕ, (∀ k, RegionList st' k (ids' k)) ∧ ((ids' j).map (reg st'.pool)).Perm rs ∧
    ∀ k ≠ j, (ids' k).map (reg st'.pool) = (ids k).map (reg st.pool)

/-- amm_region_add adds the region to the list, or fails and changes nothing: exactly for an empty range, one that wraps,
one that overlaps a region, or when the descriptors are used up -/
def AddExact (st : RgSt) (ids : ℕ → List ℕ) (j : ℕ) : Prop :=
  ∀ (base size : UInt64) (prot : Prot) (kind : Kind) (fd : ℤ), let nr : Region := ⟨base.toNat, size.toNat, prot, kind, fd⟩
    ∃ r st', regionAdd st j nr = some (r, st') ∧
      (r = 0 ∧ Relists st ids st' j (nr :: (ids j).map (reg st.pool)) ∨ r = -1 ∧ st' = st) ∧
      (r = -1 ↔ size.toNat = 0 ∨ 2 ^ 64 ≤ base.toNat + size.toNat ∨ (∃ i ∈ ids j, (reg st.pool i).Meets nr) ∨
        maxRegions ≤ st.regionNext)

/-- amm_region_remove takes the region with this base from the list, or fails and changes nothing if there is none -/
def RemoveExact (st : RgSt) (ids : ℕ → List ℕ) (j : ℕ) : Prop :=
  ∀ base : UInt64, ∃ r st', regionRemove st j base.toNat = some (r, st') ∧
    (r = 0 ∧ (∃ q rs, q.base = base.toNat ∧ ((ids j).map (reg st.pool)).Perm (q :: rs) ∧ Relists st ids st' j rs) ∨
      r = -1 ∧ st' = st ∧ ∀ i ∈ ids j, (reg st.pool i).base ≠ base.toNat)

/-- amm_region_find gives the one region that has the address, or NULL -/
def FindExact (st : RgSt) (j : ℕ) (ids : List ℕ) : Prop :=
  ∀ addr : UInt64, ∃ o, regionLookup st j addr.toNat = some o ∧
    (∀ i, o = some i ↔ i ∈ ids ∧ (reg st.pool i).has addr.toNat) ∧
    ∀ a ∈ ids, ∀ b ∈ ids, (reg st.pool a).has addr.toNat → (reg st.pool b).has addr.toNat → a = b

section

variable (h : Models st v ids) (ho : Orderly v) (j : ℕ)
include h ho j

theorem Models.regionList : RegionList st j (ids j) := by
  obtain ⟨ht, hc⟩ := ho j
  rw [h.regions j] at ht hc
  have hplain : ∀ i ∈ ids j, (reg st.pool i).Plain := fun i hi => ht.plain _ (List.mem_map_of_mem hi)
  have hsorted := List.pairwise_map.1 ht.sorted
  refine ⟨h.threaded j, ?_, ?_, hplain, ?_⟩
  · refine hsorted.imp_of_mem fun {a b} ha _ hab => ?_
    have := (hplain a ha).1
    omega
  · refine hsorted.imp_of_mem fun {a b} ha hb hab => ?_
    rw [Region.meets_iff (hplain a ha).1 (hplain b hb).1, not_not]
    exact .inr hab
  · rw [← h.count j, hc, length_map]

omit ho in
/-- a call that changes one list -/
theorem Models.relists {st' : RgSt} {v' : VmSt} {ids' : ℕ → List ℕ} (h' : Models st' v' ids') (ho' : Orderly v')
    {rs : List Region} (hj : (v'.vmaps j).regions.Perm rs) (hk : ∀ k ≠ j, v'.vmaps k = v.vmaps k) :
    Relists st ids st' j rs := by
  refine ⟨ids', fun k => h'.regionList ho' k, h'.regions j ▸ hj, fun k hne => ?_⟩
  rw [← h'.regions k, hk k hne, h.regions k]

theorem Models.addExact : AddExact st ids j := by
  intro base size prot kind fd nr
  obtain ⟨st', ids', he, hm, hfail⟩ := regionAdd_models h j nr
  refine ⟨_, st', he, hfail.imp_left fun hr => ⟨hr, ?_⟩, ?_⟩
  · have ho' : Orderly (ammRegionAdd v j nr).2 := ho.add h j base.toNat_lt size.toNat_lt
    obtain e | ⟨-, -, map, -, hregs, e⟩ := ammRegionAdd_cases v j nr
    · rw [e] at hr
      cases hr
    rw [e] at hm ho'
    refine h.relists j hm ho' ?_ fun k hk => update_of_ne hk _ _
    dsimp only
    rw [update_self, hregs, ← h.regions j]
    exact insertSorted_perm nr _
  obtain ⟨ht, -⟩ := ho j
  have hover : size.toNat ≠ 0 → (ammRegionOverlaps (v.vmaps j) base.toNat size.toNat = true ↔
      2 ^ 64 ≤ base.toNat + size.toNat ∨ ∃ r ∈ (v.vmaps j).regions, r.Meets ⟨base.toNat, size.toNat, prot, kind, fd⟩) := by
    intro hs
    have hb : (⟨base.toNat, size.toNat, prot, kind, fd⟩ : Region).base < 2 ^ 64 := base.toNat_lt
    exact ht.overlaps_iff hb hs size.toNat_lt
  rw [h.regions j] at hover
  simp only [List.mem_map, exists_exists_and_eq_and] at hover
  unfold ammRegionAdd
  dsimp only [nr]
  rw [h.next]
  by_cases hs : size.toNat = 0
  · simp [hs]
  rw [← or_assoc (a := 2 ^ 64 ≤ base.toNat + size.toNat), ← hover hs]
  split_ifs with hc
  · exact ⟨fun _ => hc, fun _ => rfl⟩
  · exact ⟨fun hz => absurd hz (by decide), fun hd => absurd hd hc⟩

theorem Models.removeExact : RemoveExact st ids j := by
  intro base
  obtain ⟨st', ids', he, hm, hfail⟩ := regionRemove_models h j base.toNat
  have ho' := ho.remove h j base.toNat
  refine ⟨_, st', he, ?_⟩
  unfold removeRegion ammRegionRemove at hm hfail ho' ⊢
  rw [← h.regions j]
  cases hu : unlinkBase base.toNat (v.vmaps j).regions with
  | none =>
    rw [hu] at hfail
    refine .inr ⟨rfl, hfail rfl, fun i hi => unlinkBase_none hu _ ?_⟩
    rw [h.regions j]
    exact List.mem_map_of_mem hi
  | some l =>
    rw [hu] at hm ho'
    obtain ⟨-, q, hq, hperm⟩ := unlinkBase_some hu
    refine .inl ⟨rfl, q, l, hq, hperm, h.relists j hm ho' ?_ fun k hk => update_of_ne hk _ _⟩
    dsimp only
    rw [update_self]

theorem Models.findExact : FindExact st j (ids j) := by
  intro addr
  obtain ⟨hnd, t, hs⟩ := h.threaded j
  obtain ⟨o, he, hmap, hmem⟩ := findLoop_eq addr.toNat hs (Nat.le_succ_of_le (h.length_le j))
  obtain ⟨ht, -⟩ := ho j
  rw [h.regions j] at ht
  -- regions of the list are told apart by their addresses, hence so are its nodes
  have hone : ∀ a ∈ ids j, ∀ b ∈ ids j, (reg st.pool a).has addr.toNat → (reg st.pool b).has addr.toNat → a = b := by
    intro a ha b hb hxa hxb
    have hdis := (h.regionList ho j).disjoint
    have hsymm : Std.Symm fun a b => ¬ (reg st.pool a).Meets (reg st.pool b) :=
      ⟨fun _ _ hn hm => hn (hm.imp fun _ hx => hx.symm)⟩
    by_contra hne
    exact hdis.forall ha hb hne ⟨_, hxa, hxb⟩
  refine ⟨o, he, fun i => ⟨?_, ?_⟩, hone⟩
  · rintro rfl
    refine ⟨hmem i rfl, ?_⟩
    exact ((regionFind_eq_some_iff ht).1 hmap.symm).2
  rintro ⟨hi, hhas⟩
  have hfind := (regionFind_eq_some_iff ht).2 ⟨List.mem_map_of_mem hi, hhas⟩
  rw [← hmap] at hfind
  obtain ⟨q, rfl, hq⟩ := Option.map_eq_some_iff.1 hfind
  rw [hone q (hmem q rfl) i hi (hq ▸ hhas) hhas]

end

end

/-- **Region lists.** After every sequence of additions and removals with any addresses and sizes, on any vmaps: every call
has ended, and the list of each vmap is sorted by base, without overlapping or wrapping ranges, linked consistently both
ways and counted; an addition adds its region or fails exactly when it has to, a removal removes one, and a lookup finds the
one region of an address. -/
theorem region_list_sound (pool : Pool) (ops : List RgOp) : ∃ st ids, rgRun (RgSt.start pool) ops = some st ∧
    ∀ j, RegionList st j (ids j) ∧ AddExact st ids j ∧ RemoveExact st ids j ∧ FindExact st j (ids j) := by
  obtain ⟨v, ids, h, ho⟩ := start_models pool
  obtain ⟨st, v', ids', he, h', ho'⟩ := rgRun_keeps h ho ops
  exact ⟨st, ids', he, fun j => ⟨h'.regionList ho' j, h'.addExact ho' j, h'.removeExact ho' j, h'.findExact ho' j⟩⟩

end OpenASD.Mm
