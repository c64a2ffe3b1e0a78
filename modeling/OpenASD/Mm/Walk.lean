/-
What walks through page tables take from the allocator (kernel/mm/mm.c: amm_phys_alloc, pt_walk_alloc, map_page).

The answers that amm_phys_alloc(0) is going to give do not depend on memory, only on its lists: `answer s n` is the one
after n others. A walk asks for one page for each table that is missing above the address, from the top down.

- `Made`: tables have been made at given paths, one for each page taken, and nothing else is in use that was not;
- `Walks`: how far a walk has come, kept by each level (`Walks.next`);
- `ptWalkAlloc_made`: a walk succeeds exactly when every answer that it needs is a page, and then has made those tables;
- `mapPage_made`: the same for map_page, which does not say whether it has succeeded.
-/
import OpenASD.Mm.Tables

namespace OpenASD.Mm

open ByteMem OpenASD.Dyadic

/-! ## The answers of the allocator -/

/-- the state after n calls of amm_phys_alloc(0) in a row -/
def takes (s : St) : ℕ → St
  | 0 => s
  | n + 1 => takes (ammPhysAlloc s 0).2 n

/-- what amm_phys_alloc(0) finds after n other calls; `none` when nothing is left -/
def answer (s : St) (n : ℕ) : Option ℕ := if found (takes s n) 0 then some (ammPhysAlloc (takes s n) 0).1 else none

/-- a page that callers do not take for a failure, as they take page 0 -/
def Given (a : Option ℕ) : Prop := a ≠ none ∧ a ≠ some 0

instance (a : Option ℕ) : Decidable (Given a) := inferInstanceAs (Decidable (_ ∧ _))

theorem takes_add (s : St) (c n : ℕ) : takes s (c + n) = takes (takes s c) n := by
  induction c generalizing s with
  | zero => rw [Nat.zero_add, takes]
  | succ c ih => rw [Nat.succ_add, takes, takes, ih]

theorem splitDown_late (s : St) (p o n : ℕ) : (splitDown s p o n).earlyBoot = s.earlyBoot := by
  induction n generalizing s with
  | zero => rfl
  | succ n ih => exact ih _

variable {s s' : St}

theorem splitDown_lists (h : s.lists = s'.lists) (p o n : ℕ) :
    (splitDown s p o n).lists = (splitDown s' p o n).lists := by
  induction n generalizing s s' with
  | zero => exact h
  | succ n ih =>
    apply ih
    simp only [physFreeBlock, tagPage, touch, h]

theorem alloc_late (h : s.earlyBoot = false) (o : ℕ) : (ammPhysAlloc s o).2.earlyBoot = false := by
  cases hf : found s o with
  | false =>
    rw [alloc_not_found h hf]
    exact h
  | true =>
    obtain ⟨j, p, rest, -, -, -, -, he⟩ := alloc_found h hf
    rw [he]
    exact (splitDown_late _ p o (j - o)).trans h

/-- the lists decide what amm_phys_alloc does to them -/
theorem alloc_lists (h : s.lists = s'.lists) (hs : s.earlyBoot = false) (hs' : s'.earlyBoot = false) (o : ℕ) :
    (ammPhysAlloc s o).1 = (ammPhysAlloc s' o).1 ∧ (ammPhysAlloc s o).2.lists = (ammPhysAlloc s' o).2.lists := by
  unfold ammPhysAlloc
  rw [hs, hs', ← h]
  simp only [Bool.false_eq_true, if_false]
  split_ifs with ho
  · exact ⟨rfl, h⟩
  cases firstFree s.lists o (maxOrder + 1 - o) with
  | none => exact ⟨rfl, h⟩
  | some r =>
    refine ⟨rfl, ?_⟩
    apply splitDown_lists
    rfl

theorem takes_late (h : s.earlyBoot = false) (n : ℕ) : (takes s n).earlyBoot = false := by
  induction n generalizing s with
  | zero => exact h
  | succ n ih => exact ih (alloc_late h 0)

theorem takes_lists (h : s.lists = s'.lists) (hs : s.earlyBoot = false) (hs' : s'.earlyBoot = false) (n : ℕ) :
    (takes s n).lists = (takes s' n).lists := by
  induction n generalizing s s' with
  | zero => exact h
  | succ n ih => exact ih (alloc_lists h hs hs' 0).2 (alloc_late hs 0) (alloc_late hs' 0)

variable {c : ℕ}

/-- **Answers.** A state whose lists are those after c calls gives the answers from the c-th on. -/
theorem answer_shift (h : s'.lists = (takes s c).lists) (hs : s.earlyBoot = false)
    (hs' : s'.earlyBoot = false) (n : ℕ) : answer s' n = answer s (c + n) := by
  have hc := takes_late hs c
  have hl := takes_lists h hs' hc n
  have hf : found (takes s' n) 0 = found (takes s (c + n)) 0 := by
    rw [takes_add, found, found, hl]
  have ha := (alloc_lists hl (takes_late hs' n) (takes_late hc n) 0).1
  rw [answer, answer, hf, takes_add, ha]

theorem answer_zero_none (hf : found s 0 = false) : answer s 0 = none := by
  rw [answer, takes, hf]
  rfl

theorem answer_zero_some (hf : found s 0 = true) : answer s 0 = some (ammPhysAlloc s 0).1 := by
  rw [answer, takes, hf]
  rfl

/-! ## Tables that are missing -/

/-- the paths of the tables above va -/
def above (va : ℕ) : List (List (Fin 512)) := [[topIdx va], [topIdx va, midIdx va], path va]

theorem ok_above {D : Fin 512 → Prop} {va : ℕ} (h : D (topIdx va)) {q : List (Fin 512)} (hq : q ∈ above va) : Ok D q := by
  simp only [above, List.mem_cons, List.not_mem_nil, or_false] at hq
  rcases hq with rfl | rfl | rfl
  · exact ⟨by simp, fun i hi => by cases hi; exact h⟩
  · exact ⟨by simp, fun i hi => by cases hi; exact h⟩
  · exact Ok.path h

/-- pages needed for the tables at some paths, T of which are there -/
def lacks (T : List (Fin 512) → Bool) (qs : List (List (Fin 512))) : ℕ := qs.countP fun q => !T q

section

variable {κ : Type} {S : ℕ → Prop} {D : Fin 512 → Prop} {root : κ → Option ℕ} {s s' s'' : St} {out out' out'' : Out} {k : κ}

/-- which tables a space has -/
def has (root : κ → Option ℕ) (m : Mem) (k : κ) (q : List (Fin 512)) : Bool := (table root m k q).isSome

/-- tables have been made at the paths qs of the space k where they were missing, from c pages of the allocator; no other
page has been taken -/
structure Made (S : ℕ → Prop) (D : Fin 512 → Prop) (root : κ → Option ℕ) (k : κ) (s : St) (out : Out) (s' : St)
    (out' : Out) (c : ℕ) (qs : List (List (Fin 512))) : Prop where
  grows : Grows S D root s out s' out' c
  lists : s'.lists = (takes s c).lists
  tables : ∀ l q, Ok D q → (has root s'.mem l q = true ↔ has root s.mem l q = true ∨ l = k ∧ q ∈ qs)
  used : ∀ b ∈ out', b ∈ out ∨ ∀ x, (blk b.2 b.1).has x = true → InTable D root s'.mem x

variable {qs : List (List (Fin 512))} {m : Mem} {q : List (Fin 512)} {va : ℕ}

theorem Made.trans {c' : ℕ} {qs' : List (List (Fin 512))} (h : Made S D root k s out s' out' c qs)
    (hs : Spaces S D root s out) (h' : Made S D root k s' out' s'' out'' c' qs') :
    Made S D root k s out s'' out'' (c + c') (qs ++ qs') where
  grows := h.grows.trans h'.grows
  lists := by
    rw [h'.lists, takes_add]
    exact takes_lists h.lists h.grows.spaces.inv.late (takes_late hs.inv.late c) c'
  tables := by
    intro l q hq
    rw [h'.tables l q hq, h.tables l q hq, List.mem_append]
    tauto
  used := by
    intro b hb
    rcases h'.used b hb with hb | hb
    · rcases h.used b hb with hb | hb
      · exact .inl hb
      · exact .inr fun x hx => h'.grows.inTable (hb x hx)
    · exact .inr hb

theorem has_some {t : ℕ} (h : table root m k q = some t) : has root m k q = true := by
  rw [has, h]
  rfl

theorem has_none (h : table root m k q = none) : has root m k q = false := by
  rw [has, h]
  rfl

/-- a walk from s has come to r, by way of the paths qs: to the table at the path q, if the answers to the tables that
were missing are all pages, and to nothing otherwise -/
def Walks (S : ℕ → Prop) (D : Fin 512 → Prop) (root : κ → Option ℕ) (k : κ) (s : St) (out : Out)
    (qs : List (List (Fin 512))) (q : List (Fin 512)) (r : Option ℕ × St) : Prop :=
  (∀ j < lacks (has root s.mem k) qs, Given (answer s j)) ∧ (∃ n out', r.1 = some n ∧ table root r.2.mem k q = some n ∧
    Made S D root k s out r.2 out' (lacks (has root s.mem k) qs) qs) ∨
  (∃ j < lacks (has root s.mem k) qs, ¬ Given (answer s j)) ∧ r.1 = none

/-- **One level of a walk** makes the table that is missing, if the next answer is a page. -/
theorem nextTable_walks (h : Spaces S D root s out) {p : List (Fin 512)} {t : ℕ} {i : Fin 512} (hp : Ok D (p ++ [i]))
    (ht : table root s.mem k p = some t) : Walks S D root k s out [p ++ [i]] (p ++ [i]) (nextTable s t i) := by
  classical
  unfold Walks
  obtain ⟨c, hc, he⟩ | ⟨hnone, hcase⟩ := nextTable_cases h hp ht
  · have hl : lacks (has root s.mem k) [p ++ [i]] = 0 := by simp [lacks, has_some hc]
    rw [hl, he]
    refine .inl ⟨fun j hj => absurd hj (Nat.not_lt_zero j), c, out, rfl, hc, Grows.refl h, rfl, fun l q hq => ?_,
      fun b hb => .inl hb⟩
    constructor
    · exact .inl
    rintro (hq | ⟨rfl, hq⟩)
    · exact hq
    · rw [List.mem_singleton.1 hq]
      exact has_some hc
  have hl : lacks (has root s.mem k) [p ++ [i]] = 1 := by simp [lacks, has_none hnone]
  rw [hl]
  obtain ⟨hf, he⟩ | ⟨hf, h0, he⟩ | ⟨hf, h0, s', he, hpl⟩ := hcase
  · exact .inr ⟨⟨0, Nat.one_pos, fun hg => hg.1 (answer_zero_none hf)⟩, by rw [he]⟩
  · exact .inr ⟨⟨0, Nat.one_pos, fun hg => hg.2 (by rw [answer_zero_some hf, h0])⟩, by rw [he]⟩
  have htab := (hpl.tables k _ hp).trans (if_pos ⟨rfl, rfl⟩)
  rw [he]
  refine .inl ⟨fun j hj => ?_, _, _, rfl, htab, hpl.grows, hpl.lists, fun l q hq => ?_, fun b hb => ?_⟩
  · rw [Nat.lt_one_iff.1 hj, answer_zero_some hf]
    exact ⟨Option.some_ne_none _, fun e => h0 (Option.some.inj e)⟩
  · rw [has, hpl.tables l q hq]
    split_ifs with hc
    · exact iff_of_true rfl (.inr ⟨hc.1, List.mem_singleton.2 hc.2⟩)
    · rw [List.mem_singleton, or_iff_left hc]
      rfl
  · rcases List.mem_cons.1 hb with rfl | hb
    · exact .inr fun x hx => ⟨k, _, _, hp, htab, blk_page.1 hx⟩
    · exact .inl hb

theorem lacks_append (T : List (Fin 512) → Bool) (qs rs : List (List (Fin 512))) :
    lacks T (qs ++ rs) = lacks T qs + lacks T rs := List.countP_append

/-- a table that is missing elsewhere is still missing -/
theorem Made.lacks (h : Made S D root k s out s' out' c qs) {r : List (Fin 512)}
    (hr : Ok D r) (hne : r ∉ qs) : lacks (has root s'.mem k) [r] = lacks (has root s.mem k) [r] := by
  have hsame : has root s'.mem k r = has root s.mem k r := by
    rw [Bool.eq_iff_iff, h.tables k r hr, or_iff_left fun hc => hne hc.2]
  simp only [Mm.lacks, List.countP_cons, List.countP_nil, hsame]

/-- **The next level.** -/
theorem Walks.next {i : Fin 512} {n : ℕ} (hs : Spaces S D root s out)
    (h : Walks S D root k s out qs q (some n, s')) (hq : Ok D (q ++ [i])) (hnew : q ++ [i] ∉ qs) :
    Walks S D root k s out (qs ++ [q ++ [i]]) (q ++ [i]) (nextTable s' n i) := by
  obtain ⟨hall, n', out1, e, ht, hm⟩ | ⟨-, e⟩ := h
  · cases e
    have hs' := hm.grows.spaces
    have hans := answer_shift hm.lists hs.inv.late hs'.inv.late
    have hstep := nextTable_walks hs' hq ht
    unfold Walks at hstep ⊢
    rw [hm.lacks hq hnew] at hstep
    rw [lacks_append]
    obtain ⟨hgiven, c, out2, he, hc, hm'⟩ | ⟨⟨j, hj, hno⟩, he⟩ := hstep
    · refine .inl ⟨fun j hj => ?_, c, out2, he, hc, hm.trans hs hm'⟩
      by_cases hlt : j < Mm.lacks (has root s.mem k) qs
      · exact hall j hlt
      · have := hgiven (j - Mm.lacks (has root s.mem k) qs) (by omega)
        rwa [hans, Nat.add_sub_cancel' (Nat.le_of_not_lt hlt)] at this
    · exact .inr ⟨⟨_ + j, Nat.add_lt_add_left hj _, hans j ▸ hno⟩, he⟩
  · cases e

/-- a walk that has failed stays so -/
theorem Walks.fail (h : Walks S D root k s out qs q (none, s'))
    (rs : List (List (Fin 512))) : ∃ j < lacks (has root s.mem k) (qs ++ rs), ¬ Given (answer s j) := by
  obtain ⟨-, n, -, e, -⟩ | ⟨⟨j, hj, hno⟩, -⟩ := h
  · cases e
  · rw [lacks_append]
    exact ⟨j, Nat.lt_add_right _ hj, hno⟩

/-- **Walk.** It succeeds exactly when the answers to the tables that are missing are all pages. -/
theorem ptWalkAlloc_made (h : Spaces S D root s out) {cr3 : ℕ} (hk : root k = some cr3) (hD : D (topIdx va)) :
    (∀ j < lacks (has root s.mem k) (above va), Given (answer s j)) ∧
      (∃ t s' out', ptWalkAlloc s cr3 va = (some (t, ptIdx va), s') ∧ table root s'.mem k (path va) = some t ∧
        Made S D root k s out s' out' (lacks (has root s.mem k) (above va)) (above va)) ∨
    (∃ j < lacks (has root s.mem k) (above va), ¬ Given (answer s j)) ∧ (ptWalkAlloc s cr3 va).1 = none := by
  obtain ⟨hok1, hok2, hok3, ht0, hcr3⟩ := h.levels hk hD
  have w1 := nextTable_walks h hok1 ht0
  have hc := ptWalkAlloc_cases s cr3 va
  rw [hcr3] at hc
  obtain ⟨s1, e1, he⟩ | ⟨pdpt, s1, e1, hc⟩ := hc
  · rw [show nextTable s cr3 (topIdx va) = (none, s1) from e1] at w1
    exact .inr ⟨w1.fail [[topIdx va, midIdx va], path va], by rw [he]⟩
  rw [show nextTable s cr3 (topIdx va) = (some pdpt, s1) from e1] at w1
  have w2 := w1.next h hok2 (by simp)
  obtain ⟨s2, e2, he⟩ | ⟨pd, s2, e2, hc⟩ := hc
  · rw [show nextTable s1 pdpt (midIdx va) = (none, s2) from e2] at w2
    exact .inr ⟨w2.fail [path va], by rw [he]⟩
  rw [show nextTable s1 pdpt (midIdx va) = (some pd, s2) from e2] at w2
  have w3 := w2.next h hok3 (by simp)
  obtain ⟨s3, e3, he⟩ | ⟨pt, s3, e3, he⟩ := hc
  · rw [show nextTable s2 pd (lowIdx va) = (none, s3) from e3] at w3
    exact .inr ⟨w3.fail [], by rw [he]⟩
  rw [show nextTable s2 pd (lowIdx va) = (some pt, s3) from e3] at w3
  obtain ⟨hall, t, out', e, ht, hm⟩ | ⟨-, e⟩ := w3
  · cases e
    exact .inl ⟨hall, _, s3, out', he, ht, hm⟩
  · cases e

/-- where a table above va is missing, va is not mapped -/
theorem pte_lacks (h : 0 < lacks (has root m k) (above va)) : pte root m k va = 0 := by
  obtain ⟨q, hq, hno⟩ := List.countP_pos_iff.1 h
  have hnone : table root m k q = none := by simpa [has] using hno
  apply pte_none
  cases ht : table root m k (path va) with
  | none => rfl
  | some t =>
    -- every table on the way would be there
    obtain ⟨t2, h2⟩ := table_above (show table root m k ([topIdx va, midIdx va] ++ [lowIdx va]) = some t from ht)
    obtain ⟨t1, h1⟩ := table_above (show table root m k ([topIdx va] ++ [midIdx va]) = some t2 from h2)
    simp only [above, List.mem_cons, List.not_mem_nil, or_false] at hq
    rcases hq with rfl | rfl | rfl
    · cases h1.symm.trans hnone
    · cases h2.symm.trans hnone
    · cases ht.symm.trans hnone

/-- **map_page** sets the entry exactly when the answers to the tables that are missing are all pages; it makes those
tables and takes no other page. -/
theorem mapPage_made (h : Spaces S D root s out) {cr3 : ℕ} (hk : root k = some cr3) (hD : D (topIdx va)) (pa : ℕ)
    (prot : Prot) :
    (∀ j < lacks (has root s.mem k) (above va), Given (answer s j)) ∧ (ptWalkAlloc s cr3 va).1.isSome = true ∧
      (∃ out', Made S D root k s out (mapPage s cr3 va pa prot) out' (lacks (has root s.mem k) (above va)) (above va)) ∨
    (∃ j < lacks (has root s.mem k) (above va), ¬ Given (answer s j)) ∧ (ptWalkAlloc s cr3 va).1.isSome = false ∧
      pte root s.mem k va = 0 := by
  classical
  unfold mapPage
  obtain ⟨hall, t, s', out', he, ht, hm⟩ | ⟨⟨j, hj, hno⟩, he⟩ := ptWalkAlloc_made h hk hD
  · rw [he]
    refine .inl ⟨hall, rfl, out', ?_⟩
    obtain ⟨hg, -⟩ := hm.grows.spaces.store hD ht (leaf_lt pa prot)
    have htab := fun l q hq => hm.grows.spaces.store_tables hD ht (leaf_lt pa prot) l (q := q) hq
    refine ⟨hm.grows.trans hg, hm.lists, fun l q hq => ?_, fun b hb => ?_⟩
    · rw [← hm.tables l q hq]
      exact iff_of_eq (congrArg (fun o : Option ℕ => o.isSome = true) (htab l q hq))
    · rcases hm.used b hb with hb | hb
      · exact .inl hb
      · exact .inr fun x hx => hg.inTable (hb x hx)
  · exact .inr ⟨⟨j, hj, hno⟩, by rw [he]; rfl, pte_lacks (Nat.zero_lt_of_lt hj)⟩

end

end OpenASD.Mm
