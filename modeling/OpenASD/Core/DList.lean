/-
Doubly linked lists in a store of nodes. Nothing here names a program.

`Links` holds the two pointers of every node. `Seg k p h l t e`: following the next pointers from h one meets the nodes l
and then e; every prev pointer of l points to the node before, with p before the first; t is the last node. `Threaded k h
l` is a whole list from its head pointer h.

Rules for the three ways in which a list is changed, with the stores in the order in which programs make them:
- `Threaded.push`: a new node in front;
- `Threaded.insert`: a new node behind a node of the list;
- `Threaded.unlink`: a node is taken out.
-/
import Mathlib.Data.List.Nodup

namespace OpenASD.DList

open Function (update update_of_ne update_self)
open List (mem_append mem_cons mem_cons_of_mem mem_cons_self nodup_append nodup_cons)

variable {ι : Type*}

/-- the pointers of every node -/
structure Links (ι : Type*) where
  prev : ι → Option ι
  next : ι → Option ι

/-- the nodes l from the link h on, with p before them; t is the last one, e comes after it -/
def Seg (k : Links ι) : Option ι → Option ι → List ι → Option ι → Option ι → Prop
  | p, h, [], t, e => t = p ∧ h = e
  | p, h, i :: l, t, e => h = some i ∧ k.prev i = p ∧ Seg k (some i) (k.next i) l t e

/-- the list with the head pointer h has the nodes l -/
def Threaded (k : Links ι) (h : Option ι) (l : List ι) : Prop := l.Nodup ∧ ∃ t, Seg k none h l t none

section

variable {k k' : Links ι} {p h t e : Option ι} {l l₁ l₂ : List ι} {c x : ι}

theorem seg_append : Seg k p h (l₁ ++ l₂) t e ↔ ∃ m n, Seg k p h l₁ m n ∧ Seg k m n l₂ t e := by
  induction l₁ generalizing p h with
  | nil =>
    constructor
    · intro hs
      exact ⟨p, h, ⟨rfl, rfl⟩, hs⟩
    · rintro ⟨m, n, ⟨rfl, rfl⟩, hs⟩
      exact hs
  | cons i l₁ ih =>
    simp only [List.cons_append, Seg, ih]
    constructor
    · rintro ⟨rfl, rfl, m, n, h1, h2⟩
      exact ⟨m, n, ⟨rfl, rfl, h1⟩, h2⟩
    · rintro ⟨m, n, ⟨rfl, rfl, h1⟩, h2⟩
      exact ⟨rfl, rfl, m, n, h1, h2⟩

/-- **Frame rule.** Only the pointers of the nodes themselves matter. -/
theorem Seg.congr (hs : Seg k p h l t e) (hk : ∀ i ∈ l, k'.prev i = k.prev i ∧ k'.next i = k.next i) : Seg k' p h l t e := by
  induction l generalizing p h with
  | nil => exact hs
  | cons i l ih =>
    obtain ⟨hh, hp, hrest⟩ := hs
    obtain ⟨h1, h2⟩ := hk i mem_cons_self
    refine ⟨hh, h1.trans hp, ?_⟩
    rw [h2]
    exact ih hrest fun j hj => hk j (mem_cons_of_mem i hj)

theorem Threaded.congr (hl : Threaded k h l) (hk : ∀ i ∈ l, k'.prev i = k.prev i ∧ k'.next i = k.next i) :
    Threaded k' h l := by
  obtain ⟨hnd, t, hs⟩ := hl
  exact ⟨hnd, t, hs.congr hk⟩

/-- a pointer of a node of the segment stays in it or leads to an end of it -/
theorem Seg.mem (hs : Seg k p h l t e) (hc : c ∈ l) :
    (∀ x, k.next c = some x → x ∈ l ∨ e = some x) ∧ ∀ x, k.prev c = some x → x ∈ l ∨ p = some x := by
  induction l generalizing p h with
  | nil => cases hc
  | cons i l ih =>
    obtain ⟨-, hp, hrest⟩ := hs
    rcases mem_cons.1 hc with rfl | hc
    · refine ⟨fun x hx => ?_, fun x hx => Or.inr (hp.symm.trans hx)⟩
      rw [hx] at hrest
      cases l with
      | nil => exact Or.inr hrest.2.symm
      | cons j l =>
        cases hrest.1
        exact Or.inl (mem_cons_of_mem _ mem_cons_self)
    obtain ⟨h1, h2⟩ := ih hrest hc
    refine ⟨fun x hx => ?_, fun x hx => ?_⟩
    · exact (h1 x hx).imp_left (mem_cons_of_mem i)
    rcases h2 x hx with hx | hx
    · exact Or.inl (mem_cons_of_mem i hx)
    · cases hx
      exact Or.inl mem_cons_self

/-- the pointers of a list stay in it -/
theorem Threaded.mem (hl : Threaded k h l) (hc : c ∈ l) :
    (∀ x, k.next c = some x → x ∈ l) ∧ ∀ x, k.prev c = some x → x ∈ l := by
  obtain ⟨-, t, hs⟩ := hl
  obtain ⟨h1, h2⟩ := hs.mem hc
  exact ⟨fun x hx => (h1 x hx).resolve_right (by simp), fun x hx => (h2 x hx).resolve_right (by simp)⟩

/-- the first pointer leads to a node of the segment -/
theorem Seg.head_mem (hs : Seg k p h l t none) : ∀ x, h = some x → x ∈ l := by
  rintro x rfl
  cases l with
  | nil => cases hs.2
  | cons i l =>
    cases hs.1
    exact mem_cons_self

/-- the last node -/
theorem Seg.last (hs : Seg k p h (l ++ [c]) t e) : t = some c ∧ e = k.next c := by
  obtain ⟨m, n, -, -, -, ht, he⟩ := seg_append.1 hs
  exact ⟨ht, he.symm⟩

/-- no node stands before itself -/
theorem Seg.prev_ne (hs : Seg k p h l t e) (hl : l.Nodup) (hp : ∀ x, p = some x → x ∉ l) (hc : c ∈ l) :
    k.prev c ≠ some c := by
  induction l generalizing p h with
  | nil => cases hc
  | cons i l ih =>
    obtain ⟨-, hpi, hrest⟩ := hs
    rw [nodup_cons] at hl
    rcases mem_cons.1 hc with rfl | hc
    · intro he
      exact hp c (hpi.symm.trans he) mem_cons_self
    apply ih hrest hl.2 _ hc
    intro x hx
    cases hx
    exact hl.1

theorem Threaded.nil (k : Links ι) : Threaded k none [] := ⟨List.nodup_nil, none, rfl, rfl⟩

end

section

variable [DecidableEq ι] {k : Links ι} {p q h t d e : Option ι} {l l₁ l₂ : List ι} {c x r : ι} {i : ι}

def Links.setPrev (k : Links ι) (i : ι) (p : Option ι) : Links ι := { k with prev := update k.prev i p }

def Links.setNext (k : Links ι) (i : ι) (n : Option ι) : Links ι := { k with next := update k.next i n }

/-- the prev pointer of the node that n points to, if there is one -/
def Links.setPrevOf (k : Links ι) (n p : Option ι) : Links ι := n.elim k fun i => k.setPrev i p

/-- the next pointer of the node that n points to, if there is one -/
def Links.setNextOf (k : Links ι) (n p : Option ι) : Links ι := n.elim k fun i => k.setNext i p

theorem setPrev_other (hi : i ≠ c) : (k.setPrev c p).prev i = k.prev i ∧ (k.setPrev c p).next i = k.next i :=
  ⟨update_of_ne hi _ _, rfl⟩

theorem setNext_other (hi : i ≠ c) : (k.setNext c p).prev i = k.prev i ∧ (k.setNext c p).next i = k.next i :=
  ⟨rfl, update_of_ne hi _ _⟩

theorem setPrevOf_other {n : Option ι} (hi : n ≠ some i) :
    (k.setPrevOf n p).prev i = k.prev i ∧ (k.setPrevOf n p).next i = k.next i := by
  cases n with
  | none => exact ⟨rfl, rfl⟩
  | some y => exact setPrev_other fun he => hi (congrArg some he.symm)

/-- the last node gets another successor -/
theorem Seg.relink_last (hs : Seg k p h (l ++ [c]) t e) (hc : c ∉ l) : Seg (k.setNext c d) p h (l ++ [c]) (some c) d := by
  rw [seg_append] at hs ⊢
  obtain ⟨m, n, h1, rfl, hp, -⟩ := hs
  refine ⟨m, some c, h1.congr fun i hi => setNext_other fun he => hc (he ▸ hi), rfl, hp, rfl, ?_⟩
  exact update_self _ _ _

/-- the first node gets another predecessor -/
theorem Seg.relink_first (hs : Seg k p h l t none) (hl : l.Nodup) : ∃ t', Seg (k.setPrevOf h q) q h l t' none := by
  cases l with
  | nil => exact ⟨q, rfl, hs.2⟩
  | cons i l =>
    obtain ⟨rfl, -, hrest⟩ := hs
    refine ⟨t, rfl, update_self _ _ _, hrest.congr fun j hj => setPrev_other fun he => ?_⟩
    exact (nodup_cons.1 hl).1 (he ▸ hj)

/-- a new node goes to the front -/
theorem Threaded.push (hl : Threaded k h l) (hx : x ∉ l) (hp : k.prev x = none) :
    Threaded ((k.setNext x h).setPrevOf h (some x)) (some x) (x :: l) := by
  obtain ⟨hnd, t, hs⟩ := hl
  have hs' : Seg (k.setNext x h) none h l t none := hs.congr fun i hi => setNext_other fun he => hx (he ▸ hi)
  obtain ⟨t', ht'⟩ := hs'.relink_first (q := some x) hnd
  have hhx : h ≠ some x := fun he => hx (hs.head_mem x he)
  obtain ⟨h1, h2⟩ := setPrevOf_other (k := k.setNext x h) (p := some x) hhx
  refine ⟨nodup_cons.2 ⟨hx, hnd⟩, t', rfl, h1.trans hp, ?_⟩
  have hnext : (k.setNext x h).next x = h := update_self _ _ _
  rwa [h2, hnext]

/-- a new node goes behind the node c -/
theorem Threaded.insert (hl : Threaded k h (l₁ ++ c :: l₂)) (hx : x ∉ l₁ ++ c :: l₂) :
    Threaded ((((k.setNext x (k.next c)).setPrev x (some c)).setPrevOf (k.next c) (some x)).setNext c (some x)) h
      (l₁ ++ c :: x :: l₂) := by
  obtain ⟨hnd, t, hs⟩ := hl
  simp only [mem_append, mem_cons, not_or] at hx
  obtain ⟨hx1, hxc, hx2⟩ := hx
  have hnd' : (l₁ ++ [c] ++ l₂).Nodup := by simpa using hnd
  rw [show l₁ ++ c :: l₂ = l₁ ++ [c] ++ l₂ by simp, seg_append] at hs
  obtain ⟨m, n, h1, h2⟩ := hs
  obtain ⟨rfl, rfl⟩ := h1.last
  have hdis := List.disjoint_of_nodup_append hnd'
  have hnd2 := (nodup_append.1 hnd').2.1
  -- the node that gets a new predecessor is the first of the rest
  have hfirst := h2.head_mem
  have hcx : c ∉ l₁ := fun hc => (nodup_cons.1 (List.nodup_middle.1 hnd)).1 (List.mem_append_left l₂ hc)
  -- stores at x change nothing on either side
  generalize hdef : (k.setNext x (k.next c)).setPrev x (some c) = k2
  have hk2 : ∀ i, i ≠ x → k2.prev i = k.prev i ∧ k2.next i = k.next i := by
    intro i hi
    rw [← hdef]
    obtain ⟨a1, a2⟩ := setPrev_other (k := k.setNext x (k.next c)) (p := some c) hi
    obtain ⟨b1, b2⟩ := setNext_other (k := k) (p := k.next c) hi
    exact ⟨a1.trans b1, a2.trans b2⟩
  have hxk : k2.prev x = some c ∧ k2.next x = k.next c := by
    rw [← hdef]
    exact ⟨update_self _ _ _, update_self _ _ _⟩
  have g1 : Seg k2 none h (l₁ ++ [c]) (some c) (k.next c) :=
    h1.congr fun i hi => hk2 i fun he => by
      rw [he] at hi
      rcases mem_append.1 hi with hi | hi
      · exact hx1 hi
      · exact hxc (List.mem_singleton.1 hi)
  have g2 : Seg k2 (some c) (k.next c) l₂ t none := h2.congr fun i hi => hk2 i fun he => hx2 (he ▸ hi)
  have hfx : k.next c ≠ some x := fun he => hx2 (hfirst x he)
  have hout : ∀ i ∈ l₁ ++ [c], k.next c ≠ some i := fun i hi he => hdis hi (hfirst i he)
  generalize k.next c = n at *
  obtain ⟨t', g2'⟩ := g2.relink_first (q := some x) hnd2
  have g1' : Seg (k2.setPrevOf n (some x)) none h (l₁ ++ [c]) (some c) n :=
    g1.congr fun i hi => setPrevOf_other (hout i hi)
  obtain ⟨hx3, hx4⟩ := setPrevOf_other (k := k2) (p := some x) hfx
  have g3 := g1'.relink_last (d := some x) hcx
  refine ⟨?_, t', ?_⟩
  · have hp : (l₁ ++ c :: x :: l₂).Perm (x :: (l₁ ++ c :: l₂)) := by
      calc (l₁ ++ c :: x :: l₂).Perm (l₁ ++ x :: c :: l₂) := (List.Perm.swap _ _ _).append_left _
        _ |>.Perm (x :: (l₁ ++ c :: l₂)) := List.perm_middle
    rw [hp.nodup_iff, nodup_cons]
    refine ⟨?_, hnd⟩
    simp only [mem_append, mem_cons, not_or]
    exact ⟨hx1, hxc, hx2⟩
  rw [show l₁ ++ c :: x :: l₂ = l₁ ++ [c] ++ (x :: l₂) by simp, seg_append]
  have hother := setNext_other (k := k2.setPrevOf n (some x)) (p := some x) hxc
  refine ⟨some c, some x, g3, rfl, ?_, ?_⟩
  · rw [hother.1, hx3, hxk.1]
  rw [hother.2, hx4, hxk.2]
  refine g2'.congr fun i hi => setNext_other fun he => ?_
  rw [he] at hi
  exact hdis (List.mem_append_right l₁ mem_cons_self) hi

/-- the node r is taken out -/
theorem Threaded.unlink (hl : Threaded k h (l₁ ++ r :: l₂)) :
    Threaded ((k.setNextOf (k.prev r) (k.next r)).setPrevOf (k.next r) (k.prev r))
      ((k.prev r).elim (k.next r) fun _ => h) (l₁ ++ l₂) := by
  obtain ⟨hnd, t, hs⟩ := hl
  rw [seg_append] at hs
  obtain ⟨m, n, h1, rfl, hm, h2⟩ := hs
  have hnd12 : (l₁ ++ l₂).Nodup := (List.nodup_middle.1 hnd).of_cons
  have hdis := List.disjoint_of_nodup_append hnd12
  have hnd2 := (nodup_append.1 hnd12).2.1
  have hfirst := h2.head_mem
  subst hm
  refine ⟨hnd12, ?_⟩
  generalize k.next r = n at *
  -- the node before r, if there is one, is the last of the first part
  rcases List.eq_nil_or_concat l₁ with rfl | ⟨l, c, rfl⟩
  · obtain ⟨hp, rfl⟩ := h1
    rw [hp]
    exact h2.relink_first hnd2
  rw [List.concat_eq_append] at *
  have hc := h1.last.1
  rw [hc] at h1 ⊢
  have hcl : c ∉ l := fun hcl => List.disjoint_of_nodup_append (nodup_append.1 hnd12).1 hcl mem_cons_self
  have hc2 : c ∉ l₂ := fun hc2 => hdis (List.mem_append_right l mem_cons_self) hc2
  have g1 := h1.relink_last (d := n) hcl
  have g2 : Seg (k.setNext c n) (some r) n l₂ t none := h2.congr fun i hi => setNext_other fun he => hc2 (he ▸ hi)
  obtain ⟨t', g2'⟩ := g2.relink_first (q := some c) hnd2
  refine ⟨t', seg_append.2 ⟨some c, n, ?_, g2'⟩⟩
  exact g1.congr fun i hi => setPrevOf_other fun he => hdis hi (hfirst i he)

end

end OpenASD.DList
