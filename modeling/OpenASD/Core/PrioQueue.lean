/-
Priority queues with first-in first-out ties, as lists.

The abstract queue is the list of elements in the order of their arrival; `pick` takes the first of those with the least
priority. An implementation keeps a list sorted by priority instead. `Stable q L` says that L is such a list for the
arrivals q: it is sorted, and the elements of each priority stand in the order of their arrival.
- `Stable.insert`: a new arrival goes behind all elements that are not larger;
- `Stable.pick`: the head of L is what `pick` takes;
- `Stable.tail`: taking the head off L is taking that element out of q.
-/
import Mathlib.Tactic

namespace OpenASD.PrioQueue

variable {K P : Type} [LinearOrder P] {prio : K → P} {q L : List K} {k : K}

/-- the first of the elements with the least priority -/
def pick (prio : K → P) (q : List K) : Option K := q.find? fun k => q.all fun j => decide (prio k ≤ prio j)

structure Stable (prio : K → P) (q L : List K) : Prop where
  sorted : L.Pairwise fun a b => prio a ≤ prio b
  fifo : ∀ v, L.filter (fun k => decide (prio k = v)) = q.filter fun k => decide (prio k = v)

theorem Stable.nil (prio : K → P) : Stable prio [] [] := ⟨List.Pairwise.nil, fun _ => rfl⟩

theorem Stable.mem_iff (h : Stable prio q L) (k : K) : k ∈ L ↔ k ∈ q := by
  have hf : ∀ l : List K, k ∈ l ↔ k ∈ l.filter fun j => decide (prio j = prio k) := by
    intro l
    rw [List.mem_filter]
    exact ⟨fun hk => ⟨hk, decide_eq_true rfl⟩, fun hk => hk.1⟩
  rw [hf L, h.fifo, ← hf q]

theorem Stable.perm [DecidableEq K] (h : Stable prio q L) : L.Perm q := by
  rw [List.perm_iff_count]
  intro k
  have hf : ∀ l : List K, l.count k = (l.filter fun j => decide (prio j = prio k)).count k := by
    intro l
    exact (List.count_filter (p := fun j => decide (prio j = prio k)) (decide_eq_true rfl)).symm
  rw [hf L, h.fifo, ← hf q]

theorem Stable.congr {prio' : K → P} (h : Stable prio q L) (e : ∀ k ∈ q, prio' k = prio k) : Stable prio' q L := by
  have eL : ∀ k ∈ L, prio' k = prio k := fun k hk => e k ((h.mem_iff k).1 hk)
  refine ⟨h.sorted.imp_of_mem fun ha hb hab => ?_, fun v => ?_⟩
  · rwa [eL _ ha, eL _ hb]
  have hq : q.filter (fun k => decide (prio' k = v)) = q.filter fun k => decide (prio k = v) :=
    List.filter_congr fun k hk => by rw [e k hk]
  have hL : L.filter (fun k => decide (prio' k = v)) = L.filter fun k => decide (prio k = v) :=
    List.filter_congr fun k hk => by rw [eL k hk]
  rw [hq, hL, h.fifo v]

theorem Stable.insert {A B : List K} {z : K} (h : Stable prio q (A ++ B)) (hA : ∀ k ∈ A, prio k ≤ prio z)
    (hB : ∀ k ∈ B, prio z < prio k) : Stable prio (q ++ [z]) (A ++ z :: B) := by
  obtain ⟨hsA, hsB, hAB⟩ := List.pairwise_append.1 h.sorted
  refine ⟨List.pairwise_append.2 ⟨hsA, List.pairwise_cons.2 ⟨fun k hk => (hB k hk).le, hsB⟩, ?_⟩, fun v => ?_⟩
  · intro a ha b hb
    rcases List.mem_cons.1 hb with rfl | hb
    · exact hA a ha
    · exact hAB a ha b hb
  have hfifo := h.fifo v
  rw [List.filter_append] at hfifo
  rw [List.filter_append, List.filter_append, List.filter_cons]
  by_cases hv : prio z = v
  · -- nothing of this priority comes after z
    have hnil : B.filter (fun k => decide (prio k = v)) = [] := by
      rw [List.filter_eq_nil_iff]
      intro k hk
      rw [decide_eq_true_eq, ← hv]
      exact (hB k hk).ne'
    rw [hnil, List.append_nil] at hfifo
    rw [if_pos (decide_eq_true hv), hnil, hfifo, List.filter_singleton, decide_eq_true hv]
    rfl
  · rw [if_neg (by simpa using hv), hfifo, List.filter_singleton, decide_eq_false hv]
    exact (List.append_nil _).symm

theorem Stable.pick (h : Stable prio q (k :: L)) : PrioQueue.pick prio q = some k := by
  have hmin : ∀ j ∈ q, prio k ≤ prio j := by
    intro j hj
    rcases List.mem_cons.1 ((h.mem_iff j).2 hj) with rfl | hj
    · exact le_rfl
    · exact (List.pairwise_cons.1 h.sorted).1 j hj
  have hk : k ∈ q := (h.mem_iff k).1 List.mem_cons_self
  -- the least elements are those with the priority of k
  have hleast : q.filter (fun i => q.all fun j => decide (prio i ≤ prio j)) =
      q.filter fun i => decide (prio i = prio k) := by
    refine List.filter_congr fun i hi => ?_
    rw [Bool.eq_iff_iff, List.all_eq_true, decide_eq_true_eq]
    constructor
    · intro hall
      exact le_antisymm (of_decide_eq_true (hall k hk)) (hmin i hi)
    · intro e j hj
      rw [decide_eq_true_eq, e]
      exact hmin j hj
  rw [PrioQueue.pick, ← List.head?_filter, hleast, ← h.fifo, List.filter_cons, if_pos (decide_eq_true rfl)]
  rfl

theorem Stable.tail [DecidableEq K] (h : Stable prio q (k :: L)) : Stable prio (q.erase k) L := by
  refine ⟨(List.pairwise_cons.1 h.sorted).2, fun v => ?_⟩
  have hfifo := h.fifo v
  rw [List.filter_cons] at hfifo
  rw [← List.erase_filter]
  by_cases hv : prio k = v
  · rw [if_pos (decide_eq_true hv)] at hfifo
    rw [← hfifo, List.erase_cons_head]
  rw [if_neg (by simpa using hv)] at hfifo
  rw [← hfifo, List.erase_of_not_mem]
  intro hk
  exact hv (of_decide_eq_true (List.mem_filter.1 hk).2)

/-- nothing is picked exactly from the empty queue -/
theorem Stable.pick_eq_none (h : Stable prio q L) : PrioQueue.pick prio q = none ↔ q = [] := by
  constructor
  · intro hp
    cases L with
    | nil =>
      rw [List.eq_nil_iff_forall_not_mem]
      intro j hj
      exact absurd ((h.mem_iff j).2 hj) List.not_mem_nil
    | cons k L =>
      rw [h.pick] at hp
      cases hp
  · rintro rfl
    rfl

end OpenASD.PrioQueue
