/-
Forests of tables. A table has entries by index, and an entry may lead to another table; a node of the forest is found from
a root by a path of indices. Nothing here names a program.

`ok` says which paths belong to the forest: a set of paths that has every initial part of its members. Entries that are found
at the end of the longest paths are leaves, whatever they hold.

`Shaped`: no table is found by two paths. Under it, a store into a table changes the forest in one place only:
- `node_store`: a store into a leaf leaves every node where it is;
- `node_link`: an entry that leads nowhere is made to lead to an empty table that was no node, which becomes one;
- `node_plant`: an empty table that was no node becomes the root of an empty tree.
-/
import Mathlib.Tactic

namespace OpenASD.Radix

variable {κ τ ι ε : Type*} (child : ε → Option τ)

/-- the table that a path leads to -/
def descend (E : τ → ι → ε) : τ → List ι → Option τ
  | t, [] => some t
  | t, i :: p => (child (E t i)).bind fun c => descend E c p

/-- the table that a path leads to from the root of k -/
def node (E : τ → ι → ε) (root : κ → Option τ) (k : κ) (p : List ι) : Option τ := (root k).bind fun t => descend child E t p

/-- no table is found by two paths -/
def Shaped (ok : List ι → Prop) (E : τ → ι → ε) (root : κ → Option τ) : Prop :=
  ∀ k l p q t, ok p → ok q → node child E root k p = some t → node child E root l q = some t → k = l ∧ p = q

section

variable {child} {E E' : τ → ι → ε} {root : κ → Option τ} {ok : List ι → Prop}

theorem descend_snoc (t : τ) (p : List ι) (i : ι) :
    descend child E t (p ++ [i]) = (descend child E t p).bind fun c => child (E c i) := by
  induction p generalizing t with
  | nil =>
    simp only [List.nil_append, descend, Option.bind_some]
    cases child (E t i) <;> rfl
  | cons j p ih =>
    simp only [List.cons_append, descend, Option.bind_assoc]
    exact congrArg _ (funext fun c => ih c)

theorem node_nil (k : κ) : node child E root k [] = root k := by
  rw [node]
  cases root k <;> rfl

theorem node_snoc (k : κ) (p : List ι) (i : ι) :
    node child E root k (p ++ [i]) = (node child E root k p).bind fun c => child (E c i) := by
  rw [node, node, Option.bind_assoc]
  exact congrArg _ (funext fun t => descend_snoc t p i)

variable {p : List ι} {k : κ} {t n : τ} {q : List ι}

theorem node_snoc_some (h : node child E root k p = some t) (i : ι) :
    node child E root k (p ++ [i]) = child (E t i) := by
  rw [node_snoc, h, Option.bind_some]

theorem node_snoc_none (h : node child E root k p = none) (i : ι) : node child E root k (p ++ [i]) = none := by
  rw [node_snoc, h, Option.bind_none]

section Closed

variable (hok : ∀ p i, ok (p ++ [i]) → ok p)
include hok

/-- **Frame rule.** Tables that agree on the entries of nodes have the same nodes. -/
theorem node_congr (h : ∀ k p t i, ok (p ++ [i]) → node child E root k p = some t → E' t i = E t i) (k : κ)
    (hp : ok p) : node child E' root k p = node child E root k p := by
  induction p using List.reverseRecOn with
  | nil => rw [node_nil, node_nil]
  | append_singleton p i ih =>
    have hih := ih (hok p i hp)
    cases hn : node child E root k p with
    | none => rw [node_snoc_none hn, node_snoc_none (hih.trans hn)]
    | some t => rw [node_snoc_some hn, node_snoc_some (hih.trans hn), h k p t i hp hn]

/-- **Store rule.** A store into an entry that no path of the forest follows moves no node. -/
theorem node_store (hs : Shaped child ok E root) {i : ι} (hp : ok p)
    (hn : node child E root k p = some t) (hi : ¬ ok (p ++ [i]))
    (hE : ∀ l q u j, ok q → node child E root l q = some u → (u, j) ≠ (t, i) → E' u j = E u j) (l : κ)
    (hq : ok q) : node child E' root l q = node child E root l q := by
  apply node_congr hok _ l hq
  intro l q u j hqj hu
  apply hE l q u j (hok q j hqj) hu
  intro e
  obtain ⟨rfl, rfl⟩ := Prod.mk.injEq .. ▸ e
  obtain ⟨-, rfl⟩ := hs l k q p u (hok q j hqj) hp hu hn
  exact hi hqj

/-- **Link rule.** An entry that leads nowhere is made to lead to an empty table that was no node. -/
theorem node_link (hs : Shaped child ok E root) {i : ι} (hp : ok (p ++ [i]))
    (hn : node child E root k p = some t) (h0 : child (E t i) = none)
    (hE : ∀ l q u j, ok q → node child E root l q = some u → (u, j) ≠ (t, i) → E' u j = E u j)
    (hset : child (E' t i) = some n) (hempty : ∀ j, child (E' n j) = none) (l : κ) (hq : ok q) [DecidableEq κ]
    [DecidableEq ι] : node child E' root l q = if l = k ∧ q = p ++ [i] then some n else node child E root l q := by
  induction q using List.reverseRecOn with
  | nil =>
    rw [if_neg fun h => absurd h.2.symm (List.append_ne_nil_of_right_ne_nil p (List.cons_ne_nil i [])), node_nil, node_nil]
  | append_singleton q j ih =>
    have hih := ih (hok q j hq)
    by_cases hnew : l = k ∧ q = p ++ [i]
    · -- below the new table there is nothing, as there was nothing below the entry
      obtain ⟨rfl, rfl⟩ := hnew
      rw [if_pos ⟨rfl, rfl⟩] at hih
      have hold : node child E root l (p ++ [i]) = none := (node_snoc_some hn i).trans h0
      rw [node_snoc_some hih, hempty j, node_snoc_none hold, if_neg]
      rintro ⟨-, e⟩
      have hlen := congrArg List.length e
      simp at hlen
    rw [if_neg hnew] at hih
    cases hu : node child E root l q with
    | none =>
      rw [node_snoc_none (hih.trans hu), node_snoc_none hu, if_neg]
      rintro ⟨rfl, e⟩
      obtain ⟨rfl, -⟩ := List.append_inj' e rfl
      rw [hn] at hu
      cases hu
    | some u =>
      rw [node_snoc_some (hih.trans hu), node_snoc_some hu]
      by_cases hsame : (u, j) = (t, i)
      · obtain ⟨rfl, rfl⟩ := Prod.mk.injEq .. ▸ hsame
        obtain ⟨rfl, rfl⟩ := hs l k q p u (hok q j hq) (hok p j hp) hu hn
        rw [if_pos ⟨rfl, rfl⟩, hset]
      rw [hE l q u j (hok q j hq) hu hsame, if_neg]
      rintro ⟨rfl, e⟩
      obtain ⟨rfl, hji⟩ := List.append_inj' e rfl
      rw [hn] at hu
      exact hsame (Prod.ext (Option.some.inj hu).symm (List.singleton_inj.1 hji))

end Closed

theorem Shaped.of_node (h : Shaped child ok E root) (he : ∀ k p, ok p → node child E' root k p = node child E root k p) :
    Shaped child ok E' root := by
  intro k l p q t hp hq h1 h2
  rw [he k p hp] at h1
  rw [he l q hq] at h2
  exact h k l p q t hp hq h1 h2

/-- one new node, which was none before, keeps the shape -/
theorem Shaped.of_link [DecidableEq κ] [DecidableEq ι] (h : Shaped child ok E root)
    {root' : κ → Option τ} (hfresh : ∀ l q, ok q → node child E root l q ≠ some n)
    (he : ∀ l q, ok q → node child E' root' l q = if l = k ∧ q = p then some n else node child E root l q) :
    Shaped child ok E' root' := by
  intro a b q r t hq hr h1 h2
  rw [he a q hq] at h1
  rw [he b r hr] at h2
  split_ifs at h1 h2 with c1 c2 c2
  · exact ⟨c1.1.trans c2.1.symm, c1.2.trans c2.2.symm⟩
  · cases h1
    exact absurd h2 (hfresh b r hr)
  · cases h2
    exact absurd h1 (hfresh a q hq)
  · exact h a b q r t hq hr h1 h2

/-- **Plant rule.** An empty table becomes the root of a key that had none. -/
theorem node_plant [DecidableEq κ] [DecidableEq ι] (hok : ∀ p i, ok (p ++ [i]) → ok p) (hk : root k = none)
    (hE : ∀ l q u j, ok (q ++ [j]) → node child E root l q = some u → E' u j = E u j)
    (hempty : ∀ j, ok [j] → child (E' n j) = none) (l : κ) (hq : ok q) :
    node child E' (Function.update root k (some n)) l q = if l = k ∧ q = [] then some n else node child E root l q := by
  by_cases hl : l = k
  · subst hl
    have hold : ∀ q, node child E root l q = none := fun q => by rw [node, hk, Option.bind_none]
    rw [hold q]
    induction q using List.reverseRecOn with
    | nil => rw [node_nil, Function.update_self, if_pos ⟨rfl, rfl⟩]
    | append_singleton q j ih =>
      have hih := ih (hok q j hq)
      rw [if_neg fun h => absurd h.2 (List.append_ne_nil_of_right_ne_nil q (List.cons_ne_nil j []))]
      by_cases hqe : q = []
      · subst hqe
        rw [if_pos ⟨rfl, rfl⟩] at hih
        rw [node_snoc_some hih, hempty j hq]
      · rw [if_neg fun h => hqe h.2] at hih
        exact node_snoc_none hih j
  · rw [if_neg fun h => hl h.1]
    have hroot : node child E' (Function.update root k (some n)) l q = node child E' root l q := by
      rw [node, node, Function.update_of_ne hl]
    rw [hroot]
    exact node_congr hok hE l hq

end

end OpenASD.Radix
