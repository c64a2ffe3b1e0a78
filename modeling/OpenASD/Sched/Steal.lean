/-
Work stealing (`sched_steal`): half of the INTR and BATCH processes of the most loaded CPU move to the calling CPU, one at
a time, BATCH first.

`Queues s T`: the links spell out the trees T with their sizes counted, every process is in the tree of its class, and
trees are ordered by priority. `Stolen` says what a call may change: processes move from the victim's trees to the same
trees of the calling CPU, with their `cpu` field set; nothing is lost or doubled, RT trees and the other CPUs stay as they
were.
- `stealOne_spec`: one round;
- `stealLoop_spec`: any number of rounds, by induction;
- `steal_conserves`: the whole call.
-/
import OpenASD.Sched.Locks

namespace OpenASD.Sched

open LinkedTree Machine
open Function (update update_of_ne update_self)
open Prod (fst snd)

/-- `SCHED_RT`, `SCHED_INTR`, `SCHED_BATCH` -/
def Class.number : Class → ℕ
  | .rt => 0
  | .intr => 1
  | .batch => 2

theorem classOf_number (c : Class) : classOf c.number = c := by cases c <;> rfl

/-- well-formed run queues -/
structure Queues (s : St) (T : Slot → KTree PcbId) : Prop where
  trees : Trees s T
  home : ∀ i : Slot, i.1 < s.cpuCount → ∀ p ∈ (T i).keys, (s.pcb p).schedClass = i.2.number
  sorted : ∀ i : Slot, i.1 < s.cpuCount → (T i).keys.Pairwise fun a b => s.prio a ≤ s.prio b

/-- the trees of the first n CPUs -/
def slots (n : ℕ) : Finset Slot := Finset.range n ×ˢ {.rt, .intr, .batch}

/-- all queued processes -/
def queuedIn (n : ℕ) (T : Slot → KTree PcbId) : Multiset PcbId := ∑ i ∈ slots n, ((T i).keys : Multiset PcbId)

structure Stolen (this victim : ℕ) (s s' : St) (T T' : Slot → KTree PcbId) : Prop where
  cpus : s'.cpuCount = s.cpuCount
  same : queuedIn s.cpuCount T' = queuedIn s.cpuCount T
  /-- what is in a tree was there before, or has come from the victim's tree of the same class and has its CPU set -/
  source : ∀ i : Slot, i.1 < s.cpuCount → ∀ p ∈ (T' i).keys, (p ∈ (T i).keys ∧ s'.pcb p = s.pcb p) ∨
    (i.1 = this ∧ i.2 ≠ .rt ∧ p ∈ (T (victim, i.2)).keys ∧ s'.pcb p = { s.pcb p with cpu := this })
  rt : ∀ c, T' (c, .rt) = T (c, .rt)
  third : ∀ c, c ≠ this → c ≠ victim → s'.rq c = s.rq c ∧ ∀ k, T' (c, k) = T (c, k)
  nodes : ∀ c, c ≠ this → c ≠ victim → c < s.cpuCount → ∀ k, ∀ p ∈ (T (c, k)).keys, s'.node p = s.node p

section Steal

variable {s s' s'' : St} {T T' T'' : Slot → KTree PcbId} {this victim : ℕ} {p : PcbId}

theorem mem_slots {i : Slot} {n : ℕ} : i ∈ slots n ↔ i.1 < n := by
  obtain ⟨c, k⟩ := i
  rw [slots, Finset.mem_product, Finset.mem_range]
  cases k <;> simp

/-- two trees exchange processes, the others stay -/
theorem queuedIn_exchange {n : ℕ} {a b : Slot} (ha : a.1 < n) (hb : b.1 < n) (hab : a ≠ b)
    (hother : ∀ i, i ≠ a → i ≠ b → T' i = T i)
    (hperm : ((T' a).keys ++ (T' b).keys).Perm ((T a).keys ++ (T b).keys)) : queuedIn n T' = queuedIn n T := by
  have ha' : a ∈ slots n := mem_slots.2 ha
  have hb' : b ∈ (slots n).erase a := Finset.mem_erase.2 ⟨hab.symm, mem_slots.2 hb⟩
  have hsplit : ∀ f : Slot → Multiset PcbId, ∑ i ∈ slots n, f i = f a + (f b + ∑ i ∈ ((slots n).erase a).erase b, f i) := by
    intro f
    rw [Finset.add_sum_erase _ f hb', Finset.add_sum_erase _ f ha']
  have hrest : ∑ i ∈ ((slots n).erase a).erase b, ((T' i).keys : Multiset PcbId) =
      ∑ i ∈ ((slots n).erase a).erase b, ((T i).keys : Multiset PcbId) := by
    refine Finset.sum_congr rfl fun i hi => ?_
    obtain ⟨h1, h2⟩ := Finset.mem_erase.1 hi
    rw [hother i (Finset.mem_erase.1 h2).1 h1]
  have htwo : ((T' a).keys : Multiset PcbId) + (T' b).keys = ((T a).keys : Multiset PcbId) + (T b).keys := by
    rw [Multiset.coe_add, Multiset.coe_add, Multiset.coe_eq_coe]
    exact hperm
  calc queuedIn n T' = (T' a).keys + ((T' b).keys + ∑ i ∈ ((slots n).erase a).erase b, ((T' i).keys : Multiset PcbId)) :=
        hsplit _
    _ = (T a).keys + ((T b).keys + ∑ i ∈ ((slots n).erase a).erase b, ((T i).keys : Multiset PcbId)) := by
        rw [← add_assoc, htwo, hrest, add_assoc]
    _ = queuedIn n T := (hsplit _).symm

theorem Stolen.refl (s : St) (T : Slot → KTree PcbId) : Stolen this victim s s T T where
  cpus := rfl
  same := rfl
  source _ _ _ hp := .inl ⟨hp, rfl⟩
  rt _ := rfl
  third _ _ _ := ⟨rfl, fun _ => rfl⟩
  nodes _ _ _ _ _ _ _ := rfl

theorem Stolen.trans (hne : victim ≠ this) (hv : victim < s.cpuCount) (h : Stolen this victim s s' T T')
    (h' : Stolen this victim s' s'' T' T'') : Stolen this victim s s'' T T'' where
  cpus := h'.cpus.trans h.cpus
  same := by
    have e := h'.same
    rw [h.cpus] at e
    exact e.trans h.same
  source i hi p hp := by
    rcases h'.source i (h.cpus ▸ hi) p hp with ⟨h1, h2⟩ | ⟨h1, h2, h3, h4⟩
    · rw [h2]
      exact h.source i hi p h1
    -- moved now, so it was not moved before
    rcases h.source (victim, i.2) hv p h3 with ⟨h5, h6⟩ | ⟨h5, -⟩
    · rw [h6] at h4
      exact .inr ⟨h1, h2, h5, h4⟩
    · exact absurd h5 hne
  rt c := (h'.rt c).trans (h.rt c)
  third c h1 h2 := ⟨(h'.third c h1 h2).1.trans (h.third c h1 h2).1,
    fun k => ((h'.third c h1 h2).2 k).trans ((h.third c h1 h2).2 k)⟩
  nodes c h1 h2 hc k p hp := by
    have hp' : p ∈ (T' (c, k)).keys := by
      rw [(h.third c h1 h2).2 k]
      exact hp
    exact (h'.nodes c h1 h2 (h.cpus ▸ hc) k p hp').trans (h.nodes c h1 h2 hc k p hp)

theorem pairwise_insert {prio : PcbId → ℤ} {L R : List PcbId} (h : (L ++ R).Pairwise fun a b => prio a ≤ prio b)
    (hL : ∀ k ∈ L, prio k ≤ prio p) (hR : ∀ k ∈ R, prio p < prio k) : (L ++ p :: R).Pairwise fun a b => prio a ≤ prio b := by
  obtain ⟨h1, h2, h3⟩ := List.pairwise_append.1 h
  refine List.pairwise_append.2 ⟨h1, List.pairwise_cons.2 ⟨fun k hk => (hR k hk).le, h2⟩, fun a ha b hb => ?_⟩
  rcases List.mem_cons.1 hb with rfl | hb
  · exact hL a ha
  · exact h3 a ha b hb

/-- the state between the removal and the insertion -/
def retarget (s : St) (p : PcbId) (this : ℕ) : St := s.setPcb p { s.pcb p with cpu := this }

theorem retarget_pcb (s : St) (p : PcbId) (this : ℕ) : (retarget s p this).pcb p = { s.pcb p with cpu := this } :=
  update_self _ _ _

theorem retarget_pcb_ne {k : PcbId} (s : St) (this : ℕ) (h : k ≠ p) : (retarget s p this).pcb k = s.pcb k :=
  update_of_ne h _ _

theorem retarget_class (s : St) (p k : PcbId) (this : ℕ) :
    ((retarget s p this).pcb k).schedClass = (s.pcb k).schedClass :=
  update_keep Pcb.schedClass s.pcb k rfl

theorem retarget_prio (s : St) (p : PcbId) (this : ℕ) : (retarget s p this).prio = s.prio :=
  funext fun k => update_keep Pcb.priority s.pcb k rfl

variable {c : Class}

theorem insertInto_class {cpu : ℕ} (h : classOf (s.pcb p).schedClass = c) : insertInto s p (cpu, c) = insertAt s p cpu := by
  subst h
  rfl

/-- what is left of a tree and what another one gets -/
structure Move (s : St) (T : Slot → KTree PcbId) (a b : Slot) (p : PcbId) (t t' : Store PcbId) (X Y : KTree PcbId) :
    Prop where
  left : X.keys = (T a).keys.erase p
  gets : ∃ L R, (T b).keys = L ++ R ∧ Y.keys = L ++ p :: R ∧
    ((L ++ R).Pairwise (fun i j => s.prio i ≤ s.prio j) → (∀ k ∈ L, s.prio k ≤ s.prio p) ∧ ∀ k ∈ R, s.prio p < s.prio k)
  trees : Trees ((retarget (s.setTree a t X.keys.length) p b.1).setTree b t' Y.keys.length)
    (update (update T a X) b Y)
  node : ∀ k, k ∉ (T a).keys → k ∉ (T b).keys → t'.node k = s.node k

section

variable (h : Queues s T) (hthis : this < s.cpuCount) (hv : victim < s.cpuCount) (hne : victim ≠ this)
include h hthis hv hne

/-- the two tree operations of a round -/
theorem stealOne_move (hc : c ≠ .rt) (hp : p ∈ (T (victim, c)).keys) :
    ∃ t t' X Y, stealOne s victim this p = some ((retarget (s.setTree (victim, c) t X.keys.length) p this).setTree
      (this, c) t' Y.keys.length) ∧ Move s T (victim, c) (this, c) p t t' X Y := by
  have hcls : (s.pcb p).schedClass = c.number := h.home (victim, c) hv p hp
  have hpick : (if (s.pcb p).schedClass = 2 then Class.batch else .intr) = c := by
    rw [hcls]
    cases c with
    | rt => exact absurd rfl hc
    | intr | batch => rfl
  have hmod : this % 256 = this := by
    have hfew := h.trees.few.2
    rw [maxCpus] at hfew
    exact Nat.mod_eq_of_lt (by omega)
  obtain ⟨t, X, hrem, hX, htrees, -, hout⟩ := removeAt_spec h.trees (i := (victim, c)) hv hp
  have hslots : (this, c) ≠ (victim, c) := fun e => hne (congrArg fst e).symm
  -- p is in no tree now
  have hnot : ∀ j : Slot, j.1 < s.cpuCount → p ∉ (update T (victim, c) X j).keys := by
    intro j hj hm
    by_cases e : j = (victim, c)
    · rw [e, update_self, hX] at hm
      exact (h.trees.is (victim, c) hv).nodup.not_mem_erase hm
    · rw [update_of_ne e] at hm
      exact e (h.trees.apart j (victim, c) hj hv p hm hp)
  generalize hs1 : s.setTree (victim, c) t X.keys.length = s1 at hrem htrees
  have hcls1 : classOf ((retarget s1 p this).pcb p).schedClass = c := by
    rw [retarget_class, ← hs1, setTree_pcb, hcls, classOf_number]
  have hcount : s1.cpuCount = s.cpuCount := by rw [← hs1, setTree_cpuCount]
  obtain ⟨t', Y, L, R, hins, hLR, hY, htrees', hout', hord⟩ :=
    insertAt_spec (htrees.setPcb p { s1.pcb p with cpu := this }) (p := p) (fun j hj => hnot j (hcount ▸ hj))
      (hthis.trans_eq hcount.symm)
  have hcls2 : classOf ((s1.setPcb p { s1.pcb p with cpu := this }).pcb p).schedClass = c := hcls1
  rw [hcls2] at hins hLR htrees'
  rw [update_of_ne hslots] at hLR
  refine ⟨t, t', X, Y, ?_, hX, ⟨L, R, hLR, hY, ?_⟩, ?_, fun k hka hkb => ?_⟩
  · rw [hs1]
    unfold stealOne
    simp only [hpick, hrem, Option.bind_some, hmod]
    exact (insertInto_class hcls1).trans hins
  · have hprio : (s1.setPcb p { s1.pcb p with cpu := this }).prio = s.prio := by
      rw [← hs1]
      exact retarget_prio (s.setTree (victim, c) t X.keys.length) p this
    rw [hprio] at hord
    exact hord
  · rw [hs1]
    exact htrees'
  have hkp : k ≠ p := fun e => hka (e ▸ hp)
  have hkX : k ∉ X.keys := by
    rw [hX]
    exact fun hm => hka (List.mem_of_mem_erase hm)
  have hkY : k ∉ Y.keys := by
    rw [hY, List.mem_append, List.mem_cons]
    rw [hLR, List.mem_append] at hkb
    tauto
  refine (hout' k hkY).trans ?_
  show s1.node k = s.node k
  rw [← hs1, setTree_node]
  exact hout k hkp hkX

/-- **One round.** A process of the victim moves to the tree of its class on the calling CPU. -/
theorem stealOne_spec (hc : c ≠ .rt) (hp : p ∈ (T (victim, c)).keys) :
    ∃ s' T', stealOne s victim this p = some s' ∧ Queues s' T' ∧ Stolen this victim s s' T T' := by
  obtain ⟨t, t', X, Y, hsteal, hmove⟩ := stealOne_move h hthis hv hne hc hp
  obtain ⟨L, R, hLR, hY, hord⟩ := hmove.gets
  have hslots : (this, c) ≠ (victim, c) := fun e => hne (congrArg fst e).symm
  generalize hs' : (retarget (s.setTree (victim, c) t X.keys.length) p this).setTree (this, c) t' Y.keys.length = s' at hsteal
  generalize hT' : update (update T (victim, c) X) (this, c) Y = T'
  have htrees : Trees s' T' := by
    rw [← hs', ← hT']
    exact hmove.trees
  -- the trees afterwards
  have hTthis : T' (this, c) = Y := by rw [← hT', update_self]
  have hTvic : T' (victim, c) = X := by rw [← hT', update_of_ne hslots.symm, update_self]
  have hTother : ∀ i, i ≠ (victim, c) → i ≠ (this, c) → T' i = T i := by
    intro i h1 h2
    rw [← hT', update_of_ne h2, update_of_ne h1]
  -- the PCBs afterwards
  have hcount : s'.cpuCount = s.cpuCount := by rw [← hs']; rfl
  have hpcb : s'.pcb p = { s.pcb p with cpu := this } := by
    rw [← hs']
    exact retarget_pcb (s.setTree (victim, c) t X.keys.length) p this
  have hpcb_ne : ∀ k, k ≠ p → s'.pcb k = s.pcb k := by
    intro k hk
    rw [← hs']
    exact retarget_pcb_ne (s.setTree (victim, c) t X.keys.length) this hk
  have hcls : ∀ k, (s'.pcb k).schedClass = (s.pcb k).schedClass := by
    intro k
    rw [← hs']
    exact retarget_class (s.setTree (victim, c) t X.keys.length) p k this
  have hprio : s'.prio = s.prio := by
    rw [← hs']
    exact retarget_prio (s.setTree (victim, c) t X.keys.length) p this
  have hrq : ∀ d, d ≠ this → d ≠ victim → s'.rq d = s.rq d := by
    intro d h1 h2
    rw [← hs']
    exact (update_of_ne h1 _ _).trans (update_of_ne h2 _ _)
  have hsource : ∀ i : Slot, i.1 < s.cpuCount → ∀ k ∈ (T' i).keys, (k ∈ (T i).keys ∧ s'.pcb k = s.pcb k) ∨
      (i.1 = this ∧ i.2 ≠ .rt ∧ k ∈ (T (victim, i.2)).keys ∧ s'.pcb k = { s.pcb k with cpu := this }) := by
    intro i hi k hk
    by_cases e1 : i = (victim, c)
    · rw [e1, hTvic, hmove.left] at hk
      have hkp : k ≠ p := by
        rintro rfl
        exact (h.trees.is (victim, c) hv).nodup.not_mem_erase hk
      rw [e1]
      exact .inl ⟨List.mem_of_mem_erase hk, hpcb_ne k hkp⟩
    by_cases ekp : k = p
    · -- p is only in the tree it was put in
      rw [ekp] at hk ⊢
      have e2 : i = (this, c) := by
        by_contra e2
        rw [hTother i e1 e2] at hk
        exact e1 (h.trees.apart i (victim, c) hi hv p hk hp)
      rw [e2]
      exact .inr ⟨rfl, hc, hp, hpcb⟩
    · refine .inl ⟨?_, hpcb_ne k ekp⟩
      by_cases e2 : i = (this, c)
      · rw [e2, hTthis, hY, List.mem_append, List.mem_cons] at hk
        rw [e2, hLR, List.mem_append]
        tauto
      · rwa [hTother i e1 e2] at hk
  refine ⟨s', T', hsteal, ⟨htrees, fun i hi k hk => ?_, fun i hi => ?_⟩, hcount, ?_, hsource, fun d => ?_, fun d h1 h2 => ?_,
    fun d h1 h2 hd k j hj => ?_⟩
  · rw [hcls]
    rw [hcount] at hi
    rcases hsource i hi k hk with ⟨h1, -⟩ | ⟨h1, -, h3, -⟩
    · exact h.home i hi k h1
    · exact h.home (victim, i.2) hv k h3
  · rw [hprio]
    rw [hcount] at hi
    by_cases e1 : i = (victim, c)
    · rw [e1, hTvic, hmove.left]
      exact (h.sorted (victim, c) hv).sublist List.erase_sublist
    by_cases e2 : i = (this, c)
    · have hsort := h.sorted (this, c) hthis
      rw [hLR] at hsort
      obtain ⟨h1, h2⟩ := hord hsort
      rw [e2, hTthis, hY]
      exact pairwise_insert hsort h1 h2
    · rw [hTother i e1 e2]
      exact h.sorted i hi
  · refine queuedIn_exchange (a := (victim, c)) (b := (this, c)) hv hthis hslots.symm (fun i h1 h2 => hTother i h1 h2) ?_
    rw [hTvic, hTthis, hmove.left, hY, hLR]
    -- p changes sides
    calc ((T (victim, c)).keys.erase p ++ (L ++ p :: R)).Perm ((T (victim, c)).keys.erase p ++ (p :: (L ++ R))) :=
          List.Perm.append_left _ List.perm_middle
      List.Perm _ (p :: ((T (victim, c)).keys.erase p ++ (L ++ R))) := List.perm_middle
      List.Perm _ ((T (victim, c)).keys ++ (L ++ R)) := (List.perm_cons_erase hp).symm.append_right (L ++ R)
  · exact hTother _ (fun e => hc (congrArg snd e).symm) fun e => hc (congrArg snd e).symm
  · exact ⟨hrq d h1 h2, fun k => hTother _ (fun e => h2 (congrArg fst e)) fun e => h1 (congrArg fst e)⟩
  · have hnode : s'.node j = t'.node j := by rw [← hs', setTree_node]
    rw [hnode]
    refine hmove.node j (fun hm => h2 ?_) fun hm => h1 ?_
    · exact congrArg fst (h.trees.apart (d, k) (victim, c) hd hv j hj hm)
    · exact congrArg fst (h.trees.apart (d, k) (this, c) hd hthis j hj hm)

end

/-- the process that the next round moves, or none if the victim has no INTR or BATCH process -/
theorem stealPick_spec (h : Queues s T) (hv : victim < s.cpuCount) :
    stealPick s victim = some none ∨ ∃ c p, c ≠ .rt ∧ p ∈ (T (victim, c)).keys ∧ stealPick s victim = some (some p) := by
  have hleft : ∀ c : Class, 0 < s.count (victim, c) →
      ∃ p, p ∈ (T (victim, c)).keys ∧ rbLeftmost rbFuel (s.store (victim, c)) = some (some p) := by
    intro c hpos
    rw [h.trees.count (victim, c) hv] at hpos
    obtain ⟨p, rest, hkeys⟩ := List.exists_cons_of_length_pos hpos
    refine ⟨p, hkeys ▸ List.mem_cons_self, ?_⟩
    have hfuel : (T (victim, c)).keys.length ≤ rbFuel := (h.trees.size_le (i := (victim, c)) hv).trans (by decide)
    rw [rbLeftmost_spec (h.trees.is (victim, c) hv) hfuel, hkeys, List.head?_cons]
  unfold stealPick
  split_ifs with hb hi
  · obtain ⟨p, hp, hl⟩ := hleft .batch hb
    exact .inr ⟨.batch, p, by decide, hp, hl⟩
  · obtain ⟨p, hp, hl⟩ := hleft .intr hi
    exact .inr ⟨.intr, p, by decide, hp, hl⟩
  · exact .inl rfl

theorem stealLoop_spec (n : ℕ) (h : Queues s T) (hthis : this < s.cpuCount) (hv : victim < s.cpuCount)
    (hne : victim ≠ this) : ∃ s' T', stealLoop s victim this n = some s' ∧ Queues s' T' ∧ Stolen this victim s s' T T' := by
  induction n generalizing s T with
  | zero => exact ⟨s, T, rfl, h, Stolen.refl s T⟩
  | succ n ih =>
    rw [stealLoop]
    rcases stealPick_spec h hv with hp | ⟨c, p, hc, hmem, hp⟩
    · rw [hp, Option.bind_some]
      exact ⟨s, T, rfl, h, Stolen.refl s T⟩
    obtain ⟨s1, T1, h1, hq, hst⟩ := stealOne_spec h hthis hv hne hc hmem
    obtain ⟨s2, T2, h2, hq2, hst2⟩ := ih hq (hst.cpus ▸ hthis) (hst.cpus ▸ hv)
    rw [hp, Option.bind_some]
    simp only [h1, Option.bind_some]
    exact ⟨s2, T2, h2, hq2, hst.trans hne hv hst2⟩

/-! ## The whole call -/

theorem setLock_rq_ne (s : St) {c d : ℕ} (b : Bool) (h : d ≠ c) : (s.setLock c b).rq d = s.rq d :=
  update_of_ne h _ _

/-- locks are no part of the trees -/
theorem Queues.setLock (h : Queues s T) (c : ℕ) (b : Bool) : Queues (s.setLock c b) T := by
  refine ⟨⟨h.trees.few, fun i hi => ?_, fun i hi => ?_, h.trees.apart⟩, h.home, h.sorted⟩
  · have hroot : ((s.setLock c b).rq i.1).root = (s.rq i.1).root := update_keep Runq.root s.rq i.1 rfl
    rw [St.store, hroot]
    exact h.trees.is i hi
  · have hcount : ((s.setLock c b).rq i.1).count = (s.rq i.1).count := update_keep Runq.count s.rq i.1 rfl
    rw [St.count, hcount]
    exact h.trees.count i hi

/-- locks of the two CPUs do not count -/
theorem Stolen.setLock {c : ℕ} {b b' : Bool} (hc : c = this ∨ c = victim)
    (h : Stolen this victim (s.setLock c b) s' T T') : Stolen this victim s (s'.setLock c b') T T' := by
  refine ⟨h.cpus, h.same, h.source, h.rt, fun d h1 h2 => ⟨?_, (h.third d h1 h2).2⟩, h.nodes⟩
  have hd : d ≠ c := by
    rintro rfl
    tauto
  exact (setLock_rq_ne s' b' hd).trans ((h.third d h1 h2).1.trans (setLock_rq_ne s b hd))

theorem victimOf_lt (h : 0 < s.cpuCount) (this : ℕ) : (victimOf s this).2 < s.cpuCount := by
  -- the CPU is 0 or one of those the loop has seen
  refine List.foldlRecOn (motive := fun m : ℕ × ℕ => m.2 < s.cpuCount) _ _ h fun m hm i hi => ?_
  split_ifs
  · exact List.mem_range.1 hi
  · exact hm

/-- the loop with both locks held, and their release -/
theorem stealLoop_locked (n : ℕ) (h : Queues s T) (hthis : this < s.cpuCount) (hv : victim < s.cpuCount)
    (hne : victim ≠ this) {a b : ℕ} (ha : a = this ∨ a = victim) (hb : b = this ∨ b = victim) :
    ∃ s' T', stealLoop ((s.setLock a true).setLock b true) victim this n = some s' ∧
      Queues ((s'.setLock b false).setLock a false) T' ∧
      Stolen this victim s ((s'.setLock b false).setLock a false) T T' := by
  obtain ⟨s', T', h1, h2, h3⟩ := stealLoop_spec n ((h.setLock a true).setLock b true) hthis hv hne
  exact ⟨s', T', h1, (h2.setLock b false).setLock a false, (h3.setLock hb).setLock ha⟩

/-- a lock that is taken was free -/
theorem spinLock_ok {k k' : Kernel} {c : ℕ} (h : spinLock k c = .ok k') : k' = { k with st := k.st.setLock c true } := by
  rw [spinLock] at h
  split_ifs at h
  exact (Except.ok.inj h).symm

theorem spinLock_free {k : Kernel} {c : ℕ} (h : (k.st.rq c).lock = false) :
    spinLock k c = .ok { k with st := k.st.setLock c true } := by
  rw [spinLock, h]
  rfl

end Steal

/-- **Stealing conserves.** On any number of CPUs with any contents of the queues, for the calling CPU `this`: the call
returns if the locks are free, and whenever it returns, the queues are well-formed again and processes have only moved
from the victim's INTR and BATCH trees to those of this CPU. -/
theorem steal_conserves {k : Kernel} {T : Slot → KTree PcbId} (h : Queues k.st T) {this : ℕ} (hthis : this < k.st.cpuCount) :
    ((∀ c < k.st.cpuCount, (k.st.rq c).lock = false) → ∃ k', schedSteal k this = .ok k') ∧ ∀ k', schedSteal k this = .ok k' →
      ∃ victim < k.st.cpuCount, ∃ T', Queues k'.st T' ∧ Stolen this victim k.st k'.st T T' := by
  have hlt := victimOf_lt h.trees.few.1 this
  have hvic := victimOf_ne k.st this
  unfold schedSteal
  rcases hv : victimOf k.st this with ⟨load, victim⟩
  rw [hv] at hlt hvic
  simp only
  by_cases hle : load ≤ (k.st.movable this + 2) % 2 ^ 32
  · -- no CPU has enough more to do
    rw [if_pos hle]
    refine ⟨fun _ => ⟨k, rfl⟩, fun k' hk => ⟨this, hthis, T, ?_⟩⟩
    cases hk
    exact ⟨h, Stolen.refl k.st T⟩
  rw [if_neg hle]
  have hne : victim ≠ this := hvic.resolve_right fun h0 => hle (le_of_eq_of_le h0 (Nat.zero_le _))
  generalize ha : (if this < victim then this else victim) = a
  generalize hb : (if this < victim then victim else this) = b
  have hab : b ≠ a ∧ (a = this ∨ a = victim) ∧ (b = this ∨ b = victim) := by
    rw [← ha, ← hb]
    split_ifs
    · exact ⟨hne, .inl rfl, .inr rfl⟩
    · exact ⟨hne.symm, .inr rfl, .inl rfl⟩
  obtain ⟨hba, ha', hb'⟩ := hab
  have hless : ∀ c, c = this ∨ c = victim → c < k.st.cpuCount := by
    rintro c (rfl | rfl)
    · exact hthis
    · exact hlt
  obtain ⟨s', T', hloop, hq, hst⟩ :=
    stealLoop_locked (((k.st.setLock a true).setLock b true).movable victim / 2) h hthis hlt hne ha' hb'
  constructor
  · intro hfree
    have hlock : ((k.st.setLock a true).rq b).lock = false := by
      rw [setLock_rq_ne k.st true hba]
      exact hfree b (hless b hb')
    refine ⟨{ k with st := (s'.setLock b false).setLock a false }, ?_⟩
    refine bind_eq_ok.2 ⟨_, spinLock_free (hfree a (hless a ha')), bind_eq_ok.2 ⟨_, spinLock_free hlock, ?_⟩⟩
    simp only [hloop]
    rfl
  intro k' hk
  obtain ⟨k1, h1, hk⟩ := bind_eq_ok.1 hk
  obtain ⟨k2, h2, hk⟩ := bind_eq_ok.1 hk
  rw [spinLock_ok h1] at h2
  rw [spinLock_ok h2] at hk
  simp only [hloop] at hk
  cases hk
  exact ⟨victim, hlt, T', hq, hst⟩

/-- a kernel with the run queues s -/
def withQueues (s : St) : Kernel := { Kernel.boot ⟨s.cpuCount, 0, 0, 0, fun _ => 0⟩ with st := s }

/-- four BATCH processes go to the second CPU -/
def fourBatch : List QOp := [1, 2, 3, 4].flatMap fun i => [.adjust (slot i) 2 1 0, .enqueue (slot i)]

/-- two CPUs, four BATCH processes on the second: the first CPU takes two of them -/
theorem steal_conserves_two : ∃ k k' : Kernel, ∃ T T', Queues k.st T ∧ schedSteal k 0 = .ok k' ∧ Queues k'.st T' ∧
    k'.st.count (0, .batch) = 2 ∧ k'.st.count (1, .batch) = 2 ∧ queuedIn 2 T' = queuedIn 2 T := by
  have hrun : (qrun (QSys.start St.zero 2) fourBatch).map (fun y => (y.st.cpuCount, y.put,
      y.put.map fun p => (y.st.pcb p).schedClass)) = some (2, [slot 4, slot 3, slot 2, slot 1], [2, 2, 2, 2]) := rfl
  have hsteal : (qrun (QSys.start St.zero 2) fourBatch).map (fun y => (schedSteal (withQueues y.st) 0).map
      fun k => (k.st.count (0, .batch), k.st.count (1, .batch))) = some (.ok (2, 2)) := rfl
  obtain ⟨y, hy, he⟩ := Option.map_eq_some_iff.1 hrun
  obtain ⟨hcpu, hput, hcls⟩ : y.st.cpuCount = 2 ∧ y.put = [slot 4, slot 3, slot 2, slot 1] ∧
      y.put.map (fun p => (y.st.pcb p).schedClass) = [2, 2, 2, 2] := by simpa using he
  rw [hy, Option.map_some] at hsteal
  obtain ⟨k', hk', hcounts⟩ := bind_eq_ok.1 (Option.some.inj hsteal)
  obtain ⟨T, hinv⟩ := qrun_inv (start_inv St.zero Nat.two_pos) hy
  -- only these four are queued, and their class is 2
  have hq : Queues y.st T := by
    refine ⟨hinv.trees, fun i hi p hp => ?_, fun i hi => (hinv.stable i hi).sorted⟩
    have hmem := (hinv.mem_tree hi p).1 hp
    have hone := hinv.once p
    rw [if_pos (mem_queued.2 ⟨i, hi, hmem⟩)] at hone
    have hpos : p ∈ y.put := List.count_pos_iff.1 (by omega)
    have h2 : (y.st.pcb p).schedClass = 2 := by
      have hin : (y.st.pcb p).schedClass ∈ y.put.map fun p => (y.st.pcb p).schedClass := List.mem_map_of_mem hpos
      rw [hcls] at hin
      simpa using hin
    have hhome := (hinv.home i hi p hmem).2.1
    rw [h2] at hhome ⊢
    rw [← hhome]
    rfl
  have hst : Queues (withQueues y.st).st T := hq
  have hzero : 0 < (withQueues y.st).st.cpuCount := Nat.two_pos.trans_eq hcpu.symm
  obtain ⟨victim, -, T', h1, h2⟩ := (steal_conserves hst hzero).2 k' hk'
  have hc : (k'.st.count (0, .batch), k'.st.count (1, .batch)) = (2, 2) := Except.ok.inj hcounts
  refine ⟨withQueues y.st, k', T, T', hst, hk', h1, congrArg fst hc, congrArg snd hc, ?_⟩
  have hsame := h2.same
  rwa [show (withQueues y.st).st.cpuCount = 2 from hcpu] at hsame

end OpenASD.Sched
