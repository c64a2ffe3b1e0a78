/-
Processes that no link of the run queues leads to. The trees need not be well formed for this: whatever the links are, the
calls of the scheduler only store pointers that they have found, and the process they are asked to insert.

Results:
- `rbInsert_avoids`, `rbLeftmost_avoids`, `rbRemoveNode_avoids`: no function on trees brings such a node in or returns it;
- `schedEnqueue_loose`, `schedDequeue_loose`, `stealLoop_loose`: so a process that no link leads to stays out of all run
  queues until it is enqueued, and `sched_dequeue` does not return it unless it is the idle process.
-/
import OpenASD.Sched.Accounting

namespace OpenASD.Sched

open LinkedTree
open Option (bind_eq_some_iff map_eq_some_iff some_ne_none)

/-! ## Trees -/

variable {n fuel : ℕ}

section Seek

variable {K : Type} {s : Store K} {x y z : K}

theorem ne_of_pointer {o : Option K} (h : o ≠ some z) (ho : o = some x) : x ≠ z := by
  intro e
  exact h (ho.trans (congrArg some e))

theorem rbSeek_avoids {prio : K → ℤ} {key : ℤ} {parent here r : Option K} (h : s.Avoids z)
    (hp : parent ≠ some z) (hx : here ≠ some z) (hr : rbSeek prio key s n parent here = some r) : r ≠ some z := by
  induction n generalizing parent here with
  | zero => cases hr
  | succ n ih =>
    cases here with
    | none =>
      cases hr
      exact hp
    | some x =>
      apply ih hx ?_ hr
      split_ifs
      · exact h.child x .left
      · exact h.child x .right

theorem walkLeft_avoids (h : s.Avoids z) (hx : x ≠ z) (hr : walkLeft s n x = some y) : y ≠ z := by
  induction n generalizing x with
  | zero => cases hr
  | succ n ih =>
    rw [walkLeft] at hr
    split at hr
    · cases hr
      exact hx
    · rename_i l hl
      exact ih (ne_of_pointer (h.child x .left) hl) hr

theorem rbLeftmost_avoids {r : Option K} (h : s.Avoids z) (hr : rbLeftmost fuel s = some r) : r ≠ some z := by
  unfold rbLeftmost at hr
  split at hr
  · cases hr
    exact (some_ne_none z).symm
  · rename_i x hx
    obtain ⟨y, h1, rfl⟩ := map_eq_some_iff.1 hr
    exact fun e => walkLeft_avoids h (ne_of_pointer h.root hx) h1 (Option.some.inj e)

end Seek

section Trees

variable {K : Type} [DecidableEq K] {s s' : Store K} {x y z : K} {d : Side}

section

variable (h : s.Avoids z)
include h

theorem rotate_avoids (hx : x ≠ z) (hr : rotate d s x = some s') : s'.Avoids z := by
  obtain ⟨y, hy, rfl⟩ := map_eq_some_iff.1 hr
  have hxz : some x ≠ some z := fun e => hx (Option.some.inj e)
  have hyz : some y ≠ some z := hy ▸ h.child x d.other
  have h1 := (h.setChild d.other x (h.child y d)).reparent ((s.node y).child d) hxz
  have h2 := h1.setParent y (h1.parent x)
  exact ((h2.graft d _ x hyz).setChild d y hxz).setParent x hyz

theorem rbRotate_avoids (hx : x ≠ z) (hr : rbRotate d s x = some s') : s'.Avoids z := by
  cases d with
  | left | right => exact rotate_avoids h hx hr

theorem blackRoot_avoids (hr : blackRoot s = some s') : s'.Avoids z := by
  obtain ⟨r, -, rfl⟩ := map_eq_some_iff.1 hr
  exact h.setColor r .black

/-- a round of the fixup goes on at a node that it has found -/
theorem turnOver_avoids {gp : K} {r : Store K × K} (hx : x ≠ z) (hgp : gp ≠ z)
    (hr : turnOver d s x gp = some r) : r.1.Avoids z ∧ r.2 ≠ z := by
  obtain ⟨p, -, h1⟩ := bind_eq_some_iff.1 hr
  obtain ⟨s1, h2, rfl⟩ := map_eq_some_iff.1 h1
  exact ⟨rbRotate_avoids ((h.setColor p .black).setColor gp .red) hgp h2, hx⟩

theorem fixupRound_avoids {p gp : K} {r : Store K × K} (hx : x ≠ z) (hp : p ≠ z) (hgp : gp ≠ z)
    (hr : fixupRound d s x p gp = some r) : r.1.Avoids z ∧ r.2 ≠ z := by
  unfold fixupRound at hr
  split at hr
  · cases hr
    exact ⟨((h.setColor p .black).setColor _ .black).setColor gp .red, hgp⟩
  split_ifs at hr
  · obtain ⟨s1, h1, h2⟩ := bind_eq_some_iff.1 hr
    exact turnOver_avoids (rbRotate_avoids h hp h1) hp hgp h2
  · exact turnOver_avoids h hx hgp hr

theorem rbInsertFixup_avoids (hx : x ≠ z) (hr : rbInsertFixup n s x = some s') : s'.Avoids z := by
  induction n generalizing s x with
  | zero => cases hr
  | succ n ih =>
    rw [rbInsertFixup] at hr
    split at hr
    · exact blackRoot_avoids h hr
    rename_i p hp
    have hpz : p ≠ z := ne_of_pointer (h.parent x) hp
    split_ifs at hr
    · split at hr
      · exact blackRoot_avoids h hr
      rename_i gp hgp
      obtain ⟨r, h1, h2⟩ := bind_eq_some_iff.1 hr
      obtain ⟨h3, h4⟩ := fixupRound_avoids h hx hpz (ne_of_pointer (h.parent p) hgp) h1
      exact ih h3 h4 h2
    · exact blackRoot_avoids h hr

theorem freshNode_avoids {parent : Option K} (x : K) (hp : parent ≠ some z) : (freshNode s x parent).Avoids z := by
  refine ⟨h.root, fun k => ?_, fun k e => ?_⟩
  · by_cases hk : k = x
    · subst hk
      simpa [freshNode] using hp
    · simpa [freshNode, hk] using h.parent k
  by_cases hk : k = x
  · subst hk
    cases e <;> simp [freshNode, Node.child]
  · simpa [freshNode, hk] using h.child k e

/-- **Insertion** of another node. -/
theorem rbInsert_avoids {prio : K → ℤ} {key : ℤ} (hx : x ≠ z) (hr : rbInsert fuel prio s x key = some s') : s'.Avoids z := by
  have hxz : some x ≠ some z := fun e => hx (Option.some.inj e)
  obtain ⟨parent, h1, h2⟩ := bind_eq_some_iff.1 hr
  have h0 : (freshNode s x none).Avoids z := freshNode_avoids h x (some_ne_none z).symm
  have hp : parent ≠ some z := rbSeek_avoids h0 (some_ne_none z).symm h0.root h1
  have h3 := freshNode_avoids h0 x hp
  apply rbInsertFixup_avoids ?_ hx h2
  cases parent with
  | none => exact ⟨hxz, h3.parent, h3.child⟩
  | some p =>
    show Store.Avoids (if key < prio p then _ else _) z
    split_ifs
    · exact h3.setChild .left p hxz
    · exact h3.setChild .right p hxz

theorem removeEnd_avoids (x : K) : (removeEnd s x).Avoids z := by
  have hnone : (none : Option K) ≠ some z := (some_ne_none z).symm
  unfold removeEnd
  split
  · exact (((h.setColor _ .black).setChild .left x hnone).setChild .right x hnone).setParent x hnone
  · exact ((h.setChild .left x hnone).setChild .right x hnone).setParent x hnone

theorem removeSingle_avoids {v : Option K} (x : K) (hv : v ≠ some z) : (removeSingle s x v).Avoids z := by
  have h1 : (transplant s x v).Avoids z := h.graft .left _ x hv
  exact h1.reparent v (h1.parent x)

theorem detach_avoids (hy : y ≠ z) (hr : detach s x y = some s') : s'.Avoids z := by
  unfold detach at hr
  split_ifs at hr
  · cases hr
    exact h
  obtain ⟨yp, hyp, rfl⟩ := map_eq_some_iff.1 hr
  have hypz : some yp ≠ some z := hyp ▸ h.parent y
  have h1 := (h.reparent (s.node y).right hypz).setChild .left yp (h.child y .right)
  have h2 := h1.setChild .right y (h1.child x .right)
  exact h2.reparent _ fun e => hy (Option.some.inj e)

theorem succeed_avoids (x : K) (hy : y ≠ z) : (succeed s x y).Avoids z := by
  have hyz : some y ≠ some z := fun e => hy (Option.some.inj e)
  have h1 : (transplant s x (some y)).Avoids z := h.graft .left _ x hyz
  have h2 := h1.setParent y (h1.parent x)
  have h3 := h2.setChild .left y (h2.child x .left)
  exact (h3.reparent _ hyz).setColor y _

/-- **Removal** of any node. -/
theorem rbRemoveNode_avoids (hr : rbRemoveNode fuel s x = some s') : s'.Avoids z := by
  unfold rbRemoveNode at hr
  split at hr
  · cases hr
    exact removeEnd_avoids (removeSingle_avoids h x (h.child x .right)) x
  · rename_i l hleft _
    cases hr
    exact removeEnd_avoids (removeSingle_avoids h x (hleft ▸ h.child x .left)) x
  rename_i l r _ hright
  obtain ⟨y, h1, h2⟩ := bind_eq_some_iff.1 hr
  obtain ⟨s1, h3, h4⟩ := bind_eq_some_iff.1 h2
  have hy : y ≠ z := walkLeft_avoids h (ne_of_pointer (h.child x .right) hright) h1
  cases h4
  exact removeEnd_avoids (succeed_avoids (detach_avoids h hy h3) x hy) x

end

end Trees

/-! ## Run queues -/

/-- no link of a run queue leads to p -/
def Loose (s : St) (p : PcbId) : Prop := ∀ i : Slot, (s.store i).Avoids p

section Queues

variable {s s' : St} {p q : PcbId} {i : Slot}

section

variable (h : Loose s p) {victim : ℕ}
include h

theorem Loose.setTree {t : Store PcbId} (ht : t.Avoids p) (i : Slot) (n : ℕ) : Loose (s.setTree i t n) p := by
  intro j
  by_cases e : j = i
  · subst e
    rw [setTree_store_self]
    exact ht
  · rw [(setTree_ne _ _ _ _ _ e).1]
    exact ⟨(h j).root, ht.parent, ht.child⟩

/-- a change of PCBs that leaves the links alone -/
theorem Loose.setPcb (q : PcbId) (v : Pcb) : Loose (s.setPcb q v) p := h

theorem insertInto_loose (hq : q ≠ p) (hs : insertInto s q i = some s') : Loose s' p := by
  obtain ⟨t, ht, rfl⟩ := map_eq_some_iff.1 hs
  exact h.setTree (rbInsert_avoids (h i) hq ht) i _

theorem removeAt_loose (hs : removeAt s q i = some s') : Loose s' p := by
  obtain ⟨t, ht, rfl⟩ := map_eq_some_iff.1 hs
  exact h.setTree (rbRemoveNode_avoids (h i) ht) i _

/-- **Enqueue** of another process. -/
theorem schedEnqueue_loose (hq : q ≠ p) (hs : schedEnqueue s q = some s') : Loose s' p := by
  unfold schedEnqueue at hs
  simp only at hs
  split_ifs at hs
  exact insertInto_loose (h.setPcb q _) hq hs

/-- **Dequeue.** -/
theorem schedDequeue_loose {cpu : ℕ} (hs : schedDequeue s cpu = some (q, s')) :
    Loose s' p ∧ (q = (s.rq cpu).idlePcb ∨ q ≠ p) := by
  unfold schedDequeue at hs
  split at hs
  · cases hs
    exact ⟨h, Or.inl rfl⟩
  obtain ⟨r, h1, h2⟩ := bind_eq_some_iff.1 hs
  have hr := rbLeftmost_avoids (h _) h1
  cases r with
  | none =>
    cases h2
    exact ⟨h, Or.inl rfl⟩
  | some n =>
    obtain ⟨s1, h3, e⟩ := map_eq_some_iff.1 h2
    cases e
    exact ⟨removeAt_loose h h3, Or.inr fun e => hr (congrArg some e)⟩

theorem stealPick_loose {r : Option PcbId} (hs : stealPick s victim = some r) : r ≠ some p := by
  unfold stealPick at hs
  split_ifs at hs
  · exact rbLeftmost_avoids (h _) hs
  · exact rbLeftmost_avoids (h _) hs
  · cases hs
    exact (some_ne_none p).symm

theorem stealOne_loose (hq : q ≠ p) {this : ℕ} (hs : stealOne s victim this q = some s') : Loose s' p := by
  obtain ⟨s1, h1, h2⟩ := bind_eq_some_iff.1 hs
  exact insertInto_loose ((removeAt_loose h h1).setPcb q _) hq h2

/-- **Work stealing** moves other processes only. -/
theorem stealLoop_loose {this : ℕ} (hs : stealLoop s victim this n = some s') : Loose s' p := by
  induction n generalizing s with
  | zero =>
    cases hs
    exact h
  | succ n ih =>
    obtain ⟨r, h1, h2⟩ := bind_eq_some_iff.1 hs
    have hr := stealPick_loose h h1
    cases r with
    | none =>
      cases h2
      exact h
    | some q =>
      obtain ⟨s1, h3, h4⟩ := bind_eq_some_iff.1 h2
      exact ih (stealOne_loose h (fun e => hr (congrArg some e)) h3) h4

/-- the links of a node that are cleared -/
theorem Loose.clear (q : PcbId) (c : Color) : Loose { s with node := Function.update s.node q ⟨none, none, none, c⟩ } p := by
  intro i
  have hnone := (some_ne_none p).symm
  have hnode := (Function.forall_update_iff s.node (a := q) (b := ⟨none, none, none, c⟩) fun _ v => v.parent ≠ some p ∧
    ∀ d, v.child d ≠ some p).2 ⟨⟨hnone, fun d => by cases d <;> exact hnone⟩, fun k _ => ⟨(h i).parent k, (h i).child k⟩⟩
  exact ⟨(h i).root, fun k => (hnode k).1, fun k => (hnode k).2⟩

/-- only the nodes and the roots matter -/
theorem Loose.congr (hn : s'.node = s.node) (hr : ∀ c, (s'.rq c).root = (s.rq c).root) : Loose s' p := by
  intro i
  have e : s'.store i = s.store i := by
    rw [St.store, St.store, hn, hr]
  rw [e]
  exact h i

end

/-- after boot no run queue has a link -/
theorem boot_loose (b : BootArgs) (p : PcbId) : Loose (Kernel.boot b).st p := by
  have hnode : ∀ q, (schedInit St.zero b.cpuCount).node q = ⟨none, none, none, .black⟩ := by
    intro q
    cases q with
    | idle c => exact ite_self _
    | proc i | bootstrap => rfl
  have hroot : ∀ c cls, ((schedInit St.zero b.cpuCount).rq c).root cls = none := by
    intro c cls
    simp only [schedInit]
    split_ifs <;> rfl
  intro i
  refine ⟨?_, fun k => ?_, fun k d => ?_⟩
  · show ((schedInit St.zero _).rq i.1).root i.2 ≠ some p
    rw [hroot]
    exact (some_ne_none p).symm
  · show ((schedInit St.zero _).node k).parent ≠ some p
    rw [hnode]
    exact (some_ne_none p).symm
  · show ((schedInit St.zero _).node k).child d ≠ some p
    rw [hnode]
    cases d <;> exact (some_ne_none p).symm

end Queues

end OpenASD.Sched
