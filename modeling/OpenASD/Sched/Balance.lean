/-
The shape of a run-queue tree over time: any sequence of `rb_insert` and `rb_remove_node` from an empty tree, with any
changes of nodes outside it (those of the other trees) in between.

`rb_insert` repairs the tree, `rb_remove_node` leaves the repair out. So the tree need not stay a red-black tree:
- `remove_exact`: after any such sequence, the removal of any linked node takes out that node and no other;
- `balanced_while_light`: the red-black conditions hold in every state of every run that only removes nodes whose place
  is given up by a red node, or the root with at most one child; and any other removal from such a state breaks them.
-/
import OpenASD.Sched.RunQueue

namespace OpenASD.Sched

open LinkedTree
open List (append_assoc length_append length_cons nodup_append range)
open Function (update update_of_ne update_self)

/-! ## Removal without repair -/

section Cuts

variable {K : Type} [DecidableEq K] {col col' : K → Color} {c : Ctx K} {l r t T : KTree K} {z : K}

/-- the node whose place in the tree is given up when z is removed -/
def takenKey (l : KTree K) (z : K) (r : KTree K) : K :=
  match l, r with
  | .nil, _ => z
  | _, .nil => z
  | _, r => r.keys.head?.getD z

omit [DecidableEq K] in
theorem rootColor_plug_black {f : Frame K} (t' : KTree K) (h : rootColor col (plug (f :: c) t) = .black) :
    rootColor col (plug (f :: c) t') = .black := (rootColor_plug (List.cons_ne_nil f c) fun _ _ => rfl).trans h

/-- z has at most the child t -/
theorem redBlack_single {d : Side} (h : RedBlack col (plug c (.fork d t z .nil)))
    (hn : (plug c (.fork d t z .nil)).keys.Nodup) :
    RedBlack (blacken col (plug c t)) (plug c t) ↔ col z = .red ∨ c = [] := by
  obtain ⟨hctx, hcalm⟩ := calm_plug.1 h.calm
  obtain ⟨hz, ht, -⟩ := calm_fork.1 hcalm
  obtain ⟨n, hp⟩ := h.even
  obtain ⟨m, hm, hfill⟩ := paths_plug hp
  obtain ⟨i, hi, pt, -⟩ := paths_fork.1 hm
  rcases c with _ | ⟨f, c⟩
  · -- the child becomes the root
    have hnt : t.keys.Nodup := by
      have hd := (KTree.keys_fork_perm d t z .nil).nodup_iff.1 hn
      exact (nodup_append.1 (List.nodup_cons.1 hd).2).1
    exact iff_of_true (redBlack_blacken hnt ht ⟨i, pt⟩) (.inr rfl)
  have hroot := rootColor_plug_black t h.root
  rw [blacken_of_black hroot]
  cases hcol : col z with
  | red =>
    refine iff_of_true ⟨hroot, calm_plug.2 ⟨?_, ht⟩, n, hfill (fun _ _ => rfl) ?_⟩ (.inl rfl)
    · rw [(hz hcol).1]
      exact hctx.black
    · rw [hi, weight_red hcol]
      exact pt
  | black =>
    -- the path through t is one black node short
    refine iff_of_false (fun h' => ?_) (by simp)
    obtain ⟨n', hp'⟩ := h'.even
    obtain ⟨j, pj, psib⟩ := paths_sib hp
    obtain ⟨j', pj', psib'⟩ := paths_sib hp'
    rw [weight_black hcol] at hi
    have e1 := pj.unique hm
    have e2 := pj'.unique pt
    have e3 := psib.unique psib'
    omega

/-- z has two children: y, the first of the right ones, moves to the place of z -/
theorem redBlack_both {cl : Ctx K} {y : K} {b : KTree K} (h : RedBlack col (plug c (.node l z (plug cl (.node .nil y b)))))
    (hn : (plug c (.node l z (plug cl (.node .nil y b)))).keys.Nodup) :
    RedBlack (blacken (update col y (col z)) (plug c (.node l y (plug cl b)))) (plug c (.node l y (plug cl b))) ↔
      col y = .red := by
  -- y occurs once
  have hperm : (plug c (.node l z (plug cl (.node .nil y b)))).keys.Perm
      ((z :: (l.keys ++ ((y :: b.keys) ++ cl.keys))) ++ c.keys) := by
    refine (keys_plug_perm c _).trans (List.Perm.append_right c.keys (List.perm_middle.trans (List.Perm.cons z ?_)))
    exact List.Perm.append_left l.keys (keys_plug_perm cl (.node .nil y b))
  have hd := hperm.nodup_iff.1 hn
  simp only [List.cons_append, append_assoc, List.nodup_cons, nodup_append, List.mem_append, List.mem_cons,
    not_or] at hd
  obtain ⟨-, -, ⟨⟨hyb, hycl, hyc⟩, -⟩, hly⟩ := hd
  have hyl : y ∉ l.keys := fun hy => hly y hy y (.inl rfl) rfl
  generalize hcol1 : update col y (col z) = col1
  have hsame : ∀ {L : List K}, y ∉ L → ∀ k ∈ L, col1 k = col k := by
    intro L hL k hk
    have hky : k ≠ y := fun e => hL (e ▸ hk)
    rw [← hcol1, update_of_ne hky]
  have hy1 : col1 y = col z := by rw [← hcol1, update_self]
  have hw : weight col1 y = weight col z := by rw [weight, weight, hy1]
  -- the root is black before and after
  have hroot : rootColor col1 (plug c (.node l y (plug cl b))) = .black := by
    by_cases hc : c = []
    · subst hc
      exact hy1.trans h.root
    · exact (rootColor_plug hc (hsame hyc)).trans h.root
  rw [blacken_of_black hroot]
  obtain ⟨hctx, hcalm⟩ := calm_plug.1 h.calm
  obtain ⟨hzk, hl, hr⟩ := hcalm
  obtain ⟨hcl, hyk, -, hb⟩ := calm_plug.1 hr
  obtain ⟨n, hp⟩ := h.even
  obtain ⟨m, hm, hfill⟩ := paths_plug hp
  obtain ⟨i, hi, pl, pr⟩ := paths_node.1 hm
  obtain ⟨j, pj, hfill'⟩ := paths_plug pr
  obtain ⟨q, hq, pnil, pb⟩ := paths_node.1 pj
  cases hcol : col y with
  | red =>
    have hbb : rootColor col1 b = .black := (rootColor_congr (hsame hyb)).trans (hyk hcol).2
    refine iff_of_true ⟨hroot, calm_plug.2 ⟨?_, ⟨fun e => ⟨?_, ?_⟩, hl.congr (hsame hyl), calm_plug.2 ⟨?_, ?_⟩⟩⟩, n, ?_⟩ rfl
    · show CalmCtx col1 c (col1 y)
      rw [hy1]
      exact hctx.congr (hsame hyc)
    · rw [rootColor_congr (hsame hyl)]
      exact (hzk (hy1.symm.trans e)).1
    · by_cases hne : cl = []
      · subst hne
        exact hbb
      · exact (rootColor_plug hne (hsame hycl)).trans (hzk (hy1.symm.trans e)).2
    · rw [hbb]
      exact hcl.black.congr (hsame hycl)
    · exact hb.congr (hsame hyb)
    refine hfill (hsame hyc) (paths_node.2 ⟨i, ?_, pl.congr (hsame hyl), hfill' (hsame hycl) ?_⟩)
    · rw [hw]
      exact hi
    · rw [hq, weight_red hcol]
      exact pb.congr (hsame hyb)
  | black =>
    -- the path through b is one black node short
    refine iff_of_false (fun h' => ?_) (by decide)
    obtain ⟨n', hp'⟩ := h'.even
    obtain ⟨m', hm', -⟩ := paths_plug hp'
    obtain ⟨i', -, pl', pr'⟩ := paths_node.1 hm'
    rw [weight_black hcol] at hq
    have hb1 := pb.congr (hsame hyb)
    rcases cl with _ | ⟨f, cl⟩
    · have e1 := (pl.congr (hsame hyl)).unique pl'
      have e2 := pr'.unique hb1
      have e3 := pj.unique pr
      omega
    obtain ⟨u, pu, psib⟩ := paths_sib pr
    obtain ⟨u', pu', psib'⟩ := paths_sib pr'
    have hsib : y ∉ f.sib.keys := fun hy => hycl (List.mem_cons_of_mem _ (List.mem_append_left _ hy))
    have e1 := (psib.congr (hsame hsib)).unique psib'
    have e2 := pu'.unique hb1
    have e3 := pu.unique pj
    omega

/-- **Removal without repair.** The red-black conditions survive exactly if the place given up was that of a red node, or
the root had at most one child. -/
theorem Cuts.redBlack_iff (h : Cuts col c z l r col' T) (h0 : RedBlack col (plug c (.node l z r)))
    (hn : (plug c (.node l z r)).keys.Nodup) :
    RedBlack col' T ↔ col (takenKey l z r) = .red ∨ (c = [] ∧ (l = .nil ∨ r = .nil)) := by
  cases h with
  | right =>
    refine (redBlack_single (d := .right) h0 hn).trans ?_
    simp [takenKey]
  | left =>
    refine (redBlack_single (d := .left) h0 hn).trans ?_
    cases l <;> simp [takenKey]
  | @both l cl y b hl hcl =>
    refine (redBlack_both h0 hn).trans ?_
    have hkeys : (plug cl (.node .nil y b)).keys.head? = some y := by
      rw [keys_plug, before_of_left hcl]
      rfl
    have hr : plug cl (.node .nil y b) ≠ .nil := by
      intro e
      rw [e] at hkeys
      cases hkeys
    have htaken : takenKey l z (plug cl (.node .nil y b)) = y := by
      rcases l with _ | ⟨l1, k, l2⟩
      · exact absurd rfl hl
      rcases hp : plug cl (.node .nil y b) with _ | ⟨r1, k', r2⟩
      · exact absurd hp hr
      rw [hp] at hkeys
      show (KTree.node r1 k' r2).keys.head?.getD z = y
      rw [hkeys]
      rfl
    rw [htaken]
    simp [hl, hr]

end Cuts

/-! ## Runs -/

/-- the nodes of a tree from left to right, read off the links -/
def inOrderFrom (s : Store PcbId) : ℕ → Option PcbId → List PcbId
  | 0, _ => []
  | _ + 1, none => []
  | n + 1, some k => inOrderFrom s n (s.node k).left ++ k :: inOrderFrom s n (s.node k).right

variable (s : Store PcbId)

def inOrder : List PcbId := inOrderFrom s rbFuel s.root

inductive TreeOp where
  /-- `rb_insert`, with the priorities that the PCBs have at this time -/
  | insert (z : PcbId) (key : ℤ) (prio : PcbId → ℤ)
  | remove (z : PcbId)
  /-- a node outside the tree changes -/
  | outside (z : PcbId) (v : Node PcbId)

/-- only nodes that are not linked are inserted, only linked ones are removed -/
def treeStep : TreeOp → Option (Store PcbId)
  | .insert z key prio => if z ∈ inOrder s then none else rbInsert rbFuel prio s z key
  | .remove z => if z ∈ inOrder s then rbRemoveNode rbFuel s z else none
  | .outside z v => if z ∈ inOrder s then none else some { s with node := update s.node z v }

def treeRun (s : Store PcbId) : List TreeOp → Option (Store PcbId)
  | [] => some s
  | o :: ops => (treeStep s o).bind fun s' => treeRun s' ops

variable {o : TreeOp}

section Runs

variable {s s' : Store PcbId} {T : KTree PcbId} {z : PcbId}

theorem inOrderFrom_eq {par : Option PcbId} {t : KTree PcbId} {n : ℕ} (h : Rep s.node par t)
    (hn : t.keys.length < n) : inOrderFrom s n t.root = t.keys := by
  induction t generalizing par n with
  | nil =>
    cases n with
    | zero => cases hn
    | succ n => rfl
  | node l k r ihl ihr =>
    obtain ⟨-, hl, hr, hll, hrr⟩ := h
    rw [KTree.keys, length_append, length_cons] at hn
    cases n with
    | zero => cases hn
    | succ n =>
      rw [KTree.root, inOrderFrom, hl, hr, ihl hll (by omega), ihr hrr (by omega)]
      rfl

section

variable (h : Is s T)
include h

theorem Is.size_le : T.keys.length ≤ 4161 := length_le_of_nodup h.nodup

theorem Is.inOrder_eq : inOrder s = T.keys := by
  rw [inOrder, h.root]
  exact inOrderFrom_eq h.rep (Nat.lt_of_le_of_lt (Is.size_le h) (by decide))

/-- inserting always works -/
theorem Is.insert (hz : z ∉ T.keys) (key : ℤ) (prio : PcbId → ℤ) :
    ∃ s' c T', rbInsert rbFuel prio s z key = some s' ∧ plug c .nil = T ∧ Is s' T' ∧
      Settles (update s.color z .red) c (.node .nil z .nil) s'.color T' := by
  have hsize := Is.size_le h
  have hfuel : T.keys.length + 2 ≤ rbFuel := by
    rw [rbFuel]
    omega
  obtain ⟨s', c, T', h1, h2, h3, h4, -⟩ := rbInsert_settles prio key h hz hfuel
  exact ⟨s', c, T', h1, h2, h3, h4⟩

/-- so does removing -/
theorem Is.remove (hz : z ∈ T.keys) : ∃ s' c l r T', T = plug c (.node l z r) ∧
    rbRemoveNode rbFuel s z = some s' ∧ CutOut s s' c l z r T' := by
  obtain ⟨c, l, r, rfl⟩ := exists_focus hz
  obtain ⟨s', T', h1, h2⟩ := rbRemoveNode_cuts (is_plug.1 h) (right_le h)
  exact ⟨s', c, l, r, T', rfl, h1, h2⟩

/-- what one step can do -/
theorem treeStep_cases (hs : treeStep s o = some s') :
    (∃ z key prio c T', o = .insert z key prio ∧ z ∉ T.keys ∧ plug c .nil = T ∧ Is s' T' ∧
      Settles (update s.color z .red) c (.node .nil z .nil) s'.color T') ∨
    (∃ z c l r T', o = .remove z ∧ T = plug c (.node l z r) ∧ CutOut s s' c l z r T') ∨
    ∃ z v, o = .outside z v ∧ z ∉ T.keys ∧ s' = { s with node := update s.node z v } := by
  cases o with
  | insert z key prio =>
    rw [treeStep, Is.inOrder_eq h] at hs
    split_ifs at hs with hz
    obtain ⟨s1, c, T', h1, h2, h3, h4⟩ := Is.insert h hz key prio
    cases h1.symm.trans hs
    exact .inl ⟨z, key, prio, c, T', rfl, hz, h2, h3, h4⟩
  | remove z =>
    rw [treeStep, Is.inOrder_eq h] at hs
    split_ifs at hs with hz
    obtain ⟨s1, c, l, r, T', h1, h2, h3⟩ := Is.remove h hz
    cases h2.symm.trans hs
    exact .inr (.inl ⟨z, c, l, r, T', rfl, h1, h3⟩)
  | outside z v =>
    rw [treeStep, Is.inOrder_eq h] at hs
    split_ifs at hs with hz
    cases hs
    exact .inr (.inr ⟨z, v, rfl, hz, rfl⟩)

theorem Is.outside (hz : z ∉ T.keys) (v : Node PcbId) : Is { s with node := update s.node z v } T :=
  h.congr rfl fun k hk => update_of_ne (fun e : k = z => hz (e ▸ hk)) _ _

theorem treeStep_is (hs : treeStep s o = some s') : ∃ T', Is s' T' := by
  rcases treeStep_cases h hs with ⟨z, key, prio, c, T', -, -, -, h1, -⟩ | ⟨z, c, l, r, T', -, -, h1⟩ | ⟨z, v, -, hz, rfl⟩
  · exact ⟨T', h1⟩
  · exact ⟨T', h1.is⟩
  · exact ⟨T, Is.outside h hz v⟩

theorem treeRun_is {ops : List TreeOp} (hr : treeRun s ops = some s') : ∃ T', Is s' T' := by
  induction ops generalizing s T with
  | nil =>
    cases hr
    exact ⟨T, h⟩
  | cons o ops ih =>
    obtain ⟨s1, h1, h2⟩ := Option.bind_eq_some_iff.1 hr
    obtain ⟨T1, hT⟩ := treeStep_is h h1
    exact ih hT h2

end

theorem is_empty (n : PcbId → Node PcbId) : Is (⟨n, none⟩ : Store PcbId) .nil := ⟨trivial, rfl, List.nodup_nil⟩

end Runs

/-- z and no other node is out of the tree -/
structure Exactly (s s' : Store PcbId) (z : PcbId) : Prop where
  order : inOrder s' = (inOrder s).erase z
  /-- every linked node points to its children, and they point back to it; the root has no parent -/
  links : ∃ T, Is s' T
  cleared : (s'.node z).parent = none ∧ (s'.node z).left = none ∧ (s'.node z).right = none
  other : ∀ k, k ∉ inOrder s → s'.node k = s.node k

/-- **Removal is exact.** In every state of every run, any linked node can be removed, and it alone goes. -/
theorem remove_exact (n : PcbId → Node PcbId) {ops : List TreeOp} {s : Store PcbId}
    (hr : treeRun ⟨n, none⟩ ops = some s) {z : PcbId} (hz : z ∈ inOrder s) :
    ∃ s', rbRemoveNode rbFuel s z = some s' ∧ Exactly s s' z := by
  obtain ⟨T, h⟩ := treeRun_is (is_empty n) hr
  rw [Is.inOrder_eq h] at hz
  obtain ⟨s', c, l, r, T', hT, h1, h2⟩ := Is.remove h hz
  have herase : T'.keys = T.keys.erase z := by
    subst hT
    exact h2.keys h.nodup
  refine ⟨s', h1, ?_, ⟨T', h2.is⟩, ⟨h2.parent, h2.child .left, h2.child .right⟩, fun k hk => h2.other k ?_ ?_⟩
  · rw [Is.inOrder_eq h, Is.inOrder_eq h2.is, herase]
  · rintro rfl
    rw [Is.inOrder_eq h] at hk
    exact hk hz
  · rw [Is.inOrder_eq h] at hk
    rw [herase]
    exact fun hm => hk (List.mem_of_mem_erase hm)

def procAt (i : ℕ) : PcbId := .proc ⟨i % maxProcs, Nat.mod_lt i (by decide)⟩

/-- insertions of processes whose priorities are their numbers -/
def insertions (l : List ℕ) : List TreeOp := l.map fun i => .insert (procAt i) i fun k => k.code

/-- before the first insertion -/
def emptyTree : Store PcbId := ⟨fun _ => ⟨none, none, none, .black⟩, none⟩

/-- five nodes; the root, whose successor is not its child, is removed -/
theorem remove_exact_root : ∃ s s' : Store PcbId, ∃ z, z ∈ inOrder s ∧ s.root = some z ∧
    rbRemoveNode rbFuel s z = some s' ∧ Exactly s s' z := by
  have hrun : (treeRun emptyTree (insertions [1, 2, 4, 5, 3])).map (fun s => (inOrder s, s.root)) =
      some ([1, 2, 3, 4, 5].map procAt, some (procAt 2)) := rfl
  obtain ⟨s, hs, he⟩ := Option.map_eq_some_iff.1 hrun
  obtain ⟨he1, he2⟩ := Prod.mk.inj he
  have hz : procAt 2 ∈ inOrder s := by
    rw [he1]
    exact List.mem_map_of_mem (by decide)
  obtain ⟨s', h1, h2⟩ := remove_exact _ hs hz
  exact ⟨s, s', procAt 2, hz, he2, h1, h2⟩

/-! ## Balance -/

/-- the links spell out a red-black tree; its height is at most 2 log₂ (n + 1) -/
def Balanced : Prop :=
  ∃ T, Is s T ∧ RedBlack s.color T ∧ 2 ^ T.height ≤ (T.keys.length + 1) ^ 2

/-- the node whose place is given up when z is removed: z itself, or its successor if z has two children -/
def taken (z : PcbId) : PcbId :=
  match (s.node z).left, (s.node z).right with
  | some _, some r => (walkLeft s rbFuel r).getD z
  | _, _ => z

/-- a removal that needs no repair: the place given up is that of a red node, or z is the root with at most one child -/
def Light (z : PcbId) : Prop :=
  s.color (taken s z) = .red ∨ ((s.node z).parent = none ∧ ((s.node z).left = none ∨ (s.node z).right = none))

instance (s : Store PcbId) (z : PcbId) : Decidable (Light s z) := inferInstanceAs (Decidable (_ ∨ (_ ∧ (_ ∨ _))))

def LightOp : TreeOp → Prop
  | .remove z => Light s z
  | _ => True

instance (s : Store PcbId) (o : TreeOp) : Decidable (LightOp s o) :=
  match o with
  | .remove z => inferInstanceAs (Decidable (Light s z))
  | .insert _ _ _ => .isTrue trivial
  | .outside _ _ => .isTrue trivial

/-- all removals of a run need no repair -/
def LightRun (s : Store PcbId) : List TreeOp → Prop
  | [] => True
  | o :: ops => LightOp s o ∧ match treeStep s o with
    | none => True
    | some s' => LightRun s' ops

instance decidableLightRun : (s : Store PcbId) → (ops : List TreeOp) → Decidable (LightRun s ops)
  | _, [] => .isTrue trivial
  | s, o :: ops =>
    have : Decidable (match treeStep s o with
      | none => True
      | some s' => LightRun s' ops) :=
      match treeStep s o with
      | none => .isTrue trivial
      | some s' => decidableLightRun s' ops
    inferInstanceAs (Decidable (_ ∧ _))

section Balance

variable {s s' : Store PcbId} {T : KTree PcbId} {c : Ctx PcbId} {l r : KTree PcbId} {z : PcbId}

/-- two trees with the same links are the same -/
theorem Rep.unique {n : PcbId → Node PcbId} {par par' : Option PcbId} {t t' : KTree PcbId} (h : Rep n par t)
    (h' : Rep n par' t') (hroot : t.root = t'.root) : t = t' := by
  induction t generalizing par par' t' with
  | nil => exact (KTree.root_none hroot.symm).symm
  | node l k r ihl ihr =>
    cases t' with
    | nil => cases hroot
    | node l' k' r' =>
      cases hroot
      obtain ⟨-, hl, hr, hll, hrr⟩ := h
      obtain ⟨-, hl', hr', hll', hrr'⟩ := h'
      rw [ihl hll hll' (hl.symm.trans hl'), ihr hrr hrr' (hr.symm.trans hr')]

theorem balanced_iff (h : Is s T) : Balanced s ↔ RedBlack s.color T := by
  constructor
  · rintro ⟨T', h', hb, -⟩
    rw [Rep.unique h.rep h'.rep (h.root.symm.trans h'.root)]
    exact hb
  · intro hb
    exact ⟨T, h, hb, hb.height_le⟩

theorem taken_eq (h : Holds s c (.node l z r)) : taken s z = takenKey l z r := by
  obtain ⟨-, hl, hr, -, hrr⟩ := h.sub
  rw [taken, hl, hr]
  rcases l with _ | ⟨l1, k, l2⟩
  · rfl
  rcases r with _ | ⟨r1, j, r2⟩
  · rfl
  -- the leftmost node on the right is the first key there
  obtain ⟨cl, y, b, hw, he, hcl⟩ := walkLeft_spec hrr rfl (right_le (is_plug.2 h))
  show (walkLeft s rbFuel j).getD z = (KTree.node r1 j r2).keys.head?.getD z
  rw [hw, he, keys_plug, before_of_left hcl]
  rfl

theorem light_iff (h : Holds s c (.node l z r)) :
    Light s z ↔ s.color (takenKey l z r) = .red ∨ (c = [] ∧ (l = .nil ∨ r = .nil)) := by
  obtain ⟨hp, hl, hr, -⟩ := h.sub
  have hnil : ∀ t : KTree PcbId, t.root = none ↔ t = .nil := fun t =>
    ⟨KTree.root_none, fun e => by rw [e]; rfl⟩
  have hpar : c.parent = none ↔ c = [] := by
    cases c <;> simp [Ctx.parent]
  rw [Light, taken_eq h, hp, hl, hr, hnil, hnil, hpar]

/-- **One removal.** From a red-black tree, a removal leaves a red-black tree exactly if it needs no repair. -/
theorem CutOut.balanced_iff {T' : KTree PcbId} (h : Is s (plug c (.node l z r))) (hb : RedBlack s.color (plug c (.node l z r)))
    (hcut : CutOut s s' c l z r T') : Balanced s' ↔ Light s z := by
  rw [Sched.balanced_iff hcut.is, light_iff (is_plug.1 h)]
  exact hcut.cuts.redBlack_iff hb h.nodup

/-- an insertion repairs what it breaks -/
theorem Settles.balanced {T' : KTree PcbId} (hb : RedBlack s.color (plug c .nil))
    (hz : z ∉ (plug c .nil).keys) (h' : Is s' T')
    (hset : Settles (update s.color z .red) c (.node .nil z .nil) s'.color T') : RedBlack s'.color T' := by
  have hzc : z ∉ c.keys := fun hk => hz (mem_plug.2 (.inr hk))
  have hsame : ∀ k ∈ c.keys, update s.color z .red k = s.color k := fun k hk =>
    update_of_ne (fun e : k = z => hzc (e ▸ hk)) _ _
  have hred : update s.color z .red z = .red := update_self _ _ _
  obtain ⟨hctx, -⟩ := calm_plug.1 hb.calm
  obtain ⟨n, hp⟩ := hb.even
  obtain ⟨m, hm, hfill⟩ := paths_plug hp
  have hn : (plug c (.node .nil z .nil)).keys.Nodup := by
    rw [← hset.keys]
    exact h'.nodup
  refine hset.redBlack hn ⟨hred, ⟨fun _ => ⟨rfl, rfl⟩, trivial, trivial⟩, hctx.congr hsame, fun hne => ?_, n, hfill hsame ?_⟩
  · exact (rootColor_plug hne hsame).trans hb.root
  · rw [paths_nil.1 hm]
    exact paths_node.2 ⟨0, by rw [weight_red hred], paths_nil.2 rfl, paths_nil.2 rfl⟩

theorem treeStep_balanced (h : Is s T) (hb : RedBlack s.color T) (hl : LightOp s o)
    (hs : treeStep s o = some s') : ∃ T', Is s' T' ∧ RedBlack s'.color T' := by
  rcases treeStep_cases h hs with ⟨z, key, prio, c, T', -, hz, rfl, h1, h2⟩ | ⟨z, c, l, r, T', ho, rfl, h1⟩ |
    ⟨z, v, -, hz, rfl⟩
  · exact ⟨T', h1, Settles.balanced hb hz h1 h2⟩
  · subst ho
    exact ⟨T', h1.is, (Sched.balanced_iff h1.is).1 ((CutOut.balanced_iff h hb h1).2 hl)⟩
  have hsame : ∀ k ∈ T.keys, Store.color { s with node := update s.node z v } k = s.color k := fun k hk =>
    congrArg Node.color (update_of_ne (fun e : k = z => hz (e ▸ hk)) _ _)
  obtain ⟨n, hp⟩ := hb.even
  refine ⟨T, Is.outside h hz v, ?_, hb.calm.congr hsame, n, hp.congr hsame⟩
  exact (rootColor_congr hsame).trans hb.root

theorem treeRun_balanced {ops : List TreeOp} (h : Is s T) (hb : RedBlack s.color T) (hl : LightRun s ops)
    (hr : treeRun s ops = some s') : ∃ T', Is s' T' ∧ RedBlack s'.color T' := by
  induction ops generalizing s T with
  | nil =>
    cases hr
    exact ⟨T, h, hb⟩
  | cons o ops ih =>
    obtain ⟨s1, h1, h2⟩ := Option.bind_eq_some_iff.1 hr
    obtain ⟨T1, hT, hb1⟩ := treeStep_balanced h hb hl.1 h1
    have hl2 := hl.2
    rw [h1] at hl2
    exact ih hT hb1 hl2 h2

theorem redBlack_empty (col : PcbId → Color) : RedBlack col .nil := ⟨rfl, trivial, 0, paths_nil.2 rfl⟩

end Balance

/-- **Balance.** As long as no removal needs a repair, the tree is a red-black tree in every state. A removal that needs
one, from any such state, leaves a tree that is not. -/
theorem balanced_while_light (n : PcbId → Node PcbId) {ops : List TreeOp} {s : Store PcbId}
    (hr : treeRun ⟨n, none⟩ ops = some s) (hl : LightRun ⟨n, none⟩ ops) :
    Balanced s ∧ ∀ z ∈ inOrder s, ∃ s', rbRemoveNode rbFuel s z = some s' ∧ (Balanced s' ↔ Light s z) := by
  obtain ⟨T, h, hb⟩ := treeRun_balanced (is_empty n) (redBlack_empty _) hl hr
  refine ⟨(balanced_iff h).2 hb, fun z hz => ?_⟩
  rw [Is.inOrder_eq h] at hz
  obtain ⟨s', c, l, r, T', rfl, h1, h2⟩ := Is.remove h hz
  exact ⟨s', h1, CutOut.balanced_iff h hb h2⟩

/-- four nodes, and the last of them, a red leaf, is removed -/
theorem balanced_while_light_four : ∃ s, treeRun emptyTree (insertions [1, 2, 3, 4] ++ [.remove (procAt 4)]) = some s ∧
    LightRun emptyTree (insertions [1, 2, 3, 4] ++ [.remove (procAt 4)]) ∧ Balanced s := by
  have hrun : (treeRun emptyTree (insertions [1, 2, 3, 4] ++ [.remove (procAt 4)])).map inOrder =
      some ([1, 2, 3].map procAt) := rfl
  have hlight : LightRun emptyTree (insertions [1, 2, 3, 4] ++ [.remove (procAt 4)]) := of_decide_eq_true rfl
  obtain ⟨s, hs, -⟩ := Option.map_eq_some_iff.1 hrun
  exact ⟨s, hs, hlight, (balanced_while_light _ hs hlight).1⟩

/-- fourteen nodes are inserted and eight removed; the six that are left form a chain of alternating colours -/
theorem chain_left : ∃ s T, treeRun emptyTree (insertions (range 14) ++
      [0, 2, 1, 4, 6, 5, 8, 10].map fun i => .remove (procAt i)) = some s ∧ Is s T ∧ ¬ RedBlack s.color T ∧
    (T.keys.length + 1) ^ 2 < 2 ^ T.height := by
  let q : ℕ → Option PcbId := fun i => some (procAt i)
  have hrun : (treeRun emptyTree (insertions (range 14) ++
      [0, 2, 1, 4, 6, 5, 8, 10].map fun i => .remove (procAt i))).map
        (fun s => (s.root, [3, 7, 9, 11, 12, 13].map fun i => s.node (procAt i))) =
      some (q 3, [⟨none, none, q 7, .black⟩, ⟨q 3, none, q 9, .red⟩, ⟨q 7, none, q 11, .black⟩, ⟨q 9, none, q 12, .red⟩,
        ⟨q 11, none, q 13, .black⟩, ⟨q 12, none, none, .red⟩]) := rfl
  obtain ⟨s, hs, he⟩ := Option.map_eq_some_iff.1 hrun
  simp only [Prod.mk.injEq, List.map_cons, List.map_nil, List.cons.injEq, and_true] at he
  obtain ⟨h0, h3, h7, h9, h11, h12, h13⟩ := he
  let T : KTree PcbId := .node .nil (procAt 3) (.node .nil (procAt 7) (.node .nil (procAt 9) (.node .nil (procAt 11)
    (.node .nil (procAt 12) (.node .nil (procAt 13) .nil)))))
  refine ⟨s, T, hs, ⟨?_, h0, by decide⟩, fun hb => ?_, by decide⟩
  · simp only [T, LinkedTree.Rep, h3, h7, h9, h11, h12, h13, KTree.root, and_self, q]
  -- the left child of the root is missing, the path to the right has three black nodes
  obtain ⟨n, hp⟩ := hb.even
  have hw : ∀ i, weight s.color (procAt i) = if (s.node (procAt i)).color = .black then 1 else 0 := fun i => rfl
  simp only [T, Paths, blackCounts, hw, h3, h7, h9, h11, h12, h13] at hp
  have h1 := hp 1 (by decide)
  have h3 := hp 3 (by decide)
  omega

end OpenASD.Sched
