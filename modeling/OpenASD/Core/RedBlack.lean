/-
Red-black trees, as coloured trees: the keys of a tree carry colours, NULL is black.

`RedBlack col t` has the three conditions: the root is black, no red node has a red child, every path to a leaf has the
same number of black nodes. Such a tree is low (`RedBlack.height_le`).

A tree with a hole keeps the conditions when the hole is filled with a tree of the same black height whose root is
black (`calm_plug`, `paths_plug`). So a change at one place is checked at that place.

`Settles` is the repair after an insertion, on trees: from a red node at a position upwards, one constructor for each
way in which a round can go. It keeps the order of the keys (`Settles.keys`), and from a tree whose only fault is a red
parent above the position it ends with a red-black tree (`Settles.redBlack`).
-/
import OpenASD.Core.LinkedTree

namespace OpenASD.LinkedTree

open Function (update update_apply update_of_ne update_self)
open List (cons_ne_nil mem_append mem_append_left mem_append_right mem_cons mem_cons_of_mem mem_cons_self mem_map
  nodup_cons)

variable {K : Type}

/-! ## The conditions -/

variable (col : K → Color)

def rootColor : KTree K → Color
  | .nil => .black
  | .node _ k _ => col k

/-- no red node has a red child -/
def Calm (col : K → Color) : KTree K → Prop
  | .nil => True
  | .node l k r => (col k = .red → rootColor col l = .black ∧ rootColor col r = .black) ∧ Calm col l ∧ Calm col r

/-- what a node adds to the number of black nodes -/
def weight (k : K) : ℕ := if col k = .black then 1 else 0

variable {k : K} {d : Side} {b : KTree K} {c : Ctx K} {f : Frame K}

theorem weight_black {col : K → Color} (h : col k = .black) : weight col k = 1 := if_pos h

theorem ne_red {col : K → Color} (h : col k = .black) : col k ≠ .red := by
  rw [h]
  decide

theorem weight_red {col : K → Color} (h : col k = .red) : weight col k = 0 := by
  rw [weight, h]
  exact if_neg (by decide)

/-- the number of black nodes on each path to a leaf -/
def blackCounts (col : K → Color) : KTree K → List ℕ
  | .nil => [0]
  | .node l k r => (blackCounts col l ++ blackCounts col r).map (· + weight col k)

/-- every path to a leaf has n black nodes -/
def Paths (t : KTree K) (n : ℕ) : Prop := ∀ m ∈ blackCounts col t, m = n

structure RedBlack (col : K → Color) (t : KTree K) : Prop where
  root : rootColor col t = .black
  calm : Calm col t
  even : ∃ n, Paths col t n

def KTree.height : KTree K → ℕ
  | .nil => 0
  | .node l _ r => max l.height r.height + 1

/-! ## Paths -/

section Paths

variable {col col' : K → Color} {t t' : KTree K} {n m : ℕ}

theorem blackCounts_ne_nil (col : K → Color) (t : KTree K) : blackCounts col t ≠ [] := by
  induction t with
  | nil => exact cons_ne_nil _ _
  | node l k r ihl _ =>
    intro h
    exact ihl (List.append_eq_nil_iff.1 (List.map_eq_nil_iff.1 h)).1

theorem Paths.unique (h : Paths col t n) (h' : Paths col t m) : n = m := by
  obtain ⟨i, hi⟩ := List.exists_mem_of_ne_nil _ (blackCounts_ne_nil col t)
  rw [← h i hi, ← h' i hi]

theorem paths_nil : Paths col .nil n ↔ n = 0 := by
  simp [Paths, blackCounts, eq_comm]

theorem paths_node {l r : KTree K} :
    Paths col (.node l k r) n ↔ ∃ m, n = m + weight col k ∧ Paths col l m ∧ Paths col r m := by
  constructor
  · intro h
    obtain ⟨m, hm⟩ := List.exists_mem_of_ne_nil _ (blackCounts_ne_nil col l)
    have hall : ∀ i ∈ blackCounts col l ++ blackCounts col r, i + weight col k = n := fun i hi =>
      h _ (mem_map.2 ⟨i, hi, rfl⟩)
    have hn := hall m (mem_append_left _ hm)
    refine ⟨m, hn.symm, fun i hi => ?_, fun i hi => ?_⟩
    · exact Nat.add_right_cancel ((hall i (mem_append_left _ hi)).trans hn.symm)
    · exact Nat.add_right_cancel ((hall i (mem_append_right _ hi)).trans hn.symm)
  · rintro ⟨m, rfl, hl, hr⟩ i hi
    obtain ⟨j, hj, rfl⟩ := mem_map.1 hi
    rcases mem_append.1 hj with hj | hj
    · rw [hl j hj]
    · rw [hr j hj]

theorem paths_fork {a : KTree K} :
    Paths col (.fork d a k b) n ↔ ∃ m, n = m + weight col k ∧ Paths col a m ∧ Paths col b m := by
  cases d with
  | left => exact paths_node
  | right =>
    refine paths_node.trans (exists_congr fun m => and_congr_right fun _ => ?_)
    exact and_comm

theorem blackCounts_congr (h : ∀ k ∈ t.keys, col' k = col k) : blackCounts col' t = blackCounts col t := by
  induction t with
  | nil => rfl
  | node l k r ihl ihr =>
    have hk := h k (mem_append_right _ mem_cons_self)
    rw [blackCounts, blackCounts, ihl fun j hj => h j (mem_append_left _ hj),
      ihr fun j hj => h j (mem_append_right _ (mem_cons_of_mem k hj)), weight, weight, hk]

theorem Paths.congr (hp : Paths col t n) (h : ∀ k ∈ t.keys, col' k = col k) : Paths col' t n := by
  rw [Paths, blackCounts_congr h]
  exact hp

/-- **Filling a hole.** The hole has a black height, and every tree of this height fills it. -/
theorem paths_plug (h : Paths col (plug c t) n) :
    ∃ m, Paths col t m ∧ ∀ {col' : K → Color} {t' : KTree K}, (∀ k ∈ c.keys, col' k = col k) → Paths col' t' m →
      Paths col' (plug c t') n := by
  induction c generalizing t with
  | nil => exact ⟨n, h, fun _ hp => hp⟩
  | cons f c ih =>
    obtain ⟨m1, h1, hfill⟩ := ih h
    obtain ⟨m, hm, ht, hb⟩ := paths_fork.1 h1
    refine ⟨m, ht, fun {col' t'} hc hp => hfill (fun k hk => ?_) ?_⟩
    · exact hc k (mem_cons_of_mem _ (mem_append_right _ hk))
    refine paths_fork.2 ⟨m, ?_, hp, hb.congr fun k hk => ?_⟩
    · rw [weight, hc f.key mem_cons_self]
      exact hm
    · exact hc k (mem_cons_of_mem _ (mem_append_left _ hk))

/-- the tree in a hole is as high as the sibling -/
theorem paths_sib (h : Paths col (plug (f :: c) t) n) :
    ∃ m, Paths col t m ∧ Paths col f.sib m := by
  obtain ⟨m1, h1, -⟩ := paths_plug (c := c) h
  obtain ⟨m, -, ht, hb⟩ := paths_fork.1 h1
  exact ⟨m, ht, hb⟩

end Paths

/-! ## Red nodes -/

section Calm

variable {col col' : K → Color} {t : KTree K}

/-- no red node of the context has a red child, where the root of the tree in the hole has the colour h -/
def CalmCtx (col : K → Color) : Ctx K → Color → Prop
  | [], _ => True
  | f :: c, h => (col f.key = .red → h = .black ∧ rootColor col f.sib = .black) ∧ Calm col f.sib ∧
      CalmCtx col c (col f.key)

@[simp] theorem rootColor_fork (d : Side) (a : KTree K) (k : K) (b : KTree K) :
    rootColor col (.fork d a k b) = col k := by cases d <;> rfl

theorem calm_fork {a : KTree K} : Calm col (.fork d a k b) ↔
    (col k = .red → rootColor col a = .black ∧ rootColor col b = .black) ∧ Calm col a ∧ Calm col b := by
  cases d with
  | left => rfl
  | right =>
    show ((_ → rootColor col b = .black ∧ rootColor col a = .black) ∧ Calm col b ∧ Calm col a) ↔ _
    tauto

theorem calm_plug : Calm col (plug c t) ↔ CalmCtx col c (rootColor col t) ∧ Calm col t := by
  induction c generalizing t with
  | nil => exact (and_iff_right trivial).symm
  | cons f c ih =>
    rw [plug, ih, Frame.fill, rootColor_fork, calm_fork, CalmCtx]
    tauto

theorem rootColor_congr (h : ∀ k ∈ t.keys, col' k = col k) : rootColor col' t = rootColor col t := by
  cases t with
  | nil => rfl
  | node l k r => exact h k (mem_append_right _ mem_cons_self)

theorem Calm.congr (hc : Calm col t) (h : ∀ k ∈ t.keys, col' k = col k) : Calm col' t := by
  induction t with
  | nil => trivial
  | node l k r ihl ihr =>
    obtain ⟨h1, h2, h3⟩ := hc
    have hl : ∀ j ∈ l.keys, col' j = col j := fun j hj => h j (mem_append_left _ hj)
    have hr : ∀ j ∈ r.keys, col' j = col j := fun j hj => h j (mem_append_right _ (mem_cons_of_mem k hj))
    refine ⟨?_, ihl h2 hl, ihr h3 hr⟩
    rw [rootColor_congr hl, rootColor_congr hr, h k (mem_append_right _ mem_cons_self)]
    exact h1

theorem CalmCtx.congr {x : Color} (hc : CalmCtx col c x) (h : ∀ k ∈ c.keys, col' k = col k) :
    CalmCtx col' c x := by
  induction c generalizing x with
  | nil => trivial
  | cons f c ih =>
    obtain ⟨h1, h2, h3⟩ := hc
    have hs : ∀ k ∈ f.sib.keys, col' k = col k := fun k hk => h k (mem_cons_of_mem _ (mem_append_left _ hk))
    have hk := h f.key mem_cons_self
    refine ⟨?_, h2.congr hs, ?_⟩
    · rw [hk, rootColor_congr hs]
      exact h1
    · rw [hk]
      exact ih h3 fun k hk => h k (mem_cons_of_mem _ (mem_append_right _ hk))

/-- a black root fits everywhere -/
theorem CalmCtx.black {x : Color} (hc : CalmCtx col c x) : CalmCtx col c .black := by
  cases c with
  | nil => trivial
  | cons f c => exact ⟨fun h => ⟨rfl, (hc.1 h).2⟩, hc.2⟩

end Calm

/-! ## Height -/

section Height

variable {col : K → Color} {t : KTree K} {n : ℕ}

/-- at most every second node is red -/
theorem height_le_of_paths (hc : Calm col t) (hp : Paths col t n) :
    t.height ≤ 2 * n + if rootColor col t = .red then 1 else 0 := by
  induction t generalizing n with
  | nil => exact Nat.zero_le _
  | node l k r ihl ihr =>
    obtain ⟨hk, hl, hr⟩ := hc
    obtain ⟨m, rfl, pl, pr⟩ := paths_node.1 hp
    have il := ihl hl pl
    have ir := ihr hr pr
    rw [KTree.height]
    rcases hcol : col k with _ | _
    · -- a black node: the children may be red
      have hw := weight_black hcol
      have e1 : (if rootColor col l = .red then 1 else 0) ≤ 1 := by split_ifs <;> decide
      have e2 : (if rootColor col r = .red then 1 else 0) ≤ 1 := by split_ifs <;> decide
      omega
    obtain ⟨bl, br⟩ := hk hcol
    rw [bl, if_neg (by decide)] at il
    rw [br, if_neg (by decide)] at ir
    rw [rootColor, if_pos hcol]
    omega

theorem two_pow_le_of_paths (hp : Paths col t n) : 2 ^ n ≤ t.keys.length + 1 := by
  induction t generalizing n with
  | nil =>
    rw [paths_nil.1 hp]
    exact le_rfl
  | node l k r ihl ihr =>
    obtain ⟨m, rfl, pl, pr⟩ := paths_node.1 hp
    have il := ihl pl
    have ir := ihr pr
    have hw : weight col k ≤ 1 := by
      rw [weight]
      split_ifs <;> decide
    rw [KTree.keys, List.length_append, List.length_cons]
    calc 2 ^ (m + weight col k) ≤ 2 ^ (m + 1) := Nat.pow_le_pow_right (by decide) (by omega)
      _ = 2 ^ m + 2 ^ m := by rw [pow_succ, mul_two]
      _ ≤ l.keys.length + (r.keys.length + 1) + 1 := by omega

/-- **Height.** A red-black tree with n nodes is at most 2 log₂ (n + 1) high. -/
theorem RedBlack.height_le (h : RedBlack col t) : 2 ^ t.height ≤ (t.keys.length + 1) ^ 2 := by
  obtain ⟨n, hp⟩ := h.even
  have hh := height_le_of_paths h.calm hp
  rw [h.root, if_neg (by decide)] at hh
  calc 2 ^ t.height ≤ 2 ^ (2 * n) := Nat.pow_le_pow_right (by decide) hh
    _ = (2 ^ n) ^ 2 := by rw [← pow_mul, mul_comm]
    _ ≤ (t.keys.length + 1) ^ 2 := Nat.pow_le_pow_left (two_pow_le_of_paths hp) 2

end Height

/-! ## Colours of a store -/

def Store.color (s : Store K) (k : K) : Color := (s.node k).color

theorem color_setColor [DecidableEq K] (s : Store K) (k : K) (c : Color) : (s.setColor k c).color = update s.color k c := by
  funext j
  rw [Store.color, setColor_color, update_apply]
  rfl

/-! ## Repair after an insertion -/

section Settle

variable [DecidableEq K] {col col' : K → Color} {c : Ctx K} {t T : KTree K} {g : K}

/-- a change of one colour is not seen by other keys -/
theorem update_off {l : List K} (hk : k ∉ l) (x : Color) : ∀ j ∈ l, update col k x j = col j :=
  fun j hj => update_of_ne (fun e : j = k => hk (e ▸ hj)) _ _

/-- the root becomes black -/
def blacken (col : K → Color) (t : KTree K) : K → Color :=
  match t.root with
  | none => col
  | some r => update col r .black

/-- the tree after the last turn: m above P, and above g with b and Q -/
def turned (c : Ctx K) (d : Side) (P : KTree K) (m : K) (Q : KTree K) (g : K) (b : KTree K) : KTree K :=
  plug c (.fork d P m (.fork d.other b g Q))

/-- its colours -/
def turnedColor (col : K → Color) (m g : K) : K → Color := update (update col m .black) g .red

/-- the repair of a red node t at a position c; col' and T are the colours and the tree in the end -/
inductive Settles : (K → Color) → Ctx K → KTree K → (K → Color) → KTree K → Prop where
  /-- the node is the root -/
  | root {col : K → Color} {t : KTree K} : Settles col [] t (blacken col t) t
  /-- the parent is black -/
  | done {col : K → Color} {f : Frame K} {c : Ctx K} {t : KTree K} (hf : col f.key = .black) :
      Settles col (f :: c) t (blacken col (plug (f :: c) t)) (plug (f :: c) t)
  /-- the parent is the root -/
  | top {col : K → Color} {f : Frame K} {t : KTree K} : Settles col [f] t (blacken col (f.fill t)) (f.fill t)
  /-- the parent and its sibling are red: both become black, and the repair goes on above them -/
  | recolor {col col' : K → Color} {d1 d2 : Side} {p g y : K} {b1 b2 t T : KTree K} {c : Ctx K}
      (hp : col p = .red) (hy : b2.root = some y) (hred : col y = .red)
      (h : Settles (update (update (update col p .black) y .black) g .red) c
        (.fork d2 (.fork d1 t p b1) g b2) col' T) :
      Settles col (⟨d1, p, b1⟩ :: ⟨d2, g, b2⟩ :: c) t col' T
  /-- the sibling is black, the node is on the outer side -/
  | outer {col : K → Color} {d : Side} {p g : K} {b1 b2 t : KTree K} {c : Ctx K} (hp : col p = .red)
      (hb : rootColor col b2 = .black) :
      Settles col (⟨d, p, b1⟩ :: ⟨d, g, b2⟩ :: c) t
        (blacken (turnedColor col p g) (turned c d t p b1 g b2)) (turned c d t p b1 g b2)
  /-- the sibling is black, the node is on the inner side -/
  | inner {col : K → Color} {d : Side} {p g z : K} {b1 b2 tl tr : KTree K} {c : Ctx K} (hp : col p = .red)
      (hb : rootColor col b2 = .black) :
      Settles col (⟨d.other, p, b1⟩ :: ⟨d, g, b2⟩ :: c) (.fork d tl z tr)
        (blacken (turnedColor col z g) (turned c d (.fork d b1 p tl) z tr g b2)) (turned c d (.fork d b1 p tl) z tr g b2)

omit [DecidableEq K] in
theorem turned_keys (c : Ctx K) (d : Side) (P : KTree K) (m : K) (Q : KTree K) (g : K) (b : KTree K) :
    (turned c d P m Q g b).keys = (plug (⟨d, g, b⟩ :: c) (.fork d P m Q)).keys := by
  refine keys_plug_congr c ?_
  rw [← KTree.fork_other d, KTree.keys_rotate, KTree.fork_other, KTree.fork_other]
  rfl

theorem Settles.keys (h : Settles col c t col' T) : T.keys = (plug c t).keys := by
  induction h with
  | root | done | top => rfl
  | recolor _ _ _ _ ih => exact ih
  | outer => exact turned_keys _ _ _ _ _ _ _
  | @inner col d p g z b1 b2 tl tr c _ _ =>
    rw [turned_keys]
    refine keys_plug_congr (⟨d, g, b2⟩ :: c) ?_
    rw [KTree.keys_rotate, Frame.fill, KTree.fork_other]

/-- the only fault is a red parent above the red root of t -/
structure Pending (col : K → Color) (c : Ctx K) (t : KTree K) : Prop where
  red : rootColor col t = .red
  calm : Calm col t
  ctx : CalmCtx col c .black
  top : c ≠ [] → rootColor col (plug c t) = .black
  even : ∃ n, Paths col (plug c t) n

theorem blacken_of_black (h : rootColor col t = .black) : blacken col t = col := by
  cases t with
  | nil => rfl
  | node l k r =>
    funext j
    by_cases e : j = k
    · subst e
      exact (update_self _ _ _).trans h.symm
    · exact update_of_ne e _ _

/-- with a black root there is nothing to repair at the end -/
theorem RedBlack.blacken (h : RedBlack col t) : RedBlack (blacken col t) t := by
  rw [blacken_of_black h.root]
  exact h

/-- a red root becomes black -/
theorem redBlack_blacken (hn : t.keys.Nodup) (hc : Calm col t) (he : ∃ n, Paths col t n) :
    RedBlack (LinkedTree.blacken col t) t := by
  cases t with
  | nil => exact ⟨rfl, hc, he⟩
  | node l k r =>
    obtain ⟨-, hl, hr⟩ := hc
    obtain ⟨n, hp⟩ := he
    obtain ⟨m, -, pl, pr⟩ := paths_node.1 hp
    have hd := (List.perm_middle.nodup_iff.1 hn)
    rw [nodup_cons, mem_append, not_or] at hd
    have hk : LinkedTree.blacken col (.node l k r) k = .black := update_self _ _ _
    have hls : ∀ j ∈ l.keys, LinkedTree.blacken col (.node l k r) j = col j := update_off hd.1.1 _
    have hrs : ∀ j ∈ r.keys, LinkedTree.blacken col (.node l k r) j = col j := update_off hd.1.2 _
    exact ⟨hk, ⟨fun e => absurd e (ne_red hk), hl.congr hls, hr.congr hrs⟩, _,
      paths_node.2 ⟨m, rfl, pl.congr hls, pr.congr hrs⟩⟩

omit [DecidableEq K] in
/-- a black parent is no fault -/
theorem Pending.redBlack (h : Pending col (f :: c) t) (hf : col f.key = .black) :
    RedBlack col (plug (f :: c) t) :=
  ⟨h.top (cons_ne_nil _ _), calm_plug.2 ⟨⟨fun e => absurd e (ne_red hf), h.ctx.2⟩, h.calm⟩, h.even⟩

omit [DecidableEq K] in
/-- above a red parent the grandparent is black -/
theorem Pending.grandparent {g : Frame K} (h : Pending col (f :: g :: c) t) (hf : col f.key = .red) :
    col g.key = .black := by
  cases hg : col g.key with
  | black => rfl
  | red => exact absurd hf (ne_red (h.ctx.2.2.1 hg).1)

omit [DecidableEq K] in
/-- the black heights below a black grandparent -/
theorem Pending.paths {d1 d2 : Side} {p : K} {b1 b2 : KTree K}
    (h : Pending col (⟨d1, p, b1⟩ :: ⟨d2, g, b2⟩ :: c) t) (hp : col p = .red) :
    ∃ i n, Paths col t i ∧ Paths col b1 i ∧ Paths col b2 i ∧ ∀ {col' : K → Color} {t' : KTree K},
      (∀ k ∈ c.keys, col' k = col k) → Paths col' t' (i + 1) → Paths col' (plug c t') n := by
  obtain ⟨n, hpath⟩ := h.even
  obtain ⟨m, hm, hfill⟩ := paths_plug (c := c) hpath
  obtain ⟨j, rfl, hj, hb2⟩ := paths_fork.1 hm
  obtain ⟨i, rfl, ht, hb1⟩ := paths_fork.1 hj
  simp only [weight_red hp, weight_black (h.grandparent hp)] at hb2 hfill
  exact ⟨i, n, ht, hb1, hb2, hfill⟩

omit [DecidableEq K] in
/-- the root of a tree with a hole is in the context -/
theorem rootColor_plug {t' : KTree K} (hc : c ≠ []) (h : ∀ k ∈ c.keys, col' k = col k) :
    rootColor col' (plug c t') = rootColor col (plug c t) := by
  induction c generalizing t t' with
  | nil => exact absurd rfl hc
  | cons f c ih =>
    rcases c with _ | ⟨g, c⟩
    · rw [plug, plug, plug, plug, Frame.fill, Frame.fill, rootColor_fork, rootColor_fork]
      exact h f.key mem_cons_self
    · exact ih (cons_ne_nil g c) fun k hk => h k (mem_cons_of_mem _ (mem_append_right _ hk))

/-- **The last turn.** P, Q and b have the same black height; Q and b, which come below the red g, have black roots. -/
theorem redBlack_turned {P Q : KTree K} {m : K} {i n : ℕ} (hn : (turned c d P m Q g b).keys.Nodup)
    (hctx : CalmCtx col c .black) (htop : c ≠ [] → rootColor col (plug c .nil) = .black)
    (hfill : ∀ {col' : K → Color} {t' : KTree K}, (∀ k ∈ c.keys, col' k = col k) → Paths col' t' (i + 1) →
      Paths col' (plug c t') n)
    (cP : Calm col P) (cQ : Calm col Q) (cb : Calm col b) (rQ : rootColor col Q = .black) (rb : rootColor col b = .black)
    (pP : Paths col P i) (pQ : Paths col Q i) (pb : Paths col b i) :
    RedBlack (turnedColor col m g) (turned c d P m Q g b) := by
  -- m and g occur once
  have hp1 : (turned c d P m Q g b).keys.Perm ((m :: (P.keys ++ g :: (b.keys ++ Q.keys))) ++ c.keys) := by
    refine (keys_plug_perm c _).trans (List.Perm.append_right c.keys ?_)
    refine (KTree.keys_fork_perm d P m _).trans (List.Perm.cons m (List.Perm.append_left P.keys ?_))
    exact KTree.keys_fork_perm d.other b g Q
  have hd := hp1.nodup_iff.1 hn
  simp only [List.cons_append, nodup_cons, mem_append, mem_cons, not_or, List.nodup_append,
    List.append_assoc] at hd
  obtain ⟨⟨hmP, hmg, hmb, hmQ, hmc⟩, -, ⟨⟨hgb, hgQ, hgc⟩, -⟩, hPg⟩ := hd
  have hgP : g ∉ P.keys := fun hg => hPg g hg g (Or.inl rfl) rfl
  have hsame : ∀ {l : List K}, m ∉ l → g ∉ l → ∀ k ∈ l, turnedColor col m g k = col k := fun hm hg k hk =>
    (update_off hg _ k hk).trans (update_off hm _ k hk)
  have hgr : turnedColor col m g g = .red := update_self _ _ _
  have hmb' : turnedColor col m g m = .black := by
    rw [turnedColor, update_of_ne hmg, update_self]
  have hcs := hsame hmc hgc
  refine ⟨?_, ?_, n, ?_⟩
  · by_cases hc : c = []
    · subst hc
      exact (rootColor_fork d P m _).trans hmb'
    · exact (rootColor_plug hc hcs).trans (htop hc)
  · rw [turned, calm_plug, rootColor_fork, hmb', calm_fork, calm_fork]
    refine ⟨hctx.congr hcs, fun e => absurd e (ne_red hmb'), cP.congr (hsame hmP hgP), fun _ => ⟨?_, ?_⟩,
      cb.congr (hsame hmb hgb), cQ.congr (hsame hmQ hgQ)⟩
    · exact (rootColor_congr (hsame hmb hgb)).trans rb
    · exact (rootColor_congr (hsame hmQ hgQ)).trans rQ
  · refine hfill hcs (paths_fork.2 ⟨i, ?_, pP.congr (hsame hmP hgP), paths_fork.2 ⟨i, ?_, ?_, ?_⟩⟩)
    · rw [weight_black hmb']
    · rw [weight_red hgr]
      rfl
    · exact pb.congr (hsame hmb hgb)
    · exact pQ.congr (hsame hmQ hgQ)

/-- a round that recolours moves the fault up -/
theorem Pending.recolor {d1 d2 : Side} {p y : K} {b1 b2 : KTree K} (h : Pending col (⟨d1, p, b1⟩ :: ⟨d2, g, b2⟩ :: c) t)
    (hn : (plug (⟨d1, p, b1⟩ :: ⟨d2, g, b2⟩ :: c) t).keys.Nodup) (hp : col p = .red) (hy : b2.root = some y)
    (hred : col y = .red) : Pending (update (update (update col p .black) y .black) g .red) c
      (.fork d2 (.fork d1 t p b1) g b2) := by
  have hg := h.grandparent hp
  obtain ⟨l, r, rfl⟩ := KTree.exists_fork .left hy
  -- p, g and y occur once
  have hd := (keys_plug_perm _ _).nodup_iff.1 hn
  simp only [KTree.fork, KTree.keys, Ctx.keys, List.cons_append, List.append_assoc, List.nodup_append,
    nodup_cons, mem_append, mem_cons, not_or] at hd
  obtain ⟨-, ⟨⟨hpb, hpg, hpl, hpy, hpr, hpc⟩, -, ⟨⟨hgl, hgy, hgr, hgc⟩, -, ⟨⟨hyr, hyc⟩, -⟩, hl⟩, hb⟩, ht⟩ := hd
  generalize hcol' : update (update (update col p .black) y .black) g .red = col'
  have hsame : ∀ {L : List K}, p ∉ L → y ∉ L → g ∉ L → ∀ k ∈ L, col' k = col k := by
    intro L h1 h2 h3 k hk
    rw [← hcol', update_off h3 _ k hk, update_off h2 _ k hk, update_off h1 _ k hk]
  have ep : col' p = .black := by
    rw [← hcol', update_of_ne hpg, update_of_ne hpy, update_self]
  have ey : col' y = .black := by rw [← hcol', update_of_ne (Ne.symm hgy), update_self]
  have eg : col' g = .red := by rw [← hcol', update_self]
  have st := hsame (L := t.keys) (fun hk => ht p hk p (by tauto) rfl) (fun hk => ht y hk y (by tauto) rfl)
    fun hk => ht g hk g (by tauto) rfl
  have sb := hsame (L := b1.keys) hpb (fun hk => hb y hk y (by tauto) rfl) fun hk => hb g hk g (by tauto) rfl
  have sl := hsame (L := l.keys) hpl (fun hk => hl y hk y (by tauto) rfl) hgl
  have sr := hsame (L := r.keys) hpr hyr hgr
  have sc := hsame (L := c.keys) hpc hyc hgc
  obtain ⟨-, hb1, -, hb2, hcc⟩ := h.ctx
  obtain ⟨i, n, pt, pb1, pb2, hfill⟩ := h.paths hp
  obtain ⟨q, rfl, pl, pr⟩ := paths_fork.1 pb2
  rw [weight_red hred] at pt pb1
  refine ⟨(rootColor_fork d2 _ g _).trans eg, ?_, ?_, fun hne => ?_, n, hfill sc ?_⟩
  · rw [calm_fork, calm_fork, rootColor_fork, rootColor_fork]
    refine ⟨fun _ => ⟨ep, ey⟩, ⟨fun e => absurd e (ne_red ep), h.calm.congr st, hb1.congr sb⟩, ?_⟩
    obtain ⟨-, h2, h3⟩ := (calm_fork (d := .left)).1 hb2
    exact calm_fork.2 ⟨fun e => absurd e (ne_red ey), h2.congr sl, h3.congr sr⟩
  · rw [hg] at hcc
    exact hcc.congr sc
  · exact (rootColor_plug hne sc).trans (h.top (cons_ne_nil _ _))
  · refine paths_fork.2 ⟨q + 1, ?_, paths_fork.2 ⟨q, ?_, pt.congr st, pb1.congr sb⟩,
      paths_fork.2 ⟨q, ?_, pl.congr sl, pr.congr sr⟩⟩
    · rw [weight_red eg, weight_red hred]
    · rw [weight_black ep]
    · rw [weight_black ey]

/-- **Repair.** From a red parent as the only fault, the repair ends with a red-black tree. -/
theorem Settles.redBlack (h : Settles col c t col' T) (hn : (plug c t).keys.Nodup) (hp : Pending col c t) :
    RedBlack col' T := by
  induction h with
  | root => exact redBlack_blacken hn hp.calm hp.even
  | done hf => exact (hp.redBlack hf).blacken
  | @top col f t =>
    have hf : col f.key = .black := (rootColor_fork f.side t f.key f.sib).symm.trans (hp.top (cons_ne_nil _ _))
    exact (hp.redBlack hf).blacken
  | recolor hpr hy hred _ ih => exact ih hn (hp.recolor hn hpr hy hred)
  | @outer col d p g b1 b2 t c hpr hb =>
    obtain ⟨hpk, hb1, -, hb2, hcc⟩ := hp.ctx
    obtain ⟨i, n, pt, pb1, pb2, hfill⟩ := hp.paths hpr
    rw [hp.grandparent hpr] at hcc
    refine (redBlack_turned ?_ hcc (fun hne => ?_) hfill hp.calm hb1 hb2 (hpk hpr).2 hb pt pb1 pb2).blacken
    · rw [turned_keys]
      exact hn
    · exact (rootColor_plug hne fun _ _ => rfl).trans (hp.top (cons_ne_nil _ _))
  | @inner col d p g z b1 b2 tl tr c hpr hb =>
    obtain ⟨hpk, hb1, -, hb2, hcc⟩ := hp.ctx
    obtain ⟨i, n, pt, pb1, pb2, hfill⟩ := hp.paths hpr
    rw [hp.grandparent hpr] at hcc
    have hz : col z = .red := (rootColor_fork d tl z tr).symm.trans hp.red
    obtain ⟨hzk, hl, hr⟩ := calm_fork.1 hp.calm
    obtain ⟨j, rfl, pl, pr⟩ := paths_fork.1 pt
    rw [weight_red hz] at hfill pb1 pb2
    -- p stays red above b1 and the outer half of the node
    have cP : Calm col (.fork d b1 p tl) := calm_fork.2 ⟨fun _ => ⟨(hpk hpr).2, (hzk hz).1⟩, hb1, hl⟩
    have pP : Paths col (.fork d b1 p tl) j := paths_fork.2 ⟨j, by rw [weight_red hpr]; rfl, pb1, pl⟩
    refine (redBlack_turned ?_ hcc (fun hne => ?_) hfill cP hr hb2 (hzk hz).2 hb pP pr pb2).blacken
    · rw [turned_keys]
      have hk := keys_plug_congr (⟨d, g, b2⟩ :: c) (KTree.keys_rotate d b1 p tl z tr)
      rw [hk, ← KTree.fork_other d _ p]
      exact hn
    · exact (rootColor_plug hne fun _ _ => rfl).trans (hp.top (cons_ne_nil _ _))

end Settle

end OpenASD.LinkedTree
