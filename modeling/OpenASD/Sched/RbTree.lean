/-
The run-queue trees of the scheduler: rotations, insertion with fixup, leftmost node and removal, over a store of nodes
with parent links. A NULL dereference and a loop that does not end within its fuel are `none`.

Removal recolours the root and leaves out the delete fixup, so after the first removal a tree need not be a red-black
tree, and nothing here assumes that it is: the results hold for every tree, whatever its colours.

Results, each with enough fuel for the number of nodes:
- `rotate_spec`: a rotation keeps the order of the keys;
- `rbInsert_spec`: insertion adds the node behind all keys that are not larger, and before the larger ones;
- `rbLeftmost_spec`: the leftmost node is the first key;
- `rbRemoveNode_spec`: removal of any node of the tree keeps the order of the others and clears the node's links.
All of them leave nodes outside the tree alone.
-/
import OpenASD.Core.RedBlack

namespace OpenASD.Sched

open LinkedTree
open List (append_assoc cons_append length_cons mem_append mem_append_left mem_cons mem_cons_of_mem mem_cons_self
  nodup_append nodup_cons perm_middle)
open Function (update)
open Option (bind_eq_bind bind_some map_some)

variable {K : Type} [DecidableEq K] {T t : KTree K} {k : K} {fuel : ℕ}

/-! ## The source's functions -/

/-- both rotations: y is the child of x on the other side and comes up, x goes down on side d -/
def rotate (d : Side) (s : Store K) (x : K) : Option (Store K) :=
  ((s.node x).child d.other).map fun y =>
    let b := (s.node y).child d
    let s := s.setChild d.other x b
    let s := s.reparent b (some x)
    let s := s.setParent y (s.node x).parent
    let s := graft s d (s.node x).parent x (some y)
    let s := s.setChild d y (some x)
    s.setParent x (some y)

variable (s : Store K)

def rbRotateLeft (x : K) : Option (Store K) := rotate .left s x

def rbRotateRight (x : K) : Option (Store K) := rotate .right s x

/-- the rotation of this side, under its source name -/
def rbRotate : Side → Store K → K → Option (Store K)
  | .left => rbRotateLeft
  | .right => rbRotateRight

/-- the last line of the fixup: the root becomes black -/
def blackRoot : Option (Store K) := s.root.map fun r => s.setColor r .black

/-- the sibling of the parent, if there is one and it is red -/
def redUncle (d : Side) (gp : K) : Option K :=
  ((s.node gp).child d.other).filter fun y => decide ((s.node y).color = .red)

/-- recolour the parent of z and gp, then rotate gp to the other side -/
def turnOver (d : Side) (s : Store K) (z gp : K) : Option (Store K × K) :=
  (s.node z).parent.bind fun p =>
    (rbRotate d.other ((s.setColor p .black).setColor gp .red) gp).map fun s => (s, z)

/-- one round of `rb_insert_fixup` when the parent p is the child of gp on side d: the new store and the new z -/
def fixupRound (d : Side) (s : Store K) (z p gp : K) : Option (Store K × K) :=
  match redUncle s d gp with
  | some y => some (((s.setColor p .black).setColor y .black).setColor gp .red, gp)
  | none =>
    if (s.node p).child d.other = some z then (rbRotate d s p).bind fun s => turnOver d s p gp
    else turnOver d s z gp

def rbInsertFixup : ℕ → Store K → K → Option (Store K)
  | 0, _, _ => none
  | n + 1, s, z =>
    match (s.node z).parent with
    | none => blackRoot s
    | some p =>
      if (s.node p).color = .red then
        match (s.node p).parent with
        | none => blackRoot s
        | some gp =>
          (fixupRound (if some p = (s.node gp).left then .left else .right) s z p gp).bind fun r =>
            rbInsertFixup n r.1 r.2
      else blackRoot s

/-- the descent of `rb_insert`: the last node before NULL -/
def rbSeek (prio : K → ℤ) (key : ℤ) (s : Store K) : ℕ → Option K → Option K → Option (Option K)
  | 0, _, _ => none
  | _ + 1, parent, none => some parent
  | n + 1, _, some x => rbSeek prio key s n (some x) (if key < prio x then (s.node x).left else (s.node x).right)

/-- a fresh red node below parent -/
def freshNode (z : K) (parent : Option K) : Store K :=
  { s with node := update s.node z ⟨parent, none, none, .red⟩ }

/-- `rb_insert`; the nodes carry priorities, which the descent reads -/
def rbInsert (fuel : ℕ) (prio : K → ℤ) (s : Store K) (z : K) (key : ℤ) : Option (Store K) := do
  let s := freshNode s z none
  let parent ← rbSeek prio key s fuel none s.root
  let s := freshNode s z parent
  let s := match parent with
    | none => { s with root := some z }
    | some p => if key < prio p then s.setChild .left p (some z) else s.setChild .right p (some z)
  rbInsertFixup fuel s z

/-- `while (n->left) n = n->left` -/
def walkLeft (s : Store K) : ℕ → K → Option K
  | 0, _ => none
  | n + 1, k =>
    match (s.node k).left with
    | none => some k
    | some l => walkLeft s n l

/-- `rb_leftmost`: the inner none is NULL -/
def rbLeftmost (fuel : ℕ) (s : Store K) : Option (Option K) :=
  match s.root with
  | none => some none
  | some r => (walkLeft s fuel r).map some

/-- put v in the place of z below z's parent -/
def transplant (z : K) (v : Option K) : Store K := graft s .left (s.node z).parent z v

/-- the case of `rb_remove_node` with at most one child, v -/
def removeSingle (z : K) (v : Option K) : Store K :=
  let s := transplant s z v
  s.reparent v (s.node z).parent

/-- take the successor y of z out of its place, unless it is the child of z -/
def detach (z y : K) : Option (Store K) :=
  if (s.node y).parent = some z then some s
  else
    (s.node y).parent.map fun yp =>
      let x := (s.node y).right
      let s := s.reparent x (some yp)
      let s := s.setChild .left yp x
      let s := s.setChild .right y (s.node z).right
      s.reparent (s.node y).right (some y)

/-- put the successor y in the place of z -/
def succeed (z y : K) : Store K :=
  let s := transplant s z (some y)
  let s := s.setParent y (s.node z).parent
  let s := s.setChild .left y (s.node z).left
  let s := s.reparent (s.node y).left (some y)
  s.setColor y (s.node z).color

/-- the last lines of `rb_remove_node`: the root becomes black, the node's links are cleared -/
def removeEnd (z : K) : Store K :=
  let s := match s.root with
    | some r => s.setColor r .black
    | none => s
  ((s.setChild .left z none).setChild .right z none).setParent z none

def rbRemoveNode (fuel : ℕ) (s : Store K) (z : K) : Option (Store K) :=
  match (s.node z).left, (s.node z).right with
  | none, r => some (removeEnd (removeSingle s z r) z)
  | some l, none => some (removeEnd (removeSingle s z (some l)) z)
  | some _, some r => do
    let y ← walkLeft s fuel r
    let s ← detach s z y
    some (removeEnd (succeed s z y) z)

/-! ## Rotations -/

section Rotate

variable {s : Store K} {c : Ctx K}

/-- **Rotation.** The child y comes up, x goes down, and the keys keep their order. -/
theorem rotate_spec {d : Side} {a b e : KTree K} {x y : K} (h : Holds s c (.fork d a x (.fork d b y e))) :
    ∃ s', rotate d s x = some s' ∧ Holds s' c (.fork d (.fork d a x b) y e) ∧
      (∀ k, k ∉ (KTree.fork d a x (.fork d b y e)).keys → k ∉ c.keys → s'.node k = s.node k) ∧
      ∀ k, (s'.node k).color = (s.node k).color := by
  obtain ⟨hx1, hx2, hx3, ha, hy⟩ := (rep_fork s.node c.parent d a x _).1 h.sub
  obtain ⟨hy1, hy2, hy3, hb, he⟩ := (rep_fork s.node (some x) d b y e).1 hy
  rw [KTree.root_fork] at hx3
  -- all keys are different
  have hperm : (KTree.fork d a x (.fork d b y e)).keys.Perm (x :: (a.keys ++ y :: (b.keys ++ e.keys))) :=
    (KTree.keys_fork_perm d a x _).trans (((KTree.keys_fork_perm d b y e).append_left a.keys).cons x)
  have hn := (hperm.append_right c.keys).nodup_iff.1 h.nodup
  simp only [cons_append, nodup_cons, mem_append, mem_cons, not_or, nodup_append,
    append_assoc] at hn
  obtain ⟨⟨hxa, hxy, hxb, hxe, hxc⟩, hna, ⟨⟨hyb, hye, hyc⟩, hnb, ⟨hne, hnc, hec⟩, hbec⟩, hay⟩ := hn
  -- the store before the parent of x is told
  let s3 := (((s.setChild d.other x b.root).reparent b.root (some x)).setParent y c.parent)
  have hs3 : ∀ k, k ≠ x → k ≠ y → b.root ≠ some k → s3.node k = s.node k := by
    intro k h1 h2 h3
    exact (setParent_other _ k y _ h2).trans ((reparent_other _ k _ h3).trans (setChild_other _ k x _ _ h1))
  have hcs3 : ∀ k ∈ c.keys, s3.node k = s.node k := by
    intro k hk
    refine hs3 k (fun e => hxc (e ▸ hk)) (fun e => hyc (e ▸ hk)) (KTree.root_ne fun hkb => ?_)
    exact hbec k hkb k (.inr hk) rfl
  have hctx : RepCtx s3.node c (some x) := by
    have hc := h.ctx
    rw [KTree.root_fork] at hc
    exact hc.congr hcs3
  have hroot : s3.root = c.top (some x) := by
    have hr := h.root
    rw [KTree.root_fork] at hr
    exact (reparent_root _ _ _).trans hr
  obtain ⟨g1, g2, g3, g4⟩ := graft_ctx hctx hroot hnc hxc d (some y)
  let s4 := graft s3 d c.parent x (some y)
  let s6 := (s4.setChild d y (some x)).setParent x (some y)
  have hrot : rotate d s x = some s6 := by
    have e1 : (((s.setChild d.other x b.root).reparent b.root (some x)).node x).parent = c.parent := by
      rw [reparent_parent, if_neg (KTree.root_ne hxb), setChild_parent]
      exact hx1
    have e2 : (s3.node x).parent = c.parent := by
      rw [setParent_parent, if_neg hxy]
      exact e1
    unfold rotate
    rw [hx3]
    simp only [map_some, hy2, e1]
    rw [e2]
  -- the nodes of the tree afterwards
  have hsame : ∀ k, k ≠ x → k ≠ y → b.root ≠ some k → k ∉ c.keys → s6.node k = s.node k := by
    intro k h1 h2 h3 h4
    rw [setParent_other _ k x _ h1, setChild_other _ k y _ _ h2]
    exact (g3 k h4).trans (hs3 k h1 h2 h3)
  have hparent : ∀ k, k ∉ c.keys → (s6.node k).parent =
      if k = x then some y else if k = y then c.parent else if b.root = some k then some x else (s.node k).parent := by
    intro k hk
    have e4 : (s4.node k).parent = (s3.node k).parent := congrArg Node.parent (g3 k hk)
    rw [setParent_parent, setChild_parent, e4, setParent_parent, reparent_parent, setChild_parent]
  have hchild : ∀ k f, k ∉ c.keys → (s6.node k).child f =
      if k = y ∧ f = d then some x else if k = x ∧ f = d.other then b.root else (s.node k).child f := by
    intro k f hk
    have e4 : (s4.node k).child f = (s3.node k).child f := congrArg (Node.child · f) (g3 k hk)
    rw [setParent_child, setChild_child, e4, setParent_child, reparent_child, setChild_child]
  refine ⟨s6, hrot, ⟨?_, ?_, ?_, ?_⟩, ?_, ?_⟩
  · rw [KTree.root_fork]
    refine g1.congr fun k hk => ?_
    rw [setParent_other _ k x _ fun e => hxc (e ▸ hk), setChild_other _ k y _ _ fun e => hyc (e ▸ hk)]
  · have hxa' : Rep s6.node (some x) a := ha.congr fun k hk =>
      hsame k (fun e => hxa (e ▸ hk)) (hay k hk y (.inl rfl))
        (KTree.root_ne fun hkb => hay k hk k (.inr (.inl hkb)) rfl) fun hkc => hay k hk k (.inr (.inr (.inr hkc))) rfl
    have hye' : Rep s6.node (some y) e := he.congr fun k hk =>
      hsame k (fun e => hxe (e ▸ hk)) (fun e => hye (e ▸ hk))
        (KTree.root_ne fun hkb => hbec k hkb k (.inl hk) rfl) fun hkc => hec k hk k hkc rfl
    have hxb' : Rep s6.node (some x) b := by
      have hb' : Rep (s.setChild d.other x b.root).node (some y) b :=
        hb.congr fun k hk => setChild_other _ k x _ _ fun e => hxb (e ▸ hk)
      refine (hb'.reparent hnb (some x)).congr fun k hk => ?_
      have hky : k ≠ y := fun e => hyb (e ▸ hk)
      rw [setParent_other _ k x _ fun e => hxb (e ▸ hk), setChild_other _ k y _ _ hky]
      exact (g3 k fun hkc => hbec k hk k (.inr hkc) rfl).trans (setParent_other _ k y _ hky)
    refine (rep_fork _ _ d _ y e).2 ⟨?_, ?_, ?_, (rep_fork _ _ d a x b).2 ⟨?_, ?_, ?_, hxa', hxb'⟩, hye'⟩
    · rw [hparent y hyc, if_neg (Ne.symm hxy), if_pos rfl]
    · rw [hchild y d hyc, if_pos ⟨rfl, rfl⟩, KTree.root_fork]
    · rw [hchild y _ hyc, if_neg fun e => d.other_ne e.2, if_neg fun e => hxy e.1.symm, hy3]
    · rw [hparent x hxc, if_pos rfl]
    · rw [hchild x d hxc, if_neg fun e => hxy e.1, if_neg fun e => d.ne_other e.2, hx2]
    · rw [hchild x _ hxc, if_neg fun e => hxy e.1, if_pos ⟨rfl, rfl⟩]
  · rw [KTree.root_fork]
    exact g2
  · rw [KTree.keys_rotate]
    exact h.nodup
  · intro k hk hkc
    rw [hperm.mem_iff] at hk
    simp only [mem_cons, mem_append, not_or] at hk
    exact hsame k hk.1 hk.2.2.1 (KTree.root_ne hk.2.2.2.1) hkc
  · intro k
    rw [setParent_color, setChild_color]
    refine (g4 k).trans ?_
    rw [setParent_color, reparent_color, setChild_color]

theorem rbRotate_eq (d : Side) (s : Store K) (x : K) : rbRotate d s x = rotate d s x := by cases d <;> rfl

end Rotate

/-! ## The fixup -/

section Fixup

variable {s : Store K} {c : Ctx K}

/-- what the fixup promises about the store s' after it: a tree with these keys, all other nodes as they were -/
structure Fixed (s s' : Store K) (keys : List K) : Prop where
  is : ∃ T, Is s' T ∧ T.keys = keys
  other : ∀ k, k ∉ keys → s'.node k = s.node k

/-- the tree T with the colours of its repair -/
structure Settled (s s' : Store K) (c : Ctx K) (t T : KTree K) : Prop where
  is : Is s' T
  settles : Settles s.color c t s'.color T
  other : ∀ k, k ∉ (plug c t).keys → s'.node k = s.node k

variable {z g : K} {n : ℕ} {b : KTree K} {d : Side}

/-- the end of the fixup -/
theorem blackRoot_spec (h : Is s T) (hz : z ∈ T.keys) :
    ∃ s', blackRoot s = some s' ∧ Is s' T ∧ s'.color = blacken s.color T ∧ ∀ k, k ∉ T.keys → s'.node k = s.node k := by
  -- the tree is not empty, so the root pointer is not NULL
  obtain ⟨r, hr⟩ : ∃ r, T.root = some r := by
    rw [← Option.isSome_iff_exists, Option.isSome_iff_ne_none]
    intro hnone
    rw [KTree.root_none hnone] at hz
    cases hz
  refine ⟨s.setColor r .black, ?_, is_plug.2 (((is_plug (c := [])).1 h).setColor r .black), ?_, fun k hk => ?_⟩
  · rw [blackRoot, h.root, hr]
    rfl
  · rw [color_setColor, blacken, hr]
  · exact setColor_other s k r _ fun e => hk (e ▸ KTree.root_mem hr)

/-- the loop ends at a position without a red parent, or at a child of the root -/
theorem settled_blackRoot (h : Holds s c t) (hz : t.root = some z)
    (hend : Settles s.color c t (blacken s.color (plug c t)) (plug c t)) :
    ∃ s' T, blackRoot s = some s' ∧ Settled s s' c t T := by
  obtain ⟨s', h1, h2, h3, h4⟩ := blackRoot_spec (is_plug.2 h) (mem_plug.2 (.inl (KTree.root_mem hz)))
  exact ⟨s', plug c t, h1, h2, h3 ▸ hend, h4⟩

omit [DecidableEq K] in
theorem color_ne_red : (s.node k).color ≠ .red ↔ s.color k = .black := by
  rw [Store.color]
  cases (s.node k).color <;> simp

/-- a black parent ends the loop -/
theorem fixup_black {f : Frame K} (h : Holds s (f :: c) t) (hz : t.root = some z)
    (hblack : (s.node f.key).color ≠ .red) : rbInsertFixup (n + 1) s z = blackRoot s := by
  have hp : (s.node z).parent = some f.key := h.parent_of_root hz
  rw [rbInsertFixup, hp]
  simp only [if_neg hblack]

/-- the side of the parent below the grandparent, as the fixup determines it -/
theorem side_eq {p : K} (h : Holds s (⟨d, g, b⟩ :: c) t) (hp : t.root = some p) :
    (if some p = (s.node g).left then Side.left else Side.right) = d := by
  obtain ⟨-, h2, h3, -⟩ := h.ctx
  rw [hp] at h2
  cases d with
  | left => exact if_pos h2.symm
  | right =>
    refine if_neg fun e => ?_
    have hb : b.root = some p := h3.symm.trans e.symm
    exact h.disjoint (KTree.root_mem hp) (mem_cons_of_mem _ (mem_append_left _ (KTree.root_mem hb)))

/-- the last turn: z below m below g becomes m above both, m is black, and the loop ends -/
theorem turnOver_spec {m : K} {P Q : KTree K} (h : Holds s (⟨d, g, b⟩ :: c) (.fork d P m Q)) (hz : P.root = some z) :
    ∃ s', ((turnOver d s z g).bind fun r => rbInsertFixup (n + 1) r.1 r.2) = some s' ∧ Is s' (turned c d P m Q g b) ∧
      s'.color = blacken (turnedColor s.color m g) (turned c d P m Q g b) ∧
      ∀ k, k ∉ (turned c d P m Q g b).keys → s'.node k = s.node k := by
  have hzm : (s.node z).parent = some m := by
    have hdown : Holds s (⟨d, m, Q⟩ :: ⟨d, g, b⟩ :: c) P := Holds.down h
    exact hdown.parent_of_root hz
  have hmg : m ≠ g := by
    rintro rfl
    exact h.disjoint (KTree.root_mem (KTree.root_fork d P m Q)) mem_cons_self
  -- the tree at g, written from the other side
  have hcol := (h.setColor m .black).setColor g .red
  have hup : Holds ((s.setColor m .black).setColor g .red) c (.fork d.other b g (.fork d.other Q m P)) := by
    rw [KTree.fork_other, KTree.fork_other]
    exact hcol.up
  obtain ⟨s2, hrot, hh, hout, hcolor⟩ := rotate_spec hup
  have hdown : Holds s2 (⟨d, m, .fork d.other b g Q⟩ :: c) P := by
    refine Holds.down (f := ⟨d, m, .fork d.other b g Q⟩) ?_
    rw [KTree.fork_other] at hh
    exact hh
  have hblack : (s2.node m).color ≠ .red := by
    rw [hcolor, setColor_color, if_neg hmg, setColor_color, if_pos rfl]
    decide
  have hcolors : s2.color = turnedColor s.color m g := by
    have e : s2.color = ((s.setColor m .black).setColor g .red).color := funext hcolor
    rw [e, color_setColor, color_setColor, turnedColor]
  obtain ⟨s', h1, h2, h3, h4⟩ := blackRoot_spec (is_plug.2 hdown) (mem_plug.2 (.inl (KTree.root_mem hz)))
  rw [hcolors] at h3
  refine ⟨s', ?_, h2, h3, fun k hk => (h4 k hk).trans ?_⟩
  · rw [turnOver, hzm, bind_some, rbRotate_eq, hrot]
    exact (fixup_black hdown hz hblack).trans h1
  rw [turned_keys, mem_plug, not_or] at hk
  have hkg : k ≠ g := fun e => hk.2 (e ▸ mem_cons_self)
  have hkm : k ≠ m := by
    rintro rfl
    exact hk.1 (KTree.root_mem (KTree.root_fork d P k Q))
  rw [hout k ?_ fun hc => hk.2 (mem_cons_of_mem _ (List.mem_append_right _ hc)), setColor_other _ k g _ hkg,
    setColor_other _ k m _ hkm]
  rw [KTree.fork_other, KTree.fork_other, KTree.mem_keys_fork, not_or, not_or]
  exact ⟨hkg, hk.1, fun hb => hk.2 (mem_cons_of_mem _ (mem_append_left _ hb))⟩

omit [DecidableEq K] in
/-- the sibling of the parent as the fixup sees it -/
theorem redUncle_spec (h : Holds s (⟨d, g, b⟩ :: c) t) :
    (redUncle s d g = none ∧ rootColor s.color b = .black) ∨
    ∃ y, redUncle s d g = some y ∧ b.root = some y ∧ s.color y = .red := by
  obtain ⟨-, -, h3, -⟩ := h.ctx
  have hu : redUncle s d g = b.root.filter fun y => decide ((s.node y).color = .red) := by
    exact congrArg (Option.filter _) h3
  rw [hu]
  cases b with
  | nil => exact .inl ⟨rfl, rfl⟩
  | node l y r =>
    by_cases hy : (s.node y).color = .red
    · exact .inr ⟨y, Option.filter_eq_some_iff.2 ⟨rfl, decide_eq_true hy⟩, rfl, hy⟩
    · refine .inl ⟨?_, color_ne_red.1 hy⟩
      rw [KTree.root, Option.filter_some, decide_eq_false hy]
      rfl

/-- **Fixup.** From any position of a new node, with fuel for the path to the root, the fixup ends, and it does to the
tree and its colours what the repair of red-black trees does. -/
theorem rbInsertFixup_spec (h : Holds s c t) (hz : t.root = some z)
    (hn : c.length + 2 ≤ n) : ∃ s' T, rbInsertFixup n s z = some s' ∧ Settled s s' c t T := by
  -- by induction on the fuel; a round that recolours moves up two frames, any other round is the last
  induction n generalizing s c t z with
  | zero => cases hn
  | succ n ih =>
    rcases c with _ | ⟨⟨d1, p, b1⟩, c⟩
    · have hp : (s.node z).parent = none := h.parent_of_root hz
      rw [rbInsertFixup, hp]
      exact settled_blackRoot h hz .root
    by_cases hred : (s.node p).color = .red
    swap
    · rw [fixup_black h hz hred]
      exact settled_blackRoot h hz (.done (color_ne_red.1 hred))
    have hp : (s.node z).parent = some p := h.parent_of_root hz
    have hup := h.up
    have hpr : (Frame.fill ⟨d1, p, b1⟩ t).root = some p := KTree.root_fork d1 t p b1
    have hgp := hup.parent_of_root hpr
    rw [rbInsertFixup, hp]
    simp only [if_pos hred, hgp]
    rcases c with _ | ⟨⟨d2, g, b2⟩, c⟩
    · exact settled_blackRoot h hz .top
    simp only [Ctx.parent, List.head?_cons, map_some, side_eq hup hpr]
    obtain ⟨m, hm⟩ : ∃ m, n = m + 1 := ⟨n - 1, by simp only [length_cons] at hn; omega⟩
    rcases redUncle_spec hup with ⟨hu, hb⟩ | ⟨y, hu, hy, hyr⟩
    · simp only [fixupRound, hu]
      obtain ⟨-, hside, hother, -⟩ := h.ctx
      rw [hz] at hside
      rcases d2.eq_or d1 with rfl | rfl
      · have hne : (s.node p).child d1.other ≠ some z := by
          intro e
          exact h.disjoint (KTree.root_mem hz)
            (mem_cons_of_mem _ (mem_append_left _ (KTree.root_mem (hother.symm.trans e))))
        rw [if_neg hne, hm]
        obtain ⟨s', h1, h2, h3, h4⟩ := turnOver_spec (n := m) hup hz
        rw [turned_keys] at h4
        exact ⟨s', _, h1, h2, h3 ▸ Settles.outer hred hb, h4⟩
      -- a node on the inner side is first rotated to the outer side
      obtain ⟨tl, tr, rfl⟩ := KTree.exists_fork d2 hz
      have hin : Holds s (⟨d2, g, b2⟩ :: c) (.fork d2 b1 p (.fork d2 tl z tr)) := by
        rw [← KTree.fork_other]
        exact hup
      obtain ⟨s1, hrot, hh, hout, hcolor⟩ := rotate_spec hin
      rw [if_pos hside, rbRotate_eq, hrot, bind_some, hm]
      obtain ⟨s', h1, h2, h3, h4⟩ := turnOver_spec (n := m) hh (KTree.root_fork d2 b1 p tl)
      have hcolors : s1.color = s.color := funext hcolor
      rw [hcolors] at h3
      have hsettles : Settles s.color (⟨d2.other, p, b1⟩ :: ⟨d2, g, b2⟩ :: c) (.fork d2 tl z tr) s'.color
          (turned c d2 (.fork d2 b1 p tl) z tr g b2) := h3 ▸ Settles.inner hred hb
      refine ⟨s', _, h1, h2, hsettles, fun k hk => ?_⟩
      rw [hsettles.keys] at h4
      have hplug : plug (⟨d2.other, p, b1⟩ :: ⟨d2, g, b2⟩ :: c) (.fork d2 tl z tr) =
          plug (⟨d2, g, b2⟩ :: c) (.fork d2 b1 p (.fork d2 tl z tr)) := by
        rw [← KTree.fork_other d2 _ p]
        rfl
      rw [hplug, mem_plug, not_or] at hk
      refine (h4 k ?_).trans (hout k hk.1 hk.2)
      rw [hplug, mem_plug, not_or]
      exact hk
    · simp only [fixupRound, hu, bind_some]
      have hcol := ((hup.up.setColor p .black).setColor y .black).setColor g .red
      obtain ⟨s', T, hs', hfix⟩ := ih hcol (KTree.root_fork d2 _ g b2) (by simp only [length_cons] at hn; omega)
      have hset := hfix.settles
      rw [color_setColor, color_setColor, color_setColor] at hset
      refine ⟨s', T, hs', hfix.is, .recolor hred hy hyr hset, fun k hk => (hfix.other k hk).trans ?_⟩
      -- the three recoloured nodes are in the tree
      rw [plug, plug, mem_plug, not_or, Frame.fill, KTree.mem_keys_fork, not_or, not_or, Frame.fill, KTree.mem_keys_fork,
        not_or] at hk
      obtain ⟨⟨hkg, ⟨hkp, -⟩, hkb⟩, -⟩ := hk
      have hky : k ≠ y := fun e => hkb (e ▸ KTree.root_mem hy)
      rw [setColor_other _ k g _ hkg, setColor_other _ k y _ hky, setColor_other _ k p _ hkp]

end Fixup

/-! ## Insertion -/

section Insert

variable {s : Store K} {c : Ctx K} {t : KTree K} {prio : K → ℤ} {key : ℤ} {z : K}

/-- the innermost step of the descent went to the side of the key -/
def Chosen (prio : K → ℤ) (key : ℤ) (c : Ctx K) : Prop :=
  ∀ f ∈ c.head?, f.side = if key < prio f.key then .left else .right

/-- the hole lies behind all keys that are not larger, and before the larger ones -/
def Between (prio : K → ℤ) (key : ℤ) (c : Ctx K) : Prop :=
  (∀ k ∈ c.before, prio k ≤ key) ∧ ∀ k ∈ c.after, key < prio k

omit [DecidableEq K] in
/-- one step of the descent in a sorted tree -/
theorem Between.step {l r : KTree K} (h : Between prio key c)
    (hs : (plug c (.node l k r)).keys.Pairwise fun a b => prio a ≤ prio b) :
    Between prio key (if key < prio k then ⟨.left, k, r⟩ :: c else ⟨.right, k, l⟩ :: c) := by
  rw [keys_plug, KTree.keys] at hs
  have hmid := (List.pairwise_append.1 (List.pairwise_append.1 hs).1).2.1
  obtain ⟨-, hkr, hlk⟩ := List.pairwise_append.1 hmid
  by_cases hlt : key < prio k
  · rw [if_pos hlt]
    refine ⟨by simpa [Ctx.before] using h.1, fun j hj => ?_⟩
    simp only [Ctx.after, cons_append, mem_cons, mem_append] at hj
    rcases hj with rfl | hj | hj
    · exact hlt
    · exact hlt.trans_le ((List.pairwise_cons.1 hkr).1 j hj)
    · exact h.2 j hj
  rw [if_neg hlt]
  refine ⟨fun j hj => ?_, by simpa [Ctx.after] using h.2⟩
  simp only [Ctx.before, mem_append, List.mem_singleton] at hj
  rcases hj with hj | hj | rfl
  · exact h.1 j hj
  · exact (hlk j hj k mem_cons_self).trans (not_lt.1 hlt)
  · exact not_lt.1 hlt

omit [DecidableEq K] in
/-- the descent ends at a hole of the tree -/
theorem rbSeek_spec (prio : K → ℤ) (key : ℤ) {n : ℕ} (h : Holds s c t) (hn : t.keys.length < n) (hc : Chosen prio key c)
    (hb : (plug c t).keys.Pairwise (fun a b => prio a ≤ prio b) → Between prio key c) :
    ∃ c', rbSeek prio key s n c.parent t.root = some c'.parent ∧ plug c' .nil = plug c t ∧ Chosen prio key c' ∧
      ((plug c t).keys.Pairwise (fun a b => prio a ≤ prio b) → Between prio key c') := by
  induction n generalizing c t with
  | zero => cases hn
  | succ n ih =>
    cases t with
    | nil => exact ⟨c, rfl, rfl, hc, hb⟩
    | node l k r =>
      obtain ⟨-, hl, hr, -⟩ := h.sub
      rw [KTree.keys, List.length_append, length_cons] at hn
      rw [KTree.root, rbSeek, hl, hr]
      have hstep := fun hs => (hb hs).step hs
      by_cases hlt : key < prio k
      · simp only [if_pos hlt] at hstep ⊢
        have hd : Holds s (⟨.left, k, r⟩ :: c) l := Holds.down (f := ⟨.left, k, r⟩) h
        exact ih hd (by omega) (fun f hf => by cases hf; exact (if_pos hlt).symm) hstep
      · simp only [if_neg hlt] at hstep ⊢
        have hd : Holds s (⟨.right, k, l⟩ :: c) r := Holds.down (f := ⟨.right, k, l⟩) h
        exact ih hd (by omega) (fun f hf => by cases hf; exact (if_neg hlt).symm) hstep

theorem freshNode_other (s : Store K) (par : Option K) (h : k ≠ z) : (freshNode s z par).node k = s.node k :=
  Function.update_of_ne h _ _

/-- linking the new node z at a hole -/
theorem link_spec {s' : Store K} (h : Holds s c .nil) (hc : Chosen prio key c) (hz : z ∉ c.keys)
    (hnode : s.node z = ⟨c.parent, none, none, .red⟩) (hs' : s' = match c.parent with
      | none => { s with root := some z }
      | some p => if key < prio p then s.setChild .left p (some z) else s.setChild .right p (some z)) :
    Holds s' c (.node .nil z .nil) ∧ (∀ k, k ∉ c.keys → s'.node k = s.node k) ∧ s'.color = s.color := by
  have hn : ((KTree.node .nil z .nil).keys ++ c.keys).Nodup := nodup_cons.2 ⟨hz, h.nodup⟩
  have hlinks : ∀ {n : K → Node K}, n z = s.node z → Rep n c.parent (.node .nil z .nil) := by
    intro n e
    rw [hnode] at e
    exact ⟨congrArg Node.parent e, congrArg Node.left e, congrArg Node.right e, trivial, trivial⟩
  cases c with
  | nil =>
    subst hs'
    exact ⟨⟨trivial, hlinks rfl, rfl, hn⟩, fun _ _ => rfl, rfl⟩
  | cons f c =>
    have hlink : s' = s.setChild f.side f.key (some z) := by
      rw [hs', hc f rfl]
      simp only [Ctx.parent, List.head?_cons, map_some]
      split_ifs <;> rfl
    subst hlink
    have hsame : ∀ k, k ∉ Ctx.keys (f :: c) → (s.setChild f.side f.key (some z)).node k = s.node k :=
      fun k hk => setChild_other s k f.key f.side _ fun e => hk (e ▸ mem_cons_self)
    exact ⟨⟨h.ctx.point h.nodup (some z), hlinks (hsame z hz), h.root, hn⟩, hsame,
      funext fun k => setChild_color s k f.key f.side _⟩

theorem color_freshNode (s : Store K) (z : K) (par : Option K) :
    (freshNode s z par).color = update s.color z .red := by
  funext k
  simp only [Store.color, freshNode, Function.update_apply]
  split_ifs <;> rfl

/-- **Insertion.** The new node is linked, red, at a hole of the tree behind all keys that are not larger and before the
larger ones; then the tree is repaired. -/
theorem rbInsert_settles (prio : K → ℤ) (key : ℤ) (h : Is s T) (hz : z ∉ T.keys)
    (hn : T.keys.length + 2 ≤ fuel) : ∃ s' c T', rbInsert fuel prio s z key = some s' ∧ plug c .nil = T ∧ Is s' T' ∧
      Settles (update s.color z .red) c (.node .nil z .nil) s'.color T' ∧
      (∀ k, k ∉ (plug c (.node .nil z .nil)).keys → s'.node k = s.node k) ∧
      (T.keys.Pairwise (fun a b => prio a ≤ prio b) → Between prio key c) := by
  have h0 : Holds (freshNode s z none) [] T :=
    is_plug.1 (h.congr rfl fun k hk => freshNode_other s none fun e => hz (e ▸ hk))
  have hchosen : Chosen prio key ([] : Ctx K) := fun f hf => by cases hf
  have hbetween : Between prio key ([] : Ctx K) := by
    constructor <;> intro k hk <;> cases hk
  obtain ⟨c, hseek, hplug, hc, hb⟩ := rbSeek_spec prio key h0 (n := fuel) (by omega) hchosen fun _ => hbetween
  have hzc : z ∉ c.keys := by
    intro hk
    have hm : z ∈ (plug c .nil).keys := mem_plug.2 (.inr hk)
    rw [hplug] at hm
    exact hz hm
  have hlen : c.length + 2 ≤ fuel := by
    have hp : c.keys.length = T.keys.length := by
      have := (keys_plug_perm c .nil).length_eq
      rw [hplug] at this
      exact this.symm
    have := c.length_le
    omega
  -- the node is linked at the hole, then the fixup runs
  let s1 := freshNode (freshNode s z none) z c.parent
  have hout1 : ∀ k, k ≠ z → s1.node k = s.node k := fun k hk =>
    (freshNode_other _ _ hk).trans (freshNode_other s none hk)
  have h1 : Holds s1 c .nil := by
    have hnil : Holds (freshNode s z none) c .nil := is_plug.1 (hplug ▸ is_plug.2 h0)
    refine hnil.congr rfl fun k hk => freshNode_other _ _ ?_
    rw [hplug] at hk
    exact fun e => hz (e ▸ hk)
  obtain ⟨hlink, hsame, hcolor⟩ := link_spec h1 hc hzc (Function.update_self z _ _) rfl
  obtain ⟨s', T', hs', hfix⟩ := rbInsertFixup_spec (n := fuel) hlink rfl hlen
  refine ⟨s', c, T', ?_, hplug, hfix.is, ?_, fun k hk => (hfix.other k hk).trans ?_, hb⟩
  · rw [rbInsert]
    have hroot : (freshNode s z none).root = T.root := h.root
    rw [hroot]
    have hseek' : rbSeek prio key (freshNode s z none) fuel none T.root = some c.parent := hseek
    simp only [hseek', bind_eq_bind, bind_some]
    exact hs'
  · have hcol : s1.color = update s.color z .red := by
      rw [color_freshNode, color_freshNode, Function.update_idem]
    have hset := hfix.settles
    rwa [hcolor, hcol] at hset
  · rw [mem_plug, not_or] at hk
    exact (hsame k hk.2).trans (hout1 k fun e => hk.1 (e ▸ KTree.root_mem rfl))

/-- in terms of the keys: the other keys keep their order -/
theorem rbInsert_spec (prio : K → ℤ) (key : ℤ) (h : Is s T) (hz : z ∉ T.keys) (hn : T.keys.length + 2 ≤ fuel) :
    ∃ s' L R, rbInsert fuel prio s z key = some s' ∧ T.keys = L ++ R ∧ Fixed s s' (L ++ z :: R) ∧
      (T.keys.Pairwise (fun a b => prio a ≤ prio b) → (∀ k ∈ L, prio k ≤ key) ∧ ∀ k ∈ R, key < prio k) := by
  obtain ⟨s', c, T', h1, rfl, h3, h4, h5, h6⟩ := rbInsert_settles prio key h hz hn
  have hk : ∀ t : KTree K, (plug c t).keys = c.before ++ (t.keys ++ c.after) := fun t => by
    rw [keys_plug, append_assoc]
  refine ⟨s', c.before, c.after, h1, hk .nil, ⟨⟨T', h3, h4.keys.trans (hk _)⟩, fun k hk' => h5 k ?_⟩, h6⟩
  rw [hk]
  exact hk'

end Insert

/-! ## The leftmost node -/

section Leftmost

variable {s : Store K}

omit [DecidableEq K] in
/-- walking left ends at the first key, below left children only -/
theorem walkLeft_spec {par : Option K} {n : ℕ} (h : Rep s.node par t) (hk : t.root = some k)
    (hn : t.keys.length ≤ n) : ∃ c y r, walkLeft s n k = some y ∧ t = plug c (.node .nil y r) ∧
      ∀ f ∈ c, f.side = .left := by
  induction t generalizing par k n with
  | nil => cases hk
  | node l j r ihl ihr =>
    cases hk
    rw [KTree.keys, List.length_append, length_cons] at hn
    obtain ⟨n, rfl⟩ : ∃ m, n = m + 1 := ⟨n - 1, by omega⟩
    obtain ⟨-, hl, -, hrl, -⟩ := h
    rcases hroot : l.root with _ | i
    · rw [KTree.root_none hroot]
      refine ⟨[], j, r, ?_, rfl, fun f hf => by cases hf⟩
      rw [walkLeft, hl, hroot]
    obtain ⟨c, y, b, hw, he, hc⟩ := ihl hrl hroot (n := n) (by omega)
    refine ⟨c ++ [⟨.left, j, r⟩], y, b, ?_, ?_, fun f hf => ?_⟩
    · rw [walkLeft, hl, hroot]
      exact hw
    · rw [plug_append, ← he]
      rfl
    · rcases mem_append.1 hf with hf | hf
      · exact hc f hf
      · rw [List.mem_singleton.1 hf]

omit [DecidableEq K] in
/-- nothing comes before a hole below left children only -/
theorem before_of_left {c : Ctx K} (h : ∀ f ∈ c, f.side = .left) : c.before = [] := by
  induction c with
  | nil => rfl
  | cons f c ih =>
    rw [Ctx.before, ih fun g hg => h g (mem_cons_of_mem _ hg), h f mem_cons_self]
    rfl

omit [DecidableEq K] in
/-- **Leftmost.** NULL for the empty tree, else the first key. -/
theorem rbLeftmost_spec (h : Is s T) (hn : T.keys.length ≤ fuel) :
    rbLeftmost fuel s = some T.keys.head? := by
  rcases hroot : T.root with _ | r
  · rw [rbLeftmost, h.root, hroot, KTree.root_none hroot]
    rfl
  obtain ⟨c, y, b, hw, he, hc⟩ := walkLeft_spec h.rep hroot hn
  rw [rbLeftmost, h.root, hroot, he, keys_plug, before_of_left hc]
  simp only [hw]
  rfl

end Leftmost

/-! ## Removal -/

section Remove

variable {s : Store K} {c : Ctx K}

/-- removal of z from between l and r, without repair: the tree afterwards and its colours -/
inductive Cuts (col : K → Color) (c : Ctx K) (z : K) : KTree K → KTree K → (K → Color) → KTree K → Prop where
  | right (r : KTree K) : Cuts col c z .nil r (blacken col (plug c r)) (plug c r)
  | left (l : KTree K) : Cuts col c z l .nil (blacken col (plug c l)) (plug c l)
  /-- the successor y takes the place and the colour of z -/
  | both {l : KTree K} {cl : Ctx K} {y : K} {b : KTree K} (hl : l ≠ .nil) (hcl : ∀ f ∈ cl, f.side = .left) :
      Cuts col c z l (plug cl (.node .nil y b))
        (blacken (update col y (col z)) (plug c (.node l y (plug cl b)))) (plug c (.node l y (plug cl b)))

variable {T l r : KTree K} {z y : K}

theorem Cuts.keys {col col' : K → Color} (h : Cuts col c z l r col' T) :
    T.keys = c.before ++ (l.keys ++ r.keys) ++ c.after := by
  cases h with
  | right => exact keys_plug c r
  | left => rw [keys_plug, KTree.keys, List.append_nil]
  | both hl hcl =>
    rw [keys_plug, KTree.keys, keys_plug, keys_plug, before_of_left hcl]
    simp [KTree.keys]

/-- a node with at most one child is replaced by that child -/
theorem removeSingle_spec {d : Side} (h : Holds s c (.fork d t z .nil)) : Holds (removeSingle s z t.root) c t ∧
    z ∉ (plug c t).keys ∧ (∀ k, k ∉ t.keys → k ∉ c.keys → (removeSingle s z t.root).node k = s.node k) ∧
    (removeSingle s z t.root).color = s.color := by
  obtain ⟨hz1, hz2, -, ht, -⟩ := (rep_fork s.node c.parent d t z .nil).1 h.sub
  have hn := ((KTree.keys_fork_perm d t z .nil).append_right c.keys).nodup_iff.1 h.nodup
  rw [KTree.keys, List.append_nil, cons_append, nodup_cons, mem_append, not_or] at hn
  obtain ⟨⟨hzt, hzc⟩, hn⟩ := hn
  obtain ⟨hnt, hnc, hd⟩ := nodup_append.1 hn
  have hctx := h.ctx
  have hroot := h.root
  rw [KTree.root_fork] at hctx hroot
  obtain ⟨g1, g2, g3, g4⟩ := graft_ctx hctx hroot hnc hzc .left t.root
  rw [← hz1] at g1 g2 g3 g4
  -- the parent of z is read after the graft, which does not write z
  have hpar : ((transplant s z t.root).node z).parent = c.parent := (congrArg Node.parent (g3 z hzc)).trans hz1
  have hrem : removeSingle s z t.root = (transplant s z t.root).reparent t.root c.parent := by
    rw [removeSingle, hpar]
  have hout : ∀ k, k ∉ c.keys → t.root ≠ some k → (removeSingle s z t.root).node k = s.node k := by
    intro k hk hr
    rw [hrem, reparent_other _ k _ hr]
    exact g3 k hk
  refine ⟨⟨?_, ?_, ?_, hn⟩, mem_plug.not.2 (not_or.2 ⟨hzt, hzc⟩), fun k hk hkc => hout k hkc (KTree.root_ne hk),
    funext fun k => ?_⟩
  · exact g1.congr fun k hk => reparent_other _ k _ fun hr => hd k (KTree.root_mem hr) k hk rfl
  · rw [hrem]
    exact (ht.congr fun k hk => g3 k fun hkc => hd k hk k hkc rfl).reparent hnt c.parent
  · rw [hrem, reparent_root]
    exact g2
  · rw [hrem, Store.color, reparent_color]
    exact g4 k

theorem color_removeEnd (h : s.root = T.root) (z : K) : (removeEnd s z).color = blacken s.color T := by
  funext k
  rw [Store.color, removeEnd, setParent_color, setChild_color, setChild_color, h, blacken]
  rcases T.root with _ | r
  · rfl
  · exact congrFun (color_setColor s r .black) k

theorem color_detach {s' : Store K} (h : detach s z y = some s') : s'.color = s.color := by
  rw [detach] at h
  split_ifs at h
  · cases h
    rfl
  obtain ⟨yp, -, rfl⟩ := Option.map_eq_some_iff.1 h
  funext k
  rw [Store.color, reparent_color, setChild_color, setChild_color, reparent_color]
  rfl

/-- the last lines of the removal, for a node that is out of the tree -/
theorem removeEnd_spec (h : Is s T) (hz : z ∉ T.keys) :
    Is (removeEnd s z) T ∧ ((removeEnd s z).node z).parent = none ∧ (∀ d, ((removeEnd s z).node z).child d = none) ∧
    ∀ k, k ≠ z → k ∉ T.keys → (removeEnd s z).node k = s.node k := by
  -- the store with the root black
  obtain ⟨s1, hs1, h1, hout⟩ : ∃ s1, removeEnd s z = ((s1.setChild .left z none).setChild .right z none).setParent z none ∧
      Is s1 T ∧ ∀ k, k ∉ T.keys → s1.node k = s.node k := by
    rcases hr : s.root with _ | r
    · exact ⟨s, by rw [removeEnd, hr], h, fun _ _ => rfl⟩
    · refine ⟨s.setColor r .black, by rw [removeEnd, hr], is_plug.2 ((is_plug (c := [])).1 h |>.setColor r .black), ?_⟩
      intro k hk
      exact setColor_other s k r _ fun e => hk (e ▸ KTree.root_mem (h.root.symm.trans hr))
  have hsame : ∀ k, k ≠ z → (removeEnd s z).node k = s1.node k := by
    intro k hk
    rw [hs1, setParent_other _ k z _ hk, setChild_other _ k z _ _ hk, setChild_other _ k z _ _ hk]
  refine ⟨h1.congr ?_ fun k hk => hsame k fun e => hz (e ▸ hk), ?_, fun d => ?_, fun k hk hkT => ?_⟩
  · rw [hs1]
    rfl
  · rw [hs1, setParent_parent, if_pos rfl]
  · rw [hs1]
    cases d <;> simp
  · exact (hsame k hk).trans (hout k hkT)

/-- the successor y is ready to take the place of z, above R: its right link and the parent of R are set -/
structure Ready (s : Store K) (c : Ctx K) (l : KTree K) (z y : K) (R : KTree K) : Prop where
  ctx : RepCtx s.node c (some z)
  root : s.root = c.top (some z)
  parent : (s.node z).parent = c.parent
  left : (s.node z).left = l.root
  lrep : Rep s.node (some z) l
  rrep : Rep s.node (some y) R
  right : (s.node y).right = R.root
  nodup : (y :: z :: (l.keys ++ (R.keys ++ c.keys))).Nodup

theorem succeed_spec {R : KTree K} (h : Ready s c l z y R) : Holds (succeed s z y) c (.node l y R) ∧
    (∀ k, k ≠ y → k ∉ l.keys → k ∉ c.keys → (succeed s z y).node k = s.node k) ∧
    (succeed s z y).color = update s.color y (s.color z) := by
  have hn := h.nodup
  simp only [nodup_cons, mem_cons, mem_append, not_or, nodup_append] at hn
  obtain ⟨⟨hyz, hyl, hyR, hyc⟩, ⟨hzl, hzR, hzc⟩, hnl, ⟨hnR, hnc, hRc⟩, hlRc⟩ := hn
  obtain ⟨g1, g2, g3, g4⟩ := graft_ctx h.ctx h.root hnc hzc .left (some y)
  rw [← h.parent] at g1 g2 g3 g4
  have ez : (transplant s z (some y)).node z = s.node z := g3 z hzc
  -- all reads of z give what z had before
  let s1 := (transplant s z (some y)).setParent y c.parent
  let s2 := s1.setChild .left y l.root
  let s3 := s2.reparent l.root (some y)
  have hsucc : succeed s z y = s3.setColor y (s.node z).color := by
    have e1 : ((transplant s z (some y)).node z).parent = c.parent := (congrArg Node.parent ez).trans h.parent
    have e2 : (s1.node z).left = l.root := by
      rw [setParent_other _ z y _ (Ne.symm hyz), ez]
      exact h.left
    have e3 : (s2.node y).left = l.root := by
      have := setChild_child s1 y y .left .left l.root
      rwa [if_pos ⟨rfl, rfl⟩] at this
    have e4 : (s3.node z).color = (s.node z).color := by
      rw [reparent_color, setChild_color, setParent_color]
      exact congrArg Node.color ez
    rw [succeed]
    simp only [e1, e2, e3, e4, s1, s2, s3]
  have hsame : ∀ k, k ≠ y → l.root ≠ some k → k ∉ c.keys → (succeed s z y).node k = s.node k := by
    intro k h1 h2 h3
    rw [hsucc, setColor_other _ k y _ h1, reparent_other _ k _ h2, setChild_other _ k y _ _ h1,
      setParent_other _ k y _ h1]
    exact g3 k h3
  have hy : ((succeed s z y).node y).parent = c.parent ∧ ((succeed s z y).node y).child .left = l.root ∧
      ((succeed s z y).node y).child .right = R.root := by
    rw [hsucc]
    refine ⟨?_, ?_, ?_⟩
    · rw [setColor_parent, reparent_parent, if_neg (KTree.root_ne hyl), setChild_parent, setParent_parent, if_pos rfl]
    · rw [setColor_child, reparent_child, setChild_child, if_pos ⟨rfl, rfl⟩]
    · rw [setColor_child, reparent_child, setChild_child, if_neg (fun e => absurd e.2 (by decide)), setParent_child]
      exact (congrArg (Node.child · .right) (g3 y hyc)).trans h.right
  refine ⟨⟨?_, ⟨hy.1, hy.2.1, hy.2.2, ?_, ?_⟩, ?_, ?_⟩, fun k h1 h2 h3 => hsame k h1 (KTree.root_ne h2) h3, ?_⟩
  · refine g1.congr fun k hk => ?_
    have hky : k ≠ y := fun e => hyc (e ▸ hk)
    have hkl : l.root ≠ some k := KTree.root_ne fun hl => hlRc k hl k (.inr hk) rfl
    rw [hsucc, setColor_other _ k y _ hky, reparent_other _ k _ hkl, setChild_other _ k y _ _ hky,
      setParent_other _ k y _ hky]
    rfl
  · have hl : Rep s2.node (some z) l := by
      refine h.lrep.congr fun k hk => ?_
      have hky : k ≠ y := fun e => hyl (e ▸ hk)
      rw [setChild_other _ k y _ _ hky, setParent_other _ k y _ hky]
      exact g3 k fun hkc => hlRc k hk k (.inr hkc) rfl
    rw [hsucc]
    exact (hl.reparent hnl (some y)).congr fun k hk => setColor_other _ k y _ fun e => hyl (e ▸ hk)
  · exact h.rrep.congr fun k hk => hsame k (fun e => hyR (e ▸ hk)) (KTree.root_ne fun hl => hlRc k hl k (.inl hk) rfl)
      fun hkc => hRc k hk k hkc rfl
  · exact (reparent_root _ _ _).trans g2
  · rw [KTree.keys, append_assoc, cons_append]
    refine perm_middle.nodup_iff.2 (nodup_cons.2 ⟨?_, ?_⟩)
    · simp only [mem_append, not_or]
      exact ⟨hyl, hyR, hyc⟩
    · exact (nodup_cons.1 (nodup_cons.1 h.nodup).2).2
  · have hcol : s3.color = s.color := by
      funext k
      rw [Store.color, reparent_color, setChild_color, setParent_color]
      exact g4 k
    rw [hsucc, color_setColor, hcol]
    rfl

omit [DecidableEq K] in
/-- the successor is a child of z -/
theorem ready_of_child (h : Holds s c (.node l z (.node .nil y r))) : (s.node y).parent = some z ∧ Ready s c l z y r := by
  obtain ⟨hz1, hz2, -, hll, hy1, -, hy3, -, hrr⟩ := h.sub
  refine ⟨hy1, h.ctx, h.root, hz1, hz2, hll, hrr, hy3, ?_⟩
  have hp : ((KTree.node l z (.node .nil y r)).keys ++ c.keys).Perm (y :: z :: (l.keys ++ (r.keys ++ c.keys))) := by
    have e : (KTree.node l z (.node .nil y r)).keys ++ c.keys = l.keys ++ z :: y :: (r.keys ++ c.keys) := by
      simp [KTree.keys]
    rw [e]
    exact perm_middle.trans (((perm_middle).cons z).trans (List.Perm.swap y z _))
  exact hp.nodup_iff.1 h.nodup

/-- the successor lies deeper, below yp: it is cut out, and its right link is set -/
theorem ready_of_deep {cl : Ctx K} {b : KTree K} {yp : K}
    (h : Holds s c (.node l z (plug (⟨.left, yp, b⟩ :: cl) (.node .nil y r)))) :
    ∃ s', detach s z y = some s' ∧ Ready s' c l z y (plug (⟨.left, yp, b⟩ :: cl) r) ∧
      ∀ k, k ∉ (plug (⟨.left, yp, b⟩ :: cl) (.node .nil y r)).keys → s'.node k = s.node k := by
  -- the whole context of y
  let C : Ctx K := ⟨.left, yp, b⟩ :: (cl ++ ⟨.right, z, l⟩ :: c)
  have hplug : ∀ t, plug C t = plug c (.node l z (plug (⟨.left, yp, b⟩ :: cl) t)) := by
    intro t
    exact plug_append (⟨.left, yp, b⟩ :: cl) (⟨.right, z, l⟩ :: c) t
  have hC : Holds s C (.node .nil y r) := is_plug.1 ((hplug _).symm ▸ is_plug.2 h)
  obtain ⟨hy1, -, hy3, -, hrr⟩ := hC.sub
  have hyC : y ∉ C.keys := hC.disjoint (KTree.root_mem rfl)
  have hn : y ∉ r.keys ++ C.keys ∧ (r.keys ++ C.keys).Nodup := nodup_cons.1 hC.nodup
  obtain ⟨hnr, hnC, hrC⟩ := nodup_append.1 hn.2
  have hyr : y ∉ r.keys := fun hk => hn.1 (mem_append_left _ hk)
  have hypC : yp ∈ C.keys := mem_cons_self
  -- cut y out
  let s2 := (s.reparent r.root (some yp)).setChild .left yp r.root
  have hs2 : ∀ k, k ≠ yp → r.root ≠ some k → s2.node k = s.node k := fun k h1 h2 =>
    (setChild_other _ k yp _ _ h1).trans (reparent_other s k _ h2)
  have h2 : Holds s2 C r := by
    have hctx1 : RepCtx (s.reparent r.root (some yp)).node C (some y) :=
      hC.ctx.congr fun k hk => reparent_other s k _ (KTree.root_ne fun hkr => hrC k hkr k hk rfl)
    refine ⟨hctx1.point hnC r.root, (hrr.reparent hnr (some yp)).congr fun k hk => ?_, ?_, hn.2⟩
    · exact setChild_other _ k yp _ _ (hrC k hk yp hypC)
    · exact (reparent_root s _ _).trans hC.root
  -- seen from z again
  have hz : Holds s2 c (.node l z (plug (⟨.left, yp, b⟩ :: cl) r)) := is_plug.1 (hplug r ▸ is_plug.2 h2)
  generalize hR : plug (⟨.left, yp, b⟩ :: cl) r = R at hz ⊢
  have hyR : y ∉ R.keys ∧ y ≠ z ∧ y ∉ l.keys ∧ y ∉ c.keys := by
    have hy : y ∉ (plug C r).keys := by
      rw [mem_plug, not_or]
      exact ⟨hyr, hyC⟩
    rw [hplug, hR, mem_plug, KTree.keys, mem_append, mem_cons] at hy
    tauto
  obtain ⟨hz1, hz2, hz3, hll, hRR⟩ := hz.sub
  have hp : ((KTree.node l z R).keys ++ c.keys).Perm (z :: (l.keys ++ (R.keys ++ c.keys))) := by
    rw [KTree.keys, append_assoc, cons_append]
    exact perm_middle
  have hnz := hp.nodup_iff.1 hz.nodup
  have hd := hnz
  simp only [nodup_cons, mem_append, not_or, nodup_append] at hd
  obtain ⟨⟨hzl, hzR, hzc⟩, hnl, ⟨hnR, hnc, hRc⟩, hlRc⟩ := hd
  let s4 := (s2.setChild .right y R.root).reparent R.root (some y)
  have hs4 : ∀ k, k ≠ y → R.root ≠ some k → s4.node k = s2.node k := fun k h1 h2 =>
    (reparent_other _ k _ h2).trans (setChild_other s2 k y _ _ h1)
  have hzs4 : s4.node z = s2.node z := hs4 z (Ne.symm hyR.2.1) (KTree.root_ne hzR)
  have hdet : detach s z y = some s4 := by
    have hne : (s.node y).parent ≠ some z := by
      rw [hy1]
      intro e
      cases e
      -- z is not one of the keys below it
      have hzp : yp ∈ (plug (⟨.left, yp, b⟩ :: cl) r).keys := mem_plug.2 (.inr mem_cons_self)
      rw [hR] at hzp
      exact hzR hzp
    have e3 : ((s2.setChild .right y R.root).node y).right = R.root := by
      have := setChild_child s2 y y .right .right R.root
      rwa [if_pos ⟨rfl, rfl⟩] at this
    rw [detach, if_neg hne, hy1]
    rw [hy3]
    show some ((s2.setChild .right y (s2.node z).right).reparent ((s2.setChild .right y (s2.node z).right).node y).right
      (some y)) = some s4
    rw [hz3, e3]
  refine ⟨s4, hdet, ⟨?_, ?_, ?_, ?_, ?_, ?_, ?_, ?_⟩, fun k hk => ?_⟩
  · exact hz.ctx.congr fun k hk => hs4 k (fun e => hyR.2.2.2 (e ▸ hk)) (KTree.root_ne fun hkR => hRc k hkR k hk rfl)
  · exact (reparent_root _ _ _).trans hz.root
  · rw [hzs4]
    exact hz1
  · rw [hzs4]
    exact hz2
  · exact hll.congr fun k hk => hs4 k (fun e => hyR.2.2.1 (e ▸ hk)) (KTree.root_ne fun hkR => hlRc k hk k (.inl hkR) rfl)
  · exact (hRR.congr fun k hk => setChild_other s2 k y _ _ fun e => hyR.1 (e ▸ hk)).reparent hnR (some y)
  · have := reparent_child (s2.setChild .right y R.root) y .right (some y) R.root
    rw [setChild_child, if_pos ⟨rfl, rfl⟩] at this
    exact this
  · refine nodup_cons.2 ⟨?_, hnz⟩
    simp only [mem_cons, mem_append, not_or]
    exact ⟨hyR.2.1, hyR.2.2.1, hyR.1, hyR.2.2.2⟩
  rw [mem_plug, KTree.keys, KTree.keys, List.nil_append, mem_cons, not_or, not_or] at hk
  obtain ⟨⟨hky, hkr⟩, hkc⟩ := hk
  have hkR : k ∉ R.keys := by
    rw [← hR, mem_plug, not_or]
    exact ⟨hkr, hkc⟩
  exact (hs4 k hky (KTree.root_ne hkR)).trans (hs2 k (fun e => hkc (e ▸ mem_cons_self)) (KTree.root_ne hkr))

/-- z is out of the tree with its links cleared, the other keys are left -/
structure Removed (s s' : Store K) (z : K) (keys : List K) : Prop where
  is : ∃ T, Is s' T ∧ T.keys = keys
  parent : (s'.node z).parent = none
  child : ∀ d, (s'.node z).child d = none
  other : ∀ k, k ≠ z → k ∉ keys → s'.node k = s.node k

/-- the same, with the tree that is left -/
structure CutOut (s s' : Store K) (c : Ctx K) (l : KTree K) (z : K) (r T : KTree K) : Prop where
  is : Is s' T
  cuts : Cuts s.color c z l r s'.color T
  parent : (s'.node z).parent = none
  child : ∀ d, (s'.node z).child d = none
  other : ∀ k, k ≠ z → k ∉ T.keys → s'.node k = s.node k

theorem cutOut_of {s1 : Store K} (h : Holds s1 c t) (hz : z ∉ (plug c t).keys)
    (hcuts : Cuts s.color c z l r (blacken s1.color (plug c t)) (plug c t))
    (hout : ∀ k, k ≠ z → k ∉ (plug c t).keys → s1.node k = s.node k) : CutOut s (removeEnd s1 z) c l z r (plug c t) := by
  have hI := is_plug.2 h
  obtain ⟨e1, e2, e3, e4⟩ := removeEnd_spec hI hz
  exact ⟨e1, color_removeEnd hI.root z ▸ hcuts, e2, e3, fun k hk hk' => (e4 k hk hk').trans (hout k hk hk')⟩

/-- the removal of a node with at most one child -/
theorem cutOut_single {d : Side} (h : Holds s c (.fork d t z .nil))
    (hcuts : Cuts s.color c z l r (blacken s.color (plug c t)) (plug c t)) :
    CutOut s (removeEnd (removeSingle s z t.root) z) c l z r (plug c t) := by
  obtain ⟨h1, hz, hout, hcol⟩ := removeSingle_spec h
  refine cutOut_of h1 hz (hcol ▸ hcuts) fun k _ hk => ?_
  rw [mem_plug, not_or] at hk
  exact hout k hk.1 hk.2

/-- **Removal.** Any node of the tree; no repair follows. -/
theorem rbRemoveNode_cuts (h : Holds s c (.node l z r)) (hn : r.keys.length ≤ fuel) :
    ∃ s' T, rbRemoveNode fuel s z = some s' ∧ CutOut s s' c l z r T := by
  obtain ⟨-, hl, hr, -, hrr⟩ := h.sub
  have hp : ((KTree.node l z r).keys ++ c.keys).Perm (z :: (l.keys ++ r.keys ++ c.keys)) :=
    perm_middle.append_right c.keys
  have hz := (nodup_cons.1 (hp.nodup_iff.1 h.nodup)).1
  simp only [mem_append, not_or] at hz
  rcases hlr : l.root with _ | lk
  · -- no left child
    rw [KTree.root_none hlr] at h ⊢
    refine ⟨_, _, ?_, cutOut_single (d := .right) h (.right r)⟩
    rw [rbRemoveNode, hl, hlr, hr]
  rcases hrr' : r.root with _ | rk
  · -- no right child
    rw [KTree.root_none hrr'] at h ⊢
    refine ⟨_, _, ?_, cutOut_single (d := .left) h (.left l)⟩
    rw [rbRemoveNode, hl, hlr, hr, hrr']
  -- two children: the successor takes the place
  obtain ⟨cl, y, b, hw, he, hcl⟩ := walkLeft_spec hrr hrr' hn
  have hready : ∃ s1, detach s z y = some s1 ∧ Ready s1 c l z y (plug cl b) ∧
      ∀ k, k ∉ r.keys → s1.node k = s.node k := by
    subst he
    rcases cl with _ | ⟨⟨d, yp, sib⟩, cl⟩
    · obtain ⟨hpar, hrdy⟩ := ready_of_child h
      exact ⟨s, if_pos hpar, hrdy, fun _ _ => rfl⟩
    · have hd : d = .left := hcl _ mem_cons_self
      subst hd
      exact ready_of_deep h
  obtain ⟨s1, hdet, hrdy, hout1⟩ := hready
  obtain ⟨h2, hout2, hcol⟩ := succeed_spec hrdy
  have hlne : l ≠ .nil := by
    rintro rfl
    cases hlr
  have hcuts : Cuts s.color c z l r (blacken (succeed s1 z y).color (plug c (.node l y (plug cl b))))
      (plug c (.node l y (plug cl b))) := by
    rw [hcol, color_detach hdet, he]
    exact .both hlne hcl
  have hkeys : (KTree.node l y (plug cl b)).keys = l.keys ++ r.keys := by
    rw [he, KTree.keys, keys_plug, keys_plug, before_of_left hcl]
    simp [KTree.keys]
  refine ⟨removeEnd (succeed s1 z y) z, plug c (.node l y (plug cl b)), ?_, ?_⟩
  · rw [rbRemoveNode, hl, hlr, hr, hrr']
    simp only [hw, hdet, bind_eq_bind, bind_some]
  refine cutOut_of h2 (by rw [mem_plug, hkeys, mem_append]; tauto) hcuts fun k hkz hk => ?_
  rw [mem_plug, hkeys, mem_append] at hk
  have hky : k ≠ y := by
    rintro rfl
    refine hk (.inl (.inr ?_))
    rw [he, mem_plug]
    exact .inl (KTree.root_mem rfl)
  exact (hout2 k hky (by tauto) (by tauto)).trans (hout1 k (by tauto))

theorem CutOut.keys {s' : Store K} (h : CutOut s s' c l z r T) (hn : (plug c (.node l z r)).keys.Nodup) :
    T.keys = (plug c (.node l z r)).keys.erase z := by
  have hkeys : (plug c (.node l z r)).keys = (c.before ++ l.keys) ++ z :: (r.keys ++ c.after) := by
    rw [keys_plug, KTree.keys]
    simp only [append_assoc, cons_append]
  rw [hkeys] at hn ⊢
  have hnot : z ∉ c.before ++ l.keys := fun hm => (nodup_append.1 hn).2.2 z hm z mem_cons_self rfl
  rw [h.cuts.keys, List.erase_append_right _ hnot, List.erase_cons_head]
  simp only [append_assoc]

/-- in terms of the keys: the other keys keep their order -/
theorem rbRemoveNode_spec (h : Holds s c (.node l z r)) (hn : r.keys.length ≤ fuel) :
    ∃ s', rbRemoveNode fuel s z = some s' ∧ Removed s s' z ((plug c (.node l z r)).keys.erase z) := by
  obtain ⟨s', T, h1, h2⟩ := rbRemoveNode_cuts h hn
  have hkeys := h2.keys (is_plug.2 h).nodup
  refine ⟨s', h1, ⟨T, h2.is, hkeys⟩, h2.parent, h2.child, fun k hk hk' => h2.other k hk ?_⟩
  rw [hkeys]
  exact hk'

end Remove

end OpenASD.Sched
