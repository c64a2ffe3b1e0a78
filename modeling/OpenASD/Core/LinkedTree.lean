/-
Binary trees in a store of nodes with parent links. A store maps keys to nodes (`parent`, `left`, `right`, `color`) and
has one root pointer; pointers are `Option K`.

`Is s T` says that the links of the store spell out the tree T: every node points to its children and back to its
parent, and no key occurs twice. Colours are not part of it. A position in a tree is a context (`Ctx`), the frames from
the hole up to the root. `rep_plug` splits the links of a tree into those of the context and those of the subtree in its
hole, so a change of links at one place is reasoned about at that place:
- `Rep.congr`, `RepCtx.congr`: links are those of the keys of the tree, all other nodes may change;
- `Rep.reparent`: a subtree may be hung below another node;
- `graft_ctx`: the pointer into the hole may be replaced, which is the only change of the context.
In-order keys of a plugged tree are the keys before the hole, in it and after it (`keys_plug`).

`Store.Avoids s z` says that no pointer of the store leads to z, whatever the links are; updates that store no pointer to z
keep it.
-/
import Mathlib.Tactic

namespace OpenASD.LinkedTree

open List (mem_append mem_append_right mem_cons mem_cons_of_mem mem_cons_self perm_middle)

/-! ## Stores -/

inductive Color where
  | black
  | red
deriving DecidableEq, Repr

inductive Side where
  | left
  | right
deriving DecidableEq, Repr

def Side.other : Side → Side
  | .left => .right
  | .right => .left

@[simp] theorem Side.other_other (d : Side) : d.other.other = d := by cases d <;> rfl

@[simp] theorem Side.other_ne (d : Side) : d.other ≠ d := by cases d <;> decide

@[simp] theorem Side.ne_other (d : Side) : d ≠ d.other := by cases d <;> decide

theorem Side.eq_or (d e : Side) : e = d ∨ e = d.other := by cases d <;> cases e <;> decide

structure Node (K : Type) where
  parent : Option K
  left : Option K
  right : Option K
  color : Color
deriving DecidableEq, Repr

def Node.child {K : Type} (n : Node K) : Side → Option K
  | .left => n.left
  | .right => n.right

structure Store (K : Type) where
  node : K → Node K
  root : Option K

section Store

variable {K : Type} [DecidableEq K]

def Store.setParent (s : Store K) (k : K) (p : Option K) : Store K :=
  { s with node := Function.update s.node k { s.node k with parent := p } }

def Store.setChild (s : Store K) (d : Side) (k : K) (v : Option K) : Store K :=
  { s with node := Function.update s.node k (match d with
    | .left => { s.node k with left := v }
    | .right => { s.node k with right := v }) }

def Store.setColor (s : Store K) (k : K) (c : Color) : Store K :=
  { s with node := Function.update s.node k { s.node k with color := c } }

/-- the parent of the node behind a pointer; nothing happens at NULL -/
def Store.reparent (s : Store K) (k : Option K) (p : Option K) : Store K :=
  match k with
  | some k => s.setParent k p
  | none => s

/-- what the write of one entry of a table keeps -/
theorem update_keep {α β : Type*} (g : α → β) (t : K → α) (j : K) {k : K} {m : α} (hm : g m = g (t k)) :
    g (Function.update t k m j) = g (t j) := by
  by_cases h : j = k
  · rw [h, Function.update_self, hm]
  · rw [Function.update_of_ne h]

variable (s : Store K) (j k : K) (d e : Side) (p v : Option K) (c : Color)

@[simp] theorem setParent_parent : ((s.setParent k p).node j).parent = if j = k then p else (s.node j).parent := by
  simp only [Store.setParent, Function.update_apply]
  split_ifs <;> rfl

@[simp] theorem setParent_child : ((s.setParent k p).node j).child e = (s.node j).child e :=
  update_keep (·.child e) s.node j (by cases e <;> rfl)

@[simp] theorem setParent_color : ((s.setParent k p).node j).color = (s.node j).color := update_keep Node.color s.node j rfl

@[simp] theorem setChild_parent : ((s.setChild d k v).node j).parent = (s.node j).parent :=
  update_keep Node.parent s.node j (by cases d <;> rfl)

@[simp] theorem setChild_child : ((s.setChild d k v).node j).child e = if j = k ∧ e = d then v else (s.node j).child e := by
  by_cases h : j = k
  · subst h
    cases d <;> cases e <;> simp [Store.setChild, Node.child]
  · simp [Store.setChild, h]

@[simp] theorem setChild_color : ((s.setChild d k v).node j).color = (s.node j).color :=
  update_keep Node.color s.node j (by cases d <;> rfl)

@[simp] theorem setColor_parent : ((s.setColor k c).node j).parent = (s.node j).parent := update_keep Node.parent s.node j rfl

@[simp] theorem setColor_child : ((s.setColor k c).node j).child e = (s.node j).child e :=
  update_keep (·.child e) s.node j (by cases e <;> rfl)

@[simp] theorem setColor_color : ((s.setColor k c).node j).color = if j = k then c else (s.node j).color := by
  simp only [Store.setColor, Function.update_apply]
  split_ifs <;> rfl

@[simp] theorem reparent_parent (o : Option K) :
    ((s.reparent o p).node j).parent = if o = some j then p else (s.node j).parent := by
  cases o with
  | none => simp [Store.reparent]
  | some k => simp [Store.reparent, eq_comm]

@[simp] theorem reparent_child (o : Option K) : ((s.reparent o p).node j).child e = (s.node j).child e := by
  cases o <;> simp [Store.reparent]

@[simp] theorem reparent_color (o : Option K) : ((s.reparent o p).node j).color = (s.node j).color := by
  cases o <;> simp [Store.reparent]

@[simp] theorem reparent_root (o : Option K) : (s.reparent o p).root = s.root := by
  cases o <;> rfl

/-- the writes leave other nodes alone -/
theorem setParent_other (h : j ≠ k) : (s.setParent k p).node j = s.node j := by simp [Store.setParent, h]

theorem setChild_other (h : j ≠ k) : (s.setChild d k v).node j = s.node j := by simp [Store.setChild, h]

theorem setColor_other (h : j ≠ k) : (s.setColor k c).node j = s.node j := by simp [Store.setColor, h]

theorem reparent_other {o : Option K} (h : o ≠ some j) : (s.reparent o p).node j = s.node j := by
  cases o with
  | none => rfl
  | some k => exact setParent_other s j k p fun e => h (e ▸ rfl)

end Store

/-! ## Trees and contexts -/

inductive KTree (K : Type) where
  | nil
  | node (l : KTree K) (k : K) (r : KTree K)

variable {K : Type} {k : K} {t : KTree K}

namespace KTree

/-- the keys in order -/
def keys : KTree K → List K
  | nil => []
  | node l k r => l.keys ++ k :: r.keys

/-- the pointer to the tree -/
def root : KTree K → Option K
  | nil => none
  | node _ k _ => some k

/-- the tree with key k, the subtree a on side d and b on the other side -/
def fork (d : Side) (a : KTree K) (k : K) (b : KTree K) : KTree K :=
  match d with
  | .left => node a k b
  | .right => node b k a

@[simp] theorem root_fork (d : Side) (a : KTree K) (k : K) (b : KTree K) : (KTree.fork d a k b).root = some k := by
  cases d <;> rfl

theorem keys_fork_perm (d : Side) (a : KTree K) (k : K) (b : KTree K) :
    (KTree.fork d a k b).keys.Perm (k :: (a.keys ++ b.keys)) := by
  cases d with
  | left => exact perm_middle
  | right => exact perm_middle.trans (List.Perm.cons _ List.perm_append_comm)

theorem mem_keys_fork {d : Side} {a b : KTree K} {j : K} :
    j ∈ (KTree.fork d a k b).keys ↔ j = k ∨ j ∈ a.keys ∨ j ∈ b.keys := by
  rw [(keys_fork_perm d a k b).mem_iff, mem_cons, mem_append]

/-- the same tree, written from the other side -/
theorem fork_other (d : Side) (a : KTree K) (k : K) (b : KTree K) : KTree.fork d.other a k b = KTree.fork d b k a := by
  cases d <;> rfl

theorem keys_rotate (d : Side) (a : KTree K) (x : K) (b : KTree K) (y : K) (e : KTree K) :
    (KTree.fork d (.fork d a x b) y e).keys = (KTree.fork d a x (.fork d b y e)).keys := by
  cases d <;> simp [KTree.fork, KTree.keys]

theorem exists_fork (d : Side) (h : t.root = some k) : ∃ a b, t = KTree.fork d a k b := by
  cases t with
  | nil => cases h
  | node l j r =>
    cases h
    cases d with
    | left => exact ⟨l, r, rfl⟩
    | right => exact ⟨r, l, rfl⟩

theorem root_mem (h : t.root = some k) : k ∈ t.keys := by
  cases t with
  | nil => cases h
  | node l j r =>
    cases h
    exact mem_append_right _ mem_cons_self

theorem root_ne (h : k ∉ t.keys) : t.root ≠ some k := fun e => h (root_mem e)

theorem root_none (h : t.root = none) : t = nil := by
  cases t with
  | nil => rfl
  | node l k r => cases h

end KTree

/-- the hole is the child on `side` of the node `key`, whose other child is `sib` -/
structure Frame (K : Type) where
  side : Side
  key : K
  sib : KTree K

def Frame.fill {K : Type} (f : Frame K) (t : KTree K) : KTree K := KTree.fork f.side t f.key f.sib

/-- the frames around a hole, the innermost first -/
abbrev Ctx (K : Type) := List (Frame K)

variable {c : Ctx K}

section Ctx

def plug : Ctx K → KTree K → KTree K
  | [], t => t
  | f :: c, t => plug c (f.fill t)

/-- the parent pointer of the tree in the hole -/
def Ctx.parent (c : Ctx K) : Option K := c.head?.map Frame.key

/-- the root pointer when the pointer into the hole is h -/
def Ctx.top : Ctx K → Option K → Option K
  | [], h => h
  | f :: c, _ => Ctx.top c (some f.key)

def Ctx.keys : Ctx K → List K
  | [] => []
  | f :: c => f.key :: (f.sib.keys ++ Ctx.keys c)

/-- the keys before the hole, in order -/
def Ctx.before : Ctx K → List K
  | [] => []
  | f :: c => Ctx.before c ++ match f.side with
    | .left => []
    | .right => f.sib.keys ++ [f.key]

/-- the keys after the hole, in order -/
def Ctx.after : Ctx K → List K
  | [] => []
  | f :: c => (match f.side with
    | .left => f.key :: f.sib.keys
    | .right => []) ++ Ctx.after c

theorem keys_plug (c : Ctx K) (t : KTree K) : (plug c t).keys = c.before ++ t.keys ++ c.after := by
  induction c generalizing t with
  | nil => simp [plug, Ctx.before, Ctx.after]
  | cons f c ih =>
    rcases f with ⟨d, k, b⟩
    cases d <;> simp [plug, ih, Frame.fill, KTree.fork, KTree.keys, Ctx.before, Ctx.after]

theorem root_plug (c : Ctx K) (t : KTree K) : (plug c t).root = c.top t.root := by
  induction c generalizing t with
  | nil => rfl
  | cons f c ih => rw [plug, ih, Frame.fill, KTree.root_fork, Ctx.top]

theorem keys_plug_perm (c : Ctx K) (t : KTree K) : (plug c t).keys.Perm (t.keys ++ c.keys) := by
  induction c generalizing t with
  | nil => simp [plug, Ctx.keys]
  | cons f c ih =>
    refine (ih (f.fill t)).trans (((KTree.keys_fork_perm f.side t f.key f.sib).append_right (Ctx.keys c)).trans ?_)
    rw [Ctx.keys, List.cons_append, List.append_assoc]
    exact perm_middle.symm

theorem mem_plug : k ∈ (plug c t).keys ↔ k ∈ t.keys ∨ k ∈ c.keys := by
  rw [(keys_plug_perm c t).mem_iff, mem_append]

theorem keys_plug_congr (c : Ctx K) {t' : KTree K} (h : t.keys = t'.keys) : (plug c t).keys = (plug c t').keys := by
  rw [keys_plug, keys_plug, h]

theorem plug_append (c c' : Ctx K) (t : KTree K) : plug (c ++ c') t = plug c' (plug c t) := by
  induction c generalizing t with
  | nil => rfl
  | cons f c ih => exact ih (f.fill t)

theorem Ctx.length_le (c : Ctx K) : c.length ≤ c.keys.length := by
  induction c with
  | nil => exact le_rfl
  | cons f c ih =>
    rw [Ctx.keys, List.length_cons, List.length_cons, List.length_append]
    exact Nat.succ_le_succ (ih.trans (Nat.le_add_left _ _))

/-- every key of a tree has a position -/
theorem exists_focus (h : k ∈ t.keys) : ∃ c l r, t = plug c (.node l k r) := by
  induction t with
  | nil => cases h
  | node l j r ihl ihr =>
    rcases mem_append.1 h with hl | hr
    · obtain ⟨c, a, b, e⟩ := ihl hl
      refine ⟨c ++ [⟨.left, j, r⟩], a, b, ?_⟩
      rw [plug_append, ← e]
      rfl
    rcases mem_cons.1 hr with rfl | hr
    · exact ⟨[], l, r, rfl⟩
    obtain ⟨c, a, b, e⟩ := ihr hr
    refine ⟨c ++ [⟨.right, j, l⟩], a, b, ?_⟩
    rw [plug_append, ← e]
    rfl

end Ctx

/-! ## Links -/

section Links

variable {h : Option K}

/-- the links of the keys of the tree, hung below par -/
def Rep (n : K → Node K) : Option K → KTree K → Prop
  | _, .nil => True
  | par, .node l k r => (n k).parent = par ∧ (n k).left = l.root ∧ (n k).right = r.root ∧
      Rep n (some k) l ∧ Rep n (some k) r

/-- the links of the keys of the context, with the pointer h into the hole -/
def RepCtx (n : K → Node K) : Ctx K → Option K → Prop
  | [], _ => True
  | f :: c, h => (n f.key).parent = Ctx.parent c ∧ (n f.key).child f.side = h ∧
      (n f.key).child f.side.other = f.sib.root ∧ Rep n (some f.key) f.sib ∧ RepCtx n c (some f.key)

theorem rep_fork (n : K → Node K) (par : Option K) (d : Side) (a : KTree K) (k : K) (b : KTree K) :
    Rep n par (KTree.fork d a k b) ↔ (n k).parent = par ∧ (n k).child d = a.root ∧ (n k).child d.other = b.root ∧
      Rep n (some k) a ∧ Rep n (some k) b := by
  cases d with
  | left => rfl
  | right =>
    show ((n k).parent = par ∧ (n k).left = b.root ∧ (n k).right = a.root ∧ Rep n (some k) b ∧ Rep n (some k) a) ↔
      ((n k).parent = par ∧ (n k).right = a.root ∧ (n k).left = b.root ∧ Rep n (some k) a ∧ Rep n (some k) b)
    tauto

/-- **Focus.** The links of a plugged tree are those of the context and those of the subtree. -/
theorem rep_plug (n : K → Node K) (c : Ctx K) (t : KTree K) :
    Rep n none (plug c t) ↔ RepCtx n c t.root ∧ Rep n c.parent t := by
  induction c generalizing t with
  | nil => exact (and_iff_right trivial).symm
  | cons f c ih =>
    rw [plug, ih, Frame.fill, KTree.root_fork, rep_fork, RepCtx]
    tauto

variable {n n' : K → Node K} {par : Option K} {t : KTree K}

/-- only the links of the keys matter -/
theorem Rep.links (h : Rep n par t)
    (e : ∀ k ∈ t.keys, (n' k).parent = (n k).parent ∧ ∀ d, (n' k).child d = (n k).child d) : Rep n' par t := by
  induction t generalizing par with
  | nil => trivial
  | node l k r ihl ihr =>
    obtain ⟨h1, h2, h3, h4, h5⟩ := h
    obtain ⟨ep, ec⟩ := e k (mem_append_right _ mem_cons_self)
    refine ⟨ep.trans h1, (ec .left).trans h2, (ec .right).trans h3, ihl h4 fun j hj => ?_, ihr h5 fun j hj => ?_⟩
    · exact e j (List.mem_append_left _ hj)
    · exact e j (mem_append_right _ (mem_cons_of_mem k hj))

theorem RepCtx.links (hc : RepCtx n c h)
    (e : ∀ k ∈ c.keys, (n' k).parent = (n k).parent ∧ ∀ d, (n' k).child d = (n k).child d) : RepCtx n' c h := by
  induction c generalizing h with
  | nil => trivial
  | cons f c ih =>
    obtain ⟨h1, h2, h3, h4, h5⟩ := hc
    obtain ⟨ep, ec⟩ := e f.key mem_cons_self
    refine ⟨ep.trans h1, (ec _).trans h2, (ec _).trans h3, h4.links fun j hj => ?_, ih h5 fun j hj => ?_⟩
    · exact e j (mem_cons_of_mem _ (List.mem_append_left _ hj))
    · exact e j (mem_cons_of_mem _ (mem_append_right _ hj))

theorem Rep.congr (h : Rep n par t) (e : ∀ k ∈ t.keys, n' k = n k) : Rep n' par t :=
  h.links fun k hk => e k hk ▸ ⟨rfl, fun _ => rfl⟩

theorem RepCtx.congr (hc : RepCtx n c h) (e : ∀ k ∈ c.keys, n' k = n k) : RepCtx n' c h :=
  hc.links fun k hk => e k hk ▸ ⟨rfl, fun _ => rfl⟩

/-- a subtree hung below another node -/
theorem Rep.reparent [DecidableEq K] {s : Store K} (h : Rep s.node par t) (hn : t.keys.Nodup) (p : Option K) :
    Rep (s.reparent t.root p).node p t := by
  cases t with
  | nil => trivial
  | node l k r =>
    obtain ⟨-, h2, h3, h4, h5⟩ := h
    have hp : (KTree.node l k r).keys.Perm (k :: (l.keys ++ r.keys)) := perm_middle
    have hd := hp.nodup_iff.1 hn
    rw [List.nodup_cons, mem_append, not_or] at hd
    refine ⟨?_, (setParent_child s k k .left p).trans h2, (setParent_child s k k .right p).trans h3,
      h4.congr fun j hj => setParent_other s j k p fun e => hd.1.1 (e ▸ hj),
      h5.congr fun j hj => setParent_other s j k p fun e => hd.1.2 (e ▸ hj)⟩
    exact (setParent_parent s k k p).trans (if_pos rfl)

end Links

/-! ## A store that holds a tree -/

variable {f : Frame K}

section Is

/-- the store holds exactly the tree T -/
structure Is (s : Store K) (T : KTree K) : Prop where
  rep : Rep s.node none T
  root : s.root = T.root
  nodup : T.keys.Nodup

/-- the same, seen from a position -/
structure Holds (s : Store K) (c : Ctx K) (t : KTree K) : Prop where
  ctx : RepCtx s.node c t.root
  sub : Rep s.node c.parent t
  root : s.root = c.top t.root
  nodup : (t.keys ++ c.keys).Nodup

variable {t : KTree K} {s : Store K}

theorem is_plug : Is s (plug c t) ↔ Holds s c t := by
  constructor
  · intro h
    obtain ⟨h1, h2⟩ := (rep_plug s.node c t).1 h.rep
    exact ⟨h1, h2, h.root.trans (root_plug c t), (keys_plug_perm c t).nodup_iff.1 h.nodup⟩
  · intro h
    exact ⟨(rep_plug s.node c t).2 ⟨h.ctx, h.sub⟩, h.root.trans (root_plug c t).symm,
      (keys_plug_perm c t).nodup_iff.2 h.nodup⟩

theorem Holds.up (h : Holds s (f :: c) t) : Holds s c (f.fill t) := by
  have hp : Is s (plug (f :: c) t) := is_plug.2 h
  exact is_plug.1 hp

theorem Holds.down (h : Holds s c (f.fill t)) : Holds s (f :: c) t := by
  have hp : Is s (plug c (f.fill t)) := is_plug.2 h
  exact is_plug.1 hp

/-- colours are not part of a tree -/
theorem Holds.setColor [DecidableEq K] (h : Holds s c t) (k : K) (col : Color) :
    Holds (s.setColor k col) c t := by
  have hsame : ∀ j, ((s.setColor k col).node j).parent = (s.node j).parent ∧
      ∀ e, ((s.setColor k col).node j).child e = (s.node j).child e :=
    fun j => ⟨setColor_parent s j k col, fun e => setColor_child s j k e col⟩
  exact ⟨h.ctx.links fun j _ => hsame j, h.sub.links fun j _ => hsame j, h.root, h.nodup⟩

/-- keys of the subtree are not keys of the context -/
theorem Holds.disjoint (h : Holds s c t) (hk : k ∈ t.keys) :
    k ∉ c.keys := fun hc => (List.nodup_append.1 h.nodup).2.2 k hk k hc rfl

/-- only the nodes of the tree matter -/
theorem Holds.congr {s' : Store K} (h : Holds s c t) (hr : s'.root = s.root)
    (e : ∀ k ∈ (plug c t).keys, s'.node k = s.node k) : Holds s' c t :=
  ⟨h.ctx.congr fun k hk => e k (mem_plug.2 (Or.inr hk)), h.sub.congr fun k hk => e k (mem_plug.2 (Or.inl hk)),
    hr.trans h.root, h.nodup⟩

theorem Is.congr {s' : Store K} {T : KTree K} (h : Is s T) (hr : s'.root = s.root)
    (e : ∀ k ∈ T.keys, s'.node k = s.node k) : Is s' T := ⟨h.rep.congr e, hr.trans h.root, h.nodup⟩

/-- the root of the subtree points back to the context -/
theorem Holds.parent_of_root (h : Holds s c t) (hk : t.root = some k) :
    (s.node k).parent = c.parent := by
  cases t with
  | nil => cases hk
  | node l j r =>
    cases hk
    exact h.sub.1

end Is

/-! ## Replacing the pointer into a hole -/

section Graft

variable [DecidableEq K]

/-- replace the child x of par by v: the root pointer if par is NULL, else the child on side d if that is x, else the
child on the other side -/
def graft (s : Store K) (d : Side) (par : Option K) (x : K) (v : Option K) : Store K :=
  match par with
  | none => { s with root := v }
  | some p => if (s.node p).child d = some x then s.setChild d p v else s.setChild d.other p v

variable {s : Store K} {c : Ctx K} {x : K}

/-- the pointer into the hole, at the innermost frame -/
theorem RepCtx.point (hc : RepCtx s.node (f :: c) h) (hn : (Ctx.keys (f :: c)).Nodup)
    (v : Option K) : RepCtx (s.setChild f.side f.key v).node (f :: c) v := by
  rcases f with ⟨e, p, b⟩
  obtain ⟨h1, -, h3, h4, h5⟩ := hc
  rw [Ctx.keys, List.nodup_cons, mem_append, not_or] at hn
  refine ⟨?_, ?_, ?_, h4.congr fun j hj => ?_, h5.congr fun j hj => ?_⟩
  · exact (setChild_parent s p p e v).trans h1
  · rw [setChild_child, if_pos ⟨rfl, rfl⟩]
  · rw [setChild_child, if_neg fun he => e.other_ne he.2]
    exact h3
  · exact setChild_other s j p e v fun he => hn.1.1 (he ▸ hj)
  · exact setChild_other s j p e v fun he => hn.1.2 (he ▸ hj)

/-- **Grafting.** For a child x of the context, grafting replaces the pointer into the hole and changes no other node
than the parent. -/
theorem graft_ctx (h : RepCtx s.node c (some x)) (hroot : s.root = c.top (some x)) (hn : c.keys.Nodup)
    (hx : x ∉ c.keys) (d : Side) (v : Option K) :
    RepCtx (graft s d c.parent x v).node c v ∧ (graft s d c.parent x v).root = c.top v ∧
    (∀ k, k ∉ c.keys → (graft s d c.parent x v).node k = s.node k) ∧
    ∀ k, ((graft s d c.parent x v).node k).color = (s.node k).color := by
  cases c with
  | nil => exact ⟨trivial, rfl, fun _ _ => rfl, fun _ => rfl⟩
  | cons f c =>
    rcases f with ⟨e, p, b⟩
    -- whichever side is tested first, the side of the hole is written
    have hg : graft s d (Ctx.parent (⟨e, p, b⟩ :: c)) x v = s.setChild e p v := by
      obtain ⟨-, h2, h3, -⟩ := h
      rw [Ctx.keys, mem_cons, mem_append, not_or, not_or] at hx
      rcases d.eq_or e with rfl | rfl
      · exact if_pos h2
      · rw [Side.other_other] at h3
        exact if_neg fun he => hx.2.1 (KTree.root_mem (h3.symm.trans he))
    rw [hg]
    refine ⟨h.point hn v, hroot, fun k hk => ?_, fun k => ?_⟩
    · exact setChild_other s k p e v fun he => hk (he ▸ mem_cons_self)
    · exact setChild_color s k p e v

end Graft

/-! ## Nodes that no pointer leads to -/

section Avoids

variable [DecidableEq K]

/-- no pointer of the store leads to z; the node of z itself may hold pointers -/
structure Store.Avoids (s : Store K) (z : K) : Prop where
  root : s.root ≠ some z
  parent : ∀ k, (s.node k).parent ≠ some z
  child : ∀ k d, (s.node k).child d ≠ some z

variable {s : Store K} {z : K} {v : Option K}

section

variable (h : s.Avoids z)
include h

theorem Store.Avoids.setParent (k : K) (hv : v ≠ some z) : (s.setParent k v).Avoids z := by
  refine ⟨h.root, fun j => ?_, fun j d => ?_⟩
  · rw [setParent_parent]
    split_ifs
    · exact hv
    · exact h.parent j
  · rw [setParent_child]
    exact h.child j d

theorem Store.Avoids.setChild (e : Side) (k : K) (hv : v ≠ some z) : (s.setChild e k v).Avoids z := by
  refine ⟨h.root, fun j => ?_, fun j d => ?_⟩
  · rw [setChild_parent]
    exact h.parent j
  rw [setChild_child]
  split_ifs
  · exact hv
  · exact h.child j d

theorem Store.Avoids.setColor (k : K) (c : Color) : (s.setColor k c).Avoids z := by
  refine ⟨h.root, fun j => ?_, fun j d => ?_⟩
  · rw [setColor_parent]
    exact h.parent j
  · rw [setColor_child]
    exact h.child j d

theorem Store.Avoids.reparent (o : Option K) (hv : v ≠ some z) : (s.reparent o v).Avoids z := by
  cases o with
  | none => exact h
  | some k => exact h.setParent k hv

theorem Store.Avoids.graft (d : Side) (par : Option K) (x : K) (hv : v ≠ some z) : (graft s d par x v).Avoids z := by
  cases par with
  | none => exact ⟨hv, h.parent, h.child⟩
  | some p =>
    show Store.Avoids (if (s.node p).child d = some x then s.setChild d p v else s.setChild d.other p v) z
    split_ifs
    · exact h.setChild d p hv
    · exact h.setChild d.other p hv

end

end Avoids

end OpenASD.LinkedTree
