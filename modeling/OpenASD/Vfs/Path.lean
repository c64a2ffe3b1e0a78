/-
Paths (`vfs_canonicalize`, `find_backend` in kernel/vfs/vfs.c). A path is the list of characters of a C string.

`canonical` says what the canonical form of a path is: its components in order, without the empty ones and `.`, with `..`
taking away the component before it, if there is one.

Results:
- `vfsCanonicalize_eq`: on absolute paths below VFS_PATH_MAX the function computes the canonical form, as far as it fits
  into the buffer; the limit of its stack is never reached.
- `vfsCanonicalize_some`: whatever path it succeeds on, it returns the canonical form, which is a fixed point.
-/
import Mathlib.Data.List.Basic

namespace OpenASD.Vfs

open List (intercalate length_cons length_nil mem_cons mem_cons_self splitOn)

abbrev Str := List Char

/-- VFS_PATH_MAX -/
def vfsPathMax : ℕ := 256

/-! ## The source's functions -/

/-- the component at p, and what stands behind the `/` after it -/
def segment (p : Str) : Str × Str := (p.takeWhile (· ≠ '/'), (p.dropWhile (· ≠ '/')).tail)

/-- the loop over the components, with the stack's top first; every round shortens the rest, so fuel is never short -/
def canonLoop : ℕ → Str → List Str → Option (List Str)
  | 0, _, stk => some stk
  | n + 1, p, stk =>
    if p = [] then some stk
    else
      let (seg, rest) := segment p
      if seg = [] ∨ seg = ['.'] then canonLoop n rest stk
      else if seg = ['.', '.'] then canonLoop n rest stk.tail
      else if vfsPathMax / 2 - 1 ≤ stk.length then none
      else canonLoop n rest (seg :: stk)

/-- the loop that writes the components to the buffer; `first` is for i = 0 -/
def rebuildLoop (outSz : ℕ) : Str → Bool → List Str → Option Str
  | out, _, [] => some out
  | out, first, seg :: segs =>
    if outSz < out.length + seg.length + 2 then none
    else rebuildLoop outSz ((if first then out else out ++ ['/']) ++ seg) false segs

/-- none for -1 -/
def vfsCanonicalize (path : Str) (outSz : ℕ) : Option Str :=
  if outSz = 0 then none
  else if vfsPathMax ≤ path.length then none
  else (canonLoop path.length (path.dropWhile (· = '/')) []).bind fun stk => rebuildLoop outSz ['/'] true stk.reverse

/-- a slot of `g_backends`; id 0 is a free one -/
structure Backend (ω : Type) where
  id : ℕ
  mountPt : Str
  ops : ω

/-- the tests of `find_backend` for one slot -/
def mountMatches (mountPt path : Str) : Bool :=
  if mountPt = ['/'] then path.head? == some '/'
  else mountPt.isPrefixOf path && ((path.drop mountPt.length).head?.all (· == '/'))

/-- one round of the loop: the best slot so far and the length of its mount point -/
def findStep {ω : Type} (path : Str) (best : Option (Backend ω) × ℕ) (be : Backend ω) : Option (Backend ω) × ℕ :=
  if be.id = 0 then best
  else if mountMatches be.mountPt path && decide (best.2 < be.mountPt.length) then (some be, be.mountPt.length)
  else best

/-- `rel_path` for a slot -/
def relPath (mountPt path : Str) : Str :=
  if mountPt = ['/'] then path
  else if path.drop mountPt.length = [] then ['/'] else path.drop mountPt.length

def findBackend {ω : Type} (table : List (Backend ω)) (path : Str) : Option (Backend ω × Str) :=
  (table.foldl (findStep path) (none, 0)).1.map fun be => (be, relPath be.mountPt path)

/-! ## Canonical forms -/

/-- one component after the others; the last one that is kept stands first -/
def resolveStep (stk : List Str) (seg : Str) : List Str :=
  if seg = [] ∨ seg = ['.'] then stk else if seg = ['.', '.'] then stk.tail else seg :: stk

/-- the components that are left -/
def resolve (path : Str) : List Str := ((path.splitOn '/').foldl resolveStep []).reverse

/-- the canonical form -/
def canonical (path : Str) : Str := '/' :: intercalate ['/'] (resolve path)

theorem splitOn_cons_slash (p : Str) : ('/' :: p).splitOn '/' = [] :: p.splitOn '/' := by
  simp [splitOn, List.splitOnP_cons_eq_if_modifyHead]

theorem splitOn_cons_ne {c : Char} (hc : c ≠ '/') (p : Str) :
    (c :: p).splitOn '/' = (p.splitOn '/').modifyHead (c :: ·) := by
  simp [splitOn, List.splitOnP_cons_eq_if_modifyHead, hc]

/-- the first component and the rest -/
theorem splitOn_eq (p : Str) : p.splitOn '/' = p.takeWhile (· ≠ '/') :: match p.dropWhile (· ≠ '/') with
    | [] => []
    | _ :: rest => rest.splitOn '/' := by
  induction p with
  | nil => rfl
  | cons c p ih =>
    by_cases hc : c = '/'
    · subst hc
      rw [splitOn_cons_slash]
      simp
    · rw [splitOn_cons_ne hc, ih]
      simp [hc]

/-- empty components do not matter, so neither does a `/` at the front -/
theorem foldl_slash (p : Str) (stk : List Str) :
    (('/' :: p).splitOn '/').foldl resolveStep stk = (p.splitOn '/').foldl resolveStep stk := by
  rfl

theorem foldl_dropWhile_slash (p : Str) (stk : List Str) :
    ((p.dropWhile (· = '/')).splitOn '/').foldl resolveStep stk = (p.splitOn '/').foldl resolveStep stk := by
  induction p with
  | nil => rfl
  | cons c p ih =>
    by_cases hc : c = '/'
    · subst hc
      rw [foldl_slash, ← ih]
      simp
    · simp [hc]

/-- how far one round gets -/
theorem segment_spec (p : Str) (hp : p ≠ []) : (segment p).2.length < p.length ∧
      ((segment p).1 ≠ [] → ((segment p).2.length + 1) / 2 + 1 ≤ (p.length + 1) / 2) ∧
      ∀ stk, (p.splitOn '/').foldl resolveStep stk =
        ((segment p).2.splitOn '/').foldl resolveStep (resolveStep stk (segment p).1) := by
  have hlen : (p.takeWhile (· ≠ '/')).length + (p.dropWhile (· ≠ '/')).length = p.length := by
    rw [← List.length_append, List.takeWhile_append_dropWhile]
  have hpos : 0 < p.length := List.length_pos_iff.2 hp
  have hseg := splitOn_eq p
  unfold segment
  generalize p.dropWhile (· ≠ '/') = d at *
  cases d with
  | nil =>
    simp only [length_nil, List.tail_nil] at *
    refine ⟨hpos, fun _ => by omega, fun stk => ?_⟩
    rw [hseg]
    rfl
  | cons c rest =>
    simp only [length_cons, List.tail_cons] at *
    refine ⟨by omega, fun hne => ?_, fun stk => ?_⟩
    · have := List.length_pos_iff.2 hne
      omega
    · rw [hseg]
      rfl

variable {p c : Str} {stk segs : List Str} {outSz : ℕ}

/-- the loop computes the stack of components; the stack has room for what can still come -/
theorem canonLoop_eq {n : ℕ} (hn : p.length ≤ n) (hroom : stk.length + (p.length + 1) / 2 ≤ vfsPathMax / 2 - 1) :
    canonLoop n p stk = some ((p.splitOn '/').foldl resolveStep stk) := by
  induction n generalizing p stk with
  | zero =>
    obtain rfl : p = [] := List.length_eq_zero_iff.1 (Nat.le_zero.1 hn)
    rfl
  | succ n ih =>
    by_cases hp : p = []
    · subst hp
      rfl
    obtain ⟨hlt, hpush, hfold⟩ := segment_spec p hp
    rw [canonLoop, if_neg hp, hfold]
    generalize segment p = r at *
    obtain ⟨seg, rest⟩ := r
    have hrest : rest.length ≤ n := by
      simp only at hlt
      omega
    simp only at hlt hpush ⊢
    by_cases h1 : seg = [] ∨ seg = ['.']
    · rw [if_pos h1, resolveStep, if_pos h1]
      apply ih hrest
      omega
    have hne : seg ≠ [] := fun h => h1 (Or.inl h)
    have hshort := hpush hne
    rw [if_neg h1, resolveStep, if_neg h1]
    by_cases h2 : seg = ['.', '.']
    · rw [if_pos h2, if_pos h2]
      apply ih hrest
      have := List.length_tail (l := stk)
      omega
    rw [if_neg h2, if_neg h2, if_neg (by omega)]
    apply ih hrest
    rw [length_cons]
    omega

/-- **Canonicalisation.** On absolute paths shorter than VFS_PATH_MAX only the canonical form matters. -/
theorem vfsCanonicalize_eq {path : Str} (habs : path.head? = some '/') (hlen : path.length < vfsPathMax)
    (hsz : outSz ≠ 0) : vfsCanonicalize path outSz = rebuildLoop outSz ['/'] true (resolve path) := by
  obtain ⟨p, rfl⟩ : ∃ p, path = '/' :: p := by
    cases path with
    | nil => cases habs
    | cons c p =>
      obtain rfl : c = '/' := Option.some.inj habs
      exact ⟨p, rfl⟩
  have hdrop : (('/' :: p).dropWhile (· = '/')) = p.dropWhile (· = '/') := by simp
  have hle : (p.dropWhile (· = '/')).length ≤ p.length := (List.dropWhile_sublist _).length_le
  have hloop : canonLoop ('/' :: p).length (('/' :: p).dropWhile (· = '/')) [] =
      some ((('/' :: p).splitOn '/').foldl resolveStep []) := by
    rw [← foldl_dropWhile_slash ('/' :: p), hdrop]
    rw [length_cons] at hlen ⊢
    apply canonLoop_eq
    · exact Nat.le_succ_of_le hle
    · unfold vfsPathMax at *
      rw [length_nil]
      omega
  rw [vfsCanonicalize, if_neg hsz, if_neg (Nat.not_le.2 hlen), hloop]
  rfl

/-! ## A canonical form has one list of components -/

/-- a component that is kept -/
structure Kept (seg : Str) : Prop where
  ne : seg ≠ []
  dot : seg ≠ ['.']
  dotdot : seg ≠ ['.', '.']
  slash : '/' ∉ seg

theorem resolveStep_kept {seg : Str} (h : Kept seg) (stk : List Str) : resolveStep stk seg = seg :: stk := by
  rw [resolveStep, if_neg (not_or.2 ⟨h.ne, h.dot⟩), if_neg h.dotdot]

theorem foldl_kept (h : ∀ seg ∈ segs, Kept seg) (stk : List Str) : segs.foldl resolveStep stk = segs.reverse ++ stk := by
  induction segs generalizing stk with
  | nil => rfl
  | cons seg segs ih =>
    rw [List.foldl_cons, resolveStep_kept (h seg mem_cons_self), ih fun s hs => h s (List.mem_cons_of_mem _ hs)]
    simp

theorem foldl_mem_kept (hs : ∀ seg ∈ segs, '/' ∉ seg) (hk : ∀ seg ∈ stk, Kept seg) :
    ∀ seg ∈ segs.foldl resolveStep stk, Kept seg := by
  refine List.foldlRecOn (motive := fun stk => ∀ seg ∈ stk, Kept seg) _ _ hk fun stk hk s hmem seg hseg => ?_
  unfold resolveStep at hseg
  split_ifs at hseg with h1 h2
  · exact hk seg hseg
  · exact hk seg (List.mem_of_mem_tail hseg)
  rcases mem_cons.1 hseg with rfl | hseg
  · rw [not_or] at h1
    exact ⟨h1.1, h1.2, h2, hs seg hmem⟩
  · exact hk seg hseg

theorem splitOn_no_slash (p : Str) : ∀ seg ∈ p.splitOn '/', '/' ∉ seg := by
  induction p with
  | nil => simp
  | cons c p ih =>
    by_cases hc : c = '/'
    · subst hc
      intro seg hseg
      rcases mem_cons.1 hseg with rfl | hseg
      · exact List.not_mem_nil
      · exact ih seg hseg
    rw [splitOn_cons_ne hc]
    cases hp : p.splitOn '/' with
    | nil => simp
    | cons s segs =>
      rw [hp] at ih
      intro seg hseg
      rcases mem_cons.1 hseg with rfl | hseg
      · rw [mem_cons, not_or]
        exact ⟨fun e => hc e.symm, ih s mem_cons_self⟩
      · exact ih seg (List.mem_cons_of_mem _ hseg)

theorem resolve_kept (p : Str) : ∀ seg ∈ resolve p, Kept seg := by
  intro seg hseg
  rw [resolve, List.mem_reverse] at hseg
  exact foldl_mem_kept (splitOn_no_slash p) (fun _ h => absurd h List.not_mem_nil) seg hseg

/-- the canonical form is its own canonical form -/
theorem resolve_canonical (p : Str) : resolve (canonical p) = resolve p := by
  have hk := resolve_kept p
  rw [resolve, canonical, foldl_slash]
  generalize resolve p = segs at *
  cases segs with
  | nil => rfl
  | cons seg segs =>
    rw [List.splitOn_intercalate '/' (fun s hs => (hk s hs).slash) (List.cons_ne_nil _ _), foldl_kept hk]
    simp

theorem resolve_of_canonical {q : Str} (h : canonical p = canonical q) : resolve p = resolve q := by
  rw [← resolve_canonical p, h, resolve_canonical]

/-! ## Success -/

/-- what the loop returns is the stack of components, also of a relative path -/
theorem canonLoop_some {n : ℕ} {r : List Str} (hn : p.length ≤ n) (h : canonLoop n p stk = some r) :
    r = (p.splitOn '/').foldl resolveStep stk := by
  induction n generalizing p stk with
  | zero =>
    obtain rfl : p = [] := List.length_eq_zero_iff.1 (Nat.le_zero.1 hn)
    exact (Option.some.inj h).symm
  | succ n ih =>
    by_cases hp : p = []
    · subst hp
      exact (Option.some.inj h).symm
    obtain ⟨hlt, -, hfold⟩ := segment_spec p hp
    have hrest : (segment p).2.length ≤ n := by omega
    rw [canonLoop, if_neg hp] at h
    simp only at h
    rw [hfold]
    unfold resolveStep
    split_ifs at h ⊢ <;> exact ih hrest h

theorem intercalate_slash (seg : Str) (segs : List Str) :
    intercalate ['/'] (seg :: segs) = seg ++ segs.flatMap ('/' :: ·) := by
  induction segs generalizing seg with
  | nil => simp [intercalate]
  | cons s segs ih =>
    rw [List.flatMap_cons, List.cons_append, ← ih s]
    simp [intercalate]

/-- the text behind the first component that is written -/
theorem rebuildLoop_rest {out : Str} (h : rebuildLoop outSz out false segs = some c) :
    c = out ++ segs.flatMap ('/' :: ·) := by
  induction segs generalizing out with
  | nil =>
    obtain rfl := Option.some.inj h
    simp
  | cons seg segs ih =>
    rw [rebuildLoop, if_neg Bool.false_ne_true] at h
    split_ifs at h with hroom
    rw [ih h]
    simp

theorem rebuildLoop_some (h : rebuildLoop outSz ['/'] true segs = some c) : c = '/' :: intercalate ['/'] segs := by
  cases segs with
  | nil => exact (Option.some.inj h).symm
  | cons seg segs =>
    rw [rebuildLoop, if_pos rfl] at h
    split_ifs at h with hroom
    rw [rebuildLoop_rest h, intercalate_slash]
    rfl

/-- there is room for the NUL -/
theorem rebuildLoop_length {out : Str} {first : Bool} (hout : out.length < outSz)
    (h : rebuildLoop outSz out first segs = some c) : c.length < outSz := by
  induction segs generalizing out first with
  | nil =>
    obtain rfl := Option.some.inj h
    exact hout
  | cons seg segs ih =>
    rw [rebuildLoop] at h
    split_ifs at h with hroom hfirst
    all_goals
      apply ih _ h
      simp only [List.length_append, length_cons, length_nil]
      omega

/-- **Success.** What `vfs_canonicalize` returns is the canonical form, and it returns that again for the canonical form. -/
theorem vfsCanonicalize_some {path : Str} (h : vfsCanonicalize path vfsPathMax = some c) :
    c = canonical path ∧ c.length < vfsPathMax ∧ vfsCanonicalize c vfsPathMax = some c := by
  rw [vfsCanonicalize, if_neg (by decide)] at h
  split_ifs at h with hlen
  obtain ⟨stk, hstk, hout⟩ := Option.bind_eq_some_iff.1 h
  have hres : stk.reverse = resolve path := by
    rw [canonLoop_some ((List.dropWhile_sublist _).length_le) hstk, foldl_dropWhile_slash]
    rfl
  rw [hres] at hout
  obtain rfl : c = canonical path := rebuildLoop_some hout
  have hshort : (canonical path).length < vfsPathMax := rebuildLoop_length (by decide) hout
  refine ⟨rfl, hshort, ?_⟩
  rw [vfsCanonicalize_eq rfl hshort (by decide), resolve_canonical, hout]

end OpenASD.Vfs
