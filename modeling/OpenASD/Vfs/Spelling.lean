/-
The calls that take a path, on two spellings of one path.

`vfs_canonicalize` was added against traversal (`/boot/../etc/passwd`): of a path only its canonical form should matter.
`vfs_open`, `vfs_stat`, `vfs_unlink` and `vfs_mkdir` go through it; `vfs_readdir` passes the path on as it is.

Results:
- `spellings_agree`: exactly when two absolute paths with one canonical form mean the same to a call, for all mounts.
- `readdir_traverses`: `/boot/../etc` is looked up on the mount of `/boot`.
-/
import OpenASD.Vfs.Ramfs

namespace OpenASD.Vfs

variable {σ π : Type}

/-! ## Calls -/

inductive PathOp (π : Type) where
  | openFile (flags : ℕ) (caller : Option π)
  | stat
  | unlink
  | mkdir
  | readdir (buf : List Dirent)

inductive PathOut where
  | fd (r : Except ℤ ℕ)
  | info (r : Except ℤ StatInfo)
  | done (r : Except ℤ Unit)
  | entries (r : Except ℤ (List Dirent))
deriving DecidableEq

/-- none if the call goes through a missing function -/
def pathStep [DecidableEq π] (s : State σ π) (o : PathOp π) (path : Str) : Option (PathOut × State σ π) :=
  match o with
  | .openFile flags caller => let r := vfsOpen s path flags caller; some (.fd r.1, r.2)
  | .stat => some (.info (vfsStat s path), s)
  | .unlink => let r := vfsUnlink s path; some (.done r.1, r.2)
  | .mkdir => let r := vfsMkdir s path; some (.done r.1, r.2)
  | .readdir buf => (vfsReaddir s path buf).map fun r => (.entries r.1, r.2)

/-- all calls but `vfs_readdir` -/
def PathOp.canonicalizes : PathOp π → Bool
  | .readdir _ => false
  | _ => true

/-- the backend and the path there that a call selects -/
def selects (table : List (Backend (Ops σ))) (o : PathOp π) (path : Str) : Option (Backend (Ops σ) × Str) :=
  (if o.canonicalizes then vfsCanonicalize path vfsPathMax else some path).bind (findBackend table)

/-! ## When spellings agree -/

/-- the canonical form fits into the buffer of VFS_PATH_MAX bytes -/
def fits (path : Str) : Bool := (rebuildLoop vfsPathMax ['/'] true (resolve path)).isSome

/-- the same text; or the call canonicalises, and either no spelling is too long, or all are, or the canonical form is -/
def agree (o : PathOp π) (p q : Str) : Prop :=
  p = q ∨ o.canonicalizes = true ∧ ((p.length < vfsPathMax ↔ q.length < vfsPathMax) ∨ fits p = false)

theorem rebuildLoop_head {sz : ℕ} {out c : Str} {first : Bool} {segs : List Str} (h : rebuildLoop sz out first segs = some c) :
    ∃ rest, c = out ++ rest := by
  induction segs generalizing out first with
  | nil =>
    obtain rfl := Option.some.inj h
    exact ⟨[], (List.append_nil _).symm⟩
  | cons seg segs ih =>
    rw [rebuildLoop] at h
    split_ifs at h with hroom hfirst
    · obtain ⟨rest, rfl⟩ := ih h
      exact ⟨seg ++ rest, List.append_assoc _ _ _⟩
    · obtain ⟨rest, rfl⟩ := ih h
      exact ⟨['/'] ++ seg ++ rest, by simp⟩

/-- `vfs_canonicalize` on absolute paths of any length -/
theorem vfsCanonicalize_abs {p : Str} (hp : p.head? = some '/') : vfsCanonicalize p vfsPathMax =
      if p.length < vfsPathMax then rebuildLoop vfsPathMax ['/'] true (resolve p) else none := by
  split_ifs with h
  · exact vfsCanonicalize_eq hp h (by decide)
  · rw [vfsCanonicalize, if_neg (by decide), if_pos (Nat.le_of_not_lt h)]

variable {p q : Str}

theorem canonicalize_agree (hp : p.head? = some '/') (hq : q.head? = some '/') (h : canonical p = canonical q) :
    vfsCanonicalize p vfsPathMax = vfsCanonicalize q vfsPathMax ↔
      (p.length < vfsPathMax ↔ q.length < vfsPathMax) ∨ fits p = false := by
  rw [vfsCanonicalize_abs hp, vfsCanonicalize_abs hq, fits, resolve_of_canonical h]
  generalize rebuildLoop vfsPathMax ['/'] true (resolve q) = r
  by_cases h1 : p.length < vfsPathMax <;> by_cases h2 : q.length < vfsPathMax <;> cases r <;> simp [h1, h2]

/-- one mount, at the root -/
def rootOnly : List (Backend (Ops σ)) := [⟨1, ['/'], Ops.empty⟩]

theorem findBackend_rootOnly {path : Str} (h : path.head? = some '/') :
    findBackend (rootOnly (σ := σ)) path = some (⟨1, ['/'], Ops.empty⟩, path) := by
  simp [findBackend, rootOnly, findStep, mountMatches, relPath, h]

theorem canonicalize_head {p c : Str} (hp : p.head? = some '/') (h : vfsCanonicalize p vfsPathMax = some c) :
    c.head? = some '/' := by
  rw [vfsCanonicalize_abs hp] at h
  split_ifs at h
  obtain ⟨rest, rfl⟩ := rebuildLoop_head h
  rfl

/-- with a mount at the root, different paths select different files -/
theorem selects_rootOnly {o : PathOp π} (hp : p.head? = some '/') (hq : q.head? = some '/')
    (h : selects (rootOnly (σ := σ)) o p = selects rootOnly o q) :
    p = q ∨ o.canonicalizes = true ∧ vfsCanonicalize p vfsPathMax = vfsCanonicalize q vfsPathMax := by
  unfold selects at h
  cases ho : o.canonicalizes with
  | false =>
    rw [ho] at h
    simp only [Bool.false_eq_true, if_false, Option.bind_some, findBackend_rootOnly hp, findBackend_rootOnly hq] at h
    exact Or.inl (Prod.mk.inj (Option.some.inj h)).2
  | true =>
    refine Or.inr ⟨rfl, ?_⟩
    rw [ho, if_pos rfl, if_pos rfl] at h
    cases h1 : vfsCanonicalize p vfsPathMax with
    | none =>
      cases h2 : vfsCanonicalize q vfsPathMax with
      | none => rfl
      | some d => simp [h1, h2, findBackend_rootOnly (canonicalize_head hq h2)] at h
    | some c =>
      cases h2 : vfsCanonicalize q vfsPathMax with
      | none => simp [h1, h2, findBackend_rootOnly (canonicalize_head hp h1)] at h
      | some d =>
        simp only [h1, h2, Option.bind_some, findBackend_rootOnly (canonicalize_head hp h1),
          findBackend_rootOnly (canonicalize_head hq h2)] at h
        rw [(Prod.mk.inj (Option.some.inj h)).2]

/-- a call that canonicalises depends on the canonical form only -/
theorem pathStep_canonical [DecidableEq π] (s : State σ π) {o : PathOp π} (ho : o.canonicalizes = true)
    (hp : p ≠ []) (hq : q ≠ []) (h : vfsCanonicalize p vfsPathMax = vfsCanonicalize q vfsPathMax) :
    pathStep s o p = pathStep s o q := by
  cases o with
  | openFile flags caller => simp only [pathStep, vfsOpen, if_neg hp, if_neg hq, h]
  | stat => simp only [pathStep, vfsStat, h]
  | unlink => simp only [pathStep, vfsUnlink, pathCall, if_neg hp, if_neg hq, h]
  | mkdir => simp only [pathStep, vfsMkdir, pathCall, if_neg hp, if_neg hq, h]
  | readdir buf => cases ho

/-- **Spellings.** Two absolute paths with the same canonical form select the same backend and the same path there under
every mount table exactly if `agree` says so, and then the call gives the same result and the same state. -/
theorem spellings_agree [DecidableEq π] {p q : Str} (hp : p.head? = some '/') (hq : q.head? = some '/')
    (h : canonical p = canonical q) (o : PathOp π) :
    ((∀ table : List (Backend (Ops σ)), selects table o p = selects table o q) ↔ agree o p q) ∧
      (agree o p q → ∀ s : State σ π, pathStep s o p = pathStep s o q) := by
  have hne : ∀ {r : Str}, r.head? = some '/' → r ≠ [] := by
    rintro r hr rfl
    cases hr
  refine ⟨⟨fun hsel => ?_, ?_⟩, ?_⟩
  · exact (selects_rootOnly hp hq (hsel rootOnly)).imp_right fun hc => ⟨hc.1, (canonicalize_agree hp hq h).1 hc.2⟩
  · rintro (rfl | ⟨ho, hlen⟩) table
    · rfl
    · rw [selects, selects, if_pos ho, if_pos ho, (canonicalize_agree hp hq h).2 hlen]
  · rintro (rfl | ⟨ho, hlen⟩) s
    · rfl
    · exact pathStep_canonical s ho (hne hp) (hne hq) ((canonicalize_agree hp hq h).2 hlen)

/-! ## Directories -/

def bootDir : Str := ['/', 'b', 'o', 'o', 't']
def etcDir : Str := ['/', 'e', 't', 'c']
/-- `/boot/../etc` -/
def etcFromBoot : Str := bootDir ++ ['/', '.', '.'] ++ etcDir

/-- instance 0 is mounted at `/boot` and empty, instance 1 at `/` with the directory `/etc` -/
def etcState : State Ram ℕ :=
  (vfsMount (vfsMount (vfsInit (emptyRam.set 1 (.slot 0) ⟨etcDir, none, 0, .dir, true⟩)) bootDir (ramfsOps 0)).2
    ['/'] (ramfsOps 1)).2

theorem spellings_agree_stat : canonical etcFromBoot = canonical etcDir ∧
    (∀ table : List (Backend (Ops Ram)), selects table (PathOp.stat (π := ℕ)) etcFromBoot = selects table (PathOp.stat (π := ℕ)) etcDir) ∧
    pathStep etcState .stat etcFromBoot = pathStep etcState .stat etcDir := by
  have h : canonical etcFromBoot = canonical etcDir := by decide
  have ha : agree (π := ℕ) .stat etcFromBoot etcDir := Or.inr ⟨rfl, Or.inl (by decide)⟩
  obtain ⟨hsel, hstep⟩ := spellings_agree (σ := Ram) (π := ℕ) (by decide) (by decide) h .stat
  exact ⟨h, hsel.2 ha, hstep ha etcState⟩

/-- **Traversal.** For `vfs_readdir` the spelling `/boot/../etc` is a path of the mount at `/boot`, and is not found; `/etc`
is a directory. -/
theorem readdir_traverses : canonical etcFromBoot = canonical etcDir ∧
    (selects etcState.backends (π := ℕ) (.readdir []) etcFromBoot).map (fun r => (r.1.id, r.2)) =
      some (1, ['/', '.', '.'] ++ etcDir) ∧
    (selects etcState.backends (π := ℕ) (.readdir []) etcDir).map (fun r => (r.1.id, r.2)) = some (2, etcDir) ∧
    (pathStep etcState (.readdir []) etcFromBoot).map Prod.fst = some (.entries (.error eNoent)) ∧
    (pathStep etcState (.readdir []) etcDir).map Prod.fst = some (.entries (.ok [])) := by
  decide +kernel

end OpenASD.Vfs
