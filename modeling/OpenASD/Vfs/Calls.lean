/-
The calls of the VFS as steps of one machine, and what each of them can do.

`Opens` lists the outcomes of `vfs_open`, in the order of the source; `vfsOpen_opens` says that there are no others. The
other calls act on one node.
-/
import OpenASD.Vfs.Backends

namespace OpenASD.Vfs

variable {σ π : Type}

/-! ## Frames -/

section Frames

variable (s : State σ π) (be : Backend (Ops σ)) (ctx : ℕ)

theorem closeCtx_eq : closeCtx s be ctx = s.setWorld (closeCtx s be ctx).world := by
  unfold closeCtx
  cases be.ops.opClose <;> rfl

@[simp] theorem closeCtx_node : (closeCtx s be ctx).node = s.node := by
  rw [closeCtx_eq]
  rfl

@[simp] theorem closeCtx_fdTable : (closeCtx s be ctx).fdTable = s.fdTable := by
  rw [closeCtx_eq]
  rfl

@[simp] theorem closeCtx_backends : (closeCtx s be ctx).backends = s.backends := by
  rw [closeCtx_eq]
  rfl

@[simp] theorem closeNode_node (v : Node σ π) : (closeNode s v).node = s.node := by
  unfold closeNode
  cases v.backend <;> simp

@[simp] theorem closeNode_backends (v : Node σ π) : (closeNode s v).backends = s.backends := by
  unfold closeNode
  cases v.backend <;> simp

variable [DecidableEq π] (cur : Option π) (fd : ℕ)

theorem clearFd_eq : clearFd s cur fd = { s with fdTable := (clearFd s cur fd).fdTable } := by
  unfold clearFd
  cases cur with
  | none => rfl
  | some p =>
    split_ifs <;> rfl

@[simp] theorem clearFd_world : (clearFd s cur fd).world = s.world := by
  rw [clearFd_eq]

@[simp] theorem clearFd_node : (clearFd s cur fd).node = s.node := by
  rw [clearFd_eq]

@[simp] theorem clearFd_backends : (clearFd s cur fd).backends = s.backends := by
  rw [clearFd_eq]

end Frames

/-! ## Open -/

theorem findStep_mem {ω : Type} {path : Str} {table : List (Backend ω)} {best : Option (Backend ω) × ℕ} {be : Backend ω}
    (h : (table.foldl (findStep path) best).1 = some be) : best.1 = some be ∨ be ∈ table ∧ be.id ≠ 0 := by
  refine List.foldlRecOn (motive := fun b : _ × ℕ => b.1 = some be → best.1 = some be ∨ be ∈ table ∧ be.id ≠ 0) _ _ .inl
    (fun b ih a ha hb => ?_) h
  unfold findStep at hb
  split_ifs at hb with hid hm
  · exact ih hb
  · cases hb
    exact .inr ⟨ha, hid⟩
  · exact ih hb

/-- a backend that is found is one of the table, in use -/
theorem findBackend_mem {ω : Type} {table : List (Backend ω)} {path rel : Str} {be : Backend ω}
    (h : findBackend table path = some (be, rel)) : be ∈ table ∧ be.id ≠ 0 := by
  rw [findBackend, Option.map_eq_some_iff] at h
  obtain ⟨b, hb, he⟩ := h
  obtain rfl : b = be := (Prod.mk.inj he).1
  exact (findStep_mem hb).resolve_left (nomatch ·)

/-- the backend that a path leads to, and the path there -/
structure Leads (s : State σ π) (path canon : Str) (be : Backend (Ops σ)) (rel : Str) : Prop where
  canonicalized : vfsCanonicalize path vfsPathMax = some canon
  found : findBackend s.backends canon = some (be, rel)

/-- the outcomes of `vfs_open` -/
inductive Opens [DecidableEq π] (s : State σ π) (path : Str) (flags : ℕ) (caller : Option π) :
    Except ℤ ℕ × State σ π → Prop
  /-- no such mount, or no path at all -/
  | refused {e : ℤ} (he : e < 0) : Opens s path flags caller (.error e, s)
  /-- the backend does not open the file -/
  | absent {canon be rel f r} (hl : Leads s path canon be rel) (hf : be.ops.opOpen = some f)
      (hr : f s.world rel (openFlags flags) = r) (hctx : r.1 = 0) :
      Opens s path flags caller (.error eNoent, s.setWorld r.2)
  /-- all nodes are taken -/
  | full {canon be rel f r} (hl : Leads s path canon be rel) (hf : be.ops.opOpen = some f)
      (hr : f s.world rel (openFlags flags) = r) (hctx : r.1 ≠ 0) (hnid : allocNodeId (s.setWorld r.2) = none) :
      Opens s path flags caller (.error eMfile, closeCtx (s.setWorld r.2) be r.1)
  /-- the kernel gets the number of the node -/
  | kernel {canon be rel f r nid} (hl : Leads s path canon be rel) (hf : be.ops.opOpen = some f)
      (hr : f s.world rel (openFlags flags) = r) (hctx : r.1 ≠ 0) (hnid : allocNodeId (s.setWorld r.2) = some nid)
      (hcaller : caller = none) :
      Opens s path flags caller
        (.ok (nid + maxFds), installNode (s.setWorld r.2) nid canon (openFlags flags) be rel r.1 none)
  /-- a process gets its first free descriptor -/
  | slot {canon be rel f r nid p fd} (hl : Leads s path canon be rel) (hf : be.ops.opOpen = some f)
      (hr : f s.world rel (openFlags flags) = r) (hctx : r.1 ≠ 0) (hnid : allocNodeId (s.setWorld r.2) = some nid)
      (hcaller : caller = some p) (hfd : freeFd s p = some fd) :
      Opens s path flags caller
        (.ok fd, (installNode (s.setWorld r.2) nid canon (openFlags flags) be rel r.1 (some p)).setFd p fd (some nid))
  /-- the process has no free descriptor; the node is freed -/
  | noSlot {canon be rel f r nid p} {v : Node σ π} (hl : Leads s path canon be rel) (hf : be.ops.opOpen = some f)
      (hr : f s.world rel (openFlags flags) = r) (hctx : r.1 ≠ 0) (hnid : allocNodeId (s.setWorld r.2) = some nid)
      (hcaller : caller = some p) (hfd : freeFd s p = none) (hv : v.nodeId = 0 ∧ v.backend = some be) :
      Opens s path flags caller (.error eMfile, closeCtx
        ((installNode (s.setWorld r.2) nid canon (openFlags flags) be rel r.1 (some p)).setNode nid v) be r.1)

theorem vfsOpen_opens [DecidableEq π] (s : State σ π) (path : Str) (flags : ℕ) (caller : Option π) :
    Opens s path flags caller (vfsOpen s path flags caller) := by
  unfold vfsOpen
  split_ifs with hp
  · exact .refused (by decide)
  cases hc : vfsCanonicalize path vfsPathMax with
  | none => exact .refused (by decide)
  | some canon =>
    dsimp only
    unfold openCanonical openBackend
    cases hb : findBackend s.backends canon with
    | none => exact .refused (by decide)
    | some br =>
      obtain ⟨be, rel⟩ := br
      dsimp only
      cases hf : be.ops.opOpen with
      | none => exact .refused (by decide)
      | some f =>
        have hl : Leads s path canon be rel := ⟨hc, hb⟩
        dsimp only
        generalize hr : f s.world rel (openFlags flags) = r
        by_cases hctx : r.1 = 0
        · rw [if_pos hctx]
          exact .absent hl hf hr hctx
        rw [if_neg hctx]
        dsimp only
        cases hnid : allocNodeId (s.setWorld r.2) with
        | none => exact .full hl hf hr hctx hnid
        | some nid =>
          cases hcaller : caller with
          | none => exact .kernel hl hf hr hctx hnid rfl
          | some p =>
            dsimp only
            cases hfd : freeFd (installNode (s.setWorld r.2) nid canon (openFlags flags) be rel r.1 (some p)) p with
            | none =>
              refine .noSlot hl hf hr hctx hnid rfl hfd ⟨rfl, ?_⟩
              show ((Function.update s.node nid _) nid).backend = some be
              rw [Function.update_self]
            | some fd => exact .slot hl hf hr hctx hnid rfl hfd

/-! ## What is free -/

theorem allocNodeId_some {s : State σ π} {nid : ℕ} (h : allocNodeId s = some nid) :
    nid ≠ 0 ∧ nid < maxNodes ∧ (s.node nid).nodeId = 0 := by
  have hp := List.find?_some h
  have hm := List.mem_of_find?_eq_some h
  simp only [Bool.and_eq_true, decide_eq_true_eq] at hp
  obtain ⟨i, -, rfl⟩ := List.mem_map.1 hm
  exact ⟨hp.1, Nat.mod_lt _ (by decide), hp.2⟩

theorem freeFd_some {s : State σ π} {p : π} {fd : ℕ} (h : freeFd s p = some fd) :
    fd ≠ 0 ∧ fd < maxFds ∧ s.fdTable p fd = none := by
  have hp := List.find?_some h
  have hm := List.mem_range'_1.1 (List.mem_of_find?_eq_some h)
  exact ⟨by omega, by omega, Option.isNone_iff_eq_none.1 hp⟩

/-! ## The machine -/

/-- calls of the VFS; `cur` is the current process, which descriptors below MAX_FDS belong to -/
inductive Call (π : Type) where
  | openFile (path : Str) (flags : ℕ) (caller : Option π)
  | close (cur : Option π) (fd : ℕ)
  | read (cur : Option π) (fd n : ℕ)
  | write (cur : Option π) (fd : ℕ) (data : Bytes)
  | seek (cur : Option π) (fd : ℕ) (off whence : ℤ)
  | stat (path : Str)
  | unlink (path : Str)
  | mkdir (path : Str)
  | readdir (path : Str) (buf : List Dirent)
  | registerRing (path : Str) (ring : ℕ)
  | unregisterNode (path : Str)

inductive Reply where
  | fd (r : Except ℤ ℕ)
  | bytes (r : Except ℤ Bytes)
  | done (r : Except ℤ Unit)
  | pos (r : Except ℤ ℕ)
  | info (r : Except ℤ StatInfo)
  | entries (r : Except ℤ (List Dirent))
  /-- a missing function was called -/
  | fault
deriving DecidableEq

def callStep [DecidableEq π] (E : Env σ) (s : State σ π) : Call π → Reply × State σ π
  | .openFile path flags caller => let r := vfsOpen s path flags caller; (.fd r.1, r.2)
  | .close cur fd => let r := vfsClose s cur fd; (.done r.1, r.2)
  | .read cur fd n => let r := vfsRead E s cur fd n; (.bytes r.1, r.2)
  | .write cur fd data => let r := vfsWrite E s cur fd data; (.done r.1, r.2)
  | .seek cur fd off whence => let r := vfsSeek s cur fd off whence; (.pos r.1, r.2)
  | .stat path => (.info (vfsStat s path), s)
  | .unlink path => let r := vfsUnlink s path; (.done r.1, r.2)
  | .mkdir path => let r := vfsMkdir s path; (.done r.1, r.2)
  | .readdir path buf => match vfsReaddir s path buf with
    | none => (.fault, s)
    | some r => (.entries r.1, r.2)
  | .registerRing path ring => let r := vfsRegisterRing s path ring; (.done r.1, r.2)
  | .unregisterNode path => let r := vfsUnregisterNode s path; (.done r.1, r.2)

/-! ## Calls on a node -/

/-- the last reference frees the node and closes its context; another one only counts down -/
theorem dropRef_cases (s : State σ π) (nid : ℕ) : (pred32 (s.node nid).refcount = 0 ∧
      dropRef s nid = (closeNode s (s.node nid)).setNode nid { s.node nid with refcount := 0, nodeId := 0 }) ∨
    ∃ count, count = pred32 (s.node nid).refcount ∧ count ≠ 0 ∧
      dropRef s nid = s.setNode nid { s.node nid with refcount := count } := by
  by_cases h : pred32 (s.node nid).refcount = 0
  · exact .inl ⟨h, if_pos h⟩
  · exact .inr ⟨_, rfl, h, if_neg h⟩

/-- rings and ports are no files and no contexts -/
structure EnvSound {φ κ γ : Type} (V : View σ φ κ γ) (E : Env σ) : Prop where
  pop : ∀ w ring n b w', E.ringPop w ring n = some (b, w') → V.Same w w'
  push : ∀ w ring b w', E.ringPush w ring b = some w' → V.Same w w'
  send : ∀ w port b, V.Same w (E.portSend w port b).2

section

variable {φ κ γ : Type} {V : View σ φ κ γ} {E : Env σ}

theorem ringRead_same (hE : EnvSound V E) (ring fuel : ℕ) (w : σ) (n : ℕ) : V.Same w (ringRead E ring w n fuel).2 := by
  induction fuel generalizing w n with
  | zero => exact View.Same.refl V w
  | succ fuel ih =>
    rw [ringRead]
    split_ifs
    · exact View.Same.refl V w
    · cases hp : E.ringPop w ring (min n (E.slotSize ring)) with
      | none => exact View.Same.refl V w
      | some r => exact (hE.pop _ _ _ _ _ hp).trans (ih r.2 _)

theorem ringWrite_same (hE : EnvSound V E) (ring fuel : ℕ) (w : σ) (data : Bytes) :
    V.Same w (ringWrite E ring w data fuel).2 := by
  induction fuel generalizing w data with
  | zero => exact View.Same.refl V w
  | succ fuel ih =>
    rw [ringWrite]
    split_ifs
    · exact View.Same.refl V w
    · cases hp : E.ringPush w ring (data.take (E.slotSize ring)) with
      | none => exact View.Same.refl V w
      | some w' => exact (hE.push _ _ _ _ hp).trans (ih w' _)

end

end OpenASD.Vfs
