/-
Access modes. A descriptor that was opened without VFS_O_WRITE should change no file.

`vfs_write` does not look at the flags of the node, and `ramfs_open` truncates without asking for VFS_O_WRITE; FAT32 and FFS
refuse writes themselves. `mode` records the flags that each descriptor was opened with.

Results:
- `modes_run_sound`: in every run where read-only descriptors are only written to, and files without VFS_O_WRITE only
  truncated, on backends that refuse it, no file changes through such a descriptor or by such an open.
- `read_only_writes`: the RAM file system refuses neither.
-/
import OpenASD.Vfs.Calls

namespace OpenASD.Vfs

open Machine
open Function (update)

variable {σ π φ κ γ : Type}

/-! ## Descriptors and their modes -/

structure Sys (σ π : Type) where
  vfs : State σ π
  /-- the flags that a descriptor of a process was opened with -/
  mode : π → ℕ → ℕ

/-- the flags of a descriptor; from MAX_FDS on it is a node -/
def openMode (s : Sys σ π) (cur : Option π) (fd : ℕ) : ℕ :=
  if maxFds ≤ fd then (s.vfs.node (fd - maxFds)).flags
  else match cur with
    | none => 0
    | some p => s.mode p fd

def recordMode [DecidableEq π] (s : Sys σ π) : Call π → Reply → π → ℕ → ℕ
  | .openFile _ flags (some p), .fd (.ok fd) => update s.mode p (update (s.mode p) fd flags)
  | _, _ => s.mode

def sysStep [DecidableEq π] (E : Env σ) (s : Sys σ π) (c : Call π) : Reply × Sys σ π :=
  let r := callStep E s.vfs c
  (r.1, ⟨r.2, recordMode s c r.1⟩)

/-- opens without VFS_O_WRITE, and calls through descriptors that were opened so -/
def unwritable (s : Sys σ π) : Call π → Bool
  | .openFile _ flags _ => !oWrite flags
  | .close cur fd => !oWrite (openMode s cur fd)
  | .read cur fd _ => !oWrite (openMode s cur fd)
  | .write cur fd _ => !oWrite (openMode s cur fd)
  | .seek cur fd _ _ => !oWrite (openMode s cur fd)
  | _ => false

/-- the call leaves all files as they were, if it should -/
def ModeSafe [DecidableEq π] (V : View σ φ κ γ) (E : Env σ) (s : Sys σ π) (c : Call π) : Prop :=
  unwritable s c = true → V.Keeps s.vfs.world (callStep E s.vfs c).2.world

/-- what a call without VFS_O_WRITE has to meet: a write reaches a read-only backend, if any; and so does an open with
VFS_O_TRUNC, unless there is nothing in the file -/
def Refused (V : View σ φ κ γ) (s : Sys σ π) : Call π → Prop
  | .openFile path flags _ => oWrite flags = false → oTrunc flags = true → ∀ canon be rel, Leads s.vfs path canon be rel →
      ReadOnly V be.ops ∨ stored be.ops s.vfs.world rel = false
  | .write cur fd data => oWrite (openMode s cur fd) = false → fd ≠ 0 → data ≠ [] → ∀ nid be, lookup s.vfs cur fd = some nid →
      (s.vfs.node nid).ring = none → (s.vfs.node nid).portId = 0 → (s.vfs.node nid).backend = some be → ReadOnly V be.ops
  | _ => True

/-! ## Backends of nodes -/

/-- all backends can be relied on, mounted or in use -/
structure Backed (V : View σ φ κ γ) (s : State σ π) : Prop where
  mounted : ∀ be ∈ s.backends, Sound V be.ops
  node : ∀ n be, (s.node n).backend = some be → Sound V be.ops

section

variable {V : View σ φ κ γ} {E : Env σ} {s s' : State σ π} {nid : ℕ} {v : Node σ π} {path : Str}

section

variable (hb : Backed V s)
include hb

/-- the world may change -/
theorem Backed.congr (h1 : s'.backends = s.backends) (h2 : s'.node = s.node) : Backed V s' :=
  ⟨h1 ▸ hb.mounted, h2 ▸ hb.node⟩

/-- a node gets a backend that can be relied on, or none -/
theorem Backed.update (h1 : s'.backends = s.backends) (h2 : s'.node = update s.node nid v)
    (hv : ∀ be, v.backend = some be → Sound V be.ops) : Backed V s' := by
  refine ⟨h1 ▸ hb.mounted, fun n be hn => ?_⟩
  rw [h2] at hn
  by_cases hne : n = nid
  · subst hne
    rw [Function.update_self] at hn
    exact hv be hn
  · rw [Function.update_of_ne hne] at hn
    exact hb.node n be hn

theorem Backed.setNode (hv : ∀ be, v.backend = some be → Sound V be.ops) : Backed V (s.setNode nid v) :=
  hb.update rfl rfl hv

/-- the node of a call changes, but not its backend -/
theorem Backed.touch (w : σ) (nid : ℕ) (hv : v.backend = (s.node nid).backend) :
    Backed V ((s.setWorld w).setNode nid v) :=
  hb.update rfl rfl fun be he => hb.node nid be (hv ▸ he)

theorem Backed.leads {canon rel : Str} {be : Backend (Ops σ)} (hl : Leads s path canon be rel) :
    Sound V be.ops :=
  hb.mounted be (findBackend_mem hl.found).1

omit hb in
theorem vfsInit_backed (V : View σ φ κ γ) (w : σ) : Backed V (vfsInit (π := π) w) := by
  refine ⟨fun be hbe => ?_, fun n be hn => nomatch hn⟩
  obtain rfl := List.eq_of_mem_replicate hbe
  exact ⟨fun f hf => (nomatch hf), fun f hf => (nomatch hf), fun f hf => (nomatch hf), fun f hf => (nomatch hf),
    fun f hf => (nomatch hf)⟩

theorem Backed.mount (mountPt : Str) {ops : Ops σ} (h : Sound V ops) :
    Backed V (vfsMount s mountPt ops).2 := by
  unfold vfsMount
  split_ifs
  · exact hb
  cases s.backends.findIdx? fun be => decide (be.id = 0) with
  | none => exact hb
  | some i =>
    refine ⟨fun be hbe => ?_, hb.node⟩
    rcases List.mem_or_eq_of_mem_set hbe with hbe | rfl
    · exact hb.mounted be hbe
    · exact h

end

theorem closeCtx_keeps {be : Backend (Ops σ)} (hbe : Sound V be.ops) (s : State σ π) (ctx : ℕ) :
    V.Keeps s.world (closeCtx s be ctx).world := by
  unfold closeCtx
  cases hf : be.ops.opClose with
  | none => exact View.Keeps.refl V _
  | some f => exact (hbe.closed f hf s.world ctx).1

theorem oTrunc_openFlags (flags : ℕ) : oTrunc (openFlags flags) = oTrunc flags := by
  unfold openFlags oTrunc
  split_ifs
  · rfl
  · have h : Nat.testBit 1 3 = false := by decide
    rw [Nat.testBit_or, h, Bool.or_false]

/-! ## One call -/

section

variable (hE : EnvSound V E) (hb : Backed V s)
include hb

variable {r : Except ℤ ℕ × State σ π}

theorem Opens.backed [DecidableEq π] {flags : ℕ} {caller : Option π} (h : Opens s path flags caller r) : Backed V r.2 := by
  cases h with
  | refused e => exact hb
  | absent hl hf hr hctx => exact hb.congr rfl rfl
  | full hl hf hr hctx hnid => exact hb.congr (by simp [State.setWorld]) (by simp [State.setWorld])
  | kernel hl hf hr hctx hnid hcaller | slot hl hf hr hctx hnid hcaller hfd =>
    apply Backed.update hb
    · rfl
    · rfl
    · rintro be ⟨⟩
      exact hb.leads hl
  | @noSlot canon be rel f r nid p v hl hf hr hctx hnid hcaller hfd hv =>
    have hnode : update (update s.node nid
        ⟨nid, 1, openFlags flags, 0, statSize (s.setWorld r.2) be rel, canon, some be, r.1, some p, none, 0⟩) nid v =
        update s.node nid v := Function.update_idem _ _ _
    apply Backed.update hb
    · simp [State.setNode, installNode, State.setWorld]
    · rw [closeCtx_node]
      exact hnode
    intro be' he
    rw [hv.2] at he
    obtain rfl := Option.some.inj he
    exact hb.leads hl

theorem Opens.keeps [DecidableEq π] {flags : ℕ} {caller : Option π}
    (h : Opens s path flags caller r) (hsafe : oTrunc flags = true → ∀ canon be rel, Leads s path canon be rel →
      ReadOnly V be.ops ∨ stored be.ops s.world rel = false) : V.Keeps s.world r.2.world := by
  -- the backend's open, with the flags that the VFS passes on
  have hopen : ∀ {canon be rel f x}, Leads s path canon be rel → be.ops.opOpen = some f →
      f s.world rel (openFlags flags) = x → V.Keeps s.world x.2 := by
    rintro canon be rel f x hl hf rfl
    by_cases ht : oTrunc flags = true
    · rcases hsafe ht canon be rel hl with hro | hst
      · exact hro.opened f hf _ _ _
      · exact (hb.leads hl).opened f hf _ _ _ fun _ => hst
    · refine (hb.leads hl).opened f hf _ _ _ fun ht' => ?_
      rw [oTrunc_openFlags] at ht'
      exact absurd ht' ht
  cases h with
  | refused e => exact View.Keeps.refl V _
  | absent hl hf hr hctx | kernel hl hf hr hctx hnid hcaller | slot hl hf hr hctx hnid hcaller hfd => exact hopen hl hf hr
  | full hl hf hr hctx hnid => exact (hopen hl hf hr).trans (closeCtx_keeps (hb.leads hl) (s.setWorld _) _)
  | @noSlot canon be rel f r nid p v hl hf hr hctx hnid hcaller hfd hv =>
    let s' := (installNode (s.setWorld r.2) nid canon (openFlags flags) be rel r.1 (some p)).setNode nid v
    exact (hopen hl hf hr).trans (closeCtx_keeps (hb.leads hl) s' r.1)

theorem closeNode_keeps (nid : ℕ) : V.Keeps s.world (closeNode s (s.node nid)).world := by
  unfold closeNode
  cases hbe : (s.node nid).backend with
  | none => exact View.Keeps.refl V _
  | some be => exact closeCtx_keeps (hb.node nid be hbe) s _

theorem dropRef_step (nid : ℕ) : V.Keeps s.world (dropRef s nid).world ∧ Backed V (dropRef s nid) := by
  have hnode : ∀ be, (s.node nid).backend = some be → Sound V be.ops := hb.node nid
  obtain ⟨-, he⟩ | ⟨count, -, -, he⟩ := dropRef_cases s nid
  · rw [he]
    exact ⟨closeNode_keeps hb nid, (hb.congr (closeNode_backends s _) (closeNode_node s _)).setNode hnode⟩
  · rw [he]
    exact ⟨View.Keeps.refl V _, hb.setNode hnode⟩

theorem vfsClose_step [DecidableEq π] (cur : Option π) (fd : ℕ) :
    V.Keeps s.world (vfsClose s cur fd).2.world ∧ Backed V (vfsClose s cur fd).2 := by
  unfold vfsClose
  split_ifs
  · exact ⟨View.Keeps.refl V _, hb⟩
  cases lookup s cur fd with
  | none => exact ⟨View.Keeps.refl V _, hb⟩
  | some nid =>
    have h := dropRef_step (hb.congr (clearFd_backends s cur fd) (clearFd_node s cur fd)) nid
    rw [clearFd_world] at h
    exact h

include hE in
theorem readNode_step (nid n : ℕ) :
    V.Keeps s.world (readNode E s nid n).2.world ∧ Backed V (readNode E s nid n).2 ∧
      (V.Same s.world (readNode E s nid n).2.world ∨ V.Local (s.node nid).bctx s.world (readNode E s nid n).2.world) := by
  unfold readNode
  cases (s.node nid).ring with
  | some ring =>
    have hs := ringRead_same hE ring n s.world n
    exact ⟨hs.keeps, hb.congr rfl rfl, .inl hs⟩
  | none =>
    cases hf : (s.node nid).backend.bind fun be => be.ops.opRead with
    | none => exact ⟨View.Keeps.refl V _, hb, .inl (View.Same.refl V _)⟩
    | some f =>
      obtain ⟨be, hbe, hf⟩ := Option.bind_eq_some_iff.1 hf
      obtain ⟨hk, hloc⟩ := (hb.node nid be hbe).read f hf s.world (s.node nid).bctx n
      dsimp only
      cases (f s.world (s.node nid).bctx n).1 with
      | error e => exact ⟨hk, hb.congr rfl rfl, .inr hloc⟩
      | ok b => exact ⟨hk, hb.touch _ nid rfl, .inr hloc⟩

include hE in
theorem vfsRead_step (cur : Option π) (fd n : ℕ) :
    V.Keeps s.world (vfsRead E s cur fd n).2.world ∧ Backed V (vfsRead E s cur fd n).2 := by
  unfold vfsRead
  split_ifs
  · exact ⟨View.Keeps.refl V _, hb⟩
  cases lookup s cur fd with
  | none => exact ⟨View.Keeps.refl V _, hb⟩
  | some nid =>
    obtain ⟨h1, h2, -⟩ := readNode_step hE hb nid n
    exact ⟨h1, h2⟩

theorem seekNode_step (nid : ℕ) (off whence : ℤ) :
    V.Keeps s.world (seekNode s nid off whence).2.world ∧ Backed V (seekNode s nid off whence).2 ∧
      (V.Same s.world (seekNode s nid off whence).2.world ∨
        V.Local (s.node nid).bctx s.world (seekNode s nid off whence).2.world) := by
  have hsame := View.Same.refl V s.world
  unfold seekNode
  cases hf : (s.node nid).backend.bind fun be => be.ops.opSeek with
  | some f =>
    obtain ⟨be, hbe, hf⟩ := Option.bind_eq_some_iff.1 hf
    obtain ⟨hk, hloc⟩ := (hb.node nid be hbe).sought f hf s.world (s.node nid).bctx off whence
    dsimp only
    cases (f s.world (s.node nid).bctx off whence).1 with
    | error e => exact ⟨hk, hb.congr rfl rfl, .inr hloc⟩
    | ok n => exact ⟨hk, hb.touch _ nid rfl, .inr hloc⟩
  | none =>
    cases plainSeek (s.node nid) off whence with
    | error e => exact ⟨hsame.keeps, hb, .inl hsame⟩
    | ok n =>
      dsimp only
      split_ifs
      · exact ⟨hsame.keeps, hb, .inl hsame⟩
      · exact ⟨hsame.keeps, hb.setNode fun be => hb.node nid be, .inl hsame⟩

theorem vfsSeek_step (cur : Option π) (fd : ℕ) (off whence : ℤ) :
    V.Keeps s.world (vfsSeek s cur fd off whence).2.world ∧ Backed V (vfsSeek s cur fd off whence).2 := by
  unfold vfsSeek
  split_ifs
  · exact ⟨View.Keeps.refl V _, hb⟩
  cases lookup s cur fd with
  | none => exact ⟨View.Keeps.refl V _, hb⟩
  | some nid =>
    obtain ⟨h1, h2, -⟩ := seekNode_step hb nid off whence
    exact ⟨h1, h2⟩

include hE in
/-- a write keeps the backends; and the files, if the node's backend is read-only -/
theorem writeNode_step (nid : ℕ) (data : Bytes) : Backed V (writeNode E s nid data).2 ∧
      ((∀ be, (s.node nid).ring = none → (s.node nid).portId = 0 → (s.node nid).backend = some be → ReadOnly V be.ops) →
        V.Keeps s.world (writeNode E s nid data).2.world) ∧
      (V.Same s.world (writeNode E s nid data).2.world ∨
        V.Local (s.node nid).bctx s.world (writeNode E s nid data).2.world) := by
  unfold writeNode
  cases (s.node nid).ring with
  | some ring =>
    have hs := ringWrite_same hE ring data.length s.world data
    exact ⟨hb.congr rfl rfl, fun _ => hs.keeps, .inl hs⟩
  | none =>
    by_cases hport : (s.node nid).portId ≠ 0
    · rw [if_pos hport]
      exact ⟨hb.congr rfl rfl, fun _ => (hE.send s.world _ data).keeps, .inl (hE.send s.world _ data)⟩
    rw [if_neg hport]
    cases hf : (s.node nid).backend.bind fun be => be.ops.opWrite with
    | none => exact ⟨hb, fun _ => View.Keeps.refl V _, .inl (View.Same.refl V _)⟩
    | some f =>
      obtain ⟨be, hbe, hf⟩ := Option.bind_eq_some_iff.1 hf
      have hk : ReadOnly V be.ops → V.Keeps s.world (f s.world (s.node nid).bctx data).2 := fun hro =>
        hro.wrote f hf _ _ _
      have hro : (∀ be', none = (none : Option ℕ) → (s.node nid).portId = 0 → (s.node nid).backend = some be' →
          ReadOnly V be'.ops) → ReadOnly V be.ops := fun h => h be rfl (not_not.1 hport) hbe
      have hloc := (hb.node nid be hbe).wrote f hf s.world (s.node nid).bctx data
      dsimp only
      cases (f s.world (s.node nid).bctx data).1 with
      | error e => exact ⟨hb.congr rfl rfl, fun h => hk (hro h), .inr hloc⟩
      | ok u => exact ⟨hb.touch _ nid rfl, fun h => hk (hro h), .inr hloc⟩

include hE in
theorem vfsWrite_step (cur : Option π) (fd : ℕ) (data : Bytes) :
    Backed V (vfsWrite E s cur fd data).2 ∧
      ((fd ≠ 0 → data ≠ [] → ∀ nid be, lookup s cur fd = some nid → (s.node nid).ring = none → (s.node nid).portId = 0 →
        (s.node nid).backend = some be → ReadOnly V be.ops) → V.Keeps s.world (vfsWrite E s cur fd data).2.world) := by
  unfold vfsWrite
  split_ifs with h0
  · exact ⟨hb, fun _ => View.Keeps.refl V _⟩
  rw [not_or] at h0
  cases hl : lookup s cur fd with
  | none => exact ⟨hb, fun _ => View.Keeps.refl V _⟩
  | some nid =>
    obtain ⟨h1, h2, -⟩ := writeNode_step hE hb nid data
    exact ⟨h1, fun h => h2 fun be => h h0.1 h0.2 nid be rfl⟩

theorem pathCall_backed (op : Ops σ → Option (σ → Str → Except ℤ Unit × σ)) (path : Str) :
    Backed V (pathCall op s path).2 := by
  unfold pathCall
  split_ifs
  · exact hb
  cases vfsCanonicalize path vfsPathMax with
  | none => exact hb
  | some canon =>
    dsimp only
    cases findBackend s.backends canon with
    | none => exact hb
    | some br =>
      dsimp only
      cases op br.1.ops with
      | none => exact hb
      | some f => exact hb.congr rfl rfl

theorem vfsReaddir_backed {buf : List Dirent} {r : Except ℤ (List Dirent) × State σ π}
    (h : vfsReaddir s path buf = some r) : Backed V r.2 := by
  unfold vfsReaddir at h
  cases hf : findBackend s.backends path with
  | none =>
    simp only [hf, Option.some.injEq] at h
    exact h ▸ hb
  | some br =>
    simp only [hf] at h
    cases hd : br.1.ops.opReaddir with
    | none =>
      simp only [hd, Option.some.injEq] at h
      exact h ▸ hb
    | some f =>
      simp only [hd, Option.map_eq_some_iff] at h
      obtain ⟨g, -, rfl⟩ := h
      split_ifs
      · exact hb.congr rfl rfl
      · exact hb.congr (closeCtx_backends _ _ _) (closeCtx_node _ _ _)

theorem vfsRegisterRing_backed (path : Str) (ring : ℕ) : Backed V (vfsRegisterRing s path ring).2 := by
  unfold vfsRegisterRing
  cases allocNodeId s with
  | none => exact hb
  | some nid => exact hb.update rfl rfl fun be he => nomatch he

theorem vfsUnregisterNode_backed (path : Str) : Backed V (vfsUnregisterNode s path).2 := by
  unfold vfsUnregisterNode
  cases (List.range maxNodes).find? fun i => decide ((s.node i).nodeId ≠ 0) && decide ((s.node i).path = path) with
  | none => exact hb
  | some i => exact hb.setNode fun be => hb.node i be

end

end

/-! ## Runs -/

/-- one call -/
theorem sysStep_safe [DecidableEq π] {V : View σ φ κ γ} {E : Env σ} (hE : EnvSound V E) (s : Sys σ π) (c : Call π) (hb : Backed V s.vfs)
    (hc : Refused V s c) : ModeSafe V E s c ∧ Backed V (sysStep E s c).2.vfs := by
  cases c with
  | openFile path flags caller =>
    have ho := vfsOpen_opens s.vfs path flags caller
    exact ⟨fun hu => ho.keeps hb (hc (by simpa [unwritable] using hu)), ho.backed hb⟩
  | close cur fd =>
    obtain ⟨h1, h2⟩ := vfsClose_step hb cur fd
    exact ⟨fun _ => h1, h2⟩
  | read cur fd n =>
    obtain ⟨h1, h2⟩ := vfsRead_step hE hb cur fd n
    exact ⟨fun _ => h1, h2⟩
  | write cur fd data =>
    obtain ⟨h1, h2⟩ := vfsWrite_step hE hb cur fd data
    exact ⟨fun hu => h2 (hc (by simpa [unwritable] using hu)), h1⟩
  | seek cur fd off whence =>
    obtain ⟨h1, h2⟩ := vfsSeek_step hb cur fd off whence
    exact ⟨fun _ => h1, h2⟩
  | stat path => exact ⟨fun hu => (nomatch hu), hb⟩
  | unlink path | mkdir path => exact ⟨fun hu => (nomatch hu), pathCall_backed hb _ path⟩
  | readdir path buf =>
    refine ⟨fun hu => (nomatch hu), ?_⟩
    simp only [sysStep, callStep]
    cases hr : vfsReaddir s.vfs path buf with
    | none => exact hb
    | some r => exact vfsReaddir_backed hb hr
  | registerRing path ring =>
    refine ⟨fun hu => (nomatch hu), ?_⟩
    simp only [sysStep, callStep]
    exact vfsRegisterRing_backed hb path ring
  | unregisterNode path =>
    refine ⟨fun hu => (nomatch hu), ?_⟩
    simp only [sysStep, callStep]
    exact vfsUnregisterNode_backed hb path

/-- **Access modes.** From every state of the VFS, in every run of calls that meet `Refused`, no file changes its bytes or
its size by an open without VFS_O_WRITE or through a descriptor that was opened so. -/
theorem modes_run_sound [DecidableEq π] {V : View σ φ κ γ} {E : Env σ} (hE : EnvSound V E) {s : Sys σ π} (hb : Backed V s.vfs)
    {cs : List (Call π)} (hcs : Always (sysStep E) (Refused V) s cs) : Always (sysStep E) (ModeSafe V E) s cs :=
  hcs.mono (I := fun s => Backed V s.vfs) (fun s c hb hc => sysStep_safe hE s c hb hc) hb

/-! ## The RAM file system -/

/-- no rings and no ports -/
def noEnv : Env Ram := ⟨fun _ => 0, fun _ _ _ => none, fun _ _ _ => none, fun w _ _ => (.error eErr, w)⟩

theorem noEnv_sound : EnvSound ramView noEnv :=
  ⟨fun _ _ _ _ _ h => (nomatch h), fun _ _ _ _ h => (nomatch h), fun w _ _ => View.Same.refl _ w⟩

/-- `/a` with the bytes 1 2 3, in the RAM file system at `/` -/
def fileState : Sys Ram ℕ :=
  ⟨(vfsMount (vfsInit (emptyRam.set 0 (.slot 0) ⟨['/', 'a'], some [1, 2, 3], 3, .file, true⟩)) ['/'] (ramfsOps 0)).2,
    fun _ _ => 0⟩

theorem fileState_backed : Backed ramView fileState.vfs := (vfsInit_backed _ _).mount _ (ramfs_sound 0)

/-- process 7 reads `/a` and, through a second descriptor, writes to it -/
def twoModes : List (Call ℕ) :=
  [.openFile ['/', 'a'] 1 (some 7), .openFile ['/', 'a'] 2 (some 7), .read (some 7) 1 2, .write (some 7) 2 [9],
    .close (some 7) 1]

theorem modes_run_sound_two : Always (sysStep noEnv) (ModeSafe ramView noEnv) fileState twoModes := by
  apply modes_run_sound noEnv_sound fileState_backed
  refine ⟨fun _ h => absurd h (by decide), fun h => absurd h (by decide), trivial, ?_, trivial, trivial⟩
  exact fun h => absurd h (by decide +kernel)

/-- `/a` is open for reading, as descriptor 1 of process 7 -/
def readOpen : Sys Ram ℕ := (sysStep noEnv fileState (.openFile ['/', 'a'] 1 (some 7))).2

/-- **Modes are not checked.** A write through a descriptor that is open for reading changes the file, and so does an open
for reading with VFS_O_TRUNC. -/
theorem read_only_writes : ramView.content fileState.vfs.world (0, 0) = some ([1, 2, 3], 3) ∧
    (oWrite (openMode readOpen (some 7) 1) = false ∧
      ramView.content readOpen.vfs.world (0, 0) = some ([1, 2, 3], 3) ∧
      ramView.content (sysStep noEnv readOpen (.write (some 7) 1 [9])).2.vfs.world (0, 0) = some ([9, 2, 3], 3)) ∧
    oWrite 9 = false ∧
      ramView.content (sysStep noEnv fileState (.openFile ['/', 'a'] 9 (some 7))).2.vfs.world (0, 0) = some ([], 0) := by
  decide +kernel

end OpenASD.Vfs
