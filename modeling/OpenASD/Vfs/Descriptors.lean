/-
Descriptors over the life of processes: the VFS together with the scheduler.

`vfs_open` takes a node, a context of the backend and a slot of the caller's `fd_table`; `vfs_close` gives all three back.
`sched_exit` and `sched_reap` free the address space and the kernel stack of a process, but close nothing, and
`sched_spawn` clears the slot's PCB with the table in it. After `sched_reap` the current process is the dead child, so
what the parent opens then is entered there.

Results:
- `descriptors_run_sound`: as long as processes close their files before they end, and open them while they live, the nodes
  opened by processes correspond one to one to the descriptors of live processes, and the contexts to the nodes.
- `exit_leaks`: a process that exits with an open file.
-/
import OpenASD.Sched.Accounting
import OpenASD.Vfs.Calls

namespace OpenASD.Vfs

open Machine Sched
open Function (update update_apply update_eq_self update_idem update_of_ne update_self)

variable {σ π : Type}

/-! ## Contexts -/

/-- which contexts of backends are allocated -/
structure CtxView (σ : Type) where
  good : σ → Prop
  ctxs : σ → ℕ → Bool

/-- an open allocates the context that it returns, a close frees it -/
structure Tracks (C : CtxView σ) (ops : Ops σ) : Prop where
  opened : ∀ f, ops.opOpen = some f → ∀ w path flags, C.good w → C.good (f w path flags).2 ∧
    ((f w path flags).1 = 0 → C.ctxs (f w path flags).2 = C.ctxs w) ∧
    ((f w path flags).1 ≠ 0 → C.ctxs w (f w path flags).1 = false ∧
      C.ctxs (f w path flags).2 = update (C.ctxs w) (f w path flags).1 true)
  closed : ∃ f, ops.opClose = some f ∧ ∀ w h, C.good w → C.good (f w h) ∧
    C.ctxs (f w h) = update (C.ctxs w) h false

variable {be : Backend (Ops σ)} {nid fd : ℕ}

theorem closeCtx_tracks {C : CtxView σ} (h : Tracks C be.ops) {s : State σ π} (hg : C.good s.world)
    (ctx : ℕ) : C.good (closeCtx s be ctx).world ∧
      C.ctxs (closeCtx s be ctx).world = update (C.ctxs s.world) ctx false := by
  obtain ⟨f, hf, hclose⟩ := h.closed
  rw [closeCtx, hf]
  exact hclose s.world ctx hg

/-! ## Nodes, slots and contexts -/

/-- a node of a process -/
structure NodeOk (C : CtxView σ) (s : State σ π) (nid : ℕ) (p : π) : Prop where
  refcount : (s.node nid).refcount = 1
  backend : ∃ be, (s.node nid).backend = some be ∧ Tracks C be.ops
  ctx : C.ctxs s.world (s.node nid).bctx = true
  slot : ∃ fd, s.fdTable p fd = some nid

/-- live nodes that a process has opened, as pairs with that process -/
def Opened (s : State σ π) (nid : ℕ) (p : π) : Prop := (s.node nid).nodeId ≠ 0 ∧ (s.node nid).pcb = some p

/-- K: the contexts of the kernel -/
structure Owned (C : CtxView σ) (K : ℕ → Prop) (s : State σ π) : Prop where
  mounted : ∀ be ∈ s.backends, be.id ≠ 0 → Tracks C be.ops
  good : C.good s.world
  node : ∀ nid p, Opened s nid p → NodeOk C s nid p
  slot : ∀ p fd nid, s.fdTable p fd = some nid → fd < maxFds ∧ Opened s nid p
  uniq : ∀ p fd fd' nid, s.fdTable p fd = some nid → s.fdTable p fd' = some nid → fd = fd'
  ctxUniq : ∀ m n p q, Opened s m p → Opened s n q → (s.node m).bctx = (s.node n).bctx → m = n
  ctxOwner : ∀ h, C.ctxs s.world h = true → K h ∨ ∃ nid p, Opened s nid p ∧ (s.node nid).bctx = h

section Owned

variable {C : CtxView σ} {K : ℕ → Prop} {s s' : State σ π} {p : π}

/-- the world beside the contexts does not matter -/
theorem Owned.setWorld (h : Owned C K s) {w : σ} (hg : C.good w) (hc : C.ctxs w = C.ctxs s.world) :
    Owned C K (s.setWorld w) := by
  refine ⟨h.mounted, hg, fun n p ho => ?_, h.slot, h.uniq, h.ctxUniq, fun x hx => h.ctxOwner x (hc ▸ hx)⟩
  obtain ⟨h1, h2, h3, h4⟩ := h.node n p ho
  exact ⟨h1, h2, (congrFun hc _).trans h3, h4⟩

/-- one node changes, with a slot and a context c that are its own or nobody's: it is free afterwards, or it has both -/
theorem Owned.change [DecidableEq π] (h : Owned C K s) {v : Node σ π} {c : ℕ}
    (hctx : ∀ n q, Opened s n q → ((s.node n).bctx = c ↔ n = nid))
    (hslot : ∀ n q x, s.fdTable q x = some n → (q = p ∧ x = fd ↔ n = nid))
    (hnew : v.nodeId ≠ 0 → fd < maxFds ∧ v.pcb = some p ∧ v.refcount = 1 ∧ v.bctx = c ∧
      ∃ be, v.backend = some be ∧ Tracks C be.ops)
    (hb : s'.backends = s.backends) (hg : C.good s'.world)
    (hc : C.ctxs s'.world = update (C.ctxs s.world) c (decide (v.nodeId ≠ 0))) (hnode : s'.node = update s.node nid v)
    (ht : ∀ q x, s'.fdTable q x =
      if q = p ∧ x = fd then if v.nodeId ≠ 0 then some nid else none else s.fdTable q x) : Owned C K s' := by
  have hself : s'.node nid = v := by rw [hnode, update_self]
  have hother : ∀ {n}, n ≠ nid → s'.node n = s.node n := fun hne => by rw [hnode, update_of_ne hne]
  have hold : ∀ {n q}, n ≠ nid → (Opened s' n q ↔ Opened s n q) := fun hne => by
    unfold Opened
    rw [hother hne]
  have hopen : ∀ {n q}, Opened s' n q → (n = nid ∧ q = p ∧ v.nodeId ≠ 0) ∨ n ≠ nid ∧ Opened s n q := by
    intro n q ho
    by_cases hn : n = nid
    · subst hn
      obtain ⟨h1, h2⟩ := ho
      rw [hself] at h1 h2
      exact .inl ⟨rfl, Option.some.inj (h2.symm.trans (hnew h1).2.1), h1⟩
    · exact .inr ⟨hn, (hold hn).1 ho⟩
  refine ⟨hb ▸ h.mounted, hg, fun n q ho => ?_, fun q x n hs => ?_, fun q x y n hx hy => ?_,
    fun m n q q' hm hn he => ?_, fun x hx => ?_⟩
  · rcases hopen ho with ⟨rfl, rfl, hv⟩ | ⟨hn, ho⟩
    · obtain ⟨-, -, href, hbc, hbe⟩ := hnew hv
      refine ⟨by rw [hself, href], by rwa [hself], ?_, fd, by rw [ht, if_pos ⟨rfl, rfl⟩, if_pos hv]⟩
      rw [hself, hbc, hc, update_self, decide_eq_true hv]
    obtain ⟨h1, h2, h3, x, h4⟩ := h.node n q ho
    refine ⟨by rw [hother hn, h1], by rw [hother hn]; exact h2, ?_, x, ?_⟩
    · rw [hother hn, hc, update_of_ne (mt (hctx n q ho).1 hn), h3]
    · rw [ht, if_neg (mt (hslot n q x h4).1 hn), h4]
  · rw [ht] at hs
    split_ifs at hs with hqx hv
    · cases hs
      obtain ⟨rfl, rfl⟩ := hqx
      obtain ⟨hfd, hpcb, -⟩ := hnew hv
      exact ⟨hfd, by rwa [hself], by rw [hself, hpcb]⟩
    · obtain ⟨h1, h2⟩ := h.slot q x n hs
      exact ⟨h1, (hold (mt (hslot n q x hs).2 hqx)).2 h2⟩
  · rw [ht] at hx hy
    split_ifs at hx hy with h1 hv h2 h2
    · exact h1.2.trans h2.2.symm
    · cases hx
      exact absurd ((hslot _ q y hy).2 rfl) h2
    · cases hy
      exact absurd ((hslot _ q x hx).2 rfl) h1
    · exact h.uniq q x y n hx hy
  · rcases hopen hm with ⟨rfl, -, hv⟩ | ⟨h1, o1⟩ <;> rcases hopen hn with ⟨rfl, -, hv'⟩ | ⟨h2, o2⟩
    · rfl
    · rw [hself, hother h2, (hnew hv).2.2.2.1] at he
      exact ((hctx n q' o2).1 he.symm).symm
    · rw [hself, hother h1, (hnew hv').2.2.2.1] at he
      exact (hctx m q o1).1 he
    · rw [hother h1, hother h2] at he
      exact h.ctxUniq m n q q' o1 o2 he
  · by_cases hxc : x = c
    · rw [hc, hxc, update_self, decide_eq_true_eq] at hx
      obtain ⟨-, hpcb, -, hbc, -⟩ := hnew hx
      exact .inr ⟨nid, p, ⟨by rwa [hself], by rw [hself, hpcb]⟩, by rw [hself, hbc, hxc]⟩
    rw [hc, update_of_ne hxc] at hx
    rcases h.ctxOwner x hx with hk | ⟨n, q, ho, hbx⟩
    · exact .inl hk
    have hn : n ≠ nid := fun e => hxc (hbx.symm.trans ((hctx n q ho).2 e))
    exact .inr ⟨n, q, (hold hn).2 ho, by rw [hother hn, hbx]⟩

/-! ## Open and close -/

/-- a free node, a slot that is not in use and a context that is not allocated are nobody's -/
theorem Owned.nobodys (h : Owned C K s) {c : ℕ} (hfree : (s.node nid).nodeId = 0) (hslot : s.fdTable p fd = none)
    (hctx : C.ctxs s.world c = false) : (∀ n q, Opened s n q → ((s.node n).bctx = c ↔ n = nid)) ∧
      ∀ n q x, s.fdTable q x = some n → (q = p ∧ x = fd ↔ n = nid) := by
  have hn : ∀ {n q}, Opened s n q → n ≠ nid := fun ho e => ho.1 (e ▸ hfree)
  refine ⟨fun n q ho => iff_of_false (fun e => ?_) (hn ho), fun n q x hs => iff_of_false ?_ (hn (h.slot q x n hs).2)⟩
  · have := (h.node n q ho).ctx
    rw [e, hctx] at this
    cases this
  · rintro ⟨rfl, rfl⟩
    rw [hslot] at hs
    cases hs

variable [DecidableEq π]

theorem Owned.vfsOpen (h : Owned C K s) {path : Str} {flags : ℕ} {r : Except ℤ ℕ × State σ π}
    (ho : Opens s path flags (some p) r) :
    Owned C K r.2 ∧ ∀ q fd nid, r.2.fdTable q fd = some nid → s.fdTable q fd = some nid ∨ q = p := by
  have htr : ∀ {canon be rel}, Leads s path canon be rel → Tracks C be.ops := fun hl =>
    h.mounted _ (findBackend_mem hl.found).1 (findBackend_mem hl.found).2
  have hopened : ∀ {canon be rel f x}, Leads s path canon be rel → be.ops.opOpen = some f →
      f s.world rel (openFlags flags) = x → x.1 ≠ 0 → C.good x.2 ∧ C.ctxs s.world x.1 = false ∧
      C.ctxs x.2 = update (C.ctxs s.world) x.1 true := by
    rintro canon be rel f x hl hf rfl hx
    obtain ⟨hg, -, hnew⟩ := (htr hl).opened f hf s.world rel (openFlags flags) h.good
    exact ⟨hg, hnew hx⟩
  cases ho with
  | refused _ => exact ⟨h, fun _ _ _ hs => .inl hs⟩
  | @absent canon be rel f x hl hf hr hctx =>
    obtain ⟨hg, hsame, -⟩ := (htr hl).opened f hf s.world rel (openFlags flags) h.good
    rw [hr] at hg hsame
    exact ⟨h.setWorld hg (hsame hctx), fun _ _ _ hs => .inl hs⟩
  | @full canon be rel f x hl hf hr hctx hnid =>
    obtain ⟨hg, hfalse, hupd⟩ := hopened hl hf hr hctx
    obtain ⟨hg', hc⟩ := closeCtx_tracks (htr hl) (s := s.setWorld x.2) hg x.1
    rw [closeCtx_eq]
    refine ⟨h.setWorld hg' ?_, fun _ _ _ hs => .inl hs⟩
    show C.ctxs _ = _
    -- after an open and a close the contexts are as they were
    rw [hc, show (s.setWorld x.2).world = x.2 from rfl, hupd, update_idem, ← hfalse, update_eq_self]
  | kernel hl hf hr hctx hnid hcaller => cases hcaller
  | @slot canon be rel f x nid p' fd hl hf hr hctx hnid hcaller hfd =>
    cases hcaller
    obtain ⟨hg, hfalse, hupd⟩ := hopened hl hf hr hctx
    obtain ⟨hn0, -, hfree⟩ := allocNodeId_some hnid
    obtain ⟨-, hlt, hnone⟩ := freeFd_some hfd
    obtain ⟨h1, h2⟩ := h.nobodys hfree hnone hfalse
    have hlive : decide (nid ≠ 0) = true := decide_eq_true hn0
    refine ⟨h.change h1 h2 (fun _ => ⟨hlt, rfl, rfl, rfl, be, rfl, htr hl⟩) rfl hg (hlive ▸ hupd) rfl fun q y => ?_,
      fun q y n hs => ?_⟩
    · exact (table_update s.fdTable p fd _ q y).trans (if_congr Iff.rfl (if_pos hn0).symm rfl)
    have hs' : update s.fdTable p (update (s.fdTable p) fd (some nid)) q y = some n := hs
    rw [table_update] at hs'
    split_ifs at hs' with hq
    · exact .inr hq.1
    · exact .inl hs'
  | @noSlot canon be rel f x nid p' v hl hf hr hctx hnid hcaller hfd hv =>
    obtain ⟨hg, hfalse, hupd⟩ := hopened hl hf hr hctx
    obtain ⟨-, -, hfree⟩ := allocNodeId_some hnid
    -- no slot is taken: that at the end of the table stands for it
    have hnone : s.fdTable p maxFds = none := Option.eq_none_iff_forall_ne_some.2 fun n e =>
      Nat.lt_irrefl _ (h.slot p maxFds n e).1
    obtain ⟨h1, h2⟩ := h.nobodys hfree hnone hfalse
    let s1 := (installNode (s.setWorld x.2) nid canon (openFlags flags) be rel x.1 (some p')).setNode nid v
    obtain ⟨hg', hc⟩ := closeCtx_tracks (htr hl) (s := s1) hg x.1
    rw [closeCtx_eq]
    refine ⟨h.change (v := v) h1 h2 (fun hne => absurd hv.1 hne) rfl hg' ?_ (update_idem _ _ _) fun q y => ?_,
      fun _ _ _ hs => .inl hs⟩
    · refine hc.trans ?_
      rw [show s1.world = x.2 from rfl, hupd, update_idem, hv.1]
      rfl
    · show s.fdTable q y = _
      split_ifs with hq hne
      · exact absurd hv.1 hne
      · rw [hq.1, hq.2, hnone]
      · rfl

theorem pred32_one : pred32 1 = 0 := by
  delta pred32
  decide

theorem Owned.vfsClose (h : Owned C K s) (hfd : fd < maxFds) : Owned C K (vfsClose s (some p) fd).2 ∧
      ∀ q x nid, (vfsClose s (some p) fd).2.fdTable q x = some nid → s.fdTable q x = some nid := by
  unfold Vfs.vfsClose
  by_cases h0 : fd = 0
  · rw [if_pos h0]
    exact ⟨h, fun _ _ _ hs => hs⟩
  rw [if_neg h0]
  have hlook : lookup s (some p) fd = s.fdTable p fd := if_neg (Nat.not_le.2 hfd)
  cases hs : s.fdTable p fd with
  | none =>
    rw [hlook, hs]
    exact ⟨h, fun _ _ _ hs => hs⟩
  | some nid =>
    rw [hlook, hs]
    obtain ⟨-, hopen⟩ := h.slot p fd nid hs
    obtain ⟨href, ⟨be, hbe, htr⟩, -, -⟩ := h.node nid p hopen
    let s1 := s.setFd p fd none
    let s2 := closeCtx s1 be (s.node nid).bctx
    let v := { s.node nid with refcount := 0, nodeId := 0 }
    have hclear : clearFd s (some p) fd = s1 := if_neg (Nat.not_le.2 hfd)
    have hdrop : dropRef s1 nid = s2.setNode nid v := by
      have hclose : closeNode s1 (s.node nid) = s2 := by
        rw [closeNode, hbe]
      have hzero : pred32 (s1.node nid).refcount = 0 := by
        show pred32 (s.node nid).refcount = 0
        rw [href, pred32_one]
      rcases dropRef_cases s1 nid with ⟨-, he⟩ | ⟨count, hcount, hne, -⟩
      · rw [he, ← hclose]
        rfl
      · exact absurd (hcount.trans hzero) hne
    obtain ⟨hg, hc⟩ := closeCtx_tracks htr (s := s1) h.good (s.node nid).bctx
    dsimp only
    rw [hclear, hdrop]
    have htable : ∀ q x, s2.fdTable q x = if q = p ∧ x = fd then none else s.fdTable q x := fun q x => by
      rw [closeCtx_fdTable]
      exact table_update s.fdTable p fd none q x
    refine ⟨h.change (v := v) (fun n q ho => ⟨fun e => h.ctxUniq n nid q p ho hopen e, fun e => e ▸ rfl⟩)
      (fun n q x hx => ⟨?_, ?_⟩) (fun hne => absurd rfl hne) (closeCtx_backends _ _ _) hg hc ?_ htable, fun q x n hx => ?_⟩
    · rintro ⟨rfl, rfl⟩
      exact Option.some.inj (hx.symm.trans hs)
    · rintro rfl
      obtain rfl : q = p := Option.some.inj ((h.slot q x n hx).2.2.symm.trans hopen.2)
      exact ⟨rfl, h.uniq q x fd n hx hs⟩
    · show update s2.node nid _ = _
      rw [closeCtx_node]
      rfl
    have hx' : s2.fdTable q x = some n := hx
    rw [htable] at hx'
    split_ifs at hx'
    exact hx'

end Owned

/-! ## The machine -/

structure Os (σ : Type) where
  kernel : Kernel
  vfs : State σ PcbId

/-- calls of the scheduler, and opens and closes by the current process -/
inductive OsOp where
  | sched (o : KOp)
  | openFile (path : Str) (flags : ℕ)
  | close (fd : ℕ)

/-- the PCB that a call fills with zeros -/
def cleared (c : Core) : KOp → Option PcbId
  | .bootstrap => some .bootstrap
  | .spawn _ => if maxProcs ≤ c.procCount then none else c.nextFree.map slot
  | _ => none

def clearTable (s : State σ PcbId) : Option PcbId → State σ PcbId
  | none => s
  | some p => { s with fdTable := update s.fdTable p fun _ => none }

def osStep (s : Os σ) : OsOp → Except Stop (Os σ)
  | .sched o => (kstep s.kernel o).bind fun k => .ok ⟨k, clearTable s.vfs (cleared s.kernel.core o)⟩
  | .openFile path flags => .ok ⟨s.kernel, (vfsOpen s.vfs path flags (some s.kernel.cur)).2⟩
  | .close fd => .ok ⟨s.kernel, (vfsClose s.vfs (some s.kernel.cur) fd).2⟩

/-! ## Ends of processes -/

/-- a live process -/
structure Lives (c : Core) (p : PcbId) : Prop where
  pid : c.pid p ≠ 0
  state : c.state p ≠ .dead

/-- the processes that a call ends, or whose PCB it fills anew: the one that exits, the one whose reaper then goes on, one
that is reaped without being able to run -/
def ended (c : Core) : KOp → List PcbId
  | .bootstrap => [.bootstrap]
  | .exit _ => c.cur :: match c.waiter, c.jmp with
    | some _, some f => if c.active then [f.pcb] else []
    | _, _ => []
  | .reap pid => match c.find pid with
    | some p => if c.state p = .ready ∧ c.rip p ≠ 0 then [] else [p]
    | none => []
  | _ => []

section Lives

variable {c c' : Core} {p : PcbId}

section

variable (h : Lives c p)
include h

theorem Lives.congr (hpid : c'.pid p = c.pid p) (hst : c'.state p = .dead → c.state p = .dead) : Lives c' p :=
  ⟨hpid ▸ h.pid, fun hd => h.state (hst hd)⟩

/-- another process gets another state -/
theorem Lives.other {q : PcbId} {x : PState} (hne : p ≠ q) (hpid : c'.pid p = c.pid p) (hst : c'.state = update c.state q x) :
    Lives c' p := h.congr hpid fun hd => by rwa [hst, update_of_ne hne] at hd

/-- a free slot is nobody's -/
theorem Lives.ne_slot {pid : ℕ} (hf : c.nextFree = some pid) : p ≠ slot pid := by
  rintro rfl
  rcases nextFree_free hf with hd | h0
  · exact h.state hd
  · exact h.pid h0

theorem Lives.claim {pid : ℕ} (hf : c.nextFree = some pid) : Lives (c.claim pid) p :=
  h.other (h.ne_slot hf) (update_of_ne (h.ne_slot hf) _ _) rfl

theorem Lives.die (code : ℤ) (hne : p ≠ c.cur) : Lives (c.die code) p := h.other hne rfl rfl

theorem Lives.tail {f : Frame} (hne : p ≠ f.pcb) : Lives (c.tail f) p := h.other hne (update_of_ne hne _ _) rfl

theorem Lives.resume (q : PcbId) : Lives (c.resume q) p := h.congr rfl fun hd => update_state hd

theorem Lives.enqueue (q : PcbId) (cls : ℕ) : Lives (c.enqueue q cls) p :=
  h.congr rfl fun hd => update_state hd

theorem Lives.switch (next : PcbId) (rbx : ℕ) : Lives (c.switch next rbx) p := by
  refine h.congr ?_ fun hd => switch_state hd
  exact congrFun (Core.switch_keeps c next rbx Core.pid fun _ _ _ _ _ => rfl) p

/-- a call ends no other process -/
theorem Lives.step {o : KOp} (hs : CStep c o c') (hp : p ∉ ended c o) : Lives c' p := by
  cases hs with
  | bootstrap =>
    have hne : p ≠ .bootstrap := fun e => hp (e ▸ List.mem_singleton_self _)
    exact h.other hne (update_of_ne hne _ _) rfl
  | spawnFull _ | reapNone _ | tickNone | wakeNone | steal | set | dequeue => exact h
  | spawnNoStack _ hf _ => exact h.claim hf
  | spawnNew _ hf _ _ => exact (h.claim hf).congr rfl id
  | @spawnReady a pid rip cr3 _ hf _ _ _ =>
    have hl : Lives (((c.claim pid).born (slot pid)).setRip (slot pid) rip) p := (h.claim hf).congr rfl id
    exact hl.enqueue _ _
  | @exitJump code w f hw ha hj =>
    have hmem : ended c (.exit code) = [c.cur, f.pcb] := by rw [ended, hw, hj, ha]; rfl
    rw [hmem, List.mem_cons, List.mem_singleton, not_or] at hp
    exact (h.die _ hp.1).tail hp.2
  | @exitWaiter code w _ _ _ =>
    have hd : Lives (c.die code) p := h.die code fun e => hp (e ▸ List.mem_cons_self)
    have hl : Lives { c.die code with waiter := none } p := hd.congr rfl id
    exact hl.resume _
  | exitNext _ _ => exact (h.die _ fun e => hp (e ▸ List.mem_cons_self)).resume _
  | @reapStart pid f _ _ _ _ =>
    have hl : Lives (c.enter f) p := h.congr rfl id
    exact hl.resume _
  | @reapNow pid f hf _ hr =>
    have hmem : ended c (.reap pid) = [f.pcb] := by rw [ended, hf]; exact if_neg hr
    rw [hmem, List.mem_singleton] at hp
    have hl : Lives (c.enter f) p := h.congr rfl id
    exact hl.tail hp
  | yieldBack | tickBack _ => exact (h.enqueue _ _).switch _ _
  | yieldOn => exact h.switch _ _
  | wake _ => exact h.enqueue _ _
  | block => exact h.congr rfl fun hd => update_state hd

/-- the PCB that a call clears is that of no live process -/
theorem Lives.not_cleared {o : KOp} (hp : p ∉ ended c o) : cleared c o ≠ some p := by
  cases o with
  | bootstrap =>
    intro e
    exact hp (Option.some.inj e ▸ List.mem_singleton_self _)
  | spawn a =>
    intro e
    rw [cleared] at e
    split_ifs at e
    obtain ⟨pid, hf, rfl⟩ := Option.map_eq_some_iff.1 e
    exact h.ne_slot hf rfl
  | _ => exact fun e => nomatch e

end

end Lives

/-! ## Runs -/

def noFds (s : State σ PcbId) (p : PcbId) : Bool := (List.range maxFds).all fun fd => (s.fdTable p fd).isNone

/-- processes end with all their files closed, and open them while they live; descriptors are those of processes -/
def Tidy (s : Os σ) : OsOp → Prop
  | .sched o => ∀ p ∈ ended s.kernel.core o, noFds s.vfs p = true
  | .openFile _ _ => Lives s.kernel.core s.kernel.cur
  | .close fd => fd < maxFds

instance (c : Core) (p : PcbId) : Decidable (Lives c p) :=
  decidable_of_iff (c.pid p ≠ 0 ∧ c.state p ≠ .dead) ⟨fun h => ⟨h.1, h.2⟩, fun h => ⟨h.pid, h.state⟩⟩

instance (s : Os σ) (o : OsOp) : Decidable (Tidy s o) :=
  match o with
  | .sched o => inferInstanceAs (Decidable (∀ p ∈ ended s.kernel.core o, noFds s.vfs p = true))
  | .openFile _ _ => inferInstanceAs (Decidable (Lives s.kernel.core s.kernel.cur))
  | .close fd => inferInstanceAs (Decidable (fd < maxFds))

/-- the nodes of processes and the descriptors of live processes, one to one; K are the contexts of the kernel -/
structure OneToOne (C : CtxView σ) (K : ℕ → Prop) (s : Os σ) : Prop where
  /-- no slot refers to a freed node -/
  slot : ∀ p fd nid, s.vfs.fdTable p fd = some nid → Lives s.kernel.core p ∧ (s.vfs.node nid).nodeId ≠ 0
  /-- no node is shared -/
  uniq : ∀ p q fd fd' nid, s.vfs.fdTable p fd = some nid → s.vfs.fdTable q fd' = some nid → p = q ∧ fd = fd'
  /-- no node is left over -/
  node : ∀ nid p, Opened s.vfs nid p → ∃ fd, s.vfs.fdTable p fd = some nid
  /-- no context is left over -/
  ctx : ∀ h, C.ctxs s.vfs.world h = true → K h ∨ ∃ nid p, Opened s.vfs nid p ∧ (s.vfs.node nid).bctx = h

/-- the invariant: descriptors of live processes -/
structure Held (C : CtxView σ) (K : ℕ → Prop) (s : Os σ) : Prop where
  owned : Owned C K s.vfs
  lives : ∀ p fd nid, s.vfs.fdTable p fd = some nid → Lives s.kernel.core p

section Runs

variable {C : CtxView σ} {K : ℕ → Prop} {s s' : Os σ}

theorem noFds_not (h : Owned C K s.vfs) {p : PcbId} (hp : noFds s.vfs p = true) :
    s.vfs.fdTable p fd ≠ some nid := by
  intro e
  obtain ⟨hlt, -⟩ := h.slot p fd nid e
  have := List.all_eq_true.1 hp fd (List.mem_range.2 hlt)
  rw [e] at this
  cases this

/-- clearing an empty table -/
theorem clearTable_self {s : State σ PcbId} {q : Option PcbId} (h : ∀ p, q = some p → ∀ fd, s.fdTable p fd = none) :
    clearTable s q = s := by
  cases q with
  | none => rfl
  | some p =>
    have he : (fun _ => none) = s.fdTable p := funext fun fd => (h p rfl fd).symm
    rw [clearTable, he, update_eq_self]

theorem Held.step (h : Held C K s) {o : OsOp} (ht : Tidy s o) (hs : osStep s o = .ok s') : Held C K s' := by
  cases o with
  | sched o =>
    obtain ⟨k, hk, he⟩ := bind_eq_ok.1 hs
    cases he
    -- whoever has a descriptor lives on, and its table is not touched
    have hkeep : ∀ p fd nid, s.vfs.fdTable p fd = some nid → p ∉ ended s.kernel.core o := fun p fd nid hfd hmem =>
      noFds_not h.owned (ht p hmem) hfd
    have hclear : clearTable s.vfs (cleared s.kernel.core o) = s.vfs := by
      refine clearTable_self fun p hp fd => ?_
      cases hfd : s.vfs.fdTable p fd with
      | none => rfl
      | some nid => exact absurd hp ((h.lives p fd nid hfd).not_cleared (hkeep p fd nid hfd))
    rw [hclear]
    refine ⟨h.owned, fun p fd nid hfd => ?_⟩
    exact (h.lives p fd nid hfd).step (kstep_core hk) (hkeep p fd nid hfd)
  | openFile path flags =>
    cases hs
    obtain ⟨h1, h2⟩ := h.owned.vfsOpen (vfsOpen_opens s.vfs path flags (some s.kernel.cur))
    refine ⟨h1, fun p fd nid hfd => ?_⟩
    rcases h2 p fd nid hfd with hold | rfl
    · exact h.lives p fd nid hold
    · exact ht
  | close fd =>
    cases hs
    obtain ⟨h1, h2⟩ := h.owned.vfsClose (p := s.kernel.cur) ht
    exact ⟨h1, fun p x nid hx => h.lives p x nid (h2 p x nid hx)⟩

theorem Held.oneToOne (h : Held C K s) : OneToOne C K s where
  slot p fd nid hfd := ⟨h.lives p fd nid hfd, (h.owned.slot p fd nid hfd).2.1⟩
  uniq p q fd fd' nid hp hq := by
    have hpq : p = q := Option.some.inj ((h.owned.slot p fd nid hp).2.2.symm.trans (h.owned.slot q fd' nid hq).2.2)
    subst hpq
    exact ⟨rfl, h.owned.uniq p fd fd' nid hp hq⟩
  node nid p ho := (h.owned.node nid p ho).slot
  ctx := h.owned.ctxOwner

/-- no process has opened anything yet -/
structure Unopened (C : CtxView σ) (s : State σ PcbId) : Prop where
  mounted : ∀ be ∈ s.backends, be.id ≠ 0 → Tracks C be.ops
  good : C.good s.world
  node : ∀ nid p, ¬ Opened s nid p
  slot : ∀ p fd, s.fdTable p fd = none

/-- **Descriptors.** From any state in which no process has opened a file, in every run in which processes close their files
before they end and open them while they live, the nodes and contexts opened by processes and the descriptors of live
processes correspond one to one. -/
theorem descriptors_run_sound (h0 : Unopened C s.vfs) {ops : List OsOp} (ht : Along osStep Tidy s ops)
    (hr : run osStep s ops = .ok s') : OneToOne C (fun h => C.ctxs s.vfs.world h = true) s' := by
  have hstart : Held C (fun h => C.ctxs s.vfs.world h = true) s := by
    refine ⟨⟨h0.mounted, h0.good, fun nid p ho => absurd ho (h0.node nid p), fun p fd nid hfd => ?_, fun p fd fd' nid hfd => ?_,
      fun m n p q hm => absurd hm (h0.node m p), fun h hh => .inl hh⟩, fun p fd nid hfd => ?_⟩
    all_goals
      rw [h0.slot] at hfd
      cases hfd
  have hend := run_inv (P := Tidy) (I := Held C fun h => C.ctxs s.vfs.world h = true) (fun _ _ _ hI hP hs => hI.step hP hs)
    hstart ht hr
  exact hend.oneToOne

end Runs

/-! ## The RAM file system -/

/-- the handles; addresses above the last one are not in use -/
def ramCtx : CtxView Ram := ⟨fun w => ∀ h, w.lastHandle < h → w.handle h = none, fun w h => (w.handle h).isSome⟩

theorem set_lastHandle (w : Ram) (fs : ℕ) (r : EntryRef) (e : Entry) : (w.set fs r e).lastHandle = w.lastHandle := by
  cases r <;> rfl

theorem openEntry_handle (w : Ram) (fs : ℕ) (path : Str) (flags : ℕ) :
    (openEntry w fs path flags).2.handle = w.handle ∧ (openEntry w fs path flags).2.lastHandle = w.lastHandle := by
  unfold openEntry
  cases ramfsFind w fs path with
  | some i => exact ⟨rfl, rfl⟩
  | none =>
    split_ifs
    · exact ⟨rfl, rfl⟩
    · cases ramfsFree w fs <;> exact ⟨rfl, rfl⟩
    · exact ⟨rfl, rfl⟩

theorem truncate_handle (w : Ram) (fs : ℕ) (r : EntryRef) (flags : ℕ) :
    (truncate w fs r flags).handle = w.handle ∧ (truncate w fs r flags).lastHandle = w.lastHandle := by
  unfold truncate
  split_ifs
  · exact ⟨set_handle _ _ _ _, set_lastHandle _ _ _ _⟩
  · exact ⟨rfl, rfl⟩

/-- an open changes the handles only at its end -/
theorem ramfsOpen_handle (fs : ℕ) (w : Ram) (path : Str) (flags : ℕ) :
    ∃ w1 f, w1.handle = w.handle ∧ w1.lastHandle = w.lastHandle ∧
      (ramfsOpen fs w path flags = (0, w1) ∨ ramfsOpen fs w path flags = newHandle w1 f) := by
  have h1 := openEntry_handle w fs path flags
  unfold ramfsOpen
  generalize openEntry w fs path flags = r at *
  obtain ⟨ro, w'⟩ := r
  cases ro with
  | none => exact ⟨w', ⟨fs, .root, 0⟩, h1.1, h1.2, .inl rfl⟩
  | some r =>
    have h2 := truncate_handle w' fs r flags
    dsimp only
    split_ifs
    · exact ⟨w', ⟨fs, r, 0⟩, h1.1, h1.2, .inl rfl⟩
    · exact ⟨truncate w' fs r flags, ⟨fs, r, 0⟩, h2.1.trans h1.1, h2.2.trans h1.2, .inr rfl⟩

theorem isSome_update (g : ℕ → Option Handle) (h : ℕ) (f : Option Handle) :
    (fun x => (update g h f x).isSome) = update (fun x => (g x).isSome) h f.isSome := by
  funext x
  rw [update_apply, update_apply]
  split_ifs <;> rfl

theorem ramfs_tracks (fs : ℕ) : Tracks ramCtx (ramfsOps fs) where
  opened := by
    rintro f hf w path flags hg
    cases hf
    obtain ⟨w1, f, hh, hl, he | he⟩ := ramfsOpen_handle fs w path flags
    · rw [he]
      refine ⟨fun h hlt => ?_, fun _ => ?_, fun hne => absurd rfl hne⟩
      · rw [hh]
        exact hg h (hl ▸ hlt)
      · exact congrArg (fun g h => Option.isSome (g h)) hh
    have hg1 : ∀ h, w1.lastHandle < h → w1.handle h = none := fun h hlt => by
      rw [hh]
      exact hg h (hl ▸ hlt)
    have hctx : ramCtx.ctxs w = fun h => (w1.handle h).isSome := by
      rw [hh]
      rfl
    rw [he, hctx]
    unfold newHandle Ram.kmalloc
    cases w1.alloc w1.allocs with
    | none => exact ⟨hg1, fun _ => rfl, fun hne => absurd rfl hne⟩
    | some junk =>
      refine ⟨fun h hlt => ?_, fun h0 => absurd h0 (Nat.succ_ne_zero _), fun _ => ⟨?_, ?_⟩⟩
      · have hlt' : w1.lastHandle + 1 < h := hlt
        show update w1.handle (w1.lastHandle + 1) (some f) h = none
        rw [update_of_ne (Nat.ne_of_gt hlt')]
        exact hg1 h (Nat.lt_of_succ_lt hlt')
      · show (w1.handle (w1.lastHandle + 1)).isSome = false
        rw [hg1 _ (Nat.lt_succ_self _)]
        rfl
      · exact isSome_update w1.handle (w1.lastHandle + 1) (some f)
  closed := by
    refine ⟨ramfsClose, rfl, fun w h hg => ⟨fun x hx => ?_, isSome_update w.handle h none⟩⟩
    show update w.handle h none x = none
    rw [update_apply]
    split_ifs
    · rfl
    · exact hg x hx

/-- one CPU, and an empty RAM file system at `/` -/
def osBoot : Os Ram :=
  ⟨bootOne, (vfsMount (vfsInit emptyRam) ['/'] (ramfsOps 0)).2⟩

theorem osBoot_unopened : Unopened ramCtx osBoot.vfs := by
  refine ⟨fun be hbe hid => ?_, fun _ _ => rfl, fun nid p ho => ho.1 rfl, fun _ _ => rfl⟩
  have hmem : be ∈ (List.replicate maxBackends (⟨0, [], Ops.empty⟩ : Backend (Ops Ram))).set 0 ⟨1, ['/'], ramfsOps 0⟩ := hbe
  rcases List.mem_or_eq_of_mem_set hmem with hrep | rfl
  · rw [List.eq_of_mem_replicate hrep] at hid
    exact absurd rfl hid
  · exact ramfs_tracks 0

/-- the bootstrap thread starts a process and reaps it; the process runs -/
def childRuns : List OsOp := childOps.map .sched

/-- the process closes its file before it exits -/
theorem descriptors_run_sound_one : ∃ s, run osStep osBoot
      (childRuns ++ [.openFile ['/', 'a'] 6, .openFile ['/', 'b'] 6, .close 1, .close 2, .sched (.exit 7)]) = .ok s ∧
    OneToOne ramCtx (fun h => ramCtx.ctxs osBoot.vfs.world h = true) s := by
  have htidy : along osStep (fun s o => decide (Tidy s o)) osBoot
      (childRuns ++ [.openFile ['/', 'a'] 6, .openFile ['/', 'b'] 6, .close 1, .close 2, .sched (.exit 7)]) = true := by
    decide +kernel
  have hall := along_of htidy
  simp only [decide_eq_true_eq] at hall
  exact exists_ok (P := fun _ => True) (by decide +kernel) fun s hs _ => descriptors_run_sound osBoot_unopened hall hs

/-- **Exit closes nothing.** The process exits with a file open: its PCB is free again, and the node and the handle of the
RAM file system stay allocated. -/
theorem exit_leaks : ∃ s, run osStep osBoot (childRuns ++ [.openFile ['/', 'a'] 6, .sched (.exit 7)]) = .ok s ∧
    Opened s.vfs 1 (slot 1) ∧ ¬ Lives s.kernel.core (slot 1) ∧ ramCtx.ctxs s.vfs.world 1 = true ∧
    ¬ OneToOne ramCtx (fun h => ramCtx.ctxs osBoot.vfs.world h = true) s := by
  refine exists_ok (P := fun s => (s.vfs.node 1).nodeId ≠ 0 ∧ (s.vfs.node 1).pcb = some (slot 1) ∧
    ¬ Lives s.kernel.core (slot 1) ∧ ramCtx.ctxs s.vfs.world 1 = true) (by decide +kernel) fun s _ h => ?_
  obtain ⟨h1, h2, h3, h4⟩ := h
  refine ⟨⟨h1, h2⟩, h3, h4, fun hone => ?_⟩
  obtain ⟨fd, hfd⟩ := hone.node 1 (slot 1) ⟨h1, h2⟩
  exact h3 (hone.slot (slot 1) fd 1 hfd).1

end OpenASD.Vfs
