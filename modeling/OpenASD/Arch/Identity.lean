/-
The identity of processes (`sys_setuid`, `sys_setgid`, `sys_spawn` in kernel/arch/syscall.c, `elf_spawn` in
kernel/arch/elf.c). User and group ids are 16 bits wide, the arguments of the calls 64.

A process changes its own ids only, and only root may choose them. A child does not get the ids of its parent: `elf_spawn`
gives it those of the login session, `g_shell_uid` and `g_shell_gid`. So a process that has given up root still starts
processes of root.

The calls are those of `sched_current()`. Between them the scheduler does what it likes, in any order: processes end, are
reaped, yield, block and wake.

Results:
- `setuid_keeps`: no call makes a process root that is not;
- `identity_run_iff`: in every run, no process gains root and every child has the ids of its parent, exactly if at every
  spawn that succeeds the session has the ids of the caller;
- `root_child`: a process of uid 1000 starts a process of root.
-/
import OpenASD.Arch.Syscall
import OpenASD.Sched.Accounting

namespace OpenASD.Arch

open OpenASD.Machine Sched

/-! ## Model -/

structure Ids where
  uid : UInt16
  gid : UInt16
deriving DecidableEq

/-- UID_ROOT and GID_ROOT, which are also what a cleared PCB has -/
def rootIds : Ids := ⟨0, 0⟩

structure Host where
  k : Kernel
  ids : PcbId → Ids
  /-- `g_shell_uid` and `g_shell_gid`, set by the login -/
  shell : Ids

variable (m : Host)

def Host.setIds (p : PcbId) (v : Ids) : Host := { m with ids := Function.update m.ids p v }

/-- ESYS_PERM -/
def esysPerm : ℤ := -1

def sysSetuid (newUid : UInt64) : ℤ × Host :=
  let p := m.k.cur
  if (m.ids p).uid ≠ 0 ∧ newUid.toUInt32 ≠ (m.ids p).uid.toUInt32 then (esysPerm, m)
  else (0, m.setIds p { m.ids p with uid := newUid.toUInt32.toUInt16 })

def sysSetgid (newGid : UInt64) : ℤ × Host :=
  let p := m.k.cur
  if (m.ids p).uid ≠ 0 ∧ newGid.toUInt32 ≠ (m.ids p).gid.toUInt32 then (esysPerm, m)
  else (0, m.setIds p { m.ids p with gid := newGid.toUInt32.toUInt16 })

/-- what `elf_spawn` has when it calls `sched_spawn` -/
structure Image where
  vaMap : ℕ
  entry : ℕ
  cr3 : ℕ
  /-- what kmalloc returns for the kernel stack -/
  stack : ℕ

/-- SCHED_BATCH, priority 0, no affinity -/
def Image.args (i : Image) : SpawnArgs := ⟨2, 0, 0xFF, some i.vaMap, i.stack, none, some (i.entry, i.cr3)⟩

/-- the slot that `sched_spawn` clears -/
def clearedSlot (k : Kernel) : Option PcbId := if maxProcs ≤ k.st.procCount then none else (nextFree k.st).map slot

def clearIds (ids : PcbId → Ids) : Option PcbId → PcbId → Ids
  | none => ids
  | some p => Function.update ids p rootIds

/-- `elf_spawn` from its call of `sched_spawn` on, with the process that it returns -/
def spawnAs (i : Image) : Except Stop (Option PcbId × Host) :=
  (schedSpawn m.k i.args).bind fun r =>
    let m' : Host := ⟨r.2, clearIds m.ids (clearedSlot m.k), m.shell⟩
    match schedFind r.2.st r.1 with
    | none => .ok (none, m')
    | some p =>
      (kEnqueue (prime r.2 p i.entry i.cr3) p).bind fun k => .ok (some p, { m'.setIds p m.shell with k := k })

/-- `sys_spawn`; there is no image if the arguments cannot be read, or the file is none that can be loaded -/
def sysSpawn : Option Image → Except Stop (Option PcbId × Host)
  | none => .ok (none, m)
  | some i => spawnAs m i

/-- the steps of the scheduler that neither set up nor start a process -/
def turns : KOp → Bool
  | .bootstrap => false
  | .spawn _ => false
  | _ => true

inductive IdOp where
  | setuid (newUid : UInt64)
  | setgid (newGid : UInt64)
  | spawn (image : Option Image)
  | sched (o : { o : KOp // turns o = true })

/-- a call, with the process that it has made -/
def idCall : IdOp → Except Stop (Option PcbId × Host)
  | .setuid n => .ok (none, (sysSetuid m n).2)
  | .setgid n => .ok (none, (sysSetgid m n).2)
  | .spawn i => sysSpawn m i
  | .sched o => (kstep m.k o.1).bind fun k => .ok (none, { m with k := k })

def idStep (o : IdOp) : Except Stop Host := (idCall m o).map Prod.snd

/-! ## What a call changes -/

/-- the process has a pid and has not ended -/
def Host.alive (p : PcbId) : Prop := (m.k.st.pcb p).pid ≠ 0 ∧ (m.k.st.pcb p).state ≠ .dead

/-- no process that is not root becomes root -/
def KeepsRank (m m' : Host) : Prop := ∀ p, m.alive p → (m.ids p).uid ≠ 0 → (m'.ids p).uid ≠ 0

variable {m m' : Host}

theorem KeepsRank.of_eq (h : m'.ids = m.ids) : KeepsRank m m' := by
  intro p _ hu
  rw [h]
  exact hu

theorem KeepsRank.setIds {q : PcbId} {v : Ids} (hv : (m.ids q).uid ≠ 0 → v.uid ≠ 0) :
    KeepsRank m (m.setIds q v) := by
  intro p _ hu
  rcases eq_or_ne p q with rfl | hne
  · simpa only [Host.setIds, Function.update_self] using hv hu
  · simpa only [Host.setIds, Function.update_of_ne hne] using hu

/-- the 32 bits that were compared are the 16 that are stored -/
theorem setuid_keeps (m : Host) (newUid : UInt64) : KeepsRank m (sysSetuid m newUid).2 := by
  unfold sysSetuid
  dsimp only
  split_ifs with h
  · exact KeepsRank.of_eq rfl
  apply KeepsRank.setIds
  intro hu
  have heq : newUid.toUInt32 = (m.ids m.k.cur).uid.toUInt32 := by
    by_contra hne
    exact h ⟨hu, hne⟩
  simpa only [heq, UInt16.toUInt16_toUInt32] using hu

theorem setgid_keeps (m : Host) (newGid : UInt64) : KeepsRank m (sysSetgid m newGid).2 := by
  unfold sysSetgid
  dsimp only
  split_ifs with h
  · exact KeepsRank.of_eq rfl
  · exact KeepsRank.setIds fun hu => hu

/-- a slot that is cleared has no process -/
theorem clearedSlot_free {q : PcbId} (h : clearedSlot m.k = some q) : ¬ m.alive q := by
  unfold clearedSlot at h
  split_ifs at h with hc
  obtain ⟨pid, hn, rfl⟩ := Option.map_eq_some_iff.1 h
  rintro ⟨hpid, hdead⟩
  rcases nextFree_free (c := m.k.core) hn with hd | hp
  · exact hdead hd
  · exact hpid hp

theorem clearIds_alive {p : PcbId} (h : m.alive p) : clearIds m.ids (clearedSlot m.k) p = m.ids p := by
  rcases hq : clearedSlot m.k with _ | q
  · rfl
  have hne : p ≠ q := by
    rintro rfl
    exact clearedSlot_free hq h
  exact Function.update_of_ne hne _ _

/-- the process that `elf_spawn` finds is in the slot that `sched_spawn` has cleared -/
theorem find_cleared {k k' : Kernel} {a : SpawnArgs} {r : ℕ} {p : PcbId} (h : schedSpawn k a = .ok (r, k'))
    (hf : schedFind k'.st r = some p) : clearedSlot k = some p := by
  obtain ⟨rfl, hr, -⟩ := Core.find_eq (c := k'.core) hf
  obtain ⟨rfl, -⟩ | ⟨pid, hc, hn, ⟨rfl, -⟩ | ⟨rfl, -⟩⟩ := core_schedSpawn h
  · exact absurd rfl hr
  · exact absurd rfl hr
  have hc' : ¬ maxProcs ≤ k.st.procCount := Nat.not_le.2 hc
  unfold clearedSlot
  rw [if_neg hc', core_nextFree, hn]
  rfl

/-- what `elf_spawn` does to the ids -/
theorem spawnAs_ids {i : Image} {r : Option PcbId} (h : spawnAs m i = .ok (r, m')) :
    KeepsRank m m' ∧ ∀ c, r = some c → m'.ids c = m.shell := by
  obtain ⟨⟨pid, k1⟩, h1, h2⟩ := bind_eq_ok.1 h
  split at h2
  · cases h2
    refine ⟨fun p hp hu => ?_, fun c hc => (nomatch hc)⟩
    simpa only [clearIds_alive hp] using hu
  rename_i q hf
  obtain ⟨k2, -, h3⟩ := bind_eq_ok.1 h2
  cases h3
  refine ⟨fun p hp hu => ?_, fun c hc => ?_⟩
  · have hne : p ≠ q := by
      rintro rfl
      exact clearedSlot_free (find_cleared h1 hf) hp
    simpa only [Host.setIds, Function.update_of_ne hne, clearIds_alive hp] using hu
  · cases hc
    exact Function.update_self _ _ _

/-- every call keeps the rank of the processes there are, and gives a new one the ids of the session -/
theorem idCall_ids {o : IdOp} {r : Option PcbId} (h : idCall m o = .ok (r, m')) :
    KeepsRank m m' ∧ ∀ c, r = some c → m'.ids c = m.shell := by
  cases o with
  | setuid n =>
    cases h
    exact ⟨setuid_keeps m n, fun c hc => (nomatch hc)⟩
  | setgid n =>
    cases h
    exact ⟨setgid_keeps m n, fun c hc => (nomatch hc)⟩
  | spawn i =>
    cases i with
    | none =>
      cases h
      exact ⟨KeepsRank.of_eq rfl, fun c hc => (nomatch hc)⟩
    | some i => exact spawnAs_ids h
  | sched o =>
    obtain ⟨k, -, hk⟩ := bind_eq_ok.1 h
    cases hk
    exact ⟨KeepsRank.of_eq rfl, fun c hc => (nomatch hc)⟩

/-! ## Runs -/

/-- what a call must do -/
structure RankSafe (m : Host) (r : Option PcbId) (m' : Host) : Prop where
  keeps : KeepsRank m m'
  /-- a process that the caller makes has the ids that the caller had -/
  child : ∀ c, r = some c → m'.ids c = m.ids m.k.cur
  /-- so it is not root if the caller is not -/
  notRoot : ∀ c, r = some c → (m.ids m.k.cur).uid ≠ 0 → (m'.ids c).uid ≠ 0

/-- a spawn that makes a process is in the session of the caller -/
def InSession (m : Host) (o : IdOp) : Prop := ∀ c m', idCall m o = .ok (some c, m') → m.shell = m.ids m.k.cur

theorem rankSafe_iff (m : Host) (o : IdOp) : (∀ r m', idCall m o = .ok (r, m') → RankSafe m r m') ↔ InSession m o := by
  constructor
  · intro h c m' hc
    have hshell := (idCall_ids hc).2 c rfl
    exact hshell.symm.trans ((h _ _ hc).child c rfl)
  intro h r m' hr
  have hchild : ∀ c, r = some c → m'.ids c = m.ids m.k.cur := by
    rintro c rfl
    exact ((idCall_ids hr).2 c rfl).trans (h c m' hr)
  refine ⟨(idCall_ids hr).1, hchild, fun c hc hu => ?_⟩
  rw [hchild c hc]
  exact hu

/-- **Ranks and identities.** From every state, in every run of setuid, setgid and spawn by whichever processes run: no
process becomes root and every new process has the ids of its parent, at every call, if and only if every spawn that makes a
process is made with the ids of the login session. -/
theorem identity_run_iff (m : Host) (ops : List IdOp) :
    Along idStep (fun m o => ∀ r m', idCall m o = .ok (r, m') → RankSafe m r m') m ops ↔ Along idStep InSession m ops := by
  have h : (fun m o => ∀ r m', idCall m o = .ok (r, m') → RankSafe m r m') = InSession := by
    funext m o
    exact propext (rankSafe_iff m o)
  rw [h]

/-- root has logged in, and the bootstrap thread runs -/
def rootHost : Host :=
  ⟨setRunning (schedBootstrapInitThread bootOne) .bootstrap, fun _ => rootIds, rootIds⟩

/-- **A child of root.** A process of root sets its uid to 1000, and starts a process: that one is root. -/
theorem root_child : ∃ m m', Machine.run idStep rootHost
      [.spawn (some ⟨4096, 4194304, 12288, 65536⟩), .sched ⟨.reap 1, rfl⟩, .setuid 1000] = .ok m ∧
    (m.ids m.k.cur).uid = 1000 ∧ idCall m (.spawn (some ⟨8192, 4194304, 16384, 131072⟩)) = .ok (some (slot 2), m') ∧
    m'.ids (slot 2) = rootIds := by
  have hrun : returns (Machine.run idStep rootHost
      [.spawn (some ⟨4096, 4194304, 12288, 65536⟩), .sched ⟨.reap 1, rfl⟩, .setuid 1000])
      (fun m => decide ((m.ids m.k.cur).uid = 1000) &&
        returns (idCall m (.spawn (some ⟨8192, 4194304, 16384, 131072⟩)))
          fun r => decide (r.1 = some (slot 2)) && decide (r.2.ids (slot 2) = rootIds)) = true := by
    decide +kernel
  obtain ⟨m, hm, h⟩ := returns_iff.1 hrun
  rw [Bool.and_eq_true, decide_eq_true_eq] at h
  obtain ⟨⟨c, m'⟩, hc, hr⟩ := returns_iff.1 h.2
  rw [Bool.and_eq_true, decide_eq_true_eq, decide_eq_true_eq] at hr
  obtain ⟨rfl, hids⟩ := hr
  exact ⟨m, m', hm, h.1, hc, hids⟩

end OpenASD.Arch
