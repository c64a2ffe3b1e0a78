/-
Pids (`sched_spawn`, `sched_find`). A pid modulo MAX_PROCS is the index of its slot, and `sched_find` knows pids below
MAX_PROCS only.

`sched_spawn` looks for a free slot from `g_next_pid` on and does not go back to the start of the table: past its end it
hands out pids of MAX_PROCS and more. Its first pid is 1, which is also the pid of the bootstrap thread.

Results:
- `findSlot_long`: the search of the source, which only ends after 2 ^ 32 rounds, is that of the model;
- `PidInv.step`: what every call keeps;
- `spawn_pid_sound`: in every state of every run, a new pid is found and is unique exactly if a slot between the cursor
  and the end of the table is free and the pid is not that of the bootstrap thread.
-/
import OpenASD.Sched.Lifecycle

namespace OpenASD.Sched

open Machine
open Function (update update_of_ne update_self)

/-! ## The search for a slot -/

section Search

variable {free : ℕ → Bool} {pid j n : ℕ}

theorem incr32_eq (h : pid + 1 < 2 ^ 32) : incr32 pid = pid + 1 := by
  rw [incr32, Nat.mod_eq_of_lt h]

/-- the first free pid -/
theorem findSlot_some (hw : pid + n < 2 ^ 32) (h : findSlot free pid n = some j) :
    pid ≤ j ∧ free j = true ∧ ∀ i, pid ≤ i → i < j → free i = false := by
  induction n generalizing pid with
  | zero => cases h
  | succ n ih =>
    rw [findSlot] at h
    split_ifs at h with hf
    · cases h
      exact ⟨le_rfl, hf, fun i h1 h2 => absurd h2 (Nat.not_lt.2 h1)⟩
    rw [incr32_eq (by omega)] at h
    obtain ⟨h1, h3, h4⟩ := ih (by omega) h
    refine ⟨by omega, h3, fun i hi hij => ?_⟩
    rcases Nat.eq_or_lt_of_le hi with rfl | hlt
    · exact Bool.not_eq_true _ ▸ hf
    · exact h4 i hlt hij

theorem findSlot_none (hw : pid + n < 2 ^ 32) (h : findSlot free pid n = none) {i : ℕ} (hi : pid ≤ i)
    (hin : i < pid + n) : free i = false := by
  induction n generalizing pid with
  | zero => exact absurd hin (Nat.not_lt.2 hi)
  | succ n ih =>
    rw [findSlot] at h
    split_ifs at h with hf
    rw [incr32_eq (by omega)] at h
    rcases Nat.eq_or_lt_of_le hi with rfl | hlt
    · exact Bool.not_eq_true _ ▸ hf
    · exact ih (by omega) h hlt (by omega)

theorem findSlot_mono {m : ℕ} (h : findSlot free pid n = some j) (hnm : n ≤ m) : findSlot free pid m = some j := by
  induction n generalizing pid m with
  | zero => cases h
  | succ n ih =>
    obtain ⟨m, rfl⟩ : ∃ m', m = m' + 1 := ⟨m - 1, by omega⟩
    rw [findSlot] at h ⊢
    split_ifs at h ⊢ with hf
    · exact h
    · exact ih h (Nat.le_of_succ_le_succ hnm)

theorem findSlot_never (h : ∀ i, free i = false) : findSlot free pid n = none := by
  induction n generalizing pid with
  | zero => rfl
  | succ n ih =>
    rw [findSlot, h pid]
    exact ih

end Search

theorem slot_mod (pid : ℕ) : slot (pid % maxProcs) = slot pid := congrArg PcbId.proc (Fin.ext (Nat.mod_mod pid maxProcs))

/-- the search of the source, with any number of rounds that goes through the table once -/
theorem findSlot_long {s : St} (hs : s.nextPid < maxProcs) {n : ℕ} (hn : maxProcs ≤ n) :
    findSlot (freeSlot s) s.nextPid n = nextFree s := by
  rcases h : nextFree s with _ | j
  · -- no slot is free, so the search goes on to its end
    have hw : s.nextPid + maxProcs < 2 ^ 32 := by
      unfold maxProcs at *
      omega
    refine findSlot_never fun i => ?_
    -- a pid of the first round with the slot of i
    obtain ⟨d, hd1, hd2, hd3⟩ : ∃ d, s.nextPid ≤ d ∧ d < s.nextPid + maxProcs ∧ d % maxProcs = i % maxProcs := by
      by_cases hi : s.nextPid ≤ i % maxProcs
      · exact ⟨i % maxProcs, hi, (Nat.mod_lt i (by decide)).trans_le (Nat.le_add_left _ _), Nat.mod_mod _ _⟩
      · refine ⟨i % maxProcs + maxProcs, by omega, by omega, ?_⟩
        rw [Nat.add_mod_right, Nat.mod_mod]
    have hslot : slot d = slot i := by rw [← slot_mod d, hd3, slot_mod]
    have hfree : freeSlot s d = false := findSlot_none hw h hd1 hd2
    rwa [freeSlot, hslot] at hfree
  · exact findSlot_mono h hn

/-- every slot is taken -/
def fullTable : St := { schedInit St.zero 1 with pcb := fun _ => bootstrapPcb }

theorem findSlot_long_full : findSlot (freeSlot fullTable) 1 (2 ^ 32) = none := by
  have hfull : nextFree fullTable = none := by decide +kernel
  rw [← hfull]
  exact findSlot_long (s := fullTable) (by decide) (by decide)

/-! ## What every call keeps -/

structure PidInv (c : Core) : Prop where
  table : ∀ i : Fin maxProcs, c.pid (.proc i) ≠ 0 → c.pid (.proc i) % maxProcs = i
  next : 0 < c.nextPid ∧ c.nextPid < maxProcs
  boot : c.pid .bootstrap ≤ 1
  idle : ∀ cpu, c.pid (.idle cpu) = 0
  /-- only processes of the table are reaped -/
  child : ∀ f, c.jmp = some f → ∃ i, f.pcb = .proc i

section Inv

variable {c c' : Core} {pid : ℕ} {f : Frame}

section

variable (h : PidInv c)
include h

theorem PidInv.congr (hp : c'.pid = c.pid) (hn : c'.nextPid = c.nextPid) (hj : c'.jmp = c.jmp) : PidInv c' := by
  refine ⟨?_, ?_, ?_, ?_, ?_⟩
  · rw [hp]
    exact h.table
  · rw [hn]
    exact h.next
  · rw [hp]
    exact h.boot
  · rw [hp]
    exact h.idle
  · rw [hj]
    exact h.child

theorem PidInv.switch (next : PcbId) (rbx : ℕ) : PidInv (c.switch next rbx) := by
  apply h.congr
  · exact c.switch_keeps next rbx Core.pid fun _ _ _ _ _ => rfl
  · exact c.switch_keeps next rbx Core.nextPid fun _ _ _ _ _ => rfl
  · exact c.switch_keeps next rbx Core.jmp fun _ _ _ _ _ => rfl

theorem PidInv.claim (pid : ℕ) : PidInv (c.claim pid) := by
  refine ⟨fun i => ?_, ?_, h.boot, h.idle, h.child⟩
  · show update c.pid (slot pid) pid (.proc i) ≠ 0 → _
    by_cases hi : PcbId.proc i = slot pid
    · intro _
      show update c.pid (slot pid) pid (.proc i) % maxProcs = i
      rw [hi, update_self]
      exact (congrArg Fin.val (PcbId.proc.inj hi)).symm
    · show _ → update c.pid (slot pid) pid (.proc i) % maxProcs = i
      rw [update_of_ne hi]
      exact h.table i
  · show 0 < (if (pid + 1) % maxProcs = 0 then 1 else (pid + 1) % maxProcs) ∧
      (if (pid + 1) % maxProcs = 0 then 1 else (pid + 1) % maxProcs) < maxProcs
    split_ifs with h0
    · exact ⟨Nat.one_pos, by decide⟩
    · exact ⟨Nat.pos_of_ne_zero h0, Nat.mod_lt _ (by decide)⟩

theorem PidInv.tail {i : Fin maxProcs} (hf : f.pcb = .proc i) : PidInv (c.tail f) := by
  have hpid : (c.tail f).pid = update c.pid (.proc i) 0 := by rw [← hf]; rfl
  have hb : (.bootstrap : PcbId) ≠ .proc i := fun e => nomatch e
  have hi : ∀ cpu, (.idle cpu : PcbId) ≠ .proc i := fun cpu e => nomatch e
  refine ⟨fun j => ?_, h.next, ?_, fun cpu => ?_, h.child⟩
  · rw [hpid]
    by_cases hj : PcbId.proc j = .proc i
    · rw [hj, update_self]
      exact fun h0 => absurd rfl h0
    · rw [update_of_ne hj]
      exact h.table j
  · rw [hpid, update_of_ne hb]
    exact h.boot
  · rw [hpid, update_of_ne (hi cpu)]
    exact h.idle cpu

theorem PidInv.enter (hf : c.find pid = some f.pcb) : PidInv (c.enter f) := by
  refine ⟨h.table, h.next, h.boot, h.idle, fun g hg => ?_⟩
  cases hg
  exact ⟨_, (Core.find_eq hf).1⟩

/-- one call -/
theorem PidInv.step {o : KOp} (hs : CStep c o c') : PidInv c' := by
  cases hs with
  | bootstrap =>
    refine ⟨h.table, h.next, ?_, h.idle, h.child⟩
    show update c.pid .bootstrap 1 .bootstrap ≤ 1
    rw [update_self]
  | spawnFull _ | reapNone _ | tickNone | wakeNone | steal | set | dequeue => exact h
  | spawnNoStack _ _ _ => exact h.claim _
  | spawnNew _ _ _ _ | spawnReady _ _ _ _ _ => exact (h.claim _).congr rfl rfl rfl
  | @exitJump code w f _ _ hj =>
    obtain ⟨i, hi⟩ := h.child f hj
    have hd : PidInv (c.die code) := h.congr rfl rfl rfl
    exact hd.tail hi
  | exitWaiter _ _ _ | exitNext _ _ | wake _ | block => exact h.congr rfl rfl rfl
  | reapStart hf _ _ _ => exact (h.enter hf).congr rfl rfl rfl
  | reapNow hf _ _ => exact (h.enter hf).tail (Core.find_eq hf).1
  | @yieldBack _ rbx cls next | @tickBack _ _ rbx cls next _ =>
    have he : PidInv (c.enqueue c.cur cls) := h.congr rfl rfl rfl
    exact he.switch next rbx
  | yieldOn => exact h.switch _ _

theorem PidInv.noWrap : c.nextPid + maxProcs < 2 ^ 32 := by
  have hlt := h.next.2
  unfold maxProcs at *
  omega

/-- what the search finds is not pid 0 -/
theorem PidInv.pos (hn : c.nextFree = some pid) : 0 < pid :=
  h.next.1.trans_le (findSlot_some h.noWrap hn).1

end

end Inv

/-- no PCB has a pid before the bootstrap thread is made -/
theorem boot_pid (b : BootArgs) (p : PcbId) : (Kernel.boot b).core.pid p = 0 := by
  cases p with
  | proc i | bootstrap => rfl
  | idle cpu =>
    show Pcb.pid (if cpu.val < (if maxCpus < _ then maxCpus else _) then idlePcb cpu else St.zero.pcb (.idle cpu)) = 0
    split_ifs <;> rfl

theorem boot_pidInv (b : BootArgs) : PidInv (Kernel.boot b).core := by
  have h := boot_pid b
  have hlt : 1 < maxProcs := by decide
  refine ⟨fun i hi => absurd (h _) hi, ⟨Nat.one_pos, hlt⟩, ?_, fun cpu => h _, fun f hf => nomatch hf⟩
  exact Nat.zero_le 1

/-! ## New pids -/

/-- some slot from the cursor to the end of the table is free, and the new pid is not that of the bootstrap thread -/
def pidOk (s : St) : Bool :=
  (List.range maxProcs).any (fun pid => decide (s.nextPid ≤ pid) && freeSlot s pid) &&
    !(decide (s.nextPid = 1) && freeSlot s 1 && decide ((s.pcb .bootstrap).pid = 1) &&
      decide ((s.pcb .bootstrap).state ≠ .dead))

/-- `sched_find` of the pid gives p, and no other live process has that pid -/
structure PidSound (s : St) (p : PcbId) (pid : ℕ) : Prop where
  found : schedFind s pid = some p
  alone : ∀ q, q ≠ p → (s.pcb q).state ≠ .dead → (s.pcb q).pid ≠ pid

section Spawn

variable {k k' : Kernel} {a : SpawnArgs} {pid : ℕ}

/-- the condition, for the pid that the search finds -/
theorem pidOk_iff (h : PidInv k.core) (hn : k.core.nextFree = some pid) : pidOk k.st = true ↔
    pid < maxProcs ∧ ¬ (pid = 1 ∧ k.core.pid .bootstrap = 1 ∧ k.core.state .bootstrap ≠ .dead) := by
  obtain ⟨hge, hfree, hfirst⟩ := findSlot_some h.noWrap hn
  have hle : k.st.nextPid ≤ pid := hge
  have hfree' : freeSlot k.st pid = true := hfree
  have hany : (List.range maxProcs).any (fun pid => decide (k.st.nextPid ≤ pid) && freeSlot k.st pid) = true ↔
      pid < maxProcs := by
    simp only [List.any_eq_true, List.mem_range, Bool.and_eq_true, decide_eq_true_eq]
    constructor
    · rintro ⟨i, hi, hni, hfi⟩
      by_contra hge
      have hfalse : freeSlot k.st i = false := hfirst i hni (by omega)
      exact absurd hfi (Bool.not_eq_true _ ▸ hfalse)
    · exact fun hlt => ⟨pid, hlt, hle, hfree'⟩
  have hone : k.st.nextPid = 1 ∧ freeSlot k.st 1 = true ↔ pid = 1 := by
    constructor
    · rintro ⟨h1, hf1⟩
      by_contra hne
      have hfalse : freeSlot k.st 1 = false := hfirst 1 (Nat.le_of_eq h1) (by omega)
      exact absurd hf1 (Bool.not_eq_true _ ▸ hfalse)
    · rintro rfl
      exact ⟨Nat.le_antisymm hle h.next.1, hfree'⟩
  rw [pidOk, Bool.and_eq_true, hany, Bool.not_eq_true', ← Bool.not_eq_true]
  simp only [Bool.and_eq_true, decide_eq_true_eq, hone, and_assoc]
  rfl

/-- the new process in the table -/
theorem pidSound_iff (h : PidInv k.core) (hpos : 0 < pid) (e : k'.core = (k.core.claim pid).born (slot pid)) :
    PidSound k'.st (slot pid) pid ↔
      pid < maxProcs ∧ ¬ (pid = 1 ∧ k.core.pid .bootstrap = 1 ∧ k.core.state .bootstrap ≠ .dead) := by
  have hpid : k'.core.pid = update k.core.pid (slot pid) pid := by rw [e]; rfl
  have hstate : k'.core.state = update k.core.state (slot pid) .new := by rw [e]; rfl
  have hb : (.bootstrap : PcbId) ≠ slot pid := PcbId.noConfusion
  constructor
  · intro hs
    have hfound : k'.core.find pid = some (slot pid) := hs.found
    refine ⟨(Core.find_eq hfound).2.2.1, ?_⟩
    rintro ⟨rfl, hp, hd⟩
    refine hs.alone .bootstrap hb ?_ ?_
    · show k'.core.state .bootstrap ≠ .dead
      rw [hstate, update_of_ne hb]
      exact hd
    · show k'.core.pid .bootstrap = 1
      rw [hpid, update_of_ne hb]
      exact hp
  rintro ⟨hlt, hboot⟩
  constructor
  · show k'.core.find pid = some (slot pid)
    unfold Core.find
    rw [if_neg (not_or.2 ⟨Nat.pos_iff_ne_zero.1 hpos, Nat.not_le.2 hlt⟩), if_pos]
    rw [hpid, hstate, update_self, update_self]
    exact ⟨rfl, fun h => nomatch h⟩
  intro q hq hd hqp
  have hd' : k.core.state q ≠ .dead := by
    have : k'.core.state q ≠ .dead := hd
    rwa [hstate, update_of_ne hq] at this
  have hqp' : k.core.pid q = pid := by
    have : k'.core.pid q = pid := hqp
    rwa [hpid, update_of_ne hq] at this
  cases q with
  | proc i =>
    have hi := h.table i (hqp' ▸ Nat.pos_iff_ne_zero.1 hpos)
    rw [hqp'] at hi
    exact hq (congrArg PcbId.proc (Fin.ext hi.symm))
  | bootstrap =>
    have hle := h.boot
    rw [hqp'] at hle
    exact hboot ⟨Nat.le_antisymm hle hpos, hqp' ▸ Nat.le_antisymm hle hpos, hd'⟩
  | idle cpu => exact absurd ((h.idle cpu).symm.trans hqp') (Nat.ne_of_lt hpos)

/-- **Pids.** In every state of every run, a successful `sched_spawn` makes a process that `sched_find` finds and that
shares its pid with no live process, exactly if the condition holds before. -/
theorem spawn_pid_sound {b : BootArgs} {ops : List KOp}
    (hr : run kstep (Kernel.boot b) ops = .ok k) (hs : schedSpawn k a = .ok (pid, k'))
    (hpid : pid ≠ 0) : ∃ p, k'.log = .spawned p :: k.log ∧ (PidSound k'.st p pid ↔ pidOk k.st = true) := by
  have h : PidInv k.core := run_core_all (fun _ _ _ hI hs => hI.step hs) (boot_pidInv b) hr
  obtain ⟨h0, -⟩ | ⟨p, -, hn, ⟨h0, -⟩ | ⟨rfl, -, e, -⟩⟩ := core_schedSpawn hs
  · exact absurd h0 hpid
  · exact absurd h0 hpid
  · refine ⟨slot pid, congrArg Core.log e, ?_⟩
    rw [pidSound_iff h (h.pos hn) e, pidOk_iff h hn]

end Spawn

/-- the second process gets pid 2 -/
theorem spawn_pid_sound_second : ∃ k k', run kstep bootOne [.bootstrap, .spawn bare] = .ok k ∧
    schedSpawn k ⟨2, 0, 255, none, 131072, none, none⟩ = .ok (2, k') ∧ ∃ p, PidSound k'.st p 2 := by
  have hcheck : returns (run kstep bootOne [.bootstrap, .spawn bare]) (fun k =>
        returns (schedSpawn k ⟨2, 0, 255, none, 131072, none, none⟩) fun r => decide (r.1 = 2) && pidOk k.st) = true := by
    decide +kernel
  obtain ⟨k, hk, h⟩ := returns_iff.1 hcheck
  obtain ⟨⟨pid, k'⟩, hs, h⟩ := returns_iff.1 h
  obtain ⟨h2, hok⟩ := Bool.and_eq_true_iff.1 h
  obtain rfl : pid = 2 := of_decide_eq_true h2
  obtain ⟨p, -, hp⟩ := spawn_pid_sound hk hs (by decide)
  exact ⟨k, k', hk, hs, p, hp.2 hok⟩

/-- the first process gets pid 1, which the bootstrap thread has -/
theorem first_pid_taken : ∃ k k', run kstep bootOne [.bootstrap] = .ok k ∧ schedSpawn k bare = .ok (1, k') ∧
    (k'.st.pcb .bootstrap).pid = 1 ∧ (k'.st.pcb .bootstrap).state = .run ∧ ¬ PidSound k'.st (slot 1) 1 := by
  refine ⟨_, _, rfl, rfl, rfl, rfl, fun h => ?_⟩
  exact h.alone .bootstrap PcbId.noConfusion (by decide) rfl

end OpenASD.Sched
