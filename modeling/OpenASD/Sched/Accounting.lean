/-
What the log of spawns, exits and reaps adds up to: `g_proc_count` is the number of processes that have neither exited
nor been reaped, and every exit code is delivered by one `sched_reap`. Neither holds in all runs:

- `sched_spawn` without a kernel stack keeps the slot; `sched_exit` counts out a process that is not in the table or
  is not the caller, since `g_current` may be stale; `sched_reap` of a process that cannot run marks it dead without
  counting it, and returns 0 with the code -1;
- a process that exits while nobody waits is dead for `sched_find`, so that its code is lost.

Results:
- `count_run_sound`: the count is right in every run without the first three;
- `codes_run_sound`: in every run in which processes exit only while they are reaped, and only processes that can run are
  reaped, exits and successful reaps are the same list, each process once in it.
-/
import OpenASD.Sched.Pids

namespace OpenASD.Sched

open Machine
open Function (update update_idem update_of_ne update_self)

/-! ## Conditions -/

namespace Core

/-- `sched_spawn` does not fail for want of a kernel stack -/
def stackOk (c : Core) (a : SpawnArgs) : Bool :=
  decide (a.stack ≠ 0) || decide (maxProcs ≤ c.procCount) || decide (c.nextFree = none)

/-- there is no process with this pid, or it can run -/
def runnable (c : Core) (pid : ℕ) : Bool :=
  match c.find pid with
  | none => true
  | some p => decide (c.state p = .ready) && decide (c.rip p ≠ 0)

/-- p is in the table -/
def isProc : PcbId → Bool
  | .proc _ => true
  | _ => false

/-- steps after which the count is right: no spawn without a stack, exits of the caller itself, a live process of the
table, and reaps of processes that can run -/
def countOk (c : Core) : KOp → Bool
  | .bootstrap => true
  | .spawn a => c.stackOk a
  | .exit _ => decide (c.running = c.cur) && isProc c.cur && decide (c.pid c.cur ≠ 0) && decide (c.state c.cur ≠ .dead)
  | .reap pid => c.runnable pid
  | _ => false

/-- steps after which exit codes are delivered: the process that exits is the one that the last `sched_reap` waits for -/
def deliveryOk (c : Core) : KOp → Bool
  | .spawn a => c.stackOk a
  | .exit _ => decide (c.waiter ≠ none) && c.active && decide (c.jmp.map Frame.pcb = some c.running) &&
      decide (c.running = c.cur)
  | .reap pid => c.runnable pid
  | _ => true

end Core

section Conditions

variable {c c' : Core} {a : SpawnArgs} {pid : ℕ} {f : Frame}

theorem stackOk_ne (h : c.stackOk a = true) (hc : c.procCount < maxProcs) (hn : c.nextFree = some pid) : a.stack ≠ 0 := by
  simp only [Core.stackOk, Bool.or_eq_true, decide_eq_true_eq] at h
  rcases h with (h | h) | h
  · exact h
  · exact absurd hc (Nat.not_lt.2 h)
  · rw [hn] at h
    cases h

theorem runnable_not (h : c.runnable pid = true) (hf : c.find pid = some f.pcb)
    (hr : ¬ (c.state f.pcb = .ready ∧ c.rip f.pcb ≠ 0)) : False := by
  rw [Core.runnable, hf] at h
  simp only [Bool.and_eq_true, decide_eq_true_eq] at h
  exact hr h

theorem isProc_iff {p : PcbId} : Core.isProc p = true ↔ ∃ i, p = .proc i := by
  cases p with
  | proc i => exact ⟨fun _ => ⟨i, rfl⟩, fun _ => rfl⟩
  | bootstrap | idle c => exact ⟨fun h => (nomatch h), fun ⟨_, h⟩ => (nomatch h)⟩

theorem bootstrap_proc (c : Core) (i : Fin maxProcs) :
    c.bootstrap.pid (.proc i) = c.pid (.proc i) ∧ c.bootstrap.state (.proc i) = c.state (.proc i) := by
  have hb : PcbId.proc i ≠ .bootstrap := PcbId.noConfusion
  exact ⟨update_of_ne hb 1 c.pid, update_of_ne hb .run c.state⟩

theorem findSlot_free {free : ℕ → Bool} {j n : ℕ} (h : findSlot free pid n = some j) : free j = true := by
  induction n generalizing pid with
  | zero => cases h
  | succ n ih =>
    rw [findSlot] at h
    split_ifs at h with hf
    · cases h
      exact hf
    · exact ih h

theorem nextFree_free (h : c.nextFree = some pid) : c.state (slot pid) = .dead ∨ c.pid (slot pid) = 0 := by
  have hf := findSlot_free h
  simpa only [Core.freeSlot, Bool.or_eq_true, decide_eq_true_eq] using hf

end Conditions

/-! ## Processes that are alive -/

/-- the processes that were spawned and have neither exited nor been reaped; a log has its last event first -/
def alive : List Ev → List PcbId
  | [] => []
  | .spawned p :: l => (alive l).insert p
  | .exited p _ :: l => (alive l).erase p
  | .reaped p _ :: l => (alive l).erase p
  | .enqueued _ _ :: l => alive l

theorem alive_nodup (l : List Ev) : (alive l).Nodup := by
  induction l with
  | nil => exact List.nodup_nil
  | cons e l ih =>
    cases e with
    | spawned p => exact ih.insert
    | exited p code | reaped p code => exact ih.erase p
    | enqueued p cls => exact ih

/-- the slot of p holds a live process -/
structure Live (c : Core) (p : PcbId) : Prop where
  proc : ∃ i, p = .proc i
  pid : c.pid p ≠ 0
  state : c.state p ≠ .dead

section Live

variable {c c' : Core} {p : PcbId} {pid : ℕ}

theorem live_congr (hp : ∀ i, c'.pid (.proc i) = c.pid (.proc i))
    (hs : ∀ i, c'.state (.proc i) = .dead ↔ c.state (.proc i) = .dead) : Live c' p ↔ Live c p := by
  constructor
  · rintro ⟨⟨i, rfl⟩, h1, h2⟩
    exact ⟨⟨i, rfl⟩, hp i ▸ h1, fun h => h2 ((hs i).2 h)⟩
  · rintro ⟨⟨i, rfl⟩, h1, h2⟩
    exact ⟨⟨i, rfl⟩, (hp i).symm ▸ h1, fun h => h2 ((hs i).1 h)⟩

/-- a process that is not dead gets another state -/
theorem live_update {q : PcbId} {x : PState} (hp : c'.pid = c.pid) (hs : c'.state = update c.state q x)
    (hx : x ≠ .dead) (hq : ∀ i, q = .proc i → c.state q ≠ .dead) : Live c' p ↔ Live c p := by
  refine live_congr (fun i => congrFun hp _) fun i => ?_
  rw [hs]
  by_cases hi : PcbId.proc i = q
  · rw [hi, update_self]
    exact ⟨fun h => absurd h hx, fun h => absurd h (hq i hi.symm)⟩
  · rw [update_of_ne hi]

/-- a process is marked dead -/
theorem live_kill {q : PcbId} (hp : ∀ r, r ≠ q → c'.pid r = c.pid r) (hs : c'.state = update c.state q .dead) :
    Live c' p ↔ p ≠ q ∧ Live c p := by
  by_cases hpq : p = q
  · subst hpq
    refine ⟨fun h => absurd ?_ h.state, fun h => absurd rfl h.1⟩
    rw [hs, update_self]
  have hst : c'.state p = c.state p := by rw [hs, update_of_ne hpq]
  constructor
  · exact fun h => ⟨hpq, h.proc, hp p hpq ▸ h.pid, hst ▸ h.state⟩
  · exact fun h => ⟨h.2.proc, (hp p hpq).symm ▸ h.2.pid, hst.symm ▸ h.2.state⟩

theorem live_claim (hpos : 0 < pid) : Live (c.claim pid) p ↔ p = slot pid ∨ Live c p := by
  by_cases hp : p = slot pid
  · subst hp
    refine ⟨fun _ => Or.inl rfl, fun _ => ⟨⟨_, rfl⟩, ?_, ?_⟩⟩
    · show update c.pid (slot pid) pid (slot pid) ≠ 0
      rw [update_self]
      exact Nat.pos_iff_ne_zero.1 hpos
    · show update c.state (slot pid) .new (slot pid) ≠ .dead
      rw [update_self]
      exact fun h => nomatch h
  · have h1 : (c.claim pid).pid p = c.pid p := update_of_ne hp _ _
    have h2 : (c.claim pid).state p = c.state p := update_of_ne hp _ _
    constructor
    · exact fun h => Or.inr ⟨h.proc, h1 ▸ h.pid, h2 ▸ h.state⟩
    · rintro (h | h)
      · exact absurd h hp
      · exact ⟨h.proc, h1.symm ▸ h.pid, h2.symm ▸ h.state⟩

end Live

/-! ## The count -/

structure CountInv (c : Core) : Prop where
  pids : PidInv c
  live : ∀ p, p ∈ alive c.log ↔ Live c p
  count : c.procCount = (alive c.log).length
  few : c.procCount ≤ maxProcs
  armed : c.active = c.waiter.isSome
  /-- the last `sched_reap` waits for the current process, unless that is none of the table -/
  child : c.active = true → ∃ f, c.jmp = some f ∧ ∀ i, c.cur = .proc i → f.pcb = c.cur
  idle : ∀ i, c.idle ≠ .proc i

section Count

variable {c c' : Core} {a : SpawnArgs} {pid : ℕ} {f : Frame}

/-- what the calls do to the count, in the cases in which they do not change who is alive -/
theorem CountInv.congr (h : CountInv c) (hp : PidInv c') (hlive : ∀ p, Live c' p ↔ Live c p)
    (hlog : alive c'.log = alive c.log) (hcount : c'.procCount = c.procCount) (harmed : c'.active = c'.waiter.isSome)
    (hchild : c'.active = true → ∃ f, c'.jmp = some f ∧ ∀ i, c'.cur = .proc i → f.pcb = c'.cur)
    (hidle : c'.idle = c.idle) : CountInv c' := by
  refine ⟨hp, fun p => ?_, ?_, ?_, harmed, hchild, fun i => ?_⟩
  · rw [hlog, hlive]
    exact h.live p
  · rw [hcount, hlog]
    exact h.count
  · rw [hcount]
    exact h.few
  · rw [hidle]
    exact h.idle i

theorem CountInv.born (h : CountInv c) (hc : c.procCount < maxProcs) (hn : c.nextFree = some pid) (hpos : 0 < pid) :
    CountInv ((c.claim pid).born (slot pid)) := by
  have hnot : slot pid ∉ alive c.log := by
    rw [h.live]
    intro hl
    rcases nextFree_free hn with hd | hz
    · exact hl.state hd
    · exact hl.pid hz
  have hlog : alive ((c.claim pid).born (slot pid)).log = slot pid :: alive c.log := List.insert_of_not_mem hnot
  have hcount : ((c.claim pid).born (slot pid)).procCount = c.procCount + 1 := by
    have hlt : c.procCount + 1 < 2 ^ 32 := by
      unfold maxProcs at hc
      omega
    exact incr32_eq hlt
  refine ⟨(h.pids.claim pid).congr rfl rfl rfl, fun p => ?_, ?_, ?_, h.armed, h.child, h.idle⟩
  · have hborn : Live ((c.claim pid).born (slot pid)) p ↔ Live (c.claim pid) p :=
      live_congr (fun _ => rfl) fun _ => Iff.rfl
    rw [hlog, List.mem_cons, h.live, hborn, live_claim hpos]
  · rw [hlog, hcount, h.count, List.length_cons]
  · rw [hcount]
    exact hc

theorem decr32_eq {n : ℕ} (h0 : 0 < n) (h : n ≤ maxProcs) : decr32 n = n - 1 := by
  have hlt : n - 1 < 2 ^ 32 := by
    unfold maxProcs at h
    omega
  have hsum : n + 2 ^ 32 - 1 = n - 1 + 2 ^ 32 := Nat.sub_add_comm h0
  delta decr32
  rw [hsum, Nat.add_mod_right, Nat.mod_eq_of_lt hlt]

/-- a live process exits -/
theorem CountInv.counted (h : CountInv c) (hl : Live c c.cur) (code : ℤ) :
    (c.die code).procCount = ((alive c.log).erase c.cur).length ∧ (c.die code).procCount ≤ maxProcs := by
  have hmem : c.cur ∈ alive c.log := (h.live _).2 hl
  have hpos : 0 < c.procCount := by
    rw [h.count]
    exact List.length_pos_of_mem hmem
  have hdie : (c.die code).procCount = c.procCount - 1 := decr32_eq hpos h.few
  rw [List.length_erase_of_mem hmem, ← h.count, hdie]
  exact ⟨rfl, (Nat.sub_le _ 1).trans h.few⟩

/-- a process that is alive may exit -/
theorem live_of_countOk {code : ℤ} (h : c.countOk (.exit code) = true) : c.running = c.cur ∧ Live c c.cur := by
  obtain ⟨⟨⟨hrun, hproc⟩, hpid⟩, hst⟩ := by
    simpa only [Core.countOk, Bool.and_eq_true, decide_eq_true_eq] using h
  exact ⟨hrun, isProc_iff.1 hproc, hpid, hst⟩

/-- one step -/
theorem CountInv.step (h : CountInv c) {o : KOp} (hok : c.countOk o = true) (hs : CStep c o c') : CountInv c' := by
  have hp' : PidInv c' := h.pids.step hs
  cases hs with
  | bootstrap =>
    refine h.congr hp' (fun p => live_congr (fun i => (bootstrap_proc c i).1) fun i => ?_) rfl rfl h.armed (fun ha => ?_) rfl
    · rw [(bootstrap_proc c i).2]
    · obtain ⟨f, hf, -⟩ := h.child ha
      exact ⟨f, hf, fun i hi => nomatch hi⟩
  | spawnFull _ | reapNone _ => exact h
  | spawnNoStack hc hn hz => exact absurd hz (stackOk_ne hok hc hn)
  | spawnNew hc hn _ _ => exact h.born hc hn (h.pids.pos hn)
  | @spawnReady a pid rip cr3 hc hn _ _ _ =>
    have hb := h.born hc hn (h.pids.pos hn)
    have hd : ((c.claim pid).born (slot pid)).state (slot pid) ≠ .dead :=
      ((hb.live _).1 (List.mem_insert_self)).state
    exact hb.congr hp' (fun p => live_update rfl rfl (fun e => nomatch e) fun _ _ => hd) rfl rfl hb.armed hb.child rfl
  | @exitJump code w f hw ha hj =>
    obtain ⟨hrun, hl⟩ := live_of_countOk hok
    obtain ⟨i, hi⟩ := hl.proc
    obtain ⟨g, hg, hgc⟩ := h.child ha
    have hfg : f = g := Option.some.inj (hj.symm.trans hg)
    have hfc : f.pcb = c.cur := hfg ▸ hgc i hi
    have hlog : alive ((c.die code).tail f).log = (alive c.log).erase c.cur := by
      show ((alive c.log).erase c.running).erase f.pcb = (alive c.log).erase c.cur
      rw [hrun, hfc]
      exact List.erase_of_not_mem (alive_nodup _).not_mem_erase
    refine ⟨hp', fun p => ?_, ?_, ?_, rfl, fun h => (nomatch h), h.idle⟩
    · rw [hlog, (alive_nodup _).mem_erase_iff, h.live]
      refine (live_kill (fun r hr => ?_) ?_).symm
      · exact update_of_ne (hfc.symm ▸ hr) _ _
      · show update (update c.state c.cur .dead) f.pcb .dead = update c.state c.cur .dead
        rw [hfc, update_idem]
    · rw [hlog]
      exact (h.counted hl code).1
    · exact (h.counted hl code).2
  | exitWaiter hw ha _ =>
    rw [h.armed, hw] at ha
    cases ha
  | @exitNext code next hw hn =>
    obtain ⟨hrun, hl⟩ := live_of_countOk hok
    have hoff : c.active = false := by
      rcases hw with hw | hw
      · rw [h.armed, hw]
        rfl
      · exact hw
    have hlog : alive ((c.die code).resume next).log = (alive c.log).erase c.cur := by
      show (alive c.log).erase c.running = (alive c.log).erase c.cur
      rw [hrun]
    refine ⟨hp', fun p => ?_, ?_, ?_, h.armed, fun hon => ?_, h.idle⟩
    · have hdie : Live (c.die code) p ↔ p ≠ c.cur ∧ Live c p := live_kill (fun _ _ => rfl) rfl
      have hnext : Live ((c.die code).resume next) p ↔ Live (c.die code) p := by
        refine live_update rfl rfl (fun e => nomatch e) fun i hi => ?_
        exact hn.resolve_right fun hidle => h.idle i (hidle ▸ hi)
      rw [hlog, (alive_nodup _).mem_erase_iff, h.live, hnext, hdie]
    · rw [hlog]
      exact (h.counted hl code).1
    · exact (h.counted hl code).2
    · exact absurd (hoff.symm.trans hon) Bool.false_ne_true
  | @reapStart pid f hf _ _ _ =>
    refine h.congr hp' (fun p => ?_) rfl rfl rfl (fun _ => ⟨f, rfl, fun i hi => rfl⟩) rfl
    exact live_update rfl rfl (fun e => nomatch e) fun _ _ => (Core.find_eq hf).2.2.2.2
  | reapNow hf _ hr => exact (runnable_not hok hf hr).elim
  | yieldBack | yieldOn | tickNone | tickBack _ | wakeNone | wake _ | block | steal | set | dequeue => cases hok

end Count

theorem boot_countInv (b : BootArgs) : CountInv (Kernel.boot b).core := by
  refine ⟨boot_pidInv b, fun p => ?_, rfl, Nat.zero_le _, rfl, fun h => (nomatch h), ?_⟩
  · refine ⟨fun h => absurd h List.not_mem_nil, fun h => absurd (boot_pid b p) h.pid⟩
  intro i
  have hidle : ∀ j, ((schedInit St.zero b.cpuCount).rq 0).idlePcb ≠ .proc j := by
    intro j
    show (if (0 : ℕ) < (if maxCpus < _ then maxCpus else _) then initRunq ⟨0, by decide⟩ else St.zero.rq 0).idlePcb ≠ _
    split_ifs <;> exact fun e => nomatch e
  exact hidle i

/-- the count and the slots of a state -/
structure CountSound (k : Kernel) : Prop where
  count : k.st.procCount = (alive k.log).length
  /-- every process that is alive has a slot of its own -/
  slots : (alive k.log).Nodup ∧ ∀ p ∈ alive k.log, ∃ i, p = .proc i
  /-- a spawn that fails, but not for want of a kernel stack, leaves the slots as free as they were -/
  failed : ∀ a k', k.core.stackOk a = true → schedSpawn k a = .ok (0, k') → ∀ pid, freeSlot k'.st pid = freeSlot k.st pid

/-- **The count.** In every run of spawns, exits and reaps whose steps meet the condition. -/
theorem count_run_sound {b : BootArgs} {ops : List KOp} {k : Kernel}
    (hok : Along kstep (fun k o => k.core.countOk o = true) (Kernel.boot b) ops)
    (hr : run kstep (Kernel.boot b) ops = .ok k) : CountSound k := by
  have h : CountInv k.core :=
    run_core (P := fun c o => c.countOk o = true) (fun _ _ _ hI hP hs => hI.step hP hs)
      (boot_countInv b) hok hr
  refine ⟨h.count, ⟨alive_nodup _, fun p hp => ((h.live p).1 hp).proc⟩, fun a k' ha hs pid => ?_⟩
  obtain ⟨-, e, -⟩ | ⟨q, hc, hn, ⟨-, hz, -⟩ | ⟨hq, -⟩⟩ := core_schedSpawn hs
  · show k'.core.freeSlot pid = k.core.freeSlot pid
    rw [e]
  · exact absurd hz (stackOk_ne ha hc hn)
  · exact absurd (h.pids.pos hn) (hq ▸ Nat.lt_irrefl 0)

/-- the bootstrap thread starts a process and reaps it -/
theorem count_run_sound_one : ∃ k, run kstep bootOne (childOps ++ [.exit 7]) = .ok k ∧
    k.st.procCount = 0 ∧ CountSound k := by
  refine exists_ok (by decide +kernel) fun k hk h => ⟨h, count_run_sound (along_of ?_) hk⟩
  decide +kernel

/-- a spawn without a kernel stack keeps its slot, and a process that is reaped before it is started stays counted -/
theorem count_drifts : (∃ k k', run kstep bootOne [.bootstrap] = .ok k ∧
      schedSpawn k ⟨2, 0, 255, none, 0, none, none⟩ = .ok (0, k') ∧ freeSlot k.st 1 = true ∧ freeSlot k'.st 1 = false) ∧
    ∃ k, run kstep bootOne [.bootstrap, .spawn bare, .reap 1] = .ok k ∧
      k.st.procCount = 1 ∧ alive k.log = [] := by
  refine ⟨⟨_, _, rfl, rfl, rfl, rfl⟩, ?_⟩
  exact exists_ok (by decide +kernel) fun _ _ h => h

/-! ## Exit codes -/

/-- a process: its slot, and the how many-th it is there -/
abbrev Inst := PcbId × ℕ

def births (l : List Ev) (p : PcbId) : ℕ := l.count (.spawned p)

@[simp] theorem births_exited (l : List Ev) (p q : PcbId) (code : ℤ) : births (.exited q code :: l) p = births l p :=
  List.count_cons_of_ne (by simp)

@[simp] theorem births_reaped (l : List Ev) (p q : PcbId) (code : ℤ) : births (.reaped q code :: l) p = births l p :=
  List.count_cons_of_ne (by simp)

/-- the calls of `sched_exit`, with their codes -/
def exits : List Ev → List (Inst × ℤ)
  | [] => []
  | .exited p code :: l => ((p, births l p), code) :: exits l
  | .spawned _ :: l => exits l
  | .reaped _ _ :: l => exits l
  | .enqueued _ _ :: l => exits l

/-- the calls of `sched_reap` that returned 0, with the codes that they gave -/
def reaps : List Ev → List (Inst × ℤ)
  | [] => []
  | .reaped p code :: l => ((p, births l p), code) :: reaps l
  | .spawned _ :: l => reaps l
  | .exited _ _ :: l => reaps l
  | .enqueued _ _ :: l => reaps l

/-- every exit code is delivered once, and no other code is -/
structure CodeSound (l : List Ev) : Prop where
  same : exits l = reaps l
  once : ((exits l).map Prod.fst).Nodup

structure CodeInv (c : Core) : Prop where
  sound : CodeSound c.log
  dead : ∀ i, c.state (.proc i) = .dead → c.pid (.proc i) = 0
  /-- a process with a pid has not exited -/
  fresh : ∀ i, c.pid (.proc i) ≠ 0 → (.proc i, births c.log (.proc i)) ∉ (exits c.log).map Prod.fst
  old : ∀ x ∈ (exits c.log).map Prod.fst, x.2 ≤ births c.log x.1
  child : c.active = true → ∃ f i, c.jmp = some f ∧ f.pcb = .proc i ∧ c.pid f.pcb ≠ 0

section Codes

variable {c c' : Core} {a : SpawnArgs} {pid : ℕ} {f : Frame}

/-- calls that neither spawn, exit nor reap -/
theorem CodeInv.congr (h : CodeInv c) (hp : ∀ i, c'.pid (.proc i) = c.pid (.proc i))
    (hd : ∀ i, c'.state (.proc i) = .dead → c.state (.proc i) = .dead) (he : exits c'.log = exits c.log)
    (hr : reaps c'.log = reaps c.log) (hb : ∀ p, births c'.log p = births c.log p)
    (hc : c'.active = true → ∃ f i, c'.jmp = some f ∧ f.pcb = .proc i ∧ c'.pid f.pcb ≠ 0) : CodeInv c' := by
  refine ⟨⟨?_, ?_⟩, fun i hi => ?_, fun i hi => ?_, fun x hx => ?_, hc⟩
  · rw [he, hr]
    exact h.sound.same
  · rw [he]
    exact h.sound.once
  · rw [hp]
    exact h.dead i (hd i hi)
  · rw [he, hb]
    exact h.fresh i (hp i ▸ hi)
  · rw [hb]
    exact h.old x (he ▸ hx)

/-- a state that was not written now was there before -/
theorem update_state {g : PcbId → PState} {q p : PcbId} {x y : PState} (h : update g q x p = y)
    (hx : x ≠ y := by decide) : g p = y := by
  by_cases hp : p = q
  · subst hp
    rw [update_self] at h
    exact absurd h hx
  · rwa [update_of_ne hp] at h

theorem switch_state {next p : PcbId} {rbx : ℕ} {y : PState} (h : (c.switch next rbx).state p = y)
    (hrun : .run ≠ y := by decide) (hready : .ready ≠ y := by decide) : c.state p = y := by
  unfold Core.switch at h
  split_ifs at h
  · exact h
  · have h' : update (update c.state c.cur .ready) next .run p = y := h
    exact update_state (update_state h' hrun) hready
  · have h' : update c.state next .run p = y := h
    exact update_state h' hrun

section

variable (h : CodeInv c)
include h

theorem CodeInv.switch (next : PcbId) (rbx : ℕ) : CodeInv (c.switch next rbx) := by
  have hp : (c.switch next rbx).pid = c.pid := c.switch_keeps next rbx Core.pid fun _ _ _ _ _ => rfl
  have hl : (c.switch next rbx).log = c.log := c.switch_keeps next rbx Core.log fun _ _ _ _ _ => rfl
  have hj : (c.switch next rbx).jmp = c.jmp := c.switch_keeps next rbx Core.jmp fun _ _ _ _ _ => rfl
  have ha : (c.switch next rbx).active = c.active := c.switch_keeps next rbx Core.active fun _ _ _ _ _ => rfl
  apply h.congr
  · exact fun i => congrFun hp _
  · exact fun i hi => switch_state hi
  · rw [hl]
  · rw [hl]
  · exact fun p => by rw [hl]
  · rw [ha, hj, hp]
    exact h.child

theorem CodeInv.enqueue (p : PcbId) (cls : ℕ) : CodeInv (c.enqueue p cls) :=
  h.congr (fun _ => rfl) (fun _ hi => update_state (x := .ready) hi) rfl rfl (fun _ => rfl) h.child

theorem CodeInv.born (hn : c.nextFree = some pid) : CodeInv ((c.claim pid).born (slot pid)) := by
  have hzero : c.pid (slot pid) = 0 := by
    rcases nextFree_free hn with hd | hz
    · exact h.dead _ hd
    · exact hz
  have hpid : ∀ p, p ≠ slot pid → (c.claim pid).pid p = c.pid p := by
    intro p hp
    exact update_of_ne hp pid c.pid
  have hbirth : ∀ p, p ≠ slot pid → births (.spawned (slot pid) :: c.log) p = births c.log p := by
    intro p hp
    refine List.count_cons_of_ne ?_
    exact fun e => hp (Ev.spawned.inj e).symm
  have hself : births (.spawned (slot pid) :: c.log) (slot pid) = births c.log (slot pid) + 1 := List.count_cons_self
  refine ⟨⟨h.sound.same, h.sound.once⟩, fun i hi => ?_, fun i hi => ?_, fun x hx => ?_, fun ha => ?_⟩
  · have hne : PcbId.proc i ≠ slot pid := by
      intro e
      have : update c.state (slot pid) .new (.proc i) = .dead := hi
      rw [e, update_self] at this
      cases this
    have hdead : c.state (.proc i) = .dead := by
      rw [← hi]
      exact (update_of_ne hne PState.new c.state).symm
    exact (hpid _ hne).trans (h.dead i hdead)
  · show (PcbId.proc i, births (.spawned (slot pid) :: c.log) (.proc i)) ∉ (exits c.log).map Prod.fst
    by_cases hne : PcbId.proc i = slot pid
    · rw [hne, hself]
      exact fun hx => absurd (h.old _ hx) (Nat.not_succ_le_self _)
    rw [hbirth _ hne]
    refine h.fresh i ?_
    rw [← hpid _ hne]
    exact hi
  · show x.2 ≤ births (.spawned (slot pid) :: c.log) x.1
    have hle := h.old x hx
    by_cases hne : x.1 = slot pid
    · rw [hne, hself]
      rw [hne] at hle
      exact Nat.le_succ_of_le hle
    · rw [hbirth _ hne]
      exact hle
  · obtain ⟨f, i, hf, hfi, hfp⟩ := h.child ha
    refine ⟨f, i, hf, hfi, ?_⟩
    have hne : f.pcb ≠ slot pid := fun e => hfp (e ▸ hzero)
    show (c.claim pid).pid f.pcb ≠ 0
    rw [hpid _ hne]
    exact hfp

/-- the process that is waited for exits -/
theorem CodeInv.exit {i : Fin maxProcs} (hp : f.pcb = .proc i) (hpid : c.pid (.proc i) ≠ 0)
    (hrun : c.running = .proc i) (hcur : c.cur = .proc i) (code : ℤ) : CodeInv ((c.die code).tail f) := by
  have hdied : (c.die code).state f.pcb = .dead := by
    rw [hp, ← hcur]
    exact update_self c.cur PState.dead c.state
  have hcode : (c.die code).found f = code := by
    rw [Core.found, if_pos hdied, hp, ← hcur]
    exact update_self c.cur code c.code
  have hlog : ((c.die code).tail f).log = .reaped (.proc i) code :: .exited (.proc i) code :: c.log := by
    show Ev.reaped f.pcb ((c.die code).found f) :: .exited c.running code :: c.log = _
    rw [hrun, hp, hcode]
  have hbirth : ∀ p, births ((c.die code).tail f).log p = births c.log p := by
    intro p
    rw [hlog, births_reaped, births_exited]
  have he : exits ((c.die code).tail f).log = ((.proc i, births c.log (.proc i)), code) :: exits c.log := by
    rw [hlog]
    rfl
  have hr : reaps ((c.die code).tail f).log = ((.proc i, births c.log (.proc i)), code) :: reaps c.log := by
    rw [hlog]
    show ((PcbId.proc i, births (.exited (.proc i) code :: c.log) (.proc i)), code) :: reaps c.log = _
    rw [births_exited]
  have hpid' : ∀ j, j ≠ i → ((c.die code).tail f).pid (.proc j) = c.pid (.proc j) := by
    intro j hj
    refine update_of_ne ?_ _ _
    rw [hp]
    exact fun e => hj (PcbId.proc.inj e)
  have hpidi : ((c.die code).tail f).pid (.proc i) = 0 := by
    rw [← hp]
    exact update_self f.pcb 0 c.pid
  refine ⟨⟨?_, ?_⟩, fun j hj => ?_, fun j hj => ?_, fun x hx => ?_, fun ha => nomatch ha⟩
  · rw [he, hr, h.sound.same]
  · rw [he, List.map_cons]
    exact List.nodup_cons.2 ⟨h.fresh i hpid, h.sound.once⟩
  · by_cases hji : j = i
    · rw [hji, hpidi]
    have hne : PcbId.proc j ≠ .proc i := fun e => hji (PcbId.proc.inj e)
    have hst : c.state (.proc j) = .dead := by
      have h2 : update (update c.state c.cur .dead) f.pcb .dead (.proc j) = .dead := hj
      rwa [hp, hcur, update_of_ne hne, update_of_ne hne] at h2
    rw [hpid' j hji]
    exact h.dead j hst
  · by_cases hji : j = i
    · rw [hji] at hj
      exact absurd hpidi hj
    rw [hpid' j hji] at hj
    rw [he, hbirth, List.map_cons, List.mem_cons]
    rintro (hx | hx)
    · exact hji (PcbId.proc.inj (congrArg Prod.fst hx))
    · exact h.fresh j hj hx
  · rw [he, List.map_cons, List.mem_cons] at hx
    rw [hbirth]
    rcases hx with rfl | hx
    · exact le_rfl
    · exact h.old x hx

/-- one step -/
theorem CodeInv.step {o : KOp} (hok : c.deliveryOk o = true) (hs : CStep c o c') : CodeInv c' := by
  cases hs with
  | bootstrap =>
    have hpid := fun i => (bootstrap_proc c i).1
    refine h.congr hpid (fun i hi => update_state (q := .bootstrap) (x := .run) hi) rfl rfl (fun _ => rfl) fun ha => ?_
    obtain ⟨f, i, hf, hfi, hfp⟩ := h.child ha
    refine ⟨f, i, hf, hfi, ?_⟩
    rw [hfi] at hfp ⊢
    exact (hpid i).symm ▸ hfp
  | spawnFull _ | reapNone _ | tickNone | wakeNone | steal | set | dequeue => exact h
  | spawnNoStack hc hn hz => exact absurd hz (stackOk_ne hok hc hn)
  | spawnNew _ hn _ _ => exact h.born hn
  | @spawnReady a pid rip cr3 _ hn _ _ _ =>
    have hb : CodeInv (((c.claim pid).born (slot pid)).setRip (slot pid) rip) :=
      (h.born hn).congr (fun _ => rfl) (fun _ hi => hi) rfl rfl (fun _ => rfl) (h.born hn).child
    exact hb.enqueue (slot pid) a.cls
  | @exitJump code w f _ ha hj =>
    obtain ⟨⟨-, hjr⟩, hrc⟩ := by
      simpa only [Core.deliveryOk, Bool.and_eq_true, decide_eq_true_eq] using hok
    obtain ⟨g, i, hg, hgi, hgp⟩ := h.child ha
    obtain rfl : f = g := Option.some.inj (hj.symm.trans hg)
    have hrun : c.running = .proc i := by
      rw [hj] at hjr
      rw [← hgi]
      exact (Option.some.inj hjr).symm
    exact h.exit hgi (hgi ▸ hgp) hrun (hrc ▸ hrun) code
  | exitWaiter _ ha _ =>
    simp [Core.deliveryOk, ha] at hok
  | exitNext hw _ =>
    rcases hw with hw | hw <;> simp [Core.deliveryOk, hw] at hok
  | @reapStart pid f hf _ _ _ =>
    obtain ⟨hp, h0, -, hpid, -⟩ := Core.find_eq hf
    refine h.congr (fun _ => rfl) (fun i hi => update_state (x := .run) hi) rfl rfl (fun _ => rfl) fun _ => ?_
    exact ⟨f, _, rfl, hp, hpid ▸ h0⟩
  | reapNow hf _ hr => exact (runnable_not hok hf hr).elim
  | yieldBack | tickBack _ => exact (h.enqueue _ _).switch _ _
  | yieldOn => exact h.switch _ _
  | wake _ => exact h.enqueue _ _
  | block => exact h.congr (fun _ => rfl) (fun i hi => update_state (x := .wait) hi) rfl rfl (fun _ => rfl) h.child

end

end Codes

theorem boot_codeInv (b : BootArgs) : CodeInv (Kernel.boot b).core := by
  have hp := boot_pid b
  refine ⟨⟨rfl, List.nodup_nil⟩, fun i _ => hp _, fun i hi => absurd (hp _) hi, fun x hx => ?_, fun ha => nomatch ha⟩
  exact absurd hx List.not_mem_nil

/-- **Exit codes.** In every run of all calls whose steps meet the condition. -/
theorem codes_run_sound {b : BootArgs} {ops : List KOp} {k : Kernel}
    (hok : Along kstep (fun k o => k.core.deliveryOk o = true) (Kernel.boot b) ops)
    (hr : run kstep (Kernel.boot b) ops = .ok k) : CodeSound k.log := by
  have h : CodeInv k.core :=
    run_core (P := fun c o => c.deliveryOk o = true) (fun _ _ _ hI hP hs => hI.step hP hs) (boot_codeInv b) hok hr
  exact h.sound

/-- a process exits with 7, and 7 is what its `sched_reap` gives -/
theorem codes_run_sound_one : ∃ k, run kstep bootOne (childOps ++ [.exit 7]) = .ok k ∧
    reaps k.log = [((slot 1, 1), 7)] ∧ CodeSound k.log := by
  refine exists_ok (by decide +kernel) fun k hk h => ⟨h, codes_run_sound (along_of ?_) hk⟩
  decide +kernel

/-- a process that waits for itself is reaped, although nobody has exited -/
theorem reaped_unexited : ∃ k, run kstep bootOne (childOps ++ [.reap 1]) = .ok k ∧
    reaps k.log = [((slot 1, 1), -1)] ∧ exits k.log = [] := by
  exact exists_ok (by decide +kernel) fun _ _ h => h

end OpenASD.Sched
