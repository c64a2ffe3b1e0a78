/-
The run-queue locks. Between two calls no lock is held, so a call waits for ever exactly if it takes a lock twice. The
proof does not look into the trees: it holds for any links, also broken ones.

Results:
- `kstep_free`: a call that does not take its own lock again returns or switches with all locks free;
- `locks_run_sound`: in every state of every run no lock is held and no context was ever left with one; a call spins
  exactly if it is a `sched_yield` or an expiring `sched_tick` that puts the current process back on this CPU.
-/
import OpenASD.Sched.Lifecycle

namespace OpenASD.Sched

open LinkedTree Machine
open Function (apply_update update)
open List (not_mem_nil)

/-! ## Which locks are held -/

@[ext] structure Locks where
  rq : ℕ → Bool
  table : Bool
  left : Bool

def Kernel.locks (k : Kernel) : Locks := ⟨fun c => (k.st.rq c).lock, k.tableLock, k.heldAtSwitch⟩

/-- only the locks of these run queues are held -/
def Locks.only (l : List ℕ) : Locks := ⟨fun c => decide (c ∈ l), false, false⟩

/-- no lock is held, and none was when a context was left -/
def Kernel.Free (k : Kernel) : Prop := k.locks = Locks.only []

theorem locks_rq {k : Kernel} {l : List ℕ} (h : k.locks = Locks.only l) (c : ℕ) : (k.st.rq c).lock = decide (c ∈ l) :=
  congrFun (congrArg Locks.rq h) c

variable {k' : Kernel}

section Helpers

variable (k : Kernel) (p : PcbId)

theorem locks_setCurrent : (setCurrent k p).locks = k.locks := by
  ext1
  case rq =>
    funext c
    exact update_keep Runq.lock k.st.rq c rfl
  all_goals rfl

theorem locks_onThreadSwitch : (syscallOnThreadSwitch k p).locks = k.locks := by
  unfold syscallOnThreadSwitch
  split_ifs <;> rfl

theorem locks_freeKstack : (freeKstack k p).locks = k.locks := by
  unfold freeKstack
  split_ifs <;> rfl

theorem locks_setDeadline (time : ℕ) : (setDeadline k p time).locks = k.locks := by
  unfold setDeadline
  split_ifs <;> rfl

theorem locks_decay : (decay k p).locks = k.locks := by
  unfold decay
  split_ifs <;> rfl

theorem locks_boost : (boost k p).locks = k.locks := by
  unfold boost
  split_ifs <;> rfl

theorem locks_setState (x : PState) : (setState k p x).locks = k.locks := rfl

theorem locks_setRunning : (setRunning k p).locks = k.locks := rfl

theorem locks_contextSave (rbx : ℕ) : (schedContextSave k p rbx).locks = k.locks := rfl

theorem locks_loadCr3 (c : ℕ) : (schedLoadCr3 k c).locks = k.locks := rfl

theorem locks_same {s : St} (h : SameCore k.st s) : ({ k with st := s } : Kernel).locks = k.locks := by
  ext1
  case rq => exact funext h.lock
  all_goals rfl

theorem locks_setLock (c : ℕ) (b : Bool) :
    ({ k with st := k.st.setLock c b } : Kernel).locks = { k.locks with rq := update k.locks.rq c b } := by
  ext1
  case rq =>
    funext d
    exact apply_update (fun _ => Runq.lock) k.st.rq c _ d
  all_goals rfl

/-- leaving a context with all locks free -/
theorem Kernel.Free.leave {k : Kernel} (h : k.Free) : (Sched.leave k).Free := by
  have hrq : ∀ c, (k.st.rq c).lock = false := fun c => locks_rq h c
  have hany : k.anyLock = false := by
    have ht : k.tableLock = false := congrArg Locks.table h
    rw [Kernel.anyLock, ht, Bool.false_or, List.any_eq_false]
    intro c _
    rw [hrq c]
    exact Bool.false_ne_true
  unfold Kernel.Free
  rw [← h]
  ext1
  case left =>
    show (k.heldAtSwitch || k.anyLock) = k.heldAtSwitch
    rw [hany, Bool.or_false]
  all_goals rfl

theorem Kernel.Free.restore {k : Kernel} (h : k.Free) (p : PcbId) : (schedContextRestore k p).Free := h.leave

theorem Kernel.Free.congr {k : Kernel} (h : k.Free) (e : k'.locks = k.locks) : k'.Free := e.trans h

end Helpers

/-! ## The calls -/

/-- a call does not wait for ever for a lock, and ends with Q -/
abbrev NoSpin {β : Type} (Q : β → Prop) (r : Except Stop β) : Prop := Ensures (· = Stop.spin) Q r

section Calls

variable {k : Kernel} {l : List ℕ} {o : KOp}

theorem spinLock_noSpin {c : ℕ} (h : k.locks = Locks.only l) (hc : c ∉ l) :
    NoSpin (fun k' => k' = { k with st := k.st.setLock c true } ∧ k'.locks = Locks.only (c :: l)) (spinLock k c) := by
  have hlock : (k.st.rq c).lock = false := (locks_rq h c).trans (decide_eq_false hc)
  rw [spinLock, hlock, if_neg Bool.false_ne_true]
  refine ⟨rfl, ?_⟩
  rw [locks_setLock, h]
  ext1
  case rq =>
    funext d
    by_cases hd : d = c
    · subst hd
      simp [Locks.only]
    · simp [Locks.only, hd]
  all_goals rfl

theorem spinUnlock_locks {c : ℕ} (h : k.locks = Locks.only (c :: l)) (hc : c ∉ l) :
    (spinUnlock k c).locks = Locks.only l := by
  unfold spinUnlock
  rw [locks_setLock, h]
  ext1
  case rq =>
    funext d
    by_cases hd : d = c
    · subst hd
      simp [Locks.only, hc]
    · simp [Locks.only, hd]
  all_goals rfl

theorem lockTable_noSpin (h : k.Free) : NoSpin (fun k' => (unlockTable k').locks = k.locks) (lockTable k) := by
  have ht : k.tableLock = false := congrArg Locks.table h
  rw [lockTable, ht, if_neg Bool.false_ne_true]
  ext1
  case table => exact ht.symm
  all_goals rfl

theorem kEnqueue_noSpin (h : k.locks = Locks.only l) {p : PcbId} (hc : enqueueCpu k.st p ∉ l) :
    NoSpin (fun k' => k'.locks = k.locks) (kEnqueue k p) := by
  have hlock : (k.st.rq (enqueueCpu k.st p)).lock = false := (locks_rq h _).trans (decide_eq_false hc)
  rw [kEnqueue, hlock, if_neg Bool.false_ne_true]
  rcases hs : schedEnqueue k.st p with _ | s
  · exact fun h => nomatch h
  · exact (locks_same (setState k p .ready) (schedEnqueue_same hs)).trans (locks_setState k p .ready)

theorem kEnqueue_spin (h : k.locks = Locks.only l) {p : PcbId} (hc : enqueueCpu k.st p ∈ l) :
    kEnqueue k p = .error .spin := by
  have hlock : (k.st.rq (enqueueCpu k.st p)).lock = true := (locks_rq h _).trans (decide_eq_true hc)
  rw [kEnqueue, hlock, if_pos rfl]

theorem kDequeue_noSpin (k : Kernel) (cpu : ℕ) : NoSpin (fun r => r.2.locks = k.locks) (kDequeue k cpu) := by
  unfold kDequeue
  rcases hs : schedDequeue k.st cpu with _ | ⟨p, s⟩
  · exact fun h => nomatch h
  · exact locks_same k (schedDequeue_same hs)

theorem takeoff_noSpin (k : Kernel) (cpu : ℕ) (p : PcbId) :
    NoSpin (fun k' => k'.locks = k.locks) (schedTakeoffRunqLocked k cpu p) := by
  unfold schedTakeoffRunqLocked
  split_ifs
  · rcases hs : removeAt k.st p (cpu, classOf (k.st.pcb p).schedClass) with _ | s
    · exact fun h => nomatch h
    · exact locks_same k ((removeAt_same hs).trans (unlinkNode_same s p))
  · exact rfl

theorem switchTo_free (h : k.Free) (next : PcbId) (time rbx : ℕ) : (schedSwitchTo k next time rbx).Free := by
  unfold schedSwitchTo
  simp only
  split_ifs
  · exact h
  all_goals
    refine Kernel.Free.restore ?_ next
    refine h.congr ?_
    simp only [locks_contextSave, locks_loadCr3, locks_onThreadSwitch, locks_setCurrent, locks_setState,
      locks_setDeadline]

theorem exitTo_free (h : k.Free) (next : PcbId) : (exitTo k next).Free := by
  refine Kernel.Free.restore (h.congr ?_) _
  simp only [locks_loadCr3, locks_onThreadSwitch, locks_setState, locks_setCurrent]

/-- which CPU a process goes to does not depend on locks -/
theorem enqueueCpu_setLock (s : St) (c : ℕ) (b : Bool) (p : PcbId) : enqueueCpu (s.setLock c b) p = enqueueCpu s p := by
  have hcount : ∀ d (x : Class), (s.setLock c b).count (d, x) = s.count (d, x) :=
    fun d x => update_keep (Runq.count · x) s.rq d rfl
  have hload : (s.setLock c b).load = s.load := by
    funext d
    simp only [St.load, hcount]
  unfold enqueueCpu leastLoaded
  rw [hload]
  rfl

/-- the process is put back on the CPU whose lock is held -/
def relock (k : Kernel) (back : Bool) : Bool := back && decide (enqueueCpu k.st k.cur = 0)

theorem requeue_noSpin (h : k.Free) {back : Bool} (time rbx : ℕ) (hno : relock k back = false) :
    NoSpin Kernel.Free (requeueAndSwitch k back time rbx) := by
  refine (spinLock_noSpin h not_mem_nil).bind fun k1 hk1 => ?_
  obtain ⟨e1, h1⟩ := hk1
  have henq : NoSpin (fun k' => k'.locks = Locks.only [0]) (if back then kEnqueue k1 k1.cur else .ok k1) := by
    cases back with
    | false => exact h1
    | true =>
      have hcpu : enqueueCpu k1.st k1.cur ∉ [0] := by
        rw [relock, Bool.true_and, decide_eq_false_iff_not] at hno
        rw [e1, List.mem_singleton]
        rwa [enqueueCpu_setLock]
      exact (kEnqueue_noSpin h1 hcpu).mono fun k' hk' => hk'.trans h1
  refine henq.bind fun k2 h2 => (kDequeue_noSpin k2 0).bind fun r h3 => ?_
  have h4 : (spinUnlock r.2 0).Free := spinUnlock_locks (h3.trans h2) not_mem_nil
  exact switchTo_free h4 r.1 time rbx

theorem requeue_spin (h : k.Free) {back : Bool} (time rbx : ℕ) (hyes : relock k back = true) :
    requeueAndSwitch k back time rbx = .error .spin := by
  rw [relock, Bool.and_eq_true, decide_eq_true_eq] at hyes
  obtain ⟨rfl, hcpu⟩ := hyes
  have hlock : (k.st.rq 0).lock = false := locks_rq h 0
  obtain ⟨-, h1⟩ : _ ∧ ({ k with st := k.st.setLock 0 true } : Kernel).locks = Locks.only [0] :=
    (spinLock_noSpin h not_mem_nil).ok (by rw [spinLock, hlock, if_neg Bool.false_ne_true])
  have hin : enqueueCpu (k.st.setLock 0 true) k.cur ∈ [0] := by
    rw [enqueueCpu_setLock, hcpu]
    exact List.mem_singleton_self 0
  have hspin := kEnqueue_spin h1 hin
  rw [requeueAndSwitch, spinLock, hlock, if_neg Bool.false_ne_true]
  show (kEnqueue { k with st := k.st.setLock 0 true } k.cur).bind _ = _
  rw [hspin]
  rfl

/-- one process comes out of the queue of CPU 0 -/
theorem exitNext_noSpin (h : k.Free) : NoSpin Kernel.Free ((spinLock k 0).bind fun k => (kDequeue k 0).bind fun r =>
    .ok (exitTo (spinUnlock r.2 0) r.1)) := by
  refine (spinLock_noSpin h not_mem_nil).bind fun k1 hk1 => (kDequeue_noSpin k1 0).bind fun r h2 => ?_
  exact exitTo_free (spinUnlock_locks (h2.trans hk1.2) not_mem_nil) r.1

theorem schedSpawn_noSpin (h : k.Free) (a : SpawnArgs) : NoSpin (fun r => r.2.Free) (schedSpawn k a) := by
  refine (lockTable_noSpin h).bind fun k1 h1 => ?_
  have hfree : (unlockTable k1).Free := h1.trans h
  by_cases hfull : maxProcs ≤ k1.st.procCount
  · rw [if_pos hfull]
    exact hfree
  rw [if_neg hfull]
  rcases nextFree k1.st with _ | pid
  · exact hfree
  by_cases hs : a.stack = 0
  · simp only [if_pos hs]
    exact hfree
  · simp only [if_neg hs]
    exact hfree

theorem elfSpawn_noSpin (h : k.Free) (a : SpawnArgs) : NoSpin Kernel.Free (elfSpawn k a) := by
  refine (schedSpawn_noSpin h a).bind fun r hr => ?_
  split
  · rename_i rip cr3 p _ _
    have hp : (prime r.2 p rip cr3).Free := hr
    exact (kEnqueue_noSpin hp not_mem_nil).mono fun k' hk' => hk'.trans hp
  · exact hr

theorem locks_count (k : Kernel) (f : ℕ → ℕ) :
    (unlockTable { k with st := { k.st with procCount := f k.st.procCount } }).locks = (unlockTable k).locks := rfl

section

variable (h : k.Free)
include h

theorem die_noSpin (code : ℤ) : NoSpin Kernel.Free (die k code) := by
  refine Ensures.bind (Q := fun k' => (unlockTable k').locks = k.locks) (lockTable_noSpin h) fun k1 h1 => ?_
  exact (locks_count k1 decr32).trans (h1.trans h)

theorem reapTail_free (f : Frame) : (reapTail k f).Free :=
  h.congr (locks_freeKstack (clearWaiter (disarm (k.setPcb f.pcb (reapedPcb (k.st.pcb f.pcb) f)))) f.pcb)

theorem jmpRestore_noSpin : NoSpin Kernel.Free (schedJmpRestore k) := by
  unfold schedJmpRestore
  split
  · exact fun h => nomatch h
  · rename_i f _
    have hf : (setRunning (leave k) f.owner).Free := h.leave
    exact reapTail_free hf f

theorem schedExit_noSpin (code : ℤ) : NoSpin Kernel.Free (schedExit k code) := by
  have hn : (k.note (.exited k.running code)).Free := h
  unfold schedExit
  simp only
  split
  · split_ifs
    · refine (die_noSpin hn code).bind fun k1 h1 => ?_
      exact jmpRestore_noSpin (h1.congr (locks_freeKstack (schedLoadCr3 k1 _) _))
    refine (die_noSpin hn code).bind fun k1 h1 => ?_
    split_ifs
    · have hw : (clearWaiter k1).Free := h1
      exact exitTo_free hw _
    · exact exitNext_noSpin h1
  · exact (die_noSpin hn code).bind fun k1 h1 => exitNext_noSpin h1

theorem reapStart_noSpin (p : PcbId) : NoSpin Kernel.Free (reapStart k p) := by
  refine (spinLock_noSpin h not_mem_nil).bind fun k1 hk1 => (takeoff_noSpin k1 0 p).bind fun k2 h2 => ?_
  have h3 : (spinUnlock k2 0).Free := spinUnlock_locks (h2.trans hk1.2) not_mem_nil
  refine Kernel.Free.restore (h3.congr ?_) p
  simp only [locks_loadCr3, locks_onThreadSwitch, locks_setState, locks_setCurrent]

theorem schedReap_noSpin (pid : ℕ) : NoSpin Kernel.Free (schedReap k pid) := by
  unfold schedReap
  split
  · exact h
  rename_i p _
  have he : (reapEnter k p).Free := h
  simp only
  split_ifs
  · exact reapStart_noSpin he p
  · exact jmpRestore_noSpin he

end

/-- a victim is another CPU, or there is none with any load -/
theorem victimOf_ne (s : St) (this : ℕ) : (victimOf s this).2 ≠ this ∨ (victimOf s this).1 = 0 := by
  refine List.foldlRecOn (motive := fun m : ℕ × ℕ => m.2 ≠ this ∨ m.1 = 0) _ _ (Or.inr rfl) fun m hm i _ => ?_
  split_ifs with hi
  · exact Or.inl hi.1
  · exact hm

theorem schedSteal_noSpin (h : k.Free) (this : ℕ) : NoSpin Kernel.Free (schedSteal k this) := by
  unfold schedSteal
  rcases hv : victimOf k.st this with ⟨load, victim⟩
  simp only
  by_cases hle : load ≤ (k.st.movable this + 2) % 2 ^ 32
  · rw [if_pos hle]
    exact h
  rw [if_neg hle]
  have hne : victim ≠ this := by
    have hvic := victimOf_ne k.st this
    rw [hv] at hvic
    refine hvic.resolve_right fun h0 => hle ?_
    exact le_of_eq_of_le h0 (Nat.zero_le _)
  -- the two locks in the order of their CPUs
  have hord : (if this < victim then victim else this) ∉ [if this < victim then this else victim] := by
    rw [List.mem_singleton]
    split_ifs with hlt
    · exact hne
    · exact hne.symm
  refine (spinLock_noSpin h not_mem_nil).bind fun k1 hk1 => (spinLock_noSpin hk1.2 hord).bind fun k2 hk2 => ?_
  rcases hs : stealLoop k2.st victim this (k2.st.movable victim / 2) with _ | s
  · exact fun h => nomatch h
  · have h3 := (locks_same k2 (stealLoop_same hs)).trans hk2.2
    exact spinUnlock_locks (spinUnlock_locks h3 hord) not_mem_nil

/-- the calls that take a lock again that they hold -/
def relocks (k : Kernel) : KOp → Bool
  | .yield _ _ => relock k (decide (k.cur ≠ (k.st.rq 0).idlePcb) && decide (some k.cur ≠ k.st.reapWaiter))
  | .tick now _ _ =>
    decide (0 < k.st.cpuCount) && decide (k.st.reapWaiter = none) && decide (k.cur ≠ .bootstrap) && expired k now &&
      relock k true
  | _ => false

/-- a change of priority leaves the CPU of every process -/
theorem setPriority_cpu (k : Kernel) (p q : PcbId) (x : ℤ) : ((setPriority k p x).st.pcb q).cpu = (k.st.pcb q).cpu :=
  update_keep Pcb.cpu k.st.pcb q rfl

theorem decay_ext (k : Kernel) (p : PcbId) : (decay k p).ext = k.ext := by
  unfold decay
  split_ifs <;> rfl

theorem expired_decay (k : Kernel) (now : ℕ) : expired (decay k k.cur) now = expired k now := by
  have e := core_decay k k.cur
  have hcur : (decay k k.cur).cur = k.cur := congrArg Core.cur e
  have hidle : ((decay k k.cur).st.rq 0).idlePcb = (k.st.rq 0).idlePcb := congrArg Core.idle e
  have hstate : ((decay k k.cur).st.pcb k.cur).state = (k.st.pcb k.cur).state := congrFun (congrArg Core.state e) k.cur
  rw [expired, hcur, hidle, hstate, decay_ext, expired]

theorem relock_decay (k : Kernel) : relock (decay k k.cur) true = relock k true := by
  have hcur : (decay k k.cur).cur = k.cur := congrArg Core.cur (core_decay k k.cur)
  have hcpu : enqueueCpu (decay k k.cur).st k.cur = enqueueCpu k.st k.cur := by
    unfold decay
    split_ifs
    · rw [enqueueCpu, setPriority_cpu]
      rfl
    · rfl
  rw [relock, hcur, hcpu, relock]

theorem schedTick_eq (k : Kernel) (now time rbx : ℕ) : schedTick k now time rbx =
    if (decide (0 < k.st.cpuCount) && decide (k.st.reapWaiter = none) && decide (k.cur ≠ .bootstrap)) = true then
      if expired k now then requeueAndSwitch (decay k k.cur) true time rbx else .ok (decay k k.cur)
    else .ok k := by
  unfold schedTick
  simp only [expired_decay]
  by_cases h1 : k.st.cpuCount ≤ 0
  · simp [Nat.le_zero.1 h1]
  rw [if_neg h1]
  by_cases h2 : k.st.reapWaiter ≠ none
  · simp [h2]
  rw [if_neg h2]
  by_cases h3 : k.cur = .bootstrap
  · simp [h3]
  have hall : (decide (0 < k.st.cpuCount) && decide (k.st.reapWaiter = none) && decide (k.cur ≠ .bootstrap)) =
      true := by
    simp only [Bool.and_eq_true, decide_eq_true_eq]
    exact ⟨⟨Nat.lt_of_not_le h1, not_not.1 h2⟩, h3⟩
  rw [if_neg h3, if_pos hall]

/-- **One call.** A call that does not take its own lock again returns, or switches, with all locks free. -/
theorem kstep_free (h : k.Free) (hno : relocks k o = false) : NoSpin Kernel.Free (kstep k o) := by
  cases o with
  | bootstrap =>
    have e : (setRunning (schedBootstrapInitThread k) .bootstrap).locks = k.locks := by
      rw [locks_setRunning, schedBootstrapInitThread, locks_onThreadSwitch, locks_setCurrent]
      rfl
    exact h.congr e
  | spawn a => exact elfSpawn_noSpin h a
  | exit code => exact schedExit_noSpin h code
  | reap pid => exact schedReap_noSpin h pid
  | yield time rbx => exact requeue_noSpin h time rbx hno
  | tick now time rbx =>
    have hd : (decay k k.cur).Free := h.congr (locks_decay k k.cur)
    rw [relocks] at hno
    show NoSpin Kernel.Free (schedTick k now time rbx)
    rw [schedTick_eq]
    split_ifs with h1 h2
    · rw [h1, h2, Bool.true_and, Bool.true_and] at hno
      exact requeue_noSpin hd time rbx ((relock_decay k).trans hno)
    · exact hd
    · exact h
  | wake p time =>
    show NoSpin Kernel.Free (schedWake k p time)
    unfold schedWake
    split_ifs
    · exact h
    · have hb : (boost (k.setExt p { k.ext p with wakeNs := time }) p).Free := h.congr (locks_boost _ p)
      exact (kEnqueue_noSpin hb not_mem_nil).mono fun k' hk' => hk'.trans hb
  | block => exact h
  | steal cpu => exact schedSteal_noSpin h cpu
  | set pid cls priority =>
    show (schedSet k pid cls priority).Free
    unfold schedSet
    split <;> exact h
  | dequeue cpu => exact (kDequeue_noSpin k cpu).bind fun r hr => hr.trans h

theorem kstep_spin (h : k.Free) (hyes : relocks k o = true) : kstep k o = .error .spin := by
  cases o with
  | yield time rbx => exact requeue_spin h time rbx hyes
  | tick now time rbx =>
    have hd : (decay k k.cur).Free := h.congr (locks_decay k k.cur)
    rw [relocks, Bool.and_eq_true, Bool.and_eq_true] at hyes
    show schedTick k now time rbx = .error .spin
    rw [schedTick_eq, if_pos hyes.1.1, if_pos hyes.1.2]
    exact requeue_spin hd time rbx ((relock_decay k).trans hyes.2)
  | bootstrap | spawn a | exit code | reap pid | wake p time | block | steal cpu | set pid cls priority => cases hyes
  | dequeue cpu => cases hyes

theorem kstep_keeps_free (h : k.Free) (hs : kstep k o = .ok k') : k'.Free := by
  cases hr : relocks k o with
  | true =>
    rw [kstep_spin h hr] at hs
    cases hs
  | false => exact (kstep_free h hr).ok hs

theorem boot_free (b : BootArgs) : (Kernel.boot b).Free := by
  ext1
  case rq =>
    funext c
    show ((schedInit St.zero _).rq c).lock = false
    simp only [schedInit]
    split_ifs <;> rfl
  all_goals rfl

theorem run_free {b : BootArgs} {ops : List KOp} (hr : run kstep (Kernel.boot b) ops = .ok k') : k'.Free :=
  run_inv_all (fun _ _ _ h hs => kstep_keeps_free h hs) (boot_free b) hr

end Calls

/-- what holds of the locks in a state -/
structure LockSound (k : Kernel) : Prop where
  free : ∀ c, (k.st.rq c).lock = false
  table : k.tableLock = false
  /-- no context was left with a lock held -/
  left : k.heldAtSwitch = false
  /-- a call waits for a lock that its own CPU holds exactly if it puts the current process back on this CPU -/
  spins : ∀ o, kstep k o = .error .spin ↔ relocks k o = true

/-- **Locks.** In every state of every run of the scheduler's calls, with any number of CPUs. -/
theorem locks_run_sound {b : BootArgs} {ops : List KOp} {k : Kernel}
    (hr : run kstep (Kernel.boot b) ops = .ok k) : LockSound k := by
  have h := run_free hr
  refine ⟨fun c => locks_rq h c, congrArg Locks.table h, congrArg Locks.left h, fun o => ⟨fun hs => ?_, kstep_spin h⟩⟩
  by_contra hno
  rw [Bool.not_eq_true] at hno
  exact (kstep_free h hno).not_bad rfl hs

/-- one CPU, the bootstrap thread and a process -/
theorem locks_run_sound_one : ∃ k, run kstep bootOne childOps = .ok k ∧ LockSound k :=
  exists_ok (P := fun _ => True) (by decide +kernel) fun _ hk _ => locks_run_sound hk

/-- on one CPU `sched_yield` of the bootstrap thread waits for ever -/
theorem yield_spins : ∃ k, run kstep bootOne [.bootstrap] = .ok k ∧ schedYield k 0 0 = .error .spin := ⟨_, rfl, rfl⟩

end OpenASD.Sched
