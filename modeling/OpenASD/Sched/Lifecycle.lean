/-
Processes without their queues: what the calls of the scheduler do to pids, states, exit codes, the current process and
the waiting calls of `sched_reap`. `CStep` is that smaller machine; where the kernel looks at a queue, any process may
come out.

Results:
- `kstep_core`: every call of the kernel is a step of the smaller machine, so what holds of its runs holds of the kernel.
-/
import OpenASD.Sched.Kernel

namespace OpenASD.Sched

open LinkedTree Machine
open Function (apply_update comp_update update update_eq_self update_idem update_of_ne update_self)

/-! ## The smaller machine -/

@[ext] structure Core where
  pid : PcbId → ℕ
  state : PcbId → PState
  code : PcbId → ℤ
  rip : PcbId → ℕ
  cur : PcbId
  idle : PcbId
  waiter : Option PcbId
  active : Bool
  jmp : Option Frame
  running : PcbId
  pending : List Frame
  nextPid : ℕ
  procCount : ℕ
  log : List Ev

def Kernel.core (k : Kernel) : Core where
  pid p := (k.st.pcb p).pid
  state p := (k.st.pcb p).state
  code p := (k.st.pcb p).exitCode
  rip p := (k.st.pcb p).rip
  cur := k.cur
  idle := (k.st.rq 0).idlePcb
  waiter := k.st.reapWaiter
  active := k.st.reapJmpActive
  jmp := k.jmp
  running := k.running
  pending := k.pending
  nextPid := k.st.nextPid
  procCount := k.st.procCount
  log := k.log

variable (c : Core)

namespace Core

def find (pid : ℕ) : Option PcbId :=
  if pid = 0 ∨ maxProcs ≤ pid then none
  else if c.pid (slot pid) = pid ∧ c.state (slot pid) ≠ .dead then some (slot pid)
  else none

def freeSlot (pid : ℕ) : Bool := decide (c.state (slot pid) = .dead) || decide (c.pid (slot pid) = 0)

def nextFree : Option ℕ := findSlot c.freeSlot c.nextPid maxProcs

def setState (p : PcbId) (x : PState) : Core := { c with state := update c.state p x }

def bootstrap : Core :=
  { c with
    pid := update c.pid .bootstrap 1
    state := update c.state .bootstrap .run
    code := update c.code .bootstrap 0
    rip := update c.rip .bootstrap 0
    cur := .bootstrap
    running := .bootstrap }

/-- the slot of a pid is filled -/
def claim (pid : ℕ) : Core :=
  { c with
    pid := update c.pid (slot pid) pid
    state := update c.state (slot pid) .new
    code := update c.code (slot pid) 0
    rip := update c.rip (slot pid) 0
    nextPid := if (pid + 1) % maxProcs = 0 then 1 else (pid + 1) % maxProcs }

def born (p : PcbId) : Core :=
  { c with procCount := incr32 c.procCount, log := .spawned p :: c.log }

/-- into a queue -/
def enqueue (p : PcbId) (cls : ℕ) : Core :=
  { c with state := update c.state p .ready, log := .enqueued p cls :: c.log }

def setRip (p : PcbId) (rip : ℕ) : Core := { c with rip := update c.rip p rip }

/-- `sched_exit` up to the choice of what runs next -/
def die (code : ℤ) : Core :=
  { c with
    code := update c.code c.cur code
    state := update c.state c.cur .dead
    procCount := decr32 c.procCount
    log := .exited c.running code :: c.log }

/-- the exit code that a frame finds -/
def found (f : Frame) : ℤ := if c.state f.pcb = .dead then c.code f.pcb else -1

/-- `sched_reap` from the return of its jump on -/
def tail (f : Frame) : Core :=
  { c with
    pid := update c.pid f.pcb 0
    state := update c.state f.pcb .dead
    code := update c.code f.pcb (c.found f)
    waiter := none
    active := false
    running := f.owner
    pending := c.pending.erase f
    log := .reaped f.pcb (c.found f) :: c.log }

/-- p runs -/
def resume (p : PcbId) : Core :=
  { c with state := update c.state p .run, cur := p, running := p }

/-- a call of `sched_reap` up to its jump buffer -/
def enter (f : Frame) : Core :=
  { c with waiter := some c.cur, active := true, jmp := some f, pending := f :: c.pending }

/-- `sched_switch_to` -/
def switch (next : PcbId) (rbx : ℕ) : Core :=
  if c.rip next = 0 ∨ c.cur = next then c
  else
    let c' := if c.waiter ≠ some c.cur ∧ c.state c.cur = .run then c.setState c.cur .ready else c
    (c'.setRip c.cur rbx).resume next

/-- a switch leaves what a process does not have of its own -/
theorem switch_keeps (c : Core) (next : PcbId) (rbx : ℕ) {β : Type} (g : Core → β)
    (hg : ∀ (c : Core) (s : PcbId → PState) (r : PcbId → ℕ) (p q : PcbId),
      g { c with state := s, rip := r, cur := p, running := q } = g c) : g (c.switch next rbx) = g c := by
  unfold switch
  split_ifs
  · rfl
  · exact hg c _ _ _ _
  · exact hg c _ _ _ _

end Core

/-- what a call can do; `cls` is the class under which a process is queued -/
inductive CStep (c : Core) : KOp → Core → Prop
  | bootstrap : CStep c .bootstrap c.bootstrap
  /-- no slot -/
  | spawnFull {a : SpawnArgs} (h : maxProcs ≤ c.procCount ∨ c.nextFree = none) : CStep c (.spawn a) c
  /-- no kernel stack -/
  | spawnNoStack {a : SpawnArgs} {pid : ℕ} (hc : c.procCount < maxProcs) (h : c.nextFree = some pid)
      (hs : a.stack = 0) : CStep c (.spawn a) (c.claim pid)
  /-- a new process that is not started: `sched_spawn` alone, or a pid that `sched_find` does not know -/
  | spawnNew {a : SpawnArgs} {pid : ℕ} (hc : c.procCount < maxProcs) (h : c.nextFree = some pid) (hs : a.stack ≠ 0)
      (he : a.entry = none ∨ (c.claim pid).find pid = none) : CStep c (.spawn a) ((c.claim pid).born (slot pid))
  | spawnReady {a : SpawnArgs} {pid rip cr3 : ℕ} (hc : c.procCount < maxProcs) (h : c.nextFree = some pid)
      (hs : a.stack ≠ 0) (he : a.entry = some (rip, cr3)) (hf : (c.claim pid).find pid = some (slot pid)) :
      CStep c (.spawn a) ((((c.claim pid).born (slot pid)).setRip (slot pid) rip).enqueue (slot pid) a.cls)
  /-- somebody waits: on in the frame of the jump buffer -/
  | exitJump {code : ℤ} {w : PcbId} {f : Frame} (hw : c.waiter = some w) (ha : c.active = true) (hj : c.jmp = some f) :
      CStep c (.exit code) ((c.die code).tail f)
  /-- the waiter is recorded, but its jump buffer is not active -/
  | exitWaiter {code : ℤ} {w : PcbId} (hw : c.waiter = some w) (ha : c.active = false)
      (hd : (c.die code).state w ≠ .dead) : CStep c (.exit code) ({ c.die code with waiter := none }.resume w)
  /-- nobody waits: a queued process or the idle process -/
  | exitNext {code : ℤ} {next : PcbId} (hw : c.waiter = none ∨ c.active = false)
      (hn : (c.die code).state next ≠ .dead ∨ next = c.idle) : CStep c (.exit code) ((c.die code).resume next)
  | reapNone {pid : ℕ} (h : c.find pid = none) : CStep c (.reap pid) c
  | reapStart {pid : ℕ} {f : Frame} (h : c.find pid = some f.pcb) (ho : f.owner = c.running)
      (hr : c.state f.pcb = .ready) (hrip : c.rip f.pcb ≠ 0) : CStep c (.reap pid) ((c.enter f).resume f.pcb)
  /-- a process that cannot run is reaped at once -/
  | reapNow {pid : ℕ} {f : Frame} (h : c.find pid = some f.pcb) (ho : f.owner = c.running)
      (hr : ¬ (c.state f.pcb = .ready ∧ c.rip f.pcb ≠ 0)) : CStep c (.reap pid) ((c.enter f).tail f)
  | yieldBack {time rbx cls : ℕ} {next : PcbId} : CStep c (.yield time rbx) ((c.enqueue c.cur cls).switch next rbx)
  | yieldOn {time rbx : ℕ} {next : PcbId} : CStep c (.yield time rbx) (c.switch next rbx)
  | tickNone {now time rbx : ℕ} : CStep c (.tick now time rbx) c
  | tickBack {now time rbx cls : ℕ} {next : PcbId} (hw : c.waiter = none) :
      CStep c (.tick now time rbx) ((c.enqueue c.cur cls).switch next rbx)
  | wakeNone {p : PcbId} {time : ℕ} : CStep c (.wake p time) c
  | wake {p : PcbId} {time cls : ℕ} (h : c.state p = .wait) : CStep c (.wake p time) (c.enqueue p cls)
  | block : CStep c .block (c.setState c.cur .wait)
  | steal {cpu : ℕ} : CStep c (.steal cpu) c
  | set {pid cls : ℕ} {priority : ℤ} : CStep c (.set pid cls priority) c
  | dequeue {cpu : ℕ} : CStep c (.dequeue cpu) c

/-! ## Trees do not matter -/

theorem core_setPcb (k : Kernel) (p : PcbId) (v : Pcb) : (k.setPcb p v).core = { k.core with
    pid := update k.core.pid p v.pid
    state := update k.core.state p v.state
    code := update k.core.code p v.exitCode
    rip := update k.core.rip p v.rip } := by
  ext1
  · exact comp_update Pcb.pid _ _ _
  · exact comp_update Pcb.state _ _ _
  · exact comp_update Pcb.exitCode _ _ _
  · exact comp_update Pcb.rip _ _ _
  all_goals rfl

/-- another state for the smaller machine and for the locks only in the trees, the counts and the CPUs of processes -/
structure SameCore (s s' : St) : Prop where
  core : ∀ k : Kernel, { k with st := s' }.core = { k with st := s }.core
  lock : ∀ c, (s'.rq c).lock = (s.rq c).lock

section SameCore

variable {s s' s'' : St} {p : PcbId} {i : Slot}

theorem SameCore.refl (s : St) : SameCore s s := ⟨fun _ => rfl, fun _ => rfl⟩

theorem SameCore.trans (h : SameCore s s') (h' : SameCore s' s'') : SameCore s s'' :=
  ⟨fun k => (h'.core k).trans (h.core k), fun c => (h'.lock c).trans (h.lock c)⟩

theorem setTree_same (s : St) (i : Slot) (t : Store PcbId) (n : ℕ) : SameCore s (s.setTree i t n) := by
  refine ⟨fun k => ?_, fun c => (setTree_rq s i t n c).1⟩
  ext1
  case idle => exact (setTree_rq s i t n 0).2
  all_goals rfl

/-- PCBs that differ in class, priority or CPU only -/
theorem setPcb_congr (s : St) (p : PcbId) {v v' : Pcb} (h1 : v'.pid = v.pid) (h2 : v'.state = v.state)
    (h3 : v'.exitCode = v.exitCode) (h4 : v'.rip = v.rip) : SameCore (s.setPcb p v) (s.setPcb p v') := by
  refine ⟨fun k => ?_, fun _ => rfl⟩
  have hv := core_setPcb { k with st := s } p v'
  rw [h1, h2, h3, h4, ← core_setPcb] at hv
  exact hv

theorem setPcb_same (s : St) (p : PcbId) {v : Pcb} (h1 : v.pid = (s.pcb p).pid) (h2 : v.state = (s.pcb p).state)
    (h3 : v.exitCode = (s.pcb p).exitCode) (h4 : v.rip = (s.pcb p).rip) : SameCore s (s.setPcb p v) := by
  have h := setPcb_congr s p (v := s.pcb p) h1 h2 h3 h4
  have e : s.setPcb p (s.pcb p) = s := by rw [St.setPcb, update_eq_self]
  rwa [e] at h

theorem unlinkNode_same (s : St) (p : PcbId) : SameCore s (s.unlinkNode p) := ⟨fun _ => rfl, fun _ => rfl⟩

theorem removeAt_same (h : removeAt s p i = some s') : SameCore s s' := by
  obtain ⟨t, -, rfl⟩ := Option.map_eq_some_iff.1 h
  exact setTree_same _ _ _ _

theorem insertInto_same (h : insertInto s p i = some s') : SameCore s s' := by
  obtain ⟨t, -, rfl⟩ := Option.map_eq_some_iff.1 h
  exact setTree_same _ _ _ _

theorem schedDequeue_same {cpu : ℕ} (h : schedDequeue s cpu = some (p, s')) : SameCore s s' := by
  unfold schedDequeue at h
  split at h
  · cases h
    exact SameCore.refl s
  obtain ⟨n, -, hn⟩ := Option.bind_eq_some_iff.1 h
  split at hn
  · cases hn
    exact SameCore.refl s
  · obtain ⟨s1, h1, e⟩ := Option.map_eq_some_iff.1 hn
    cases e
    exact removeAt_same h1

/-- an enqueue makes the process READY -/
theorem schedEnqueue_same (h : schedEnqueue s p = some s') : SameCore (s.setPcb p { s.pcb p with state := .ready }) s' := by
  unfold schedEnqueue at h
  simp only at h
  split_ifs at h
  obtain ⟨t, -, rfl⟩ := Option.map_eq_some_iff.1 h
  refine SameCore.trans ?_ (setTree_same _ _ _ _)
  exact setPcb_congr s p rfl rfl rfl rfl

theorem stealOne_same {victim this : ℕ} (h : stealOne s victim this p = some s') : SameCore s s' := by
  obtain ⟨s1, h1, h2⟩ := Option.bind_eq_some_iff.1 h
  have hcpu : SameCore s1 (s1.setPcb p { s1.pcb p with cpu := this % 256 }) := setPcb_same s1 p rfl rfl rfl rfl
  exact (removeAt_same h1).trans (hcpu.trans (insertInto_same h2))

theorem stealLoop_same {victim this n : ℕ} (h : stealLoop s victim this n = some s') : SameCore s s' := by
  induction n generalizing s with
  | zero =>
    cases h
    exact SameCore.refl _
  | succ n ih =>
    obtain ⟨r, -, h2⟩ := Option.bind_eq_some_iff.1 h
    cases r with
    | none =>
      cases h2
      exact SameCore.refl _
    | some p =>
      obtain ⟨s1, h3, h4⟩ := Option.bind_eq_some_iff.1 h2
      exact (stealOne_same h3).trans (ih h4)

theorem setLock_same (s : St) (c : ℕ) (b : Bool) (d : ℕ) : ((s.setLock c b).rq d).idlePcb = (s.rq d).idlePcb :=
  update_keep Runq.idlePcb s.rq d rfl

end SameCore

/-! ## The helpers on the smaller machine -/

section Helpers

variable (k : Kernel) (p : PcbId)

theorem core_same {s : St} (h : SameCore k.st s) : ({ k with st := s } : Kernel).core = k.core := h.core k

theorem core_setState (x : PState) : (setState k p x).core = k.core.setState p x := by
  rw [setState, core_setPcb]
  ext1
  · exact update_eq_self _ _
  · rfl
  · exact update_eq_self _ _
  · exact update_eq_self _ _
  all_goals rfl

theorem core_setLock (c : ℕ) (b : Bool) : ({ k with st := k.st.setLock c b } : Kernel).core = k.core := by
  ext1
  case idle => exact setLock_same k.st c b 0
  all_goals rfl

theorem core_setCurrent : (setCurrent k p).core = { k.core with cur := p } := by
  ext1
  case cur => exact update_self 0 p k.st.current
  case idle =>
    show (update k.st.rq 0 { k.st.rq 0 with current := p } 0).idlePcb = (k.st.rq 0).idlePcb
    rw [update_self]
  all_goals rfl

theorem core_onThreadSwitch : (syscallOnThreadSwitch k p).core = k.core := by
  unfold syscallOnThreadSwitch
  split_ifs <;> rfl

theorem core_freeKstack : (freeKstack k p).core = k.core := by
  unfold freeKstack
  split_ifs <;> rfl

theorem core_setDeadline (time : ℕ) : (setDeadline k p time).core = k.core := by
  unfold setDeadline
  split_ifs <;> rfl

theorem core_contextSave (rbx : ℕ) : (schedContextSave k p rbx).core = k.core.setRip p rbx := by
  show (k.setPcb p _).core = _
  rw [core_setPcb]
  ext1
  · exact update_eq_self _ _
  · exact update_eq_self _ _
  · exact update_eq_self _ _
  all_goals rfl

theorem core_setPriority (x : ℤ) : (setPriority k p x).core = k.core :=
  core_same k (setPcb_same k.st p rfl rfl rfl rfl)

theorem core_decay : (decay k p).core = k.core := by
  unfold decay
  split_ifs
  · exact core_setPriority k p _
  · rfl

theorem core_boost : (boost k p).core = k.core := by
  unfold boost
  split_ifs
  · exact core_setPriority k p _
  · rfl

theorem core_contextRestore : (schedContextRestore k p).core = { k.core with running := p } := rfl

theorem core_loadCr3 (c : ℕ) : (schedLoadCr3 k c).core = k.core := rfl

theorem core_spinUnlock (c : ℕ) : (spinUnlock k c).core = k.core := core_setLock k c false

theorem core_find (pid : ℕ) : schedFind k.st pid = k.core.find pid := rfl

theorem core_nextFree : nextFree k.st = k.core.nextFree := rfl

theorem core_claim (a : SpawnArgs) (pid : ℕ) : (claimSlot k a pid).core = k.core.claim pid := by
  ext1
  · exact comp_update Pcb.pid _ _ _
  · exact comp_update Pcb.state _ _ _
  · exact comp_update Pcb.exitCode _ _ _
  · exact comp_update Pcb.rip _ _ _
  all_goals rfl

theorem core_prime (rip cr3 : ℕ) :
    (prime k p rip cr3).core = (k.core.setRip p rip).setState p .ready := by
  show (k.setPcb p _).core = _
  rw [core_setPcb]
  ext1
  · exact update_eq_self _ _
  · rfl
  · exact update_eq_self _ _
  all_goals rfl

/-- any change of the counter; a lemma of its own, since Lean would otherwise compute with 2 ^ 32 -/
theorem core_count (f : ℕ → ℕ) :
    (unlockTable { k with st := { k.st with procCount := f k.st.procCount } }).core =
      { k.core with procCount := f k.core.procCount } := rfl

theorem core_disarm : (disarm k).core = { k.core with active := false } := rfl

theorem core_clearWaiter : (clearWaiter k).core = { k.core with waiter := none } := rfl

theorem core_setRunning : (setRunning k p).core = { k.core with running := p } := rfl

theorem core_note (e : Ev) : (k.note e).core = { k.core with log := e :: k.core.log } := rfl

theorem core_returned (f : Frame) :
    (returned k f).core = { k.core with pending := k.core.pending.erase f } := rfl

theorem core_clearNode : (clearNode k p).core = k.core := rfl

theorem core_setExt (v : Ext) : (k.setExt p v).core = k.core := rfl

end Helpers

/-! ## The calls on the smaller machine -/

section Calls

variable {k k' : Kernel} {p : PcbId}

theorem core_spinLock {c : ℕ} (h : spinLock k c = .ok k') : k'.core = k.core := by
  unfold spinLock at h
  split_ifs at h
  cases h
  exact core_setLock k c true

theorem core_lockTable (h : lockTable k = .ok k') : k'.core = k.core := by
  unfold lockTable at h
  split_ifs at h
  cases h
  rfl

theorem core_kEnqueue (h : kEnqueue k p = .ok k') : k'.core = k.core.enqueue p (k.st.pcb p).schedClass := by
  unfold kEnqueue at h
  split_ifs at h
  split at h
  · cases h
  rename_i s hs
  cases h
  have hst := core_setState k p .ready
  have hsame := core_same (setState k p .ready) (schedEnqueue_same hs)
  rw [hst] at hsame
  show ({ ({ k with st := s } : Kernel).core with log := _ } : Core) = _
  rw [show ({ k with st := s } : Kernel).core = k.core.setState p .ready from hsame]
  rfl

variable {cpu : ℕ}

theorem core_kDequeue (h : kDequeue k cpu = .ok (p, k')) : k'.core = k.core := by
  unfold kDequeue at h
  split at h
  · cases h
  · rename_i s hs
    cases h
    exact core_same k (schedDequeue_same hs)

theorem core_takeoff (h : schedTakeoffRunqLocked k cpu p = .ok k') : k'.core = k.core := by
  unfold schedTakeoffRunqLocked at h
  split_ifs at h
  · split at h
    · cases h
    · rename_i s hs
      cases h
      exact core_same k ((removeAt_same hs).trans (unlinkNode_same s p))
  · cases h
    rfl

theorem core_switchTo (k : Kernel) (next : PcbId) (time rbx : ℕ) :
    (schedSwitchTo k next time rbx).core = k.core.switch next rbx := by
  unfold schedSwitchTo Core.switch
  by_cases hno : (k.st.pcb next).rip = 0 ∨ k.cur = next
  · rw [if_pos hno]
    exact (if_pos hno).symm
  rw [if_neg hno]
  refine Eq.trans ?_ (if_neg hno).symm
  have h1 := core_setDeadline k next time
  generalize setDeadline k next time = k1 at h1 ⊢
  -- whether the current process becomes READY is read off the core
  have hcond : (k1.st.reapWaiter ≠ some k.cur ∧ (k1.st.pcb k.cur).state = .run) ↔
      (k.core.waiter ≠ some k.core.cur ∧ k.core.state k.core.cur = .run) := by
    rw [← h1]
    rw [show k1.core.cur = k.cur from congrArg Core.cur h1]
    rfl
  simp only [core_contextRestore, core_contextSave, core_loadCr3, core_onThreadSwitch, core_setCurrent, core_setState]
  by_cases hrun : k1.st.reapWaiter ≠ some k.cur ∧ (k1.st.pcb k.cur).state = .run
  · rw [if_pos hrun, if_pos (hcond.1 hrun), core_setState, h1]
    rfl
  · rw [if_neg hrun, if_neg (fun h => hrun (hcond.2 h)), h1]
    rfl

theorem core_requeue {back : Bool} {time rbx : ℕ} (h : requeueAndSwitch k back time rbx = .ok k') : ∃ next,
    k'.core = (if back then k.core.enqueue k.cur (k.st.pcb k.cur).schedClass else k.core).switch next rbx := by
  obtain ⟨k1, h1, h2⟩ := bind_eq_ok.1 h
  obtain ⟨k2, h3, h4⟩ := bind_eq_ok.1 h2
  obtain ⟨⟨next, k3⟩, h5, h6⟩ := bind_eq_ok.1 h4
  have e1 := core_spinLock h1
  have e3 := core_kDequeue h5
  cases h6
  refine ⟨next, ?_⟩
  rw [core_switchTo, core_spinUnlock, e3]
  congr 1
  have hcur : k1.cur = k.cur := congrArg Core.cur e1
  have hcls : (k1.st.pcb k.cur).schedClass = (k.st.pcb k.cur).schedClass := by
    unfold spinLock at h1
    split_ifs at h1
    cases h1
    rfl
  cases back with
  | true =>
    have e2 := core_kEnqueue h3
    rw [e2, e1, hcur, hcls]
    rfl
  | false =>
    cases h3
    exact e1

/-- what `sched_spawn` can do -/
theorem core_schedSpawn {a : SpawnArgs} {r : ℕ} (h : schedSpawn k a = .ok (r, k')) :
    (r = 0 ∧ k'.core = k.core ∧ (maxProcs ≤ k.core.procCount ∨ k.core.nextFree = none)) ∨
    ∃ pid, k.core.procCount < maxProcs ∧ k.core.nextFree = some pid ∧
      ((r = 0 ∧ a.stack = 0 ∧ k'.core = k.core.claim pid) ∨
      (r = pid ∧ a.stack ≠ 0 ∧ k'.core = (k.core.claim pid).born (slot pid) ∧
        (k'.st.pcb (slot pid)).schedClass = a.cls)) := by
  obtain ⟨k1, h1, h2⟩ := bind_eq_ok.1 h
  have e1 := core_lockTable h1
  have hcount : k1.st.procCount = k.core.procCount := congrArg Core.procCount e1
  simp only [core_nextFree, e1] at h2
  by_cases hfull : maxProcs ≤ k1.st.procCount
  · rw [if_pos hfull] at h2
    cases h2
    exact .inl ⟨rfl, e1, .inl (hcount ▸ hfull)⟩
  rw [if_neg hfull] at h2
  rcases hn : k.core.nextFree with _ | pid
  · rw [hn] at h2
    cases h2
    exact .inl ⟨rfl, e1, .inr rfl⟩
  rw [hn] at h2
  refine .inr ⟨pid, hcount ▸ Nat.lt_of_not_le hfull, rfl, ?_⟩
  have ec := core_claim k1 a pid
  rw [e1] at ec
  by_cases hs : a.stack = 0
  · simp only [if_pos hs] at h2
    cases h2
    exact .inl ⟨rfl, hs, ec⟩
  simp only [if_neg hs] at h2
  cases h2
  refine .inr ⟨rfl, hs, ?_, ?_⟩
  · rw [← ec]
    rfl
  · show (update k1.st.pcb (slot r) (freshPcb k1.st a r) (slot r)).schedClass = a.cls
    rw [update_self]
    rfl

theorem Core.find_eq {c : Core} {pid : ℕ} (h : c.find pid = some p) :
    p = slot pid ∧ pid ≠ 0 ∧ pid < maxProcs ∧ c.pid p = pid ∧ c.state p ≠ .dead := by
  unfold Core.find at h
  split_ifs at h with h1 h2
  cases h
  rw [not_or] at h1
  exact ⟨rfl, h1.1, Nat.lt_of_not_le h1.2, h2.1, h2.2⟩

theorem core_elfSpawn {a : SpawnArgs} (h : elfSpawn k a = .ok k') : CStep k.core (.spawn a) k'.core := by
  obtain ⟨⟨r, k1⟩, h1, h2⟩ := bind_eq_ok.1 h
  simp only [core_find] at h2
  have hnone : r = 0 → k1 = k' := by
    rintro rfl
    split at h2
    · rename_i hf
      cases hf
    · exact Except.ok.inj h2
  obtain ⟨rfl, e, hfull⟩ | ⟨pid, hc, hn, ⟨rfl, hs, e⟩ | ⟨rfl, hs, e, hcls⟩⟩ := core_schedSpawn h1
  · rw [← hnone rfl, e]
    exact CStep.spawnFull hfull
  · rw [← hnone rfl, e]
    exact CStep.spawnNoStack hc hn hs
  have hfind : k1.core.find r = (k.core.claim r).find r := by
    rw [e]
    rfl
  rw [hfind] at h2
  split at h2
  · rename_i rip cr3 q he hf
    obtain ⟨rfl, -⟩ := Core.find_eq hf
    have hcls' : ((prime k1 (slot r) rip cr3).st.pcb (slot r)).schedClass = a.cls := by
      show (update k1.st.pcb (slot r) _ (slot r)).schedClass = a.cls
      rw [update_self]
      exact hcls
    have hfinal : k'.core = (((k1.core).setRip (slot r) rip).enqueue (slot r) a.cls) := by
      rw [core_kEnqueue h2, hcls', core_prime]
      ext1
      case state => exact update_idem _ _ _
      all_goals rfl
    rw [hfinal, e]
    exact CStep.spawnReady hc hn hs he hf
  · rename_i hno
    cases h2
    rw [e]
    refine CStep.spawnNew hc hn hs ?_
    rcases hen : a.entry with _ | ⟨rip, cr3⟩
    · exact .inl rfl
    · rcases hfn : (k.core.claim r).find r with _ | q
      · exact .inr rfl
      · exact absurd hfn (hno rip cr3 q hen)

theorem core_die {code : ℤ} (h : die (k.note (.exited k.running code)) code = .ok k') : k'.core = k.core.die code := by
  obtain ⟨k1, h1, h2⟩ := bind_eq_ok.1 h
  have e1 := core_lockTable h1
  rw [← Except.ok.inj h2, core_count k1 decr32, e1]
  have hX : ((k.note (.exited k.running code)).setPcb k.cur
      { k.st.pcb k.cur with exitCode := code, state := .dead }).core = { k.core with
        code := update k.core.code k.core.cur code
        state := update k.core.state k.core.cur .dead
        log := .exited k.running code :: k.core.log } := by
    rw [core_setPcb]
    ext1
    · exact update_eq_self _ _
    · rfl
    · rfl
    · exact update_eq_self _ _
    all_goals rfl
  exact congrArg (fun c : Core => ({ c with procCount := decr32 c.procCount } : Core)) hX

theorem core_reapTail (k : Kernel) (f : Frame) : (reapTail k f).core = { k.core.tail f with running := k.running } := by
  unfold reapTail
  simp only [core_note, core_returned, core_setPcb, core_freeKstack, core_clearWaiter, core_disarm]
  ext1
  case pid => exact update_idem _ _ _
  case state => exact update_idem _ _ _
  case code => exact update_idem _ _ _
  case rip => exact (update_idem _ _ _).trans (update_eq_self _ _)
  all_goals rfl

theorem core_jmpRestore (h : schedJmpRestore k = .ok k') : ∃ f, k.jmp = some f ∧ k'.core = k.core.tail f := by
  unfold schedJmpRestore at h
  split at h
  · cases h
  rename_i f hf
  refine ⟨f, hf, ?_⟩
  rw [← Except.ok.inj h, core_reapTail]
  rfl

theorem core_exitTo (k : Kernel) (next : PcbId) :
    (exitTo k next).core = k.core.resume (if k.core.state next = .dead then k.core.idle else next) := by
  unfold exitTo
  simp only [core_contextRestore, core_loadCr3, core_onThreadSwitch, core_setState, core_setCurrent]
  rfl

/-- a process out of the queue of CPU 0 -/
theorem core_exitNext (h : ((spinLock k 0).bind fun k => (kDequeue k 0).bind fun r =>
    .ok (exitTo (spinUnlock r.2 0) r.1)) = .ok k') :
    ∃ next, (k.core.state next ≠ .dead ∨ next = k.core.idle) ∧ k'.core = k.core.resume next := by
  obtain ⟨k1, h1, h2⟩ := bind_eq_ok.1 h
  obtain ⟨⟨next, k2⟩, h3, h4⟩ := bind_eq_ok.1 h2
  have e : (spinUnlock k2 0).core = k.core :=
    (core_spinUnlock k2 0).trans ((core_kDequeue h3).trans (core_spinLock h1))
  rw [← Except.ok.inj h4, core_exitTo, e]
  refine ⟨_, ?_, rfl⟩
  by_cases hd : k.core.state next = .dead
  · rw [if_pos hd]
    exact .inr rfl
  · rw [if_neg hd]
    exact .inl hd

theorem core_schedExit {code : ℤ} (h : schedExit k code = .ok k') : CStep k.core (.exit code) k'.core := by
  unfold schedExit at h
  have hw : (k.note (.exited k.running code)).st.reapWaiter = k.core.waiter := rfl
  have ha : (k.note (.exited k.running code)).st.reapJmpActive = k.core.active := rfl
  simp only [hw, ha] at h
  split at h
  · rename_i w hsome
    split_ifs at h with hact
    · obtain ⟨k1, h1, h2⟩ := bind_eq_ok.1 h
      obtain ⟨f, hf, e⟩ := core_jmpRestore h2
      have ed := core_die h1
      have ed' : (disarm (freeKstack (schedLoadCr3 k1 (k1.ext w).cr3) (k.note (.exited k.running code)).cur)).core =
          { k.core.die code with active := false } := by
        rw [core_disarm, core_freeKstack, core_loadCr3, ed]
      have hj : k.core.jmp = some f := (congrArg Core.jmp ed').symm.trans hf
      have hfinal : k'.core = (k.core.die code).tail f := by
        rw [e, ed']
        rfl
      rw [hfinal]
      exact CStep.exitJump hsome hact hj
    obtain ⟨k1, h1, h2⟩ := bind_eq_ok.1 h
    have ed := core_die h1
    rw [Bool.not_eq_true] at hact
    split_ifs at h2 with hd
    · have hd' : (k.core.die code).state w ≠ .dead := by
        rw [← ed]
        exact hd
      have hfinal : k'.core = { k.core.die code with waiter := none }.resume w := by
        rw [← Except.ok.inj h2, core_exitTo, core_clearWaiter, ed]
        exact congrArg _ (if_neg hd')
      rw [hfinal]
      exact CStep.exitWaiter hsome hact hd'
    · obtain ⟨next, hn, e⟩ := core_exitNext h2
      rw [e, ed]
      rw [ed] at hn
      exact CStep.exitNext (.inr hact) hn
  · rename_i hnone
    obtain ⟨k1, h1, h2⟩ := bind_eq_ok.1 h
    have ed := core_die h1
    obtain ⟨next, hn, e⟩ := core_exitNext h2
    rw [e, ed]
    rw [ed] at hn
    exact CStep.exitNext (.inl hnone) hn

theorem core_reapEnter (k : Kernel) (p : PcbId) : (reapEnter k p).core =
    k.core.enter ⟨k.running, p, (k.st.pcb p).schedClass, (k.st.pcb p).priority⟩ := by
  have e := core_setPcb { k with st := { k.st with reapWaiter := some k.cur, reapJmpActive := true } } p
    { k.st.pcb p with schedClass := 0, priority := 0 }
  ext1
  case pid => exact (congrArg Core.pid e).trans (update_eq_self _ _)
  case state => exact (congrArg Core.state e).trans (update_eq_self _ _)
  case code => exact (congrArg Core.code e).trans (update_eq_self _ _)
  case rip => exact (congrArg Core.rip e).trans (update_eq_self _ _)
  all_goals rfl

theorem core_reapStart (h : reapStart k p = .ok k') : k'.core = k.core.resume p := by
  obtain ⟨k1, h1, h2⟩ := bind_eq_ok.1 h
  obtain ⟨k2, h3, h4⟩ := bind_eq_ok.1 h2
  have e : k2.core = k.core := (core_takeoff h3).trans (core_spinLock h1)
  rw [← Except.ok.inj h4]
  simp only [core_contextRestore, core_loadCr3, core_onThreadSwitch, core_setState, core_setCurrent, core_spinUnlock, e]
  rfl

theorem core_schedReap {pid : ℕ} (h : schedReap k pid = .ok k') : CStep k.core (.reap pid) k'.core := by
  unfold schedReap at h
  rw [core_find] at h
  rcases hf : k.core.find pid with _ | p
  · rw [hf] at h
    rw [← Except.ok.inj h]
    exact CStep.reapNone hf
  rw [hf] at h
  have ee := core_reapEnter k p
  have hs : ((reapEnter k p).st.pcb p).state = k.core.state p := congrFun (congrArg Core.state ee) p
  have hr : ((reapEnter k p).st.pcb p).rip = k.core.rip p := congrFun (congrArg Core.rip ee) p
  simp only [hs, hr] at h
  split_ifs at h with hrun
  · rw [core_reapStart h, ee]
    exact CStep.reapStart hf rfl hrun.1 hrun.2
  obtain ⟨f, hj, e⟩ := core_jmpRestore h
  cases hj
  rw [e, ee]
  exact CStep.reapNow hf rfl hrun

theorem core_bootstrap (k : Kernel) : (setRunning (schedBootstrapInitThread k) .bootstrap).core = k.core.bootstrap := by
  have e : (schedBootstrapInitThread k).core = { (k.setPcb .bootstrap bootstrapPcb).core with cur := .bootstrap } := by
    rw [schedBootstrapInitThread, core_onThreadSwitch, core_setCurrent, core_clearNode, core_setExt]
  rw [core_setRunning, e, core_setPcb]
  rfl

theorem core_schedTick {now time rbx : ℕ} (h : schedTick k now time rbx = .ok k') :
    CStep k.core (.tick now time rbx) k'.core := by
  unfold schedTick at h
  simp only at h
  split_ifs at h with h1 h2 h3 h4
  · rw [← Except.ok.inj h]
    exact CStep.tickNone
  · rw [← Except.ok.inj h]
    exact CStep.tickNone
  · rw [← Except.ok.inj h]
    exact CStep.tickNone
  · obtain ⟨next, e⟩ := core_requeue h
    have ed := core_decay k k.cur
    have hcur : (decay k k.cur).cur = k.core.cur := congrArg Core.cur ed
    rw [e, if_pos rfl, ed, hcur]
    exact CStep.tickBack (not_not.1 h2)
  · rw [← Except.ok.inj h, core_decay]
    exact CStep.tickNone

theorem core_schedWake {time : ℕ} (h : schedWake k p time = .ok k') : CStep k.core (.wake p time) k'.core := by
  unfold schedWake at h
  split_ifs at h with h1
  · rw [← Except.ok.inj h]
    exact CStep.wakeNone
  · rw [core_kEnqueue h, core_boost, core_setExt]
    exact CStep.wake (not_not.1 h1)

theorem core_schedSteal (h : schedSteal k cpu = .ok k') : k'.core = k.core := by
  unfold schedSteal at h
  simp only at h
  split_ifs at h
  · rw [Except.ok.inj h]
  all_goals
    obtain ⟨k1, h1, h2⟩ := bind_eq_ok.1 h
    obtain ⟨k2, h3, h4⟩ := bind_eq_ok.1 h2
    split at h4
    · cases h4
    · rename_i s hs
      rw [← Except.ok.inj h4, core_spinUnlock, core_spinUnlock, core_same k2 (stealLoop_same hs), core_spinLock h3,
        core_spinLock h1]

theorem core_schedSet (k : Kernel) (pid cls : ℕ) (priority : ℤ) : (schedSet k pid cls priority).core = k.core := by
  unfold schedSet
  split
  · rfl
  · exact core_same k (setPcb_same k.st _ rfl rfl rfl rfl)

/-- **The smaller machine.** Every call of the kernel that returns or switches is one of its steps. -/
theorem kstep_core {o : KOp} (h : kstep k o = .ok k') : CStep k.core o k'.core := by
  cases o with
  | bootstrap =>
    rw [← Except.ok.inj h, core_bootstrap]
    exact CStep.bootstrap
  | spawn a => exact core_elfSpawn h
  | exit code => exact core_schedExit h
  | reap pid => exact core_schedReap h
  | yield time rbx =>
    obtain ⟨next, e⟩ := core_requeue h
    rw [e]
    split_ifs
    · exact CStep.yieldBack
    · exact CStep.yieldOn
  | tick now time rbx => exact core_schedTick h
  | wake p time => exact core_schedWake h
  | block =>
    rw [← Except.ok.inj h, core_setState]
    exact CStep.block
  | steal cpu =>
    rw [core_schedSteal h]
    exact CStep.steal
  | set pid cls priority =>
    rw [← Except.ok.inj h, core_schedSet]
    exact CStep.set
  | dequeue cpu =>
    obtain ⟨⟨q, k1⟩, h1, h2⟩ := bind_eq_ok.1 h
    rw [← Except.ok.inj h2, core_kDequeue h1]
    exact CStep.dequeue

/-- what the steps of the smaller machine keep under a condition, the runs of the kernel keep -/
theorem run_core {P : Core → KOp → Prop} {I : Core → Prop} {ops : List KOp}
    (hstep : ∀ c o c', I c → P c o → CStep c o c' → I c') (h : I k.core) (hP : Along kstep (fun k => P k.core) k ops)
    (hr : run kstep k ops = .ok k') : I k'.core :=
  run_inv (P := fun k => P k.core) (I := fun k => I k.core) (fun _ _ _ hI hPo hs => hstep _ _ _ hI hPo (kstep_core hs))
    h hP hr

/-- the same without a condition -/
theorem run_core_all {I : Core → Prop} {ops : List KOp} (hstep : ∀ c o c', I c → CStep c o c' → I c') (h : I k.core)
    (hr : run kstep k ops = .ok k') : I k'.core :=
  run_inv_all (I := fun k => I k.core) (fun _ _ _ hI hs => hstep _ _ _ hI (kstep_core hs)) h hr

end Calls

end OpenASD.Sched
