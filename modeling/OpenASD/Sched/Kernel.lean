/-
The scheduler as a machine (kernel/sched/sched.c, the tail of elf_spawn in kernel/arch/elf.c). This module is the model
only: one definition for each entry point, over the run queues of `Sched.RunQueue`.

`this_cpu_id` is 0 in the source, so all calls but `sched_steal` and `sched_dequeue` are on CPU 0. A call is one step,
since system calls run with interrupts off: it returns, or it ends in a switch of context. A call that never does is an
error: `spin` for a lock that is held, `fault` for a NULL dereference or an endless loop in a tree.

What is not kernel data: `running` is the PCB whose registers were loaded last, so the thread that executes, which need
not be `g_current`. The jump buffer holds the frame of a call of `sched_reap`. Ghost state: `pending`, the calls of
`sched_reap` that have not returned; `held`, the kernel stacks that kmalloc has given and kfree has not taken back; `log`;
and `heldAtSwitch`, set when a context is left with a lock held.

Values that come from elsewhere are arguments of a step: what kmalloc and amm_vmap_create return, the clock, and `rbx`,
which `sched_context_save` stores as the program counter.
-/
import OpenASD.Core.Machine
import OpenASD.Sched.RunQueue

namespace OpenASD.Sched

open LinkedTree
open Function (update)

/-! ## State -/

/-- why a call does not return -/
inductive Stop where
  | spin
  | fault
deriving DecidableEq, Repr

/-- the fields of a `pcb_t` that the run queues do not use -/
structure Ext where
  vaMap : Option ℕ
  /-- `regs.cr3` -/
  cr3 : ℕ
  kstack : ℕ
  kstackTop : ℕ
  wakeNs : ℕ
  deadlineNs : ℕ
deriving DecidableEq

def Ext.zero : Ext := ⟨none, 0, 0, 0, 0, 0⟩

/-- the locals of a call of `sched_reap`, and the thread it is on -/
structure Frame where
  owner : PcbId
  pcb : PcbId
  savedClass : ℕ
  savedPri : ℤ
deriving DecidableEq

inductive Ev where
  | spawned (p : PcbId)
  /-- a thread has called `sched_exit` -/
  | exited (p : PcbId) (code : ℤ)
  /-- a call of `sched_reap` has returned 0 with this exit code -/
  | reaped (p : PcbId) (code : ℤ)
  | enqueued (p : PcbId) (cls : ℕ)
deriving DecidableEq

structure Kernel where
  st : St
  ext : PcbId → Ext
  /-- the CR3 register -/
  cr3 : ℕ
  /-- `g_percpu.kernel_rsp` and the stack pointer in the TSS -/
  kernelRsp : ℕ
  kernelCr3 : ℕ
  /-- the address of `g_bootstrap_kstack` -/
  bootStack : ℕ
  /-- `g_proc_table_lock` -/
  tableLock : Bool
  /-- `g_reap_jmp` -/
  jmp : Option Frame
  running : PcbId
  pending : List Frame
  held : ℕ → Bool
  log : List Ev
  heldAtSwitch : Bool

/-- SCHED_KSTACK_SIZE -/
def kstackSize : ℕ := 64 * 1024
/-- SCHED_BOOTSTRAP_KSTACK_SIZE -/
def bootKstackSize : ℕ := 2 * 1024 * 1024

def u64 (n : ℕ) : ℕ := n % 2 ^ 64

/-- UINT64_MAX, the deadline of a process that is not preempted -/
def uint64Max : ℕ := 2 ^ 64 - 1

/-- `x++` on a `uint32_t` -/
@[irreducible] def incr32 (n : ℕ) : ℕ := (n + 1) % 2 ^ 32

/-- `x--` on a `uint32_t` -/
@[irreducible] def decr32 (n : ℕ) : ℕ := (n + 2 ^ 32 - 1) % 2 ^ 32

/-- a cast to `int16_t` -/
def int16 (x : ℤ) : ℤ := x.bmod (2 ^ 16)

variable (k : Kernel)

/-- `sched_current()` -/
def Kernel.cur : PcbId := k.st.current 0

def Kernel.setPcb (p : PcbId) (v : Pcb) : Kernel := { k with st := k.st.setPcb p v }

def Kernel.setExt (p : PcbId) (v : Ext) : Kernel := { k with ext := update k.ext p v }

def setRunning (p : PcbId) : Kernel := { k with running := p }

def Kernel.note (e : Ev) : Kernel := { k with log := e :: k.log }

/-! ## Locks -/

def St.setLock (s : St) (c : ℕ) (b : Bool) : St := { s with rq := update s.rq c { s.rq c with lock := b } }

def spinLock (c : ℕ) : Except Stop Kernel :=
  if (k.st.rq c).lock then .error .spin else .ok { k with st := k.st.setLock c true }

def spinUnlock (c : ℕ) : Kernel := { k with st := k.st.setLock c false }

def lockTable : Except Stop Kernel := if k.tableLock then .error .spin else .ok { k with tableLock := true }

def unlockTable : Kernel := { k with tableLock := false }

/-- some lock is held -/
def Kernel.anyLock : Bool := k.tableLock || (List.range k.st.cpuCount).any fun c => (k.st.rq c).lock

/-! ## Contexts -/

/-- the present context is left -/
def leave : Kernel := { k with heldAtSwitch := k.heldAtSwitch || k.anyLock }

def schedContextRestore (p : PcbId) : Kernel := { leave k with cr3 := (k.ext p).cr3, running := p }

/-- what is stored as the program counter is rbx; CR3 has been loaded with that of the next process before -/
def schedContextSave (p : PcbId) (rbx : ℕ) : Kernel :=
  (k.setPcb p { k.st.pcb p with rip := rbx }).setExt p { k.ext p with cr3 := k.cr3 }

def schedLoadCr3 (cr3 : ℕ) : Kernel := { k with cr3 := if cr3 = 0 then k.kernelCr3 else cr3 }

def syscallOnThreadSwitch (p : PcbId) : Kernel :=
  if (k.ext p).kstackTop = 0 then k else { k with kernelRsp := (k.ext p).kstackTop }

/-- `g_current[0] = rq->current = p` -/
def setCurrent (p : PcbId) : Kernel :=
  { k with st := { k.st with
      current := update k.st.current 0 p
      rq := update k.st.rq 0 { k.st.rq 0 with current := p } } }

/-- free the kernel stack of a process, unless it is that of the bootstrap thread -/
def freeKstack (p : PcbId) : Kernel :=
  if (k.ext p).kstack ≠ 0 ∧ (k.ext p).kstack ≠ k.bootStack ∧ (k.st.pcb p).pid ≠ 0 then
    { k.setExt p { k.ext p with kstack := 0, kstackTop := 0 } with held := update k.held (k.ext p).kstack false }
  else k

/-! ## The run queues -/

/-- `sched_enqueue` -/
def kEnqueue (p : PcbId) : Except Stop Kernel :=
  if (k.st.rq (enqueueCpu k.st p)).lock then .error .spin
  else
    match schedEnqueue k.st p with
    | none => .error .fault
    | some s => .ok ({ k with st := s }.note (.enqueued p (k.st.pcb p).schedClass))

/-- `sched_dequeue` -/
def kDequeue (cpu : ℕ) : Except Stop (PcbId × Kernel) :=
  match schedDequeue k.st cpu with
  | none => .error .fault
  | some (p, s) => .ok (p, { k with st := s })

/-- the links of a node are cleared -/
def St.unlinkNode (s : St) (p : PcbId) : St :=
  { s with node := update s.node p ⟨none, none, none, (s.node p).color⟩ }

/-- the tree that `sched_takeoff_runq_locked` looks at has p in it, as far as that function can tell -/
def takeoffSees (s : St) (cpu : ℕ) (p : PcbId) : Bool :=
  let i := (cpu, classOf (s.pcb p).schedClass)
  decide ((s.pcb p).state = .ready) && decide (s.count i ≠ 0) && decide ((s.store i).root ≠ none) &&
    (decide ((s.node p).parent ≠ none) || decide ((s.store i).root = some p))

def schedTakeoffRunqLocked (cpu : ℕ) (p : PcbId) : Except Stop Kernel :=
  if takeoffSees k.st cpu p then
    match removeAt k.st p (cpu, classOf (k.st.pcb p).schedClass) with
    | none => .error .fault
    | some s => .ok { k with st := s.unlinkNode p }
  else .ok k

/-! ## Switching -/

/-- the quantum of a class, 0 for none -/
def quantum (c : Class) : ℕ :=
  match c with
  | .rt => 0
  | .intr => 4000000
  | .batch => 50000000

/-- a deadline is set for classes that have a quantum -/
def setDeadline (p : PcbId) (time : ℕ) : Kernel :=
  if 0 < quantum (classOf (k.st.pcb p).schedClass) then
    k.setExt p { k.ext p with deadlineNs := u64 (time + quantum (classOf (k.st.pcb p).schedClass)) }
  else k

def setState (p : PcbId) (x : PState) : Kernel := k.setPcb p { k.st.pcb p with state := x }

def schedSwitchTo (next : PcbId) (time rbx : ℕ) : Kernel :=
  let cur := k.cur
  if (k.st.pcb next).rip = 0 ∨ cur = next then k
  else
    let k := setDeadline k next time
    let k := if k.st.reapWaiter ≠ some cur ∧ (k.st.pcb cur).state = .run then setState k cur .ready else k
    let k := setCurrent (setState k next .run) next
    let k := schedLoadCr3 (syscallOnThreadSwitch k next) (k.ext next).cr3
    schedContextRestore (schedContextSave k cur rbx) next

/-- the common end of `sched_tick` and `sched_yield`: put the current process back if asked to, and switch -/
def requeueAndSwitch (back : Bool) (time rbx : ℕ) : Except Stop Kernel :=
  (spinLock k 0).bind fun k =>
    (if back then kEnqueue k k.cur else .ok k).bind fun k =>
      (kDequeue k 0).bind fun r => .ok (schedSwitchTo (spinUnlock r.2 0) r.1 time rbx)

def schedYield (time rbx : ℕ) : Except Stop Kernel :=
  requeueAndSwitch k (decide (k.cur ≠ (k.st.rq 0).idlePcb) && decide (some k.cur ≠ k.st.reapWaiter)) time rbx

def setPriority (p : PcbId) (x : ℤ) : Kernel := k.setPcb p { k.st.pcb p with priority := x }

/-- `priority + (base_pri - priority) / 10` -/
def decayed (v : Pcb) : ℤ := int16 (v.priority + (int16 (v.basePri - v.priority)).tdiv 10)

def decay (p : PcbId) : Kernel :=
  if (k.st.pcb p).schedClass = 1 then setPriority k p (decayed (k.st.pcb p)) else k

/-- the running process has used up its quantum -/
def expired (now : ℕ) : Bool :=
  decide (k.cur ≠ (k.st.rq 0).idlePcb) && decide ((k.ext k.cur).deadlineNs ≤ now) &&
    decide ((k.st.pcb k.cur).state = .run)

def schedTick (now time rbx : ℕ) : Except Stop Kernel :=
  if k.st.cpuCount ≤ 0 then .ok k
  else if k.st.reapWaiter ≠ none then .ok k
  else if k.cur = .bootstrap then .ok k
  else
    let k := decay k k.cur
    if expired k now then requeueAndSwitch k true time rbx else .ok k

/-- the priority of an INTR process that wakes up -/
def boosted (v : Pcb) : ℤ := if int16 (v.basePri - 20) < 0 then 0 else int16 (v.basePri - 20)

def boost (p : PcbId) : Kernel :=
  if (k.st.pcb p).schedClass = 1 then setPriority k p (boosted (k.st.pcb p)) else k

def schedWake (p : PcbId) (time : ℕ) : Except Stop Kernel :=
  if (k.st.pcb p).state ≠ .wait then .ok k
  else kEnqueue (boost (k.setExt p { k.ext p with wakeNs := time }) p) p

/-! ## Processes -/

theorem slot_lt (pid : ℕ) : pid % maxProcs < maxProcs := Nat.mod_lt pid (by decide)

/-- the entry of `g_proc_table` for a pid -/
def slot (pid : ℕ) : PcbId := .proc ⟨pid % maxProcs, slot_lt pid⟩

def schedFind (s : St) (pid : ℕ) : Option PcbId :=
  if pid = 0 ∨ maxProcs ≤ pid then none
  else if (s.pcb (slot pid)).pid = pid ∧ (s.pcb (slot pid)).state ≠ .dead then some (slot pid)
  else none

def bootstrapPcb : Pcb := ⟨1, .run, 2, 0, 0, 0, 0, 0⟩

def bootstrapExt : Ext :=
  ⟨none, k.kernelCr3, k.bootStack, u64 (k.bootStack + bootKstackSize), 0, uint64Max⟩

def clearNode (p : PcbId) : Kernel :=
  { k with st := { k.st with node := update k.st.node p ⟨none, none, none, .black⟩ } }

def schedBootstrapInitThread : Kernel :=
  let k := clearNode ((k.setPcb .bootstrap bootstrapPcb).setExt .bootstrap (bootstrapExt k)) .bootstrap
  syscallOnThreadSwitch (setCurrent k .bootstrap) .bootstrap

structure SpawnArgs where
  cls : ℕ
  priority : ℤ
  /-- a byte; 0xFF for no affinity -/
  affinity : ℕ
  vaMap : Option ℕ
  /-- what kmalloc returns for the kernel stack -/
  stack : ℕ
  /-- what amm_vmap_create returns, if it is called -/
  newMap : Option ℕ
  /-- the entry point and CR3 with which elf_spawn goes on; none if sched_spawn is called alone -/
  entry : Option (ℕ × ℕ)

/-- `sched_spawn` may take the slot of this pid -/
def freeSlot (s : St) (pid : ℕ) : Bool :=
  decide ((s.pcb (slot pid)).state = .dead) || decide ((s.pcb (slot pid)).pid = 0)

/-- the search of `sched_spawn` for a slot, for n rounds -/
def findSlot (free : ℕ → Bool) (pid : ℕ) : ℕ → Option ℕ
  | 0 => none
  | n + 1 => if free pid then some pid else findSlot free (incr32 pid) n

/-- the pid that `sched_spawn` takes; after `maxProcs` rounds the source would look at the same slots again -/
def nextFree (s : St) : Option ℕ := findSlot (freeSlot s) s.nextPid maxProcs

/-- the cleared and filled PCB -/
def freshPcb (s : St) (a : SpawnArgs) (pid : ℕ) : Pcb :=
  ⟨pid, .new, a.cls, if a.affinity = 0xFF then s.cpuCount % 256 else a.affinity, int16 a.priority, int16 a.priority, 0, 0⟩

/-- the slot is cleared and filled, and the cursor moved on -/
def claimSlot (a : SpawnArgs) (pid : ℕ) : Kernel :=
  { k with
    st := { k.st with
      nextPid := if (pid + 1) % maxProcs = 0 then 1 else (pid + 1) % maxProcs
      pcb := update k.st.pcb (slot pid) (freshPcb k.st a pid)
      node := update k.st.node (slot pid) ⟨none, none, none, .black⟩ }
    ext := update k.ext (slot pid) Ext.zero }

/-- the process gets its kernel stack and its address space, and counts -/
def furnish (a : SpawnArgs) (p : PcbId) : Kernel :=
  { k with
    st := { k.st with procCount := incr32 k.st.procCount }
    ext := update k.ext p
      ⟨if a.vaMap = none then a.newMap else a.vaMap, 0, a.stack, u64 (a.stack + kstackSize), 0, uint64Max⟩
    held := update k.held a.stack true
    log := .spawned p :: k.log }

/-- the pid, 0 for a failure -/
def schedSpawn (a : SpawnArgs) : Except Stop (ℕ × Kernel) :=
  (lockTable k).bind fun k =>
    if maxProcs ≤ k.st.procCount then .ok (0, unlockTable k)
    else
      match nextFree k.st with
      | none => .ok (0, unlockTable k)
      | some pid =>
        let k := claimSlot k a pid
        if a.stack = 0 then .ok (0, unlockTable k) else .ok (pid, unlockTable (furnish k a (slot pid)))

/-- the fields that elf_spawn sets before it enqueues -/
def prime (p : PcbId) (rip cr3 : ℕ) : Kernel :=
  (k.setPcb p { k.st.pcb p with rip := rip, state := .ready }).setExt p
    { k.ext p with cr3 := cr3, deadlineNs := uint64Max }

/-- elf_spawn from its call of `sched_spawn` on -/
def elfSpawn (a : SpawnArgs) : Except Stop Kernel :=
  (schedSpawn k a).bind fun r =>
    match a.entry, schedFind r.2.st r.1 with
    | some (rip, cr3), some p => kEnqueue (prime r.2 p rip cr3) p
    | _, _ => .ok r.2

/-- `sched_set` -/
def schedSet (pid cls : ℕ) (priority : ℤ) : Kernel :=
  match schedFind k.st pid with
  | none => k
  | some p => k.setPcb p { k.st.pcb p with schedClass := cls, basePri := int16 priority, priority := int16 priority }

/-! ## Exit and reap -/

/-- the current process is marked dead and counted out -/
def die (code : ℤ) : Except Stop Kernel :=
  let cur := k.cur
  let k := k.setPcb cur { k.st.pcb cur with exitCode := code, state := .dead }
  let k := k.setExt cur { k.ext cur with vaMap := none }
  (lockTable k).bind fun k =>
    .ok (unlockTable { k with st := { k.st with procCount := decr32 k.st.procCount } })

/-- `g_reap_jmp_active = 0` -/
def disarm : Kernel := { k with st := { k.st with reapJmpActive := false } }

/-- `g_reap_waiter = NULL` -/
def clearWaiter : Kernel := { k with st := { k.st with reapWaiter := none } }

/-- a call of `sched_reap` is over -/
def returned (f : Frame) : Kernel := { k with pending := k.pending.erase f }

/-- the PCB with its class and priority back, and marked dead -/
def reapedPcb (v : Pcb) (f : Frame) : Pcb :=
  { v with
    schedClass := f.savedClass
    priority := f.savedPri
    state := .dead
    exitCode := if v.state = .dead then v.exitCode else -1 }

/-- `sched_reap` from the return of its jump on -/
def reapTail (f : Frame) : Kernel :=
  let v := reapedPcb (k.st.pcb f.pcb) f
  let k := freeKstack (clearWaiter (disarm (k.setPcb f.pcb v))) f.pcb
  let k := k.setPcb f.pcb { v with pid := 0 }
  (returned k f).note (.reaped f.pcb v.exitCode)

/-- `sched_jmp_restore`: on in the frame of the buffer -/
def schedJmpRestore : Except Stop Kernel :=
  match k.jmp with
  | none => .error .fault
  | some f => .ok (reapTail (setRunning (leave k) f.owner) f)

/-- the end of `sched_exit` when nobody waits: the next process of the queue, or the idle process -/
def exitTo (next : PcbId) : Kernel :=
  let next := if (k.st.pcb next).state = .dead then (k.st.rq 0).idlePcb else next
  let k := syscallOnThreadSwitch (setState (setCurrent k next) next .run) next
  schedContextRestore (schedLoadCr3 k (k.ext next).cr3) next

def schedExit (code : ℤ) : Except Stop Kernel :=
  let k := k.note (.exited k.running code)
  match k.st.reapWaiter with
  | some w =>
    if k.st.reapJmpActive then
      (die k code).bind fun k' => schedJmpRestore (disarm (freeKstack (schedLoadCr3 k' (k'.ext w).cr3) k.cur))
    else
      (die k code).bind fun k =>
        if (k.st.pcb w).state ≠ .dead then .ok (exitTo (clearWaiter k) w)
        else (spinLock k 0).bind fun k => (kDequeue k 0).bind fun r => .ok (exitTo (spinUnlock r.2 0) r.1)
  | none =>
    (die k code).bind fun k =>
      (spinLock k 0).bind fun k => (kDequeue k 0).bind fun r => .ok (exitTo (spinUnlock r.2 0) r.1)

/-- `sched_reap` of a process that it can run: the process is taken off its queue and started -/
def reapStart (p : PcbId) : Except Stop Kernel :=
  (spinLock k 0).bind fun k =>
    (schedTakeoffRunqLocked k 0 p).bind fun k =>
      let k := setState (setCurrent (spinUnlock k 0) p) p .run
      let k := schedLoadCr3 (syscallOnThreadSwitch k p) (k.ext p).cr3
      .ok (schedContextRestore k p)

/-- `sched_reap` up to its jump buffer -/
def reapEnter (p : PcbId) : Kernel :=
  let f : Frame := ⟨k.running, p, (k.st.pcb p).schedClass, (k.st.pcb p).priority⟩
  let k := { k with st := { k.st with reapWaiter := some k.cur, reapJmpActive := true } }
  { k.setPcb p { k.st.pcb p with schedClass := 0, priority := 0 } with jmp := some f, pending := f :: k.pending }

def schedReap (pid : ℕ) : Except Stop Kernel :=
  match schedFind k.st pid with
  | none => .ok k
  | some p =>
    let k := reapEnter k p
    if (k.st.pcb p).state = .ready ∧ (k.st.pcb p).rip ≠ 0 then reapStart k p else schedJmpRestore k

/-! ## Work stealing -/

/-- INTR and BATCH processes of a CPU -/
def St.movable (s : St) (c : ℕ) : ℕ := (s.count (c, .intr) + s.count (c, .batch)) % 2 ^ 32

/-- the loop over the other CPUs: (largest load, its CPU) -/
def victimOf (s : St) (this : ℕ) : ℕ × ℕ :=
  (List.range s.cpuCount).foldl (fun m i => if i ≠ this ∧ m.1 < s.movable i then (s.movable i, i) else m) (0, 0)

/-- insert into a given tree, and count -/
def insertInto (s : St) (p : PcbId) (i : Slot) : Option St :=
  (rbInsert rbFuel s.prio (s.store i) p (s.prio p)).map fun t => s.setTree i t ((s.count i + 1) % 2 ^ 32)

/-- the process that the next round would move; the outer none is an endless loop -/
def stealPick (s : St) (victim : ℕ) : Option (Option PcbId) :=
  if 0 < s.count (victim, .batch) then rbLeftmost rbFuel (s.store (victim, .batch))
  else if 0 < s.count (victim, .intr) then rbLeftmost rbFuel (s.store (victim, .intr))
  else some none

/-- move one process; its class decides on the trees, and every class but 2 counts as INTR -/
def stealOne (s : St) (victim this : ℕ) (p : PcbId) : Option St :=
  let c := if (s.pcb p).schedClass = 2 then Class.batch else .intr
  (removeAt s p (victim, c)).bind fun s =>
    insertInto (s.setPcb p { s.pcb p with cpu := this % 256 }) p (this, c)

def stealLoop (s : St) (victim this : ℕ) : ℕ → Option St
  | 0 => some s
  | n + 1 =>
    (stealPick s victim).bind fun r =>
      match r with
      | none => some s
      | some p => (stealOne s victim this p).bind fun s => stealLoop s victim this n

def schedSteal (this : ℕ) : Except Stop Kernel :=
  let (load, victim) := victimOf k.st this
  if load ≤ (k.st.movable this + 2) % 2 ^ 32 then .ok k
  else
    let first := if this < victim then this else victim
    let second := if this < victim then victim else this
    (spinLock k first).bind fun k =>
      (spinLock k second).bind fun k =>
        match stealLoop k.st victim this (k.st.movable victim / 2) with
        | none => .error .fault
        | some s => .ok (spinUnlock (spinUnlock { k with st := s } second) first)

/-! ## Steps -/

inductive KOp where
  | bootstrap
  | spawn (a : SpawnArgs)
  | exit (code : ℤ)
  | reap (pid : ℕ)
  | yield (time rbx : ℕ)
  | tick (now time rbx : ℕ)
  | wake (p : PcbId) (time : ℕ)
  /-- port_recv marks the current process as waiting before it yields -/
  | block
  | steal (cpu : ℕ)
  | set (pid cls : ℕ) (priority : ℤ)
  | dequeue (cpu : ℕ)

def kstep : KOp → Except Stop Kernel
  | .bootstrap => .ok (setRunning (schedBootstrapInitThread k) .bootstrap)
  | .spawn a => elfSpawn k a
  | .exit code => schedExit k code
  | .reap pid => schedReap k pid
  | .yield time rbx => schedYield k time rbx
  | .tick now time rbx => schedTick k now time rbx
  | .wake p time => schedWake k p time
  | .block => .ok (setState k k.cur .wait)
  | .steal cpu => schedSteal k cpu
  | .set pid cls priority => .ok (schedSet k pid cls priority)
  | .dequeue cpu => (kDequeue k cpu).bind fun r => .ok r.2

/-- what `sched_init` is given and finds -/
structure BootArgs where
  cpuCount : ℕ
  kernelCr3 : ℕ
  bootStack : ℕ
  /-- the stack of syscall_init -/
  rsp0 : ℕ
  /-- the kernel stacks that kmalloc gives for the idle processes, 0 if it fails -/
  ks : ℕ → ℕ

/-- after `sched_init` -/
def Kernel.boot (b : BootArgs) : Kernel where
  st := schedInit St.zero b.cpuCount
  ext := fun p => match p with
    | .idle c =>
      if b.ks c = 0 then ⟨none, b.kernelCr3, b.bootStack, u64 (b.bootStack + bootKstackSize), 0, uint64Max⟩
      else ⟨none, b.kernelCr3, b.ks c, u64 (b.ks c + kstackSize), 0, uint64Max⟩
    | _ => Ext.zero
  cr3 := b.kernelCr3
  kernelRsp := b.rsp0
  kernelCr3 := b.kernelCr3
  bootStack := b.bootStack
  tableLock := false
  jmp := none
  running := .bootstrap
  pending := []
  held := fun _ => false
  log := []
  heldAtSwitch := false

/-- one CPU -/
abbrev bootOne : Kernel := Kernel.boot ⟨1, 4096, 8192, 0, fun _ => 0⟩

/-- a process without a program -/
abbrev bare : SpawnArgs := ⟨2, 0, 255, none, 65536, none, none⟩

/-- the bootstrap thread starts a process and waits for it -/
abbrev childOps : List KOp := [.bootstrap, .spawn ⟨2, 0, 255, none, 65536, none, some (4194304, 12288)⟩, .reap 1]

end OpenASD.Sched
