/-
The scheduler and the ports as one machine (kernel/ipc/port.c over kernel/sched/sched.c). port_send and port_close wake the
receiver that is recorded in the port; port_recv on an empty queue records the current process, puts it to sleep in PROC_WAIT
and yields. So a call on a port is a change of the table and at most one call of the scheduler, and the `sched_yield` of
port_recv is the next step of its thread. `retry` is port_recv going on after its yield, on the port that it has found before.

A receiver that sleeps should not be enqueued, made ready or run but by a `sched_wake` of it. But `sched_yield` enqueues the
current process whatever its state is.

- `sleepers_left_alone`: it holds in every run in which no sleeper yields but the one that waits in `sched_reap`, who goes to
  sleep is in no run queue, and no sleeper waits in `sched_reap` when a process exits;
- `receiver_requeued`: a receiver that goes to sleep is READY and in a run queue at once.
-/
import OpenASD.Ipc.Ownership
import OpenASD.Sched.Sleep

namespace OpenASD.Ipc.Blocking

open ByteMem Machine
open Sched (Kernel KOp PcbId Stop kstep Loose maxProcs maxCpus)

/-! ## The machine -/

structure Sys where
  kernel : Kernel
  ports : Ports

inductive Op where
  /-- any call of the scheduler; only port_recv writes PROC_WAIT -/
  | sched (o : KOp) (h : o ≠ .block)
  | openPort (name : List UInt8) (flags pid : ℕ)
  | send (id : ℕ) (mem : Mem) (msg len : ℕ) (kmalloc : Option ℕ) (time : ℕ)
  | recv (id : ℕ) (valid : Bool) (cap : ℕ)
  | retry (n : ℕ)
  | close (id time : ℕ)

/-- the PCB with a number: the table of ports keeps its receivers by `PcbId.code` -/
def pcbOf (n : ℕ) : PcbId :=
  if h : n < maxProcs then .proc ⟨n, h⟩
  else if h : n - maxProcs - 1 < maxCpus ∧ n ≠ maxProcs then .idle ⟨n - maxProcs - 1, h.1⟩
  else .bootstrap

/-- a receiver tries again, on the port it has found before -/
def retry (y : Ports) (n pid : ℕ) : Ret × Ports :=
  match y.asleep[n]? with
  | none => (.done (-1), y)
  | some z => recvAt { y with asleep := y.asleep.eraseIdx n } z.idx z.cap pid

/-- what a call does to the ports -/
def portCall (y : Sys) : Op → Ret × Ports
  | .sched _ _ => (.done 0, y.ports)
  | .openPort name flags pid => portStep y.ports (.openPort name flags pid)
  | .send id mem msg len kmalloc _ => portStep y.ports (.send id mem msg len kmalloc)
  | .recv id valid cap => portRecv y.ports id valid cap y.kernel.cur.code
  | .retry n => retry y.ports n y.kernel.cur.code
  | .close id _ => portStep y.ports (.close id)

/-- the receiver that a port has recorded -/
def waiterOf (y : Ports) (id : ℕ) : Option PcbId := (portFindById y id).bind fun i => (y.table i).waiter.map pcbOf

/-- the call drops the last reference -/
def lastClose (y : Ports) (id : ℕ) : Bool := (portFindById y id).any fun i => decide ((y.table i).refcount - 1 = 0)

/-- what a call asks of the scheduler -/
def schedCall (y : Sys) : Op → Option KOp
  | .sched o _ => some o
  | .openPort _ _ _ => none
  | .send id mem msg len kmalloc time =>
    if (portCall y (.send id mem msg len kmalloc time)).1 = .done 0 then (waiterOf y.ports id).map (.wake · time) else none
  | .recv id valid cap => if (portCall y (.recv id valid cap)).1 = .asleep then some .block else none
  | .retry n => if (portCall y (.retry n)).1 = .asleep then some .block else none
  | .close id time => if lastClose y.ports id then (waiterOf y.ports id).map (.wake · time) else none

def step (y : Sys) (op : Op) : Except Stop Sys :=
  ((schedCall y op).elim (.ok y.kernel) (kstep y.kernel)).bind fun k => .ok ⟨k, (portCall y op).2⟩

/-- after the initialisation of both -/
def Sys.boot (b : Sched.BootArgs) : Sys := ⟨Kernel.boot b, portSubsystemInit⟩

/-! ## Sleepers -/

/-- the condition on a call: that of what it asks of the scheduler -/
def Rested (y : Sys) (op : Op) : Prop := ∀ o, schedCall y op = some o → Sched.Rested y.kernel o

/-- p is not made ready, is in no run queue, and was not selected to run -/
structure LeftAlone (p : PcbId) (k k' : Kernel) : Prop where
  state : (k'.st.pcb p).state = .wait ∨ (k'.st.pcb p).state = .dead
  queue : Loose k'.st p
  cur : k'.cur = p → k.cur = p
  running : k'.running = p → k.running = p

section Runs

variable {y y' : Sys} {op : Op} {p : PcbId}

/-- the scheduler does what it is asked, or nothing -/
theorem step_kernel (hs : step y op = .ok y') :
    (schedCall y op = none ∧ y'.kernel = y.kernel) ∨ ∃ o, schedCall y op = some o ∧ kstep y.kernel o = .ok y'.kernel := by
  obtain ⟨k, h1, h2⟩ := bind_eq_ok.1 hs
  cases h2
  rcases hc : schedCall y op with _ | o
  · rw [hc] at h1
    exact Or.inl ⟨rfl, (Except.ok.inj h1).symm⟩
  · rw [hc] at h1
    exact Or.inr ⟨o, rfl, h1⟩

/-- who sleeps has a pid, is not the idle process and is in no run queue -/
def Sound (y : Sys) : Prop := ∀ p, y.kernel.core.state p = .wait → Sched.Asleep y.kernel p

theorem step_sound (h : Sound y) (hok : Rested y op) (hs : step y op = .ok y') : Sound y' := by
  intro p hp
  rcases step_kernel hs with ⟨-, e⟩ | ⟨o, ho, hk⟩
  · rw [e] at hp ⊢
    exact h p hp
  · exact Sched.asleep_step h (hok o ho) hk p hp

theorem boot_sound (b : Sched.BootArgs) : Sound (Sys.boot b) := by
  intro p hp
  have hnew : (Sys.boot b).kernel.core.state p ≠ .wait := by
    show ((Sched.schedInit Sched.St.zero _).pcb p).state ≠ .wait
    cases p with
    | proc i | bootstrap => rintro ⟨⟩
    | idle c =>
      simp only [Sched.schedInit]
      split_ifs <;> rintro ⟨⟩
  exact absurd hp hnew

theorem step_leaves_alone (h : Sound y) (hok : Rested y op) (hs : step y op = .ok y')
    (hp : (y.kernel.st.pcb p).state = .wait) (hw : ∀ time, schedCall y op ≠ some (.wake p time)) :
    LeftAlone p y.kernel y'.kernel := by
  have ha : Sched.Asleep y.kernel p := h p hp
  rcases step_kernel hs with ⟨-, e⟩ | ⟨o, ho, hk⟩
  · rw [e]
    exact ⟨Or.inl hp, ha.loose, id, id⟩
  · have hspare := Sched.kstep_spares ha (hok o ho) (fun time e => hw time (e ▸ ho)) hk
    exact ⟨hspare.core.asleep hp, hspare.loose ha.loose, hspare.core.cur, hspare.core.running⟩

end Runs

/-- **Sleepers are left alone.** In every run of the scheduler and the ports under the condition: no step but a `sched_wake` of
it makes a process ready that port_recv has put to sleep, puts it into a run queue or selects it to run. -/
theorem sleepers_left_alone {b : Sched.BootArgs} {ops : List Op} {y y' : Sys} {op : Op}
    {p : PcbId} (hok : Along step Rested (Sys.boot b) ops)
    (hr : Machine.run step (Sys.boot b) ops = .ok y) (hop : Rested y op) (hs : step y op = .ok y')
    (hp : (y.kernel.st.pcb p).state = .wait) (hw : ∀ time, schedCall y op ≠ some (.wake p time)) :
    LeftAlone p y.kernel y'.kernel := by
  have h : Sound y := run_inv (fun _ _ _ h hok hs => step_sound h hok hs) (boot_sound b) hok hr
  exact step_leaves_alone h hop hs hp hw

/-- two CPUs -/
def twoCpus : Sys := Sys.boot ⟨2, 4096, 8192, 0, fun _ => 0⟩

/-- the bootstrap thread opens a port and goes to sleep on it -/
def bootSleeps : List Op := [.sched .bootstrap (fun e => nomatch e), .openPort [97] 1 1, .recv 1 true 64]

/-- the timer interrupt comes before it yields -/
theorem sleepers_left_alone_tick : ∃ y y', Machine.run step twoCpus bootSleeps = .ok y ∧
    step y (.sched (.tick 0 0 0) (fun e => nomatch e)) = .ok y' ∧ (y.kernel.st.pcb .bootstrap).state = .wait ∧
    LeftAlone .bootstrap y.kernel y'.kernel := by
  have hrun : returns (Machine.run step twoCpus bootSleeps) (fun y =>
      decide ((y.kernel.st.pcb .bootstrap).state = .wait) &&
        returns (step y (.sched (.tick 0 0 0) (fun e => nomatch e))) fun _ => true) = true := by
    decide +kernel
  obtain ⟨y, hy, h⟩ := returns_iff.1 hrun
  obtain ⟨h1, h2⟩ := Bool.and_eq_true_iff.1 h
  obtain ⟨y', hy', -⟩ := returns_iff.1 h2
  have hok : Along step Rested twoCpus bootSleeps := by
    have hfirst : Rested twoCpus (.sched .bootstrap (fun e => nomatch e)) := by
      intro o ho
      cases ho
      show twoCpus.kernel.core.state .bootstrap ≠ .wait
      decide
    refine ⟨hfirst, fun y1 hs1 => ⟨fun o ho => (nomatch ho), fun y2 hs2 => ⟨fun o ho => ?_, fun _ _ => trivial⟩⟩⟩
    have e1 : y1.kernel = Sched.setRunning (Sched.schedBootstrapInitThread twoCpus.kernel) .bootstrap := by
      obtain ⟨hc, -⟩ | ⟨o, hc, hk⟩ := step_kernel hs1
      · cases hc
      · cases hc
        exact (Except.ok.inj hk).symm
    have e2 : y2.kernel = y1.kernel := by
      obtain ⟨-, e⟩ | ⟨o, hc, -⟩ := step_kernel hs2
      · exact e
      · cases hc
    have hcore : y2.kernel.core = twoCpus.kernel.core.bootstrap := by rw [e2, e1, Sched.core_bootstrap]
    have hcur : y2.kernel.cur = .bootstrap := congrArg Sched.Core.cur hcore
    have hloose : Loose y2.kernel.st .bootstrap := by
      rw [e2, e1]
      exact (Sched.boot_loose ⟨2, 4096, 8192, 0, fun _ => 0⟩ .bootstrap).bootstrapInitThread.setRunning .bootstrap
    simp only [schedCall] at ho
    split_ifs at ho
    cases ho
    show y2.kernel.core.pid y2.kernel.cur ≠ 0 ∧ y2.kernel.cur ≠ y2.kernel.core.idle ∧ Loose y2.kernel.st y2.kernel.cur
    rw [hcur, hcore]
    refine ⟨by decide, by decide, hloose⟩
  have hop : Rested y (.sched (.tick 0 0 0) (fun e => nomatch e)) := by
    intro o ho
    cases ho
    trivial
  exact ⟨y, y', hy, hy', of_decide_eq_true h1, sleepers_left_alone hok hy hop hy' (of_decide_eq_true h1)
    fun time e => nomatch e⟩

/-- a process on CPU 1, started by the bootstrap thread, opens a port and goes to sleep on it -/
def childSleeps : List Op := [.sched .bootstrap (fun e => nomatch e),
  .sched (.spawn ⟨2, 0, 1, none, 65536, none, some (4194304, 12288)⟩) (fun e => nomatch e),
  .sched (.reap 1) (fun e => nomatch e), .openPort [97] 1 1, .recv 1 true 64]

/-- it yields, as port_recv does next: it is READY and in the RT queue of CPU 1, and nobody has woken it -/
theorem receiver_requeued : ∃ y y', Machine.run step twoCpus childSleeps = .ok y ∧ y.kernel.cur = Sched.slot 1 ∧
    (y.kernel.st.pcb (Sched.slot 1)).state = .wait ∧ step y (.sched (.yield 0 1) (fun e => nomatch e)) = .ok y' ∧
    (y'.kernel.st.pcb (Sched.slot 1)).state = .ready ∧ (y'.kernel.st.rq 1).root .rt = some (Sched.slot 1) := by
  have hrun : returns (Machine.run step twoCpus childSleeps) (fun y =>
      decide (y.kernel.cur = Sched.slot 1 ∧ (y.kernel.st.pcb (Sched.slot 1)).state = .wait) &&
        returns (step y (.sched (.yield 0 1) (fun e => nomatch e))) fun y' =>
          decide ((y'.kernel.st.pcb (Sched.slot 1)).state = .ready ∧ (y'.kernel.st.rq 1).root .rt = some (Sched.slot 1))) =
      true := by
    decide +kernel
  obtain ⟨y, hy, h⟩ := returns_iff.1 hrun
  obtain ⟨h1, h2⟩ := Bool.and_eq_true_iff.1 h
  obtain ⟨y', hy', h3⟩ := returns_iff.1 h2
  obtain ⟨hcur, hwait⟩ := of_decide_eq_true h1
  obtain ⟨hready, hroot⟩ := of_decide_eq_true h3
  exact ⟨y, y', hy, hcur, hwait, hy', hready, hroot⟩

end OpenASD.Ipc.Blocking
