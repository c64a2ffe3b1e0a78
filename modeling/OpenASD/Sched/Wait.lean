/-
Waiting for a process (`sched_reap`, `sched_exit`). The waiter, the jump buffer and its flag are single globals, so there
is one waiting call at a time, and its frame is what `sched_exit` jumps to.

- A second `sched_reap` inside the process that is reaped overwrites the first: when the outer process exits, nobody is
  recorded as its waiter.
- The jump restores registers only: `g_current` and the kernel stack for system calls stay those of the dead child.

Results:
- `wait_run_sound`: in every run in which no call of `sched_reap` is nested in another, the exit of a process that is
  waited for goes on in the waiting call;
- `reap_returns_stale`: whenever `sched_reap` returns because its child has exited, `sched_current()` is the child and
  the kernel stack is the one that was installed before.
-/
import OpenASD.Sched.Locks

namespace OpenASD.Sched

open Machine

/-! ## One waiting call -/

/-- no `sched_reap` of a process while another call waits -/
def Core.nestOk (c : Core) : KOp → Bool
  | .reap pid => decide (c.find pid = none) || decide (c.waiter = none)
  | _ => true

/-- nobody waits, or one call waits and the jump buffer is its frame -/
inductive WaitInv (c : Core) : Prop
  | nobody (hp : c.pending = []) (hw : c.waiter = none) (ha : c.active = false)
  | one (f : Frame) (w : PcbId) (hp : c.pending = [f]) (hw : c.waiter = some w) (ha : c.active = true) (hj : c.jmp = some f)

section Wait

variable {c c' : Core} {f : Frame} {o : KOp}

theorem WaitInv.congr (h : WaitInv c) (hp : c'.pending = c.pending) (hw : c'.waiter = c.waiter)
    (ha : c'.active = c.active) (hj : c'.jmp = c.jmp) : WaitInv c' := by
  cases h with
  | nobody h1 h2 h3 => exact .nobody (hp.trans h1) (hw.trans h2) (ha.trans h3)
  | one f w h1 h2 h3 h4 => exact .one f w (hp.trans h1) (hw.trans h2) (ha.trans h3) (hj.trans h4)

theorem WaitInv.switch (h : WaitInv c) (next : PcbId) (rbx : ℕ) : WaitInv (c.switch next rbx) := by
  apply h.congr
  · exact c.switch_keeps next rbx Core.pending fun _ _ _ _ _ => rfl
  · exact c.switch_keeps next rbx Core.waiter fun _ _ _ _ _ => rfl
  · exact c.switch_keeps next rbx Core.active fun _ _ _ _ _ => rfl
  · exact c.switch_keeps next rbx Core.jmp fun _ _ _ _ _ => rfl

theorem WaitInv.enqueue (h : WaitInv c) (p : PcbId) (cls : ℕ) : WaitInv (c.enqueue p cls) := h.congr rfl rfl rfl rfl

/-- the only call that waits returns -/
theorem tail_nobody (hp : c.pending = [f]) : WaitInv (c.tail f) := by
  refine .nobody ?_ rfl rfl
  show c.pending.erase f = []
  rw [hp, List.erase_cons_head]

/-- one step -/
theorem WaitInv.step (h : WaitInv c) (hok : c.nestOk o = true) (hs : CStep c o c') : WaitInv c' := by
  cases hs with
  | bootstrap | spawnNoStack _ _ _ | spawnNew _ _ _ _ | spawnReady _ _ _ _ _ | exitNext _ _ => exact h.congr rfl rfl rfl rfl
  | spawnFull _ | reapNone _ | tickNone | wakeNone | steal | set | dequeue => exact h
  | @exitJump code w f hw ha hj =>
    cases h with
    | nobody _ h2 _ =>
      rw [h2] at hw
      cases hw
    | one g w' h1 _ _ h4 =>
      obtain rfl : f = g := Option.some.inj (hj.symm.trans h4)
      exact tail_nobody h1
  | exitWaiter hw ha _ =>
    cases h with
    | nobody _ h2 _ =>
      rw [h2] at hw
      cases hw
    | one _ _ _ _ h3 _ =>
      rw [h3] at ha
      cases ha
  | @reapStart pid f hf _ _ _ =>
    have hpend : c.pending = [] := no_nesting h hok hf
    exact .one f c.cur (congrArg (f :: ·) hpend) rfl rfl rfl
  | @reapNow pid f hf _ _ =>
    have hpend : c.pending = [] := no_nesting h hok hf
    exact tail_nobody (congrArg (f :: ·) hpend)
  | yieldBack | tickBack _ => exact (h.enqueue _ _).switch _ _
  | yieldOn => exact h.switch _ _
  | wake _ => exact h.enqueue _ _
  | block => exact h.congr rfl rfl rfl rfl
where
  /-- a process is reaped under the condition, so nobody waits -/
  no_nesting {c : Core} {pid : ℕ} {p : PcbId} (h : WaitInv c) (hok : c.nestOk (.reap pid) = true)
      (hf : c.find pid = some p) : c.pending = [] := by
    have hw : c.waiter = none := by simpa [Core.nestOk, hf] using hok
    cases h with
    | nobody h1 _ _ => exact h1
    | one _ _ _ h2 _ _ =>
      rw [h2] at hw
      cases hw

end Wait

/-! ## The jump -/

section Jump

variable {k k' : Kernel} {f : Frame} {w : PcbId} {code : ℤ}

/-- the way of `sched_exit` when somebody waits -/
theorem schedExit_eq (hw : k.st.reapWaiter = some w) (ha : k.st.reapJmpActive = true) (code : ℤ) :
    schedExit k code = (die (k.note (.exited k.running code)) code).bind fun k1 =>
      schedJmpRestore (disarm (freeKstack (schedLoadCr3 k1 (k1.ext w).cr3) k.cur)) := by
  have hw' : (k.note (.exited k.running code)).st.reapWaiter = some w := hw
  have ha' : (k.note (.exited k.running code)).st.reapJmpActive = true := ha
  unfold schedExit
  simp only [hw', ha', if_true]
  rfl

theorem freeKstack_keeps (k : Kernel) (p : PcbId) : (freeKstack k p).jmp = k.jmp ∧ (freeKstack k p).kernelRsp = k.kernelRsp := by
  unfold freeKstack
  split_ifs <;> exact ⟨rfl, rfl⟩

theorem die_ok (ht : k.tableLock = false) (code : ℤ) : ∃ k', die k code = .ok k' := by
  refine ⟨_, bind_eq_ok.2 ⟨_, if_neg ?_, rfl⟩⟩
  exact Bool.not_eq_true _ ▸ ht

theorem die_keeps (h : die k code = .ok k') : k'.jmp = k.jmp ∧ k'.kernelRsp = k.kernelRsp := by
  obtain ⟨k1, h1, h2⟩ := bind_eq_ok.1 h
  unfold lockTable at h1
  split_ifs at h1
  rw [← Except.ok.inj h2, ← Except.ok.inj h1]
  exact ⟨rfl, rfl⟩

/-- with somebody waiting and the table lock free, `sched_exit` jumps -/
theorem schedExit_jumps (ht : k.tableLock = false) (hw : k.st.reapWaiter = some w) (ha : k.st.reapJmpActive = true)
    (hj : k.jmp = some f) (code : ℤ) : ∃ k', schedExit k code = .ok k' := by
  have ht' : (k.note (.exited k.running code)).tableLock = false := ht
  obtain ⟨k1, hk1⟩ := die_ok ht' code
  have hj1 : k1.jmp = some f := (die_keeps hk1).1.trans hj
  let k2 := disarm (freeKstack (schedLoadCr3 k1 (k1.ext w).cr3) k.cur)
  have hj2 : k2.jmp = some f := (freeKstack_keeps _ _).1.trans hj1
  refine ⟨reapTail (setRunning (leave k2) f.owner) f, ?_⟩
  rw [schedExit_eq hw ha, hk1]
  show schedJmpRestore k2 = _
  rw [schedJmpRestore, hj2]

/-- the jump installs no kernel stack -/
theorem schedExit_rsp (hw : k.st.reapWaiter = some w) (ha : k.st.reapJmpActive = true) (h : schedExit k code = .ok k') :
    k'.kernelRsp = k.kernelRsp := by
  rw [schedExit_eq hw ha] at h
  obtain ⟨k1, h1, h2⟩ := bind_eq_ok.1 h
  have e1 : k1.kernelRsp = k.kernelRsp := (die_keeps h1).2
  have e2 : (freeKstack (schedLoadCr3 k1 (k1.ext w).cr3) k.cur).kernelRsp = k.kernelRsp :=
    (freeKstack_keeps _ _).2.trans e1
  unfold schedJmpRestore at h2
  split at h2
  · cases h2
  · rw [← Except.ok.inj h2]
    exact (freeKstack_keeps _ _).2.trans e2

end Jump

/-- the exit of a process that a call f of `sched_reap` waits for goes on in that call, which then waits no more -/
def ExitReturnsTo (k : Kernel) (f : Frame) : Prop :=
  ∀ code, ∃ k', kstep k (.exit code) = .ok k' ∧ k'.running = f.owner ∧ k'.pending = k.pending.erase f

/-- **Waiting.** In every run without nested calls of `sched_reap`. -/
theorem wait_run_sound {b : BootArgs} {ops : List KOp} {k : Kernel}
    (hok : Along kstep (fun k o => k.core.nestOk o = true) (Kernel.boot b) ops)
    (hr : run kstep (Kernel.boot b) ops = .ok k) :
    ∀ f ∈ k.pending, k.running = f.pcb → ExitReturnsTo k f := by
  have h : WaitInv k.core :=
    run_core (P := fun c o => c.nestOk o = true) (fun _ _ _ hI hP hs => hI.step hP hs) (.nobody rfl rfl rfl) hok hr
  have hfree : k.Free := run_free hr
  intro f hf _ code
  cases h with
  | nobody hp _ _ =>
    have hp' : k.pending = [] := hp
    rw [hp'] at hf
    exact absurd hf List.not_mem_nil
  | one g w hp hw ha hj =>
    have hp' : k.pending = [g] := hp
    rw [hp', List.mem_singleton] at hf
    subst hf
    obtain ⟨k', hk'⟩ := schedExit_jumps (congrArg Locks.table hfree) hw ha hj code
    have hc : CStep k.core (.exit code) k'.core := core_schedExit hk'
    obtain ⟨g, hg, e⟩ : ∃ g, k.core.jmp = some g ∧ k'.core = (k.core.die code).tail g := by
      generalize k'.core = c' at hc
      cases hc with
      | exitJump _ _ hg => exact ⟨_, hg, rfl⟩
      | exitWaiter _ hoff _ =>
        rw [ha] at hoff
        cases hoff
      | exitNext hnone _ =>
        rcases hnone with hnone | hoff
        · rw [hw] at hnone
          cases hnone
        · rw [ha] at hoff
          cases hoff
    obtain rfl : f = g := Option.some.inj (hj.symm.trans hg)
    exact ⟨k', hk', congrArg Core.running e, congrArg Core.pending e⟩

/-- the bootstrap thread waits for a process -/
theorem wait_run_sound_one : ∃ k f, run kstep bootOne childOps = .ok k ∧
    f ∈ k.pending ∧ f.owner = .bootstrap ∧ k.running = f.pcb ∧ ExitReturnsTo k f := by
  have hrun : returns (run kstep bootOne childOps)
      (fun k => decide (k.pending = [⟨.bootstrap, slot 1, 2, 0⟩] ∧ k.running = slot 1)) = true := by
    decide +kernel
  obtain ⟨k, hk, h⟩ := returns_iff.1 hrun
  obtain ⟨hp, hq⟩ := of_decide_eq_true h
  have hmem : (⟨.bootstrap, slot 1, 2, 0⟩ : Frame) ∈ k.pending := by
    rw [hp]
    exact List.mem_singleton_self _
  exact ⟨k, _, hk, hmem, rfl, hq, wait_run_sound (along_of (by decide +kernel)) hk _ hmem hq⟩

/-- two levels: the bootstrap thread waits for process 1, which waits for process 2 -/
abbrev nestedOps : List KOp :=
  [.bootstrap, .spawn ⟨0, 0, 255, none, 65536, none, some (4194304, 12288)⟩, .reap 1,
    .spawn ⟨0, 0, 255, none, 131072, none, some (4194304, 16384)⟩, .reap 2]

/-- the call of the bootstrap thread -/
abbrev outerWait : Frame := ⟨.bootstrap, slot 1, 0, 0⟩

/-- when both have exited, the idle process runs and the call of the bootstrap thread still waits -/
theorem outer_waiter_lost : ∃ k k', run kstep bootOne (nestedOps ++ [.exit 0]) = .ok k ∧ outerWait ∈ k.pending ∧
    k.running = slot 1 ∧ kstep k (.exit 0) = .ok k' ∧ k'.running = .idle ⟨0, by decide⟩ ∧ outerWait ∈ k'.pending := by
  have hrun : returns (run kstep bootOne (nestedOps ++ [.exit 0]))
      (fun k => decide (outerWait ∈ k.pending ∧ k.running = slot 1) &&
        returns (kstep k (.exit 0)) fun k' =>
          decide (k'.running = .idle ⟨0, by decide⟩ ∧ outerWait ∈ k'.pending)) = true := by
    decide +kernel
  obtain ⟨k, hk, h⟩ := returns_iff.1 hrun
  obtain ⟨h1, h2⟩ := Bool.and_eq_true_iff.1 h
  obtain ⟨k', hk', h3⟩ := returns_iff.1 h2
  exact ⟨k, k', hk, (of_decide_eq_true h1).1, (of_decide_eq_true h1).2, hk', of_decide_eq_true h3⟩

/-! ## What the jump does not restore -/

/-- the context of the scheduler is that of w -/
structure Restored (k : Kernel) (w : PcbId) : Prop where
  current : k.cur = w
  space : k.cr3 = (k.ext w).cr3
  stack : k.kernelRsp = (k.ext w).kstackTop

/-- while a call waits, the current process is the one that runs -/
theorem current_step {c c' : Core} {o : KOp} (h : c.active = true → c.cur = c.running) (hs : CStep c o c') :
    c'.active = true → c'.cur = c'.running := by
  have hswitch : ∀ (c : Core) (next : PcbId) (rbx : ℕ), (c.active = true → c.cur = c.running) →
      (c.switch next rbx).active = true → (c.switch next rbx).cur = (c.switch next rbx).running := by
    intro c next rbx h
    unfold Core.switch
    split_ifs
    · exact h
    · exact fun _ => rfl
    · exact fun _ => rfl
  cases hs with
  | bootstrap | exitWaiter _ _ _ | exitNext _ _ | reapStart _ _ _ _ => exact fun _ => rfl
  | spawnFull _ | spawnNoStack _ _ _ | spawnNew _ _ _ _ | spawnReady _ _ _ _ _ | reapNone _ | tickNone => exact h
  | exitJump _ _ _ | reapNow _ _ _ => exact fun ha => nomatch ha
  | yieldBack | yieldOn | tickBack _ => exact hswitch _ _ _ h
  | wakeNone | wake _ | block | steal | set | dequeue => exact h

/-- **The context after a reap.** Whenever the exit of a process makes a call of `sched_reap` for it return, in any run,
`sched_current()` is still the process that has exited, and no kernel stack has been installed. -/
theorem reap_returns_stale {b : BootArgs} {ops : List KOp} {k k' : Kernel} {code v : ℤ}
    (hr : run kstep (Kernel.boot b) ops = .ok k) (hexit : kstep k (.exit code) = .ok k')
    (hret : k'.log.head? = some (.reaped k.running v)) (hw : k'.running ≠ k.running) :
    k'.cur = k.running ∧ k'.kernelRsp = k.kernelRsp ∧ ¬ Restored k' k'.running := by
  have hoff : (Kernel.boot b).core.active = false := rfl
  have hcur : k.core.active = true → k.core.cur = k.core.running :=
    run_core_all (I := fun c => c.active = true → c.cur = c.running) (fun _ _ _ h hs => current_step h hs)
      (fun ha => absurd (hoff.symm.trans ha) Bool.false_ne_true) hr
  have hc : CStep k.core (.exit code) k'.core := core_schedExit hexit
  have hret' : k'.core.log.head? = some (.reaped k.running v) := hret
  obtain ⟨w, hwait, hact, hcur'⟩ : ∃ w, k.core.waiter = some w ∧ k.core.active = true ∧ k'.core.cur = k.core.cur := by
    generalize k'.core = c' at hc hret'
    cases hc with
    | exitJump h1 h2 _ => exact ⟨_, h1, h2, rfl⟩
    -- the other ways out log nothing after the exit
    | exitWaiter _ _ _ | exitNext _ _ => cases hret'
  have hchild : k'.cur = k.running := hcur'.trans (hcur hact)
  refine ⟨hchild, schedExit_rsp hwait hact hexit, fun h => ?_⟩
  exact hw (h.current.symm.trans hchild)

/-- the bootstrap thread reaps a process -/
theorem reap_returns_stale_one : ∃ k k' v, run kstep bootOne childOps = .ok k ∧
    kstep k (.exit 7) = .ok k' ∧ k'.log.head? = some (.reaped k.running v) ∧ k'.running ≠ k.running ∧
    k'.cur = k.running ∧ ¬ Restored k' k'.running := by
  have hrun : returns (run kstep bootOne childOps) (fun k => returns (kstep k (.exit 7)) fun k' =>
        decide (k'.log.head? = some (.reaped k.running 7) ∧ k'.running ≠ k.running)) = true := by
    decide +kernel
  obtain ⟨k, hk, h⟩ := returns_iff.1 hrun
  obtain ⟨k', hk', h⟩ := returns_iff.1 h
  obtain ⟨h1, h2⟩ := of_decide_eq_true h
  have hstale := reap_returns_stale hk hk' h1 h2
  exact ⟨k, k', 7, hk, hk', h1, h2, hstale.1, hstale.2.2⟩

/-- then the current process is the child, which is dead, and system calls of the bootstrap thread go to its stack, which
has been freed -/
theorem reap_keeps_freed_stack : ∃ k, run kstep bootOne (childOps ++ [.exit 7]) = .ok k ∧
    k.running = .bootstrap ∧ k.cur = slot 1 ∧ (k.st.pcb (slot 1)).state = .dead ∧ k.kernelRsp = 65536 + kstackSize ∧
    k.held 65536 = false := by
  exact exists_ok (by decide +kernel) fun _ _ h => h

end OpenASD.Sched
