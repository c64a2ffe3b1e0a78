/-
Processes asleep in PROC_WAIT. Only port_recv puts a process there, and it calls `sched_yield` next, which puts the current
process back into a run queue whatever its state is, unless it is the idle process or the one that waits in `sched_reap`.

A process that is asleep is to be left alone by all calls but a `sched_wake` of it. `Spares` is what a call may do to it: end
it, or nothing.

- `kstep_spares`: every call that meets `Rested` spares a sleeper that no link of the run queues leads to, whatever the links
  are.
-/
import OpenASD.Sched.Loose

namespace OpenASD.Sched

open LinkedTree Machine
open Function (update update_of_ne update_self)

/-! ## The smaller machine -/

/-- what a call does to a sleeper p, but for the run queues -/
structure Core.Spares (p : PcbId) (c c' : Core) : Prop where
  asleep : c.state p = .wait → c'.state p = .wait ∨ c'.state p = .dead
  dead : c.state p = .dead → c'.state p = .dead
  pid : c'.pid p = c.pid p ∨ c'.state p = .dead
  idle : c'.idle = c.idle
  cur : c'.cur = p → c.cur = p
  running : c'.running = p → c.running = p

variable {pid : ℕ}

namespace Core.Spares

variable {p q : PcbId} {c c' c'' : Core}

/-- p keeps its state and its pid -/
theorem keeps (hs : c'.state p = c.state p) (hpid : c'.pid p = c.pid p) (hi : c'.idle = c.idle)
    (hc : c'.cur = p → c.cur = p) (hr : c'.running = p → c.running = p) : Core.Spares p c c' :=
  ⟨fun h => .inl (hs.trans h), fun h => hs.trans h, .inl hpid, hi, hc, hr⟩

theorem refl (p : PcbId) (c : Core) : Core.Spares p c c := keeps rfl rfl rfl id id

theorem trans (h : Core.Spares p c c') (h' : Core.Spares p c' c'') : Core.Spares p c c'' where
  asleep hw := (h.asleep hw).elim h'.asleep fun hd => .inr (h'.dead hd)
  dead hd := h'.dead (h.dead hd)
  pid := by
    rcases h'.pid with e' | hd
    · rcases h.pid with e | hd
      · exact .inl (e'.trans e)
      · exact .inr (h'.dead hd)
    · exact .inr hd
  idle := h'.idle.trans h.idle
  cur hc := h.cur (h'.cur hc)
  running hr := h.running (h'.running hr)

section

variable (c : Core)

/-- the state of another process is written -/
theorem setState (hq : q ≠ p) (x : PState) : Core.Spares p c (c.setState q x) :=
  keeps (update_of_ne hq.symm _ _) rfl rfl id id

theorem enqueue (hq : q ≠ p) (cls : ℕ) : Core.Spares p c (c.enqueue q cls) :=
  keeps (update_of_ne hq.symm _ _) rfl rfl id id

theorem resume (hq : q ≠ p) : Core.Spares p c (c.resume q) :=
  keeps (update_of_ne hq.symm _ _) rfl rfl (fun e => absurd e hq) fun e => absurd e hq

theorem setRip (q : PcbId) (rip : ℕ) : Core.Spares p c (c.setRip q rip) := keeps rfl rfl rfl id id

/-- a process that sleeps is not set READY by a switch, since it is not in PROC_RUN -/
theorem switch (hq : q ≠ p) (rbx : ℕ) : Core.Spares p c (c.switch q rbx) := by
  unfold Core.switch
  split_ifs with h1 h2
  · exact refl p c
  · by_cases hcur : c.cur = p
    · have hne : ∀ x, x ≠ .run → c.state p ≠ x := by
        intro x hx e
        exact hx (e.symm.trans (hcur ▸ h2.2))
      refine ⟨fun h => absurd h (hne _ (by decide)), fun h => absurd h (hne _ (by decide)), .inl rfl, rfl,
        fun e => absurd e hq, fun e => absurd e hq⟩
    · exact (setState c hcur .ready).trans ((setRip _ c.cur rbx).trans (resume _ hq))
  · exact (setRip c c.cur rbx).trans (resume _ hq)

theorem bootstrap (hp : p ≠ .bootstrap) : Core.Spares p c c.bootstrap :=
  keeps (update_of_ne hp _ _) (update_of_ne hp _ _) rfl (fun h => absurd h.symm hp) fun h => absurd h.symm hp

theorem claim (hp : slot pid ≠ p) : Core.Spares p c (c.claim pid) :=
  keeps (update_of_ne hp.symm _ _) (update_of_ne hp.symm _ _) rfl id id

theorem born (q : PcbId) : Core.Spares p c (c.born q) := keeps rfl rfl rfl id id

theorem enter (f : Frame) : Core.Spares p c (c.enter f) := keeps rfl rfl rfl id id

/-- the current process ends, be it p -/
theorem die (code : ℤ) : Core.Spares p c (c.die code) := by
  by_cases hcur : p = c.cur
  · have e : (c.die code).state p = .dead := by
      subst hcur
      exact update_self _ _ _
    exact ⟨fun _ => .inr e, fun _ => e, .inl rfl, rfl, id, id⟩
  · exact keeps (update_of_ne hcur _ _) rfl rfl id id

/-- a call of `sched_reap` returns, and its process ends, be it p -/
theorem tail {f : Frame} (ho : f.owner = p → c.running = p) : Core.Spares p c (c.tail f) := by
  by_cases hf : p = f.pcb
  · have e : (c.tail f).state p = .dead := by
      subst hf
      exact update_self _ _ _
    exact ⟨fun _ => .inr e, fun _ => e, .inr e, rfl, id, ho⟩
  · exact keeps (update_of_ne hf _ _) (update_of_ne hf _ _) rfl id ho

end

end Core.Spares

/-! ## The links -/

variable {c cpu : ℕ} {code : ℤ}

section Links

variable {k k' : Kernel} {p q : PcbId}

theorem Loose.setLock {s : St} (h : Loose s p) (c : ℕ) (b : Bool) : Loose (s.setLock c b) p :=
  h.congr rfl fun d => update_keep Runq.root s.rq d rfl

section

variable (h : Loose k.st p)
include h

theorem Loose.spinLock (hs : spinLock k c = .ok k') : Loose k'.st p := by
  unfold Sched.spinLock at hs
  split_ifs at hs
  cases hs
  exact h.setLock c true

theorem Loose.lockTable (hs : lockTable k = .ok k') : Loose k'.st p := by
  unfold Sched.lockTable at hs
  split_ifs at hs
  cases hs
  exact h

section

variable (q : PcbId)

theorem Loose.setCurrent : Loose (setCurrent k q).st p :=
  h.congr rfl fun d => update_keep Runq.root k.st.rq d rfl

theorem Loose.clearNode : Loose (clearNode k q).st p := h.clear q .black

theorem Loose.onThreadSwitch : Loose (syscallOnThreadSwitch k q).st p := by
  unfold syscallOnThreadSwitch
  split_ifs <;> exact h

theorem Loose.bootstrapInitThread : Loose (schedBootstrapInitThread k).st p := by
  apply Loose.onThreadSwitch
  apply Loose.setCurrent
  apply Loose.clearNode
  exact h.setPcb .bootstrap bootstrapPcb

theorem Loose.setRunning : Loose (setRunning k q).st p := h

theorem Loose.freeKstack : Loose (freeKstack k q).st p := by
  unfold Sched.freeKstack
  split_ifs <;> exact h

theorem Loose.setDeadline (time : ℕ) : Loose (setDeadline k q time).st p := by
  unfold Sched.setDeadline
  split_ifs <;> exact h

theorem Loose.decay : Loose (decay k q).st p := by
  unfold Sched.decay
  split_ifs <;> exact h

theorem Loose.boost : Loose (boost k q).st p := by
  unfold Sched.boost
  split_ifs <;> exact h

end

theorem Loose.kEnqueue (hq : q ≠ p) (hs : kEnqueue k q = .ok k') : Loose k'.st p := by
  unfold Sched.kEnqueue at hs
  split_ifs at hs
  split at hs
  · cases hs
  · rename_i s hs'
    cases hs
    exact schedEnqueue_loose h hq hs'

theorem Loose.kDequeue (hs : kDequeue k cpu = .ok (q, k')) :
    Loose k'.st p ∧ (q = (k.st.rq cpu).idlePcb ∨ q ≠ p) := by
  unfold Sched.kDequeue at hs
  split at hs
  · cases hs
  · rename_i s hs'
    cases hs
    exact schedDequeue_loose h hs'

theorem Loose.takeoff (hs : schedTakeoffRunqLocked k cpu q = .ok k') : Loose k'.st p := by
  unfold schedTakeoffRunqLocked at hs
  split_ifs at hs
  · split at hs
    · cases hs
    · rename_i s hs'
      cases hs
      exact (removeAt_loose h hs').clear q _
  · cases hs
    exact h

theorem Loose.switchTo (next : PcbId) (time rbx : ℕ) : Loose (schedSwitchTo k next time rbx).st p := by
  -- both ways of the inner test go on alike
  have key : ∀ k1 : Kernel, Loose k1.st p → Loose (syscallOnThreadSwitch (Sched.setCurrent (setState k1 next .run) next)
      next).st p := by
    intro k1 h1
    have h2 : Loose (setState k1 next .run).st p := h1
    exact (h2.setCurrent next).onThreadSwitch next
  have hd := h.setDeadline next time
  unfold schedSwitchTo
  simp only
  split_ifs
  · exact h
  · exact key (setState (Sched.setDeadline k next time) k.cur .ready) hd
  · exact key (Sched.setDeadline k next time) hd

theorem Loose.exitTo (next : PcbId) : Loose (exitTo k next).st p := by
  unfold Sched.exitTo
  simp only
  generalize (if (k.st.pcb next).state = .dead then (k.st.rq 0).idlePcb else next) = q
  have h1 : Loose (setState (Sched.setCurrent k q) q .run).st p := h.setCurrent q
  exact h1.onThreadSwitch q

theorem Loose.reapTail (f : Frame) : Loose (reapTail k f).st p := by
  have h1 : Loose (clearWaiter (disarm (k.setPcb f.pcb (reapedPcb (k.st.pcb f.pcb) f)))).st p := h
  exact h1.freeKstack f.pcb

theorem Loose.jmpRestore (hs : schedJmpRestore k = .ok k') : Loose k'.st p := by
  unfold schedJmpRestore at hs
  split at hs
  · cases hs
  rename_i f hf
  cases hs
  have h1 : Loose (Sched.setRunning (leave k) f.owner).st p := h
  exact h1.reapTail f

/-- any change of the counter -/
theorem Loose.count (f : ℕ → ℕ) : Loose (unlockTable { k with st := { k.st with procCount := f k.st.procCount } }).st p := h

theorem Loose.die (hs : die k code = .ok k') : Loose k'.st p := by
  obtain ⟨k1, h1, h2⟩ := bind_eq_ok.1 hs
  have h3 : Loose k1.st p := Loose.lockTable (k := (k.setPcb k.cur _).setExt k.cur _) h h1
  rw [← Except.ok.inj h2]
  exact h3.count decr32

end

end Links

/-! ## The calls -/

/-- what a call may do to a sleeper p -/
structure Spares (p : PcbId) (k k' : Kernel) : Prop where
  core : Core.Spares p k.core k'.core
  loose : Loose k.st p → Loose k'.st p

variable {time rbx : ℕ}

section Calls

variable {k k' : Kernel} {p q : PcbId}

/-- a call that only the run queues see -/
theorem Spares.same (hc : k'.core = k.core) (hl : Loose k.st p → Loose k'.st p) : Spares p k k' :=
  ⟨hc ▸ Core.Spares.refl p _, hl⟩

theorem Spares.refl (p : PcbId) (k : Kernel) : Spares p k k := .same rfl id

theorem kEnqueue_spares (hq : q ≠ p) (hs : kEnqueue k q = .ok k') : Spares p k k' := by
  refine ⟨?_, fun h => h.kEnqueue hq hs⟩
  rw [core_kEnqueue hs]
  exact Core.Spares.enqueue _ hq _

theorem kDequeue_spares (hs : kDequeue k cpu = .ok (q, k')) : Spares p k k' :=
  .same (core_kDequeue hs) fun h => (h.kDequeue hs).1

theorem spinLock_spares (hs : spinLock k c = .ok k') : Spares p k k' := .same (core_spinLock hs) fun h => h.spinLock hs

theorem spinUnlock_spares (k : Kernel) (c : ℕ) : Spares p k (spinUnlock k c) :=
  .same (core_spinUnlock k c) fun h => h.setLock c false

theorem Spares.trans {k'' : Kernel} (h : Spares p k k') (h' : Spares p k' k'') : Spares p k k'' :=
  ⟨h.core.trans h'.core, fun hl => h'.loose (h.loose hl)⟩

section

variable (h : Loose k.st p) (hidle : p ≠ k.core.idle)
include h hidle

/-- the next process out of the queue of CPU 0 is not p -/
theorem dequeued_ne (hs : kDequeue k 0 = .ok (q, k')) : q ≠ p := by
  rcases (h.kDequeue hs).2 with e | hne
  · exact fun e' => hidle (e'.symm.trans e)
  · exact hne

theorem requeue_spares {back : Bool}
    (hback : back = true → k.cur ≠ p) (hs : requeueAndSwitch k back time rbx = .ok k') : Spares p k k' := by
  obtain ⟨k1, h1, h2⟩ := bind_eq_ok.1 hs
  obtain ⟨k2, h3, h4⟩ := bind_eq_ok.1 h2
  obtain ⟨⟨next, k3⟩, h5, h6⟩ := bind_eq_ok.1 h4
  have s1 : Spares p k k1 := spinLock_spares h1
  have s2 : Spares p k1 k2 := by
    cases back with
    | true =>
      have hcur : k1.cur = k.cur := congrArg Core.cur (core_spinLock h1)
      exact kEnqueue_spares (hcur ▸ hback rfl) h3
    | false =>
      cases h3
      exact Spares.refl p _
  have s12 := s1.trans s2
  have hnext : next ≠ p := dequeued_ne (s12.loose h) (s12.core.idle ▸ hidle) h5
  have s3 : Spares p k (spinUnlock k3 0) := (s12.trans (kDequeue_spares h5)).trans (spinUnlock_spares k3 0)
  cases h6
  refine s3.trans ⟨?_, fun hl => hl.switchTo next time rbx⟩
  rw [core_switchTo]
  exact Core.Spares.switch _ hnext rbx

theorem exitNext_spares (hs : ((spinLock k 0).bind fun k =>
    (kDequeue k 0).bind fun r => .ok (exitTo (spinUnlock r.2 0) r.1)) = .ok k') : Spares p k k' := by
  obtain ⟨k1, h1, h2⟩ := bind_eq_ok.1 hs
  obtain ⟨⟨next, k2⟩, h3, h4⟩ := bind_eq_ok.1 h2
  have s1 : Spares p k k1 := spinLock_spares h1
  have hnext : next ≠ p := dequeued_ne (s1.loose h) (s1.core.idle ▸ hidle) h3
  have s2 : Spares p k (spinUnlock k2 0) := (s1.trans (kDequeue_spares h3)).trans (spinUnlock_spares k2 0)
  cases h4
  refine s2.trans ⟨?_, fun hl => hl.exitTo next⟩
  rw [core_exitTo]
  apply Core.Spares.resume
  split_ifs
  · exact fun e => hidle (e.symm.trans s2.core.idle)
  · exact hnext

end

theorem die_spares (hs : die (k.note (.exited k.running code)) code = .ok k') : Spares p k k' := by
  refine ⟨?_, fun h => Loose.die (k := k.note (.exited k.running code)) h hs⟩
  rw [core_die hs]
  exact Core.Spares.die _ code

theorem jmpRestore_spares (ho : ∀ f, k.jmp = some f → f.owner = p → k.running = p)
    (hs : schedJmpRestore k = .ok k') : Spares p k k' := by
  refine ⟨?_, fun h => h.jmpRestore hs⟩
  obtain ⟨f, hf, e⟩ := core_jmpRestore hs
  rw [e]
  exact Core.Spares.tail _ (ho f hf)

/-- `sched_exit`: neither the waiter that is recorded nor the thread of the jump buffer is p -/
theorem schedExit_spares (h : Loose k.st p) (hidle : p ≠ k.core.idle)
    (hw : ∀ w, k.st.reapWaiter = some w → w ≠ p ∧ ∀ f, k.jmp = some f → f.owner ≠ p)
    (hs : schedExit k code = .ok k') : Spares p k k' := by
  unfold schedExit at hs
  simp only at hs
  split at hs
  · rename_i w hsome
    obtain ⟨hwp, hf⟩ := hw w hsome
    split_ifs at hs with hact
    · obtain ⟨k1, h1, h2⟩ := bind_eq_ok.1 hs
      have s1 : Spares p k k1 := die_spares h1
      have hj : k1.jmp = k.jmp := congrArg Core.jmp (core_die h1)
      have s2 : Spares p k1 (disarm (freeKstack (schedLoadCr3 k1 (k1.ext w).cr3) (k.note (.exited k.running code)).cur)) := by
        refine ⟨?_, fun hl => Loose.freeKstack (k := schedLoadCr3 k1 (k1.ext w).cr3) hl _⟩
        rw [core_disarm, core_freeKstack, core_loadCr3]
        exact Core.Spares.keeps rfl rfl rfl id id
      refine (s1.trans s2).trans (jmpRestore_spares (fun f hf' ho => absurd ho (hf f ?_)) h2)
      rw [← hj, ← hf']
      unfold freeKstack
      split_ifs <;> rfl
    obtain ⟨k1, h1, h2⟩ := bind_eq_ok.1 hs
    have s1 : Spares p k k1 := die_spares h1
    split_ifs at h2 with hd
    · cases h2
      refine s1.trans ⟨?_, fun hl => Loose.exitTo (k := clearWaiter k1) hl w⟩
      rw [core_exitTo, core_clearWaiter]
      have hd' : k1.core.state w ≠ .dead := hd
      have hw' : (if k1.core.state w = .dead then k1.core.idle else w) ≠ p := by
        rw [if_neg hd']
        exact hwp
      have s2 : Core.Spares p k1.core { k1.core with waiter := none } := .keeps rfl rfl rfl id id
      exact s2.trans (Core.Spares.resume _ hw')
    · exact s1.trans (exitNext_spares (s1.loose h) (s1.core.idle ▸ hidle) h2)
  · obtain ⟨k1, h1, h2⟩ := bind_eq_ok.1 hs
    have s1 : Spares p k k1 := die_spares h1
    exact s1.trans (exitNext_spares (s1.loose h) (s1.core.idle ▸ hidle) h2)

theorem reapEnter_spares (k : Kernel) (q : PcbId) : Spares p k (reapEnter k q) := by
  refine ⟨?_, id⟩
  rw [core_reapEnter]
  exact Core.Spares.enter _ _

theorem reapStart_spares (hq : q ≠ p) (hs : reapStart k q = .ok k') : Spares p k k' := by
  refine ⟨?_, fun h => ?_⟩
  · rw [core_reapStart hs]
    exact Core.Spares.resume _ hq
  obtain ⟨k1, h1, h2⟩ := bind_eq_ok.1 hs
  obtain ⟨k2, h3, h4⟩ := bind_eq_ok.1 h2
  cases h4
  have h5 : Loose (spinUnlock k2 0).st p := ((h.spinLock h1).takeoff h3).setLock 0 false
  have h6 : Loose (setState (setCurrent (spinUnlock k2 0) q) q .run).st p := h5.setCurrent q
  exact h6.onThreadSwitch q

/-- a sleeper that is reaped ends; the caller goes on -/
theorem schedReap_spares (hp : k.core.state p = .wait) (hs : schedReap k pid = .ok k') : Spares p k k' := by
  unfold schedReap at hs
  split at hs
  · cases hs
    exact Spares.refl p _
  rename_i q hq
  have s1 : Spares p k (reapEnter k q) := reapEnter_spares k q
  simp only at hs
  split_ifs at hs with hrun
  · refine s1.trans (reapStart_spares (fun e => ?_) hs)
    have hst : ((reapEnter k q).st.pcb q).state = k.core.state q := congrFun (congrArg Core.state (core_reapEnter k q)) q
    rw [hst, e, hp] at hrun
    exact absurd hrun.1 (by decide)
  · refine s1.trans (jmpRestore_spares (fun f hf ho => ?_) hs)
    cases hf
    exact ho

/-- a slot that `sched_spawn` takes is not that of a sleeper with a pid -/
theorem slot_ne (hp : k.core.state p = .wait) (hpid : k.core.pid p ≠ 0) (hn : k.core.nextFree = some pid) :
    slot pid ≠ p := by
  intro e
  rcases nextFree_free hn with hd | h0
  · rw [e, hp] at hd
    cases hd
  · rw [e] at h0
    exact hpid h0

theorem schedSpawn_loose {a : SpawnArgs} {r : ℕ} (h : Loose k.st p) (hs : schedSpawn k a = .ok (r, k')) : Loose k'.st p := by
  obtain ⟨k1, h1, h2⟩ := bind_eq_ok.1 hs
  have h3 : Loose k1.st p := h.lockTable h1
  by_cases hfull : maxProcs ≤ k1.st.procCount
  · rw [if_pos hfull] at h2
    cases h2
    exact h3
  rw [if_neg hfull] at h2
  split at h2
  · cases h2
    exact h3
  rename_i pid _
  have h4 : Loose (claimSlot k1 a pid).st p :=
    Loose.clear (s := { k1.st with
      nextPid := if (pid + 1) % maxProcs = 0 then 1 else (pid + 1) % maxProcs
      pcb := update k1.st.pcb (slot pid) (freshPcb k1.st a pid) }) h3 (slot pid) .black
  split_ifs at h2
  · cases h2
    exact h4
  · cases h2
    exact h4.congr rfl fun _ => rfl

theorem elfSpawn_spares {a : SpawnArgs} (hp : k.core.state p = .wait) (hpid : k.core.pid p ≠ 0)
    (hs : elfSpawn k a = .ok k') : Spares p k k' := by
  refine ⟨?_, fun h => ?_⟩
  · have hc := core_elfSpawn hs
    generalize k'.core = c' at hc
    cases hc with
    | spawnFull _ => exact Core.Spares.refl p _
    | spawnNoStack _ hn _ => exact Core.Spares.claim _ (slot_ne hp hpid hn)
    | spawnNew _ hn _ _ => exact (Core.Spares.claim _ (slot_ne hp hpid hn)).trans (Core.Spares.born _ _)
    | spawnReady _ hn _ _ _ =>
      have hne := slot_ne hp hpid hn
      exact (((Core.Spares.claim _ hne).trans (Core.Spares.born _ _)).trans (Core.Spares.setRip _ _ _)).trans
        (Core.Spares.enqueue _ hne _)
  obtain ⟨⟨r, k1⟩, h1, h2⟩ := bind_eq_ok.1 hs
  have h3 : Loose k1.st p := schedSpawn_loose h h1
  simp only [core_find] at h2
  split at h2
  · rename_i rip cr3 q he hf
    obtain ⟨rfl, hr, -⟩ := Core.find_eq hf
    have hne : slot r ≠ p := by
      obtain ⟨rfl, -⟩ | ⟨pid, -, hn, ⟨rfl, -⟩ | ⟨rfl, -⟩⟩ := core_schedSpawn h1
      · exact absurd rfl hr
      · exact absurd rfl hr
      · exact slot_ne hp hpid hn
    exact Loose.kEnqueue (k := prime k1 (slot r) rip cr3) h3 hne h2
  · cases h2
    exact h3

theorem schedTick_spares {now : ℕ} (h : Loose k.st p) (hidle : p ≠ k.core.idle) (hp : k.core.state p = .wait)
    (hs : schedTick k now time rbx = .ok k') : Spares p k k' := by
  have s1 : Spares p k (decay k k.cur) := .same (core_decay k k.cur) fun hl => hl.decay k.cur
  unfold schedTick at hs
  simp only at hs
  split_ifs at hs with h1 h2 h3 h4
  · cases hs
    exact Spares.refl p _
  · cases hs
    exact Spares.refl p _
  · cases hs
    exact Spares.refl p _
  · -- the current process has run, so it is not asleep
    refine s1.trans (requeue_spares (s1.loose h) (s1.core.idle ▸ hidle) (fun _ e => ?_) hs)
    have hrun : ((decay k k.cur).st.pcb (decay k k.cur).cur).state = .run := by
      simp only [expired, Bool.and_eq_true, decide_eq_true_eq] at h4
      exact h4.2
    have hst : ((decay k k.cur).st.pcb p).state = k.core.state p := congrFun (congrArg Core.state (core_decay k k.cur)) p
    rw [e, hst, hp] at hrun
    cases hrun
  · cases hs
    exact s1

theorem schedWake_spares (hq : q ≠ p) (hs : schedWake k q time = .ok k') : Spares p k k' := by
  unfold schedWake at hs
  split_ifs at hs
  · cases hs
    exact Spares.refl p _
  have s1 : Spares p k (boost (k.setExt q { k.ext q with wakeNs := time }) q) := by
    refine .same ?_ fun hl => Loose.boost (k := k.setExt q { k.ext q with wakeNs := time }) hl q
    rw [core_boost, core_setExt]
  exact s1.trans (kEnqueue_spares hq hs)

theorem schedWake_ready (hp : k.core.state p = .wait) (hs : schedWake k p time = .ok k') :
    k'.core.state p = .ready := by
  unfold schedWake at hs
  split_ifs at hs with hne
  · exact absurd hp hne
  · rw [core_kEnqueue hs]
    exact update_self _ _ _

theorem schedSteal_spares (hs : schedSteal k cpu = .ok k') : Spares p k k' := by
  refine .same (core_schedSteal hs) fun h => ?_
  unfold schedSteal at hs
  simp only at hs
  split_ifs at hs
  · cases hs
    exact h
  all_goals
    obtain ⟨k1, h1, h2⟩ := bind_eq_ok.1 hs
    obtain ⟨k2, h3, h4⟩ := bind_eq_ok.1 h2
    split at h4
    · cases h4
    · rename_i s hs'
      cases h4
      exact ((stealLoop_loose ((h.spinLock h1).spinLock h3) hs').setLock _ false).setLock _ false

theorem schedSet_spares (k : Kernel) (pid cls : ℕ) (priority : ℤ) : Spares p k (schedSet k pid cls priority) := by
  refine .same (core_schedSet k pid cls priority) fun h => ?_
  unfold schedSet
  split <;> exact h

end Calls

/-! ## Steps -/

/-- asleep, with a pid, and no link of the run queues leads to it -/
structure Asleep (k : Kernel) (p : PcbId) : Prop where
  state : k.core.state p = .wait
  pid : k.core.pid p ≠ 0
  idle : p ≠ k.core.idle
  loose : Loose k.st p

/-- what a call needs to leave the sleepers alone -/
def Rested (k : Kernel) : KOp → Prop
  -- the bootstrap thread is not set up again while it sleeps
  | .bootstrap => k.core.state .bootstrap ≠ .wait
  -- no sleeper waits in `sched_reap`
  | .exit _ => ∀ w, k.core.waiter = some w → k.core.state w ≠ .wait ∧ ∀ f, k.core.jmp = some f →
      k.core.state f.owner ≠ .wait
  -- the caller is not asleep, or is the process that waits in `sched_reap`
  | .yield _ _ => k.core.state k.cur = .wait → k.core.waiter = some k.cur
  -- a process goes to sleep
  | .block => k.core.pid k.cur ≠ 0 ∧ k.cur ≠ k.core.idle ∧ Loose k.st k.cur
  | _ => True

section Steps

variable {k k' : Kernel} {p : PcbId} {o : KOp}

/-- **Sleepers are spared.** By every call but a `sched_wake` of the sleeper, under the condition. -/
theorem kstep_spares (h : Asleep k p) (hok : Rested k o) (hw : ∀ time, o ≠ .wake p time) (hs : kstep k o = .ok k') :
    Spares p k k' := by
  have hne : ∀ q, k.core.state q ≠ .wait → q ≠ p := fun q hq e => hq (e ▸ h.state)
  cases o with
  | bootstrap =>
    have hb : p ≠ .bootstrap := (hne .bootstrap hok).symm
    rw [← Except.ok.inj hs]
    refine ⟨?_, fun hl => ?_⟩
    · rw [core_bootstrap]
      exact Core.Spares.bootstrap _ hb
    · exact hl.bootstrapInitThread.setRunning .bootstrap
  | spawn a => exact elfSpawn_spares h.state h.pid hs
  | exit code =>
    refine schedExit_spares h.loose h.idle (fun w hwait => ?_) hs
    obtain ⟨h1, h2⟩ := hok w hwait
    exact ⟨hne w h1, fun f hf => hne f.owner (h2 f hf)⟩
  | reap pid => exact schedReap_spares h.state hs
  | yield time rbx =>
    refine requeue_spares h.loose h.idle (fun hback e => ?_) hs
    -- a sleeper that yields is not put back
    have hcur : k.core.waiter = some k.cur := hok (e ▸ h.state)
    simp only [Bool.and_eq_true, decide_eq_true_eq] at hback
    exact hback.2 hcur.symm
  | tick now time rbx => exact schedTick_spares h.loose h.idle h.state hs
  | wake q time =>
    refine schedWake_spares (fun e => ?_) hs
    subst e
    exact hw time rfl
  | block =>
    rw [← Except.ok.inj hs]
    refine ⟨?_, id⟩
    rw [core_setState]
    by_cases hcur : k.cur = p
    · have e : (k.core.setState k.cur .wait).state p = .wait := by
        subst hcur
        exact update_self _ _ _
      exact ⟨fun _ => .inl e, fun hd => absurd (h.state.symm.trans hd) (by decide), .inl rfl, rfl, id, id⟩
    · exact Core.Spares.setState _ hcur .wait
  | steal cpu => exact schedSteal_spares hs
  | set pid cls priority =>
    rw [← Except.ok.inj hs]
    exact schedSet_spares k pid cls priority
  | dequeue cpu =>
    obtain ⟨⟨q, k1⟩, h1, h2⟩ := bind_eq_ok.1 hs
    cases h2
    exact kDequeue_spares h1

theorem Asleep.spared (h : Asleep k p) (hs : Spares p k k') (hp : k'.core.state p = .wait) : Asleep k' p where
  state := hp
  pid := by
    rcases hs.core.pid with e | hd
    · rw [e]
      exact h.pid
    · rw [hp] at hd
      cases hd
  idle := hs.core.idle ▸ h.idle
  loose := hs.loose h.loose

/-- only `port_recv` puts a process to sleep -/
theorem CStep.was_waiting {c c' : Core} (hs : CStep c o c') (ho : o ≠ .block) (hp : c'.state p = .wait) :
    c.state p = .wait := by
  cases hs with
  | bootstrap | spawnNoStack _ _ _ | spawnNew _ _ _ _ | reapStart _ _ _ _ | reapNow _ _ _ => exact update_state hp
  | spawnFull _ | reapNone _ | tickNone | wakeNone | steal | set | dequeue => exact hp
  | spawnReady _ _ _ _ _ => exact update_state (x := .new) (update_state (x := .ready) hp)
  | exitJump _ _ _ => exact update_state (x := .dead) (update_state (x := .dead) hp)
  | exitWaiter _ _ _ | exitNext _ _ => exact update_state (x := .dead) (update_state (x := .run) hp)
  | yieldBack | tickBack _ => exact update_state (x := .ready) (switch_state hp)
  | yieldOn => exact switch_state hp
  | wake _ => exact update_state hp
  | block => exact absurd rfl ho

/-- one step: whoever sleeps has gone to sleep under the condition, and was not disturbed since -/
theorem asleep_step (h : ∀ p, k.core.state p = .wait → Asleep k p) (hok : Rested k o) (hs : kstep k o = .ok k')
    (p : PcbId) (hp : k'.core.state p = .wait) : Asleep k' p := by
  by_cases hwas : k.core.state p = .wait
  · refine (h p hwas).spared (kstep_spares (h p hwas) hok (fun time e => ?_) hs) hp
    -- a sleeper that is woken is READY
    subst e
    rw [schedWake_ready hwas hs] at hp
    cases hp
  cases o with
  | block =>
    obtain ⟨h1, h2, h3⟩ := hok
    rw [← Except.ok.inj hs] at hp ⊢
    have hcur : p = k.cur := by
      by_contra e
      rw [core_setState] at hp
      exact hwas ((update_of_ne e _ _).symm.trans hp)
    subst hcur
    refine ⟨hp, ?_, ?_, h3⟩
    · rw [core_setState]
      exact h1
    · exact h2
  | _ => exact absurd ((kstep_core hs).was_waiting (fun e => nomatch e) hp) hwas

end Steps

end OpenASD.Sched
