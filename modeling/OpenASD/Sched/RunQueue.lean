/-
The run queues: one per CPU, each with a tree and a count for the classes RT, INTR and BATCH. The nodes are in the PCBs,
so all trees share one store of nodes.

`none` stands for a call that does not return: a NULL dereference, a loop that does not end, or a spin lock that is
already held.

`Trees s T` says that the links of the store spell out the trees T, that no process is in two of them, and that every
count is the number of nodes.

A run is any sequence of `sched_enqueue` of processes that are not queued, `sched_dequeue` on any CPU, and changes of
class, priority and CPU of processes that are not queued. Ghost state: for each CPU and class the queued processes in the
order of their arrival, and all that was put in and taken out.

Results:
- `schedEnqueue_spec`, `schedDequeue_spec`: what the two calls do to the trees;
- `queue_run_sound`: in every state of every run, the next process is the first arrival among those of least priority of
  the best non-empty class, the idle process exactly when nothing is queued; counts are the sizes of the trees; every
  process is taken out as often as it was put in, but for those that are still queued.
-/
import OpenASD.Core.PrioQueue
import OpenASD.Sched.RbTree

namespace OpenASD.Sched

open LinkedTree PrioQueue
open Function (update update_of_ne update_self)
open List (find? mem_append mem_cons_self mem_map mem_range range)
open Option (getD_some map_some)

/-! ## State -/

def maxProcs : ℕ := 4096
def maxCpus : ℕ := 64

/-- a `pcb_t`: an entry of `g_proc_table`, `g_bootstrap_pcb` or an entry of `g_idle_pcb` -/
inductive PcbId where
  | proc (i : Fin maxProcs)
  | bootstrap
  | idle (cpu : Fin maxCpus)
deriving DecidableEq

/-- `PROC_*` -/
inductive PState where
  | new
  | ready
  | run
  | wait
  | dead
deriving DecidableEq, Repr

/-- the three trees of a run queue -/
inductive Class where
  | rt
  | intr
  | batch
deriving DecidableEq, Repr

/-- the tree of a `sched_class_t`: every value but 0 and 1 goes to BATCH -/
def classOf (c : ℕ) : Class := if c = 0 then .rt else if c = 1 then .intr else .batch

structure Pcb where
  pid : ℕ
  state : PState
  /-- `sched_class_t`, a byte -/
  schedClass : ℕ
  cpu : ℕ
  priority : ℤ
  basePri : ℤ
  exitCode : ℤ
  /-- `regs.rip`, 0 for a process without an entry point -/
  rip : ℕ

structure Runq where
  lock : Bool
  root : Class → Option PcbId
  count : Class → ℕ
  current : PcbId
  idlePcb : PcbId

structure St where
  cpuCount : ℕ
  pcb : PcbId → Pcb
  /-- the `rq_node` of each PCB -/
  node : PcbId → Node PcbId
  /-- `g_runq` -/
  rq : ℕ → Runq
  /-- `g_current` -/
  current : ℕ → PcbId
  reapWaiter : Option PcbId
  reapJmpActive : Bool
  nextPid : ℕ
  procCount : ℕ

/-- a CPU and a class -/
abbrev Slot := ℕ × Class

variable (s : St)

def St.store (i : Slot) : Store PcbId := ⟨s.node, (s.rq i.1).root i.2⟩

def St.count (i : Slot) : ℕ := (s.rq i.1).count i.2

def St.prio (p : PcbId) : ℤ := (s.pcb p).priority

def St.setPcb (p : PcbId) (v : Pcb) : St := { s with pcb := update s.pcb p v }

/-- before `sched_init`: all data is zero -/
def St.zero : St where
  cpuCount := 0
  pcb := fun _ => ⟨0, .new, 0, 0, 0, 0, 0, 0⟩
  node := fun _ => ⟨none, none, none, .black⟩
  rq := fun _ => ⟨false, fun _ => none, fun _ => 0, .bootstrap, .bootstrap⟩
  current := fun _ => .bootstrap
  reapWaiter := none
  reapJmpActive := false
  nextPid := 0
  procCount := 0

/-- write back a tree and its count -/
def St.setTree (i : Slot) (t : Store PcbId) (n : ℕ) : St :=
  { s with
    node := t.node
    rq := update s.rq i.1 { s.rq i.1 with
      root := update (s.rq i.1).root i.2 t.root
      count := update (s.rq i.1).count i.2 n } }

/-- more steps than any loop over a tree takes: there are 4096 + 1 + 64 nodes in all -/
def rbFuel : ℕ := 4163

/-! ## The source's functions -/

/-- the PCB of the idle process as `sched_init` fills it; `idle_fn` is not 0 -/
def idlePcb (cpu : ℕ) : Pcb := ⟨0, .run, 2, cpu, 127, 127, 0, 1⟩

def initRunq (cpu : Fin maxCpus) : Runq := ⟨false, fun _ => none, fun _ => 0, .idle cpu, .idle cpu⟩

def schedInit (cpuCount : ℕ) : St :=
  let n := if maxCpus < cpuCount then maxCpus else cpuCount
  { s with
    cpuCount := n
    nextPid := 1
    procCount := 0
    rq := fun c => if h : c < maxCpus then if c < n then initRunq ⟨c, h⟩ else s.rq c else s.rq c
    current := fun c => if h : c < maxCpus then if c < n then .idle ⟨c, h⟩ else s.current c else s.current c
    pcb := fun p => match p with
      | .idle c => if c.val < n then idlePcb c else s.pcb p
      | _ => s.pcb p
    node := fun p => match p with
      | .idle c => if c.val < n then ⟨none, none, none, .black⟩ else s.node p
      | _ => s.node p }

/-- the load of a CPU, a 32-bit sum -/
def St.load (c : ℕ) : ℕ := (s.count (c, .rt) + s.count (c, .intr) + s.count (c, .batch)) % 2 ^ 32

/-- the loop of `sched_enqueue` over the CPUs: (least load so far, its CPU) -/
def leastLoaded : ℕ :=
  ((range s.cpuCount).foldl (fun m i => if s.load i < m.1 then (s.load i, i) else m) (0xFFFFFFFF, 0)).2

/-- the CPU that a process goes to -/
def enqueueCpu (p : PcbId) : ℕ :=
  if s.cpuCount ≤ (s.pcb p).cpu then leastLoaded s else (s.pcb p).cpu

/-- insert into the tree of the process's class on a CPU, and count -/
def insertAt (p : PcbId) (cpu : ℕ) : Option St :=
  let i := (cpu, classOf (s.pcb p).schedClass)
  (rbInsert rbFuel s.prio (s.store i) p (s.prio p)).map fun t => s.setTree i t ((s.count i + 1) % 2 ^ 32)

def schedEnqueue (p : PcbId) : Option St :=
  let cpu := enqueueCpu s p
  let s := s.setPcb p { s.pcb p with cpu := cpu % 256, state := .ready }
  -- the lock is taken and released within the call
  if (s.rq cpu).lock then none else insertAt s p cpu

/-- remove a node from a tree, and count -/
def removeAt (p : PcbId) (i : Slot) : Option St :=
  (rbRemoveNode rbFuel (s.store i) p).map fun t => s.setTree i t ((s.count i + 2 ^ 32 - 1) % 2 ^ 32)

/-- the first class with a count above 0 -/
def bestClass (cpu : ℕ) : Option Class := [Class.rt, .intr, .batch].find? fun c => decide (0 < s.count (cpu, c))

/-- `sched_dequeue`: the process and the new state; the caller holds the lock -/
def schedDequeue (cpu : ℕ) : Option (PcbId × St) :=
  match bestClass s cpu with
  | none => some ((s.rq cpu).idlePcb, s)
  | some c =>
    (rbLeftmost rbFuel (s.store (cpu, c))).bind fun n =>
      match n with
      | none => some ((s.rq cpu).idlePcb, s)
      | some n => (removeAt s n (cpu, c)).map fun s => (n, s)

/-! ## Trees -/

/-- the links spell out the trees T: one for each CPU and class, with its size counted, no process in two of them -/
structure Trees (s : St) (T : Slot → KTree PcbId) : Prop where
  few : 0 < s.cpuCount ∧ s.cpuCount ≤ maxCpus
  is : ∀ i : Slot, i.1 < s.cpuCount → Is (s.store i) (T i)
  count : ∀ i : Slot, i.1 < s.cpuCount → s.count i = (T i).keys.length
  apart : ∀ i j : Slot, i.1 < s.cpuCount → j.1 < s.cpuCount → ∀ p, p ∈ (T i).keys → p ∈ (T j).keys → i = j

section SetTree

variable (s : St) (i j : Slot) (t : Store PcbId) (n : ℕ)

@[simp] theorem setTree_cpuCount : (s.setTree i t n).cpuCount = s.cpuCount := rfl

@[simp] theorem setTree_pcb : (s.setTree i t n).pcb = s.pcb := rfl

@[simp] theorem setTree_node : (s.setTree i t n).node = t.node := rfl

theorem setTree_rq (c : ℕ) : ((s.setTree i t n).rq c).lock = (s.rq c).lock ∧
    ((s.setTree i t n).rq c).idlePcb = (s.rq c).idlePcb := by
  by_cases h : c = i.1
  · subst h
    simp [St.setTree]
  · simp [St.setTree, h]

theorem setTree_store_self : (s.setTree i t n).store i = t := by simp [St.setTree, St.store]

theorem setTree_count_self : (s.setTree i t n).count i = n := by simp [St.setTree, St.count]

theorem setTree_ne (h : j ≠ i) : (s.setTree i t n).store j = ⟨t.node, (s.store j).root⟩ ∧
    (s.setTree i t n).count j = s.count j := by
  by_cases h1 : j.1 = i.1
  · have h2 : j.2 ≠ i.2 := fun e => h (Prod.ext h1 e)
    simp [St.setTree, St.store, St.count, h1, h2]
  · simp [St.setTree, St.store, St.count, h1]

end SetTree

variable {cpu : ℕ}

section Trees

variable {s : St} {T : Slot → KTree PcbId} {i : Slot} {p : PcbId}

/-- a number for each PCB -/
def PcbId.code : PcbId → ℕ
  | .proc i => i
  | .bootstrap => maxProcs
  | .idle c => maxProcs + 1 + c

/-- the processes, and the bootstrap thread with the idle processes -/
def PcbId.parts : PcbId → Fin maxProcs ⊕ Option (Fin maxCpus)
  | .proc i => .inl i
  | .bootstrap => .inr none
  | .idle c => .inr (some c)

theorem PcbId.parts_inj : Function.Injective PcbId.parts := by
  intro a b h
  cases a <;> cases b <;> cases h <;> rfl

/-- so no tree has more nodes than there are PCBs -/
theorem length_le_of_nodup {l : List PcbId} (h : l.Nodup) : l.length ≤ 4161 := by
  have hcard := (h.map PcbId.parts_inj).length_le_card
  rwa [List.length_map, Fintype.card_sum, Fintype.card_option, Fintype.card_fin, Fintype.card_fin] at hcard

/-- so the fuel is enough below every node -/
theorem right_le {s : Store PcbId} {c : Ctx PcbId} {l r : KTree PcbId} (h : Is s (plug c (.node l p r))) :
    r.keys.length ≤ rbFuel := by
  have hsize := length_le_of_nodup h.nodup
  rw [keys_plug, KTree.keys] at hsize
  simp only [List.length_append, List.length_cons] at hsize
  rw [rbFuel]
  omega

/-- p has come into the tree of the slot i, which is X now, between L and R -/
structure Inserted (s : St) (T : Slot → KTree PcbId) (i : Slot) (p : PcbId) (t : Store PcbId) (X : KTree PcbId)
    (L R : List PcbId) : Prop where
  old : (T i).keys = L ++ R
  new : X.keys = L ++ p :: R
  trees : Trees (s.setTree i t X.keys.length) (update T i X)
  other : ∀ k, k ∉ X.keys → t.node k = s.node k
  order : (L ++ R).Pairwise (fun a b => s.prio a ≤ s.prio b) → (∀ k ∈ L, s.prio k ≤ s.prio p) ∧ ∀ k ∈ R, s.prio p < s.prio k

/-- p is out of the tree of the slot i, which is X now -/
structure Extracted (s : St) (T : Slot → KTree PcbId) (i : Slot) (p : PcbId) (t : Store PcbId) (X : KTree PcbId) : Prop where
  trees : Trees (s.setTree i t X.keys.length) (update T i X)
  child : ∀ d, (t.node p).child d = none
  other : ∀ k, k ≠ p → k ∉ X.keys → t.node k = s.node k

section

variable (h : Trees s T)
include h

theorem Trees.size_le (hi : i.1 < s.cpuCount) : (T i).keys.length ≤ 4161 :=
  length_le_of_nodup (h.is i hi).nodup

/-- replacing one tree; the nodes of the others are as they were -/
theorem Trees.set (hi : i.1 < s.cpuCount) {t : Store PcbId} {X : KTree PcbId} (hX : Is t X)
    (hsep : ∀ j : Slot, j.1 < s.cpuCount → j ≠ i → ∀ p ∈ (T j).keys, p ∉ X.keys ∧ t.node p = s.node p) :
    Trees (s.setTree i t X.keys.length) (update T i X) := by
  refine ⟨h.few, fun j hj => ?_, fun j hj => ?_, fun j k hj hk p hpj hpk => ?_⟩
  · by_cases e : j = i
    · subst e
      rw [setTree_store_self, update_self]
      exact hX
    · rw [(setTree_ne _ _ _ _ _ e).1, update_of_ne e]
      exact (h.is j hj).congr rfl fun p hp => (hsep j hj e p hp).2
  · by_cases e : j = i
    · subst e
      rw [setTree_count_self, update_self]
    · rw [(setTree_ne _ _ _ _ _ e).2, update_of_ne e]
      exact h.count j hj
  by_cases ej : j = i
  · by_cases ek : k = i
    · rw [ej, ek]
    subst ej
    rw [update_self] at hpj
    rw [update_of_ne ek] at hpk
    exact absurd hpj (hsep k hk ek p hpk).1
  rw [update_of_ne ej] at hpj
  by_cases ek : k = i
  · subst ek
    rw [update_self] at hpk
    exact absurd hpk (hsep j hj ej p hpj).1
  · rw [update_of_ne ek] at hpk
    exact h.apart j k hj hk p hpj hpk

/-- inserting a process that is in no tree -/
theorem insertAt_spec (hp : ∀ j : Slot, j.1 < s.cpuCount → p ∉ (T j).keys) (hc : cpu < s.cpuCount) : ∃ t X L R,
    insertAt s p cpu = some (s.setTree (cpu, classOf (s.pcb p).schedClass) t X.keys.length) ∧
      Inserted s T (cpu, classOf (s.pcb p).schedClass) p t X L R := by
  generalize hi : (cpu, classOf (s.pcb p).schedClass) = i
  have hic : i.1 < s.cpuCount := by
    rw [← hi]
    exact hc
  have hsize := h.size_le hic
  have hfuel : (T i).keys.length + 2 ≤ rbFuel := by
    rw [rbFuel]
    omega
  obtain ⟨t, L, R, hins, hkeys, hfix, hord⟩ := rbInsert_spec s.prio (s.prio p) (h.is i hic) (hp i hic) hfuel
  obtain ⟨X, hX, hXk⟩ := hfix.is
  have hlen : X.keys.length = (T i).keys.length + 1 := by
    rw [hXk, hkeys]
    simp only [List.length_append, List.length_cons]
    omega
  have hcount : (s.count i + 1) % 2 ^ 32 = X.keys.length := by
    rw [h.count i hic, hlen]
    exact Nat.mod_eq_of_lt (by omega)
  have hout : ∀ k, k ∉ X.keys → t.node k = s.node k := by
    rw [hXk]
    exact hfix.other
  refine ⟨t, X, L, R, ?_, hkeys, hXk, h.set hic hX fun j hj hne k hk => ?_, hout, ?_⟩
  · rw [insertAt, hi]
    simp only [hins, map_some, hcount]
  · -- a node of another tree is neither p nor in this tree
    have hkX : k ∉ X.keys := by
      rw [hXk, mem_append, List.mem_cons, not_or, not_or]
      have hki : k ∉ (T i).keys := fun hki => hne (h.apart j i hj hic k hk hki)
      rw [hkeys, mem_append, not_or] at hki
      exact ⟨hki.1, fun e => hp j hj (e ▸ hk), hki.2⟩
    exact ⟨hkX, hout k hkX⟩
  · rw [hkeys] at hord
    exact hord

/-- removing a process from its tree -/
theorem removeAt_spec (hi : i.1 < s.cpuCount) (hp : p ∈ (T i).keys) :
    ∃ t X, removeAt s p i = some (s.setTree i t X.keys.length) ∧ X.keys = (T i).keys.erase p ∧ Extracted s T i p t X := by
  have hsize := h.size_le hi
  obtain ⟨c, l, r, he⟩ := exists_focus hp
  have hIs : Is (s.store i) (plug c (.node l p r)) := he ▸ h.is i hi
  obtain ⟨t, hrem, hR⟩ := rbRemoveNode_spec (is_plug.1 hIs) (right_le hIs)
  rw [← he] at hR
  obtain ⟨X, hX, herase⟩ := hR.is
  have hlen : X.keys.length = (T i).keys.length - 1 := by rw [herase, List.length_erase_of_mem hp]
  have hcount : (s.count i + 2 ^ 32 - 1) % 2 ^ 32 = X.keys.length := by
    have hpos := List.length_pos_of_mem hp
    rw [h.count i hi, hlen]
    omega
  have hout : ∀ k, k ≠ p → k ∉ X.keys → t.node k = s.node k := by
    rw [herase]
    exact hR.other
  refine ⟨t, X, ?_, herase, h.set hi hX fun j hj hne k hk => ?_, hR.child, hout⟩
  · rw [removeAt, hrem, map_some, hcount]
  have hkX : k ∉ X.keys := by
    rw [herase]
    exact fun hm => hne (h.apart j i hj hi k hk (List.mem_of_mem_erase hm))
  have hkp : k ≠ p := fun e => hne (h.apart j i hj hi p (e ▸ hk) hp)
  exact ⟨hkX, hout k hkp hkX⟩

/-- a change of PCBs that leaves the links alone -/
theorem Trees.setPcb (p : PcbId) (v : Pcb) : Trees (s.setPcb p v) T := ⟨h.few, h.is, h.count, h.apart⟩

end

theorem leastLoaded_lt (h : 0 < s.cpuCount) : leastLoaded s < s.cpuCount := by
  -- the CPU is 0 or one of those the loop has seen
  refine List.foldlRecOn (motive := fun m : ℕ × ℕ => m.2 < s.cpuCount) _ _ h fun m hm i hi => ?_
  split_ifs
  · exact mem_range.1 hi
  · exact hm

theorem enqueueCpu_lt (h : 0 < s.cpuCount) (p : PcbId) : enqueueCpu s p < s.cpuCount := by
  unfold enqueueCpu
  split_ifs with hc
  · exact leastLoaded_lt h
  · exact Nat.lt_of_not_le hc

/-- the state in which `sched_enqueue` inserts -/
def readied (s : St) (p : PcbId) : St := s.setPcb p { s.pcb p with cpu := enqueueCpu s p, state := .ready }

/-- where `sched_enqueue` inserts -/
def enqueueSlot (s : St) (p : PcbId) : Slot := (enqueueCpu s p, classOf (s.pcb p).schedClass)

theorem readied_pcb (s : St) (p : PcbId) :
    (readied s p).pcb p = { s.pcb p with cpu := enqueueCpu s p, state := .ready } := update_self _ _ _

theorem readied_pcb_ne {k : PcbId} (s : St) (h : k ≠ p) : (readied s p).pcb k = s.pcb k := update_of_ne h _ _

theorem readied_prio (s : St) (p : PcbId) : (readied s p).prio = s.prio :=
  funext fun k => update_keep Pcb.priority s.pcb k rfl

/-- **Enqueue.** A process that is in no tree goes into the tree of its class on its CPU, behind all processes that are
not less urgent. -/
theorem schedEnqueue_spec (h : Trees s T) (hp : ∀ j : Slot, j.1 < s.cpuCount → p ∉ (T j).keys)
    (hlock : (s.rq (enqueueCpu s p)).lock = false) :
    ∃ t X L R, schedEnqueue s p = some ((readied s p).setTree (enqueueSlot s p) t X.keys.length) ∧
      Inserted (readied s p) T (enqueueSlot s p) p t X L R := by
  have hc := enqueueCpu_lt h.few.1 p
  have hmod : enqueueCpu s p % 256 = enqueueCpu s p := by
    have hfew := h.few.2
    rw [maxCpus] at hfew
    exact Nat.mod_eq_of_lt (by omega)
  have hslot : (enqueueCpu s p, classOf ((readied s p).pcb p).schedClass) = enqueueSlot s p := by
    rw [readied_pcb]
    rfl
  obtain ⟨t, X, L, R, h1, h2⟩ := insertAt_spec (h.setPcb p _) hp (s := readied s p) hc
  rw [hslot] at h1 h2
  refine ⟨t, X, L, R, ?_, h2⟩
  rw [schedEnqueue]
  simp only [hmod]
  exact (if_neg (by rw [Bool.not_eq_true]; exact hlock)).trans h1

/-- **Dequeue.** The first process of the best class that is not empty, or the idle process. -/
theorem schedDequeue_spec (h : Trees s T) (hc : cpu < s.cpuCount) :
    (bestClass s cpu = none ∧ schedDequeue s cpu = some ((s.rq cpu).idlePcb, s)) ∨
    ∃ c p rest t X, bestClass s cpu = some c ∧ (T (cpu, c)).keys = p :: rest ∧ X.keys = rest ∧
      schedDequeue s cpu = some (p, s.setTree (cpu, c) t X.keys.length) ∧ Extracted s T (cpu, c) p t X := by
  rcases hb : bestClass s cpu with _ | c
  · refine Or.inl ⟨rfl, ?_⟩
    rw [schedDequeue, hb]
  have hpos : 0 < s.count (cpu, c) := by
    have hf := List.find?_some hb
    exact of_decide_eq_true hf
  rw [h.count (cpu, c) hc] at hpos
  obtain ⟨p, rest, hkeys⟩ : ∃ p rest, (T (cpu, c)).keys = p :: rest := List.exists_cons_of_length_pos hpos
  have hsize := h.size_le (i := (cpu, c)) hc
  have hfuel : (T (cpu, c)).keys.length ≤ rbFuel := hsize.trans (by decide)
  have hleft := rbLeftmost_spec (h.is (cpu, c) hc) hfuel
  rw [hkeys, List.head?_cons] at hleft
  obtain ⟨t, X, h1, h2, h3⟩ := removeAt_spec h (i := (cpu, c)) hc (hkeys ▸ mem_cons_self)
  rw [hkeys, List.erase_cons_head] at h2
  refine Or.inr ⟨c, p, rest, t, X, rfl, hkeys, h2, ?_, h3⟩
  rw [schedDequeue, hb]
  simp only [hleft, Option.bind_some, h1, map_some]

/-- the best class, in terms of the trees -/
theorem bestClass_eq (h : Trees s T) (hc : cpu < s.cpuCount) :
    bestClass s cpu = [Class.rt, .intr, .batch].find? fun c => decide ((T (cpu, c)).keys ≠ []) := by
  refine congrArg (find? · _) (funext fun c => ?_)
  rw [h.count (cpu, c) hc, decide_eq_decide, List.length_pos_iff]

end Trees

/-! ## Runs -/

structure QSys where
  st : St
  /-- the queued processes of each CPU and class, in the order of their arrival -/
  queue : Slot → List PcbId
  /-- all enqueued so far -/
  put : List PcbId
  /-- all dequeued so far, without the idle processes -/
  got : List PcbId

def classes : List Class := [.rt, .intr, .batch]

theorem mem_classes (c : Class) : c ∈ classes := by cases c <;> decide

/-- all queued processes -/
def QSys.queued (y : QSys) : List PcbId :=
  (range y.st.cpuCount).flatMap fun c => classes.flatMap fun k => y.queue (c, k)

def PcbId.isIdle : PcbId → Bool
  | .idle _ => true
  | _ => false

inductive QOp where
  | enqueue (p : PcbId)
  | dequeue (cpu : ℕ)
  /-- the class, the CPU and the priority of a process that is not queued are set -/
  | adjust (p : PcbId) (cls cpu : ℕ) (prio : ℤ)

def qstep (y : QSys) : QOp → Option QSys
  | .enqueue p =>
    if p ∈ y.queued ∨ p.isIdle then none
    else (schedEnqueue y.st p).map fun s =>
      let i := ((s.pcb p).cpu, classOf (s.pcb p).schedClass)
      ⟨s, update y.queue i (y.queue i ++ [p]), p :: y.put, y.got⟩
  | .dequeue cpu =>
    if cpu < y.st.cpuCount then (schedDequeue y.st cpu).map fun r =>
      ⟨r.2, fun i => (y.queue i).erase r.1, y.put, if r.1.isIdle then y.got else r.1 :: y.got⟩
    else none
  | .adjust p cls cpu prio =>
    if p ∈ y.queued then none
    else some { y with st := y.st.setPcb p { y.st.pcb p with schedClass := cls, cpu := cpu, priority := prio } }

def qrun (y : QSys) : List QOp → Option QSys
  | [] => some y
  | o :: ops => (qstep y o).bind fun y' => qrun y' ops

/-- after `sched_init` -/
def QSys.start (s : St) (cpuCount : ℕ) : QSys := ⟨schedInit s cpuCount, fun _ => [], [], []⟩

/-- what a queue should return next: the first arrival of least priority in the best class, or the idle process -/
def QSys.best (y : QSys) (cpu : ℕ) : PcbId :=
  match classes.find? fun c => decide (y.queue (cpu, c) ≠ []) with
  | none => (y.st.rq cpu).idlePcb
  | some c => (pick y.st.prio (y.queue (cpu, c))).getD (y.st.rq cpu).idlePcb

structure QInv (y : QSys) (T : Slot → KTree PcbId) : Prop where
  trees : Trees y.st T
  stable : ∀ i : Slot, i.1 < y.st.cpuCount → Stable y.st.prio (y.queue i) (T i).keys
  home : ∀ i : Slot, i.1 < y.st.cpuCount → ∀ p ∈ y.queue i,
    (y.st.pcb p).cpu = i.1 ∧ classOf (y.st.pcb p).schedClass = i.2 ∧ p.isIdle = false
  free : ∀ c < y.st.cpuCount, (y.st.rq c).lock = false ∧ (y.st.rq c).idlePcb.isIdle = true
  once : ∀ p, y.put.count p = y.got.count p + if p ∈ y.queued then 1 else 0

section Runs

variable {y y' : QSys} {T : Slot → KTree PcbId} {p : PcbId}

theorem mem_queued : p ∈ y.queued ↔ ∃ i : Slot, i.1 < y.st.cpuCount ∧ p ∈ y.queue i := by
  simp only [QSys.queued, List.mem_flatMap, mem_range]
  constructor
  · rintro ⟨c, hc, k, -, hp⟩
    exact ⟨(c, k), hc, hp⟩
  · rintro ⟨⟨c, k⟩, hc, hp⟩
    exact ⟨c, hc, k, mem_classes k, hp⟩

section

variable (h : QInv y T) {i : Slot}
include h

/-- queued processes are those in the trees -/
theorem QInv.mem_tree (hi : i.1 < y.st.cpuCount) (p : PcbId) :
    p ∈ (T i).keys ↔ p ∈ y.queue i := (h.stable i hi).mem_iff p

theorem QInv.not_in_tree (hp : p ∉ y.queued) (i : Slot) (hi : i.1 < y.st.cpuCount) : p ∉ (T i).keys :=
  fun hm => hp (mem_queued.2 ⟨i, hi, (h.mem_tree hi p).1 hm⟩)

theorem QInv.nodup (hi : i.1 < y.st.cpuCount) : (y.queue i).Nodup :=
  (h.stable i hi).perm.nodup_iff.1 (h.trees.is i hi).nodup

/-- a process is in one queue only -/
theorem QInv.erase_other {j : Slot} (hi : i.1 < y.st.cpuCount) (hj : j.1 < y.st.cpuCount) (hp : p ∈ y.queue j)
    (hne : i ≠ j) : (y.queue i).erase p = y.queue i := by
  refine List.erase_of_not_mem fun hm => hne ?_
  exact h.trees.apart i j hi hj p ((h.mem_tree hi p).2 hm) ((h.mem_tree hj p).2 hp)

theorem enqueue_inv (hs : qstep y (.enqueue p) = some y') : ∃ T', QInv y' T' := by
  simp only [qstep] at hs
  split_ifs at hs with hno
  rw [not_or, Bool.not_eq_true] at hno
  have hlock := (h.free _ (enqueueCpu_lt h.trees.few.1 p)).1
  obtain ⟨t, X, L, R, h1, h2, h3, h4, -, h6⟩ := schedEnqueue_spec h.trees (h.not_in_tree hno.1) hlock
  rw [h1, map_some] at hs
  have hslot : ((((readied y.st p).setTree (enqueueSlot y.st p) t X.keys.length).pcb p).cpu,
      classOf (((readied y.st p).setTree (enqueueSlot y.st p) t X.keys.length).pcb p).schedClass) =
      enqueueSlot y.st p := by
    rw [setTree_pcb, readied_pcb]
    rfl
  rw [hslot] at hs
  cases hs
  generalize hi : enqueueSlot y.st p = i at *
  have hic : i.1 < y.st.cpuCount := by
    rw [← hi]
    exact enqueueCpu_lt h.trees.few.1 p
  refine ⟨_, h4, fun j hj => ?_, fun j hj k hk => ?_, fun c hc => ?_, fun k => ?_⟩
  · have hprio : ((readied y.st p).setTree i t X.keys.length).prio = y.st.prio := readied_prio y.st p
    simp only [hprio]
    by_cases e : j = i
    · subst e
      rw [update_self, update_self, h3]
      have hst := h.stable j hj
      rw [h2] at hst
      rw [readied_prio] at h6
      obtain ⟨hL, hR⟩ := h6 hst.sorted
      exact hst.insert hL hR
    · rw [update_of_ne e, update_of_ne e]
      exact h.stable j hj
  · by_cases ek : k = p
    · subst ek
      -- p is only in the queue it was put in
      have hji : j = i := by
        by_contra e
        simp only [update_of_ne e] at hk
        exact hno.1 (mem_queued.2 ⟨j, hj, hk⟩)
      subst hji
      simp only [setTree_pcb, readied_pcb]
      rw [← hi]
      exact ⟨rfl, rfl, hno.2⟩
    · have hk' : k ∈ y.queue j := by
        by_cases e : j = i
        · subst e
          simp only [update_self, mem_append, List.mem_singleton] at hk
          exact hk.resolve_right ek
        · simpa only [update_of_ne e] using hk
      simp only [setTree_pcb, readied_pcb_ne _ ek]
      exact h.home j hj k hk'
  · obtain ⟨e1, e2⟩ := setTree_rq (readied y.st p) i t X.keys.length c
    simp only [e1, e2]
    exact h.free c hc
  have honce := h.once k
  by_cases ek : k = p
  · subst ek
    have hmem : k ∈ QSys.queued ⟨(readied y.st k).setTree i t X.keys.length,
        update y.queue i (y.queue i ++ [k]), k :: y.put, y.got⟩ := by
      refine mem_queued.2 ⟨i, hic, ?_⟩
      simp only [update_self]
      exact List.mem_append_right _ (List.mem_singleton_self k)
    rw [if_neg hno.1] at honce
    rw [if_pos hmem, List.count_cons_self, honce]
  have hmem : k ∈ QSys.queued ⟨(readied y.st p).setTree i t X.keys.length,
      update y.queue i (y.queue i ++ [p]), p :: y.put, y.got⟩ ↔ k ∈ y.queued := by
    rw [mem_queued, mem_queued]
    refine exists_congr fun j => and_congr_right fun _ => ?_
    by_cases e : j = i
    · subst e
      simp [ek]
    · simp only [update_of_ne e]
  rw [List.count_cons_of_ne (Ne.symm ek), honce]
  simp only [hmem]

/-- an idle process is in no queue -/
theorem QInv.idle_not_mem (hi : i.1 < y.st.cpuCount) (hp : p.isIdle = true) : p ∉ y.queue i := by
  intro hm
  rw [(h.home i hi p hm).2.2] at hp
  cases hp

theorem dequeue_inv (hs : qstep y (.dequeue cpu) = some y') : ∃ T', QInv y' T' := by
  simp only [qstep] at hs
  split_ifs at hs with hc
  rcases schedDequeue_spec h.trees hc with ⟨-, hd⟩ | ⟨c, p, rest, t, X, -, hkeys, hX, hd, htrees, -⟩
  · -- nothing is queued, and nothing changes
    rw [hd, map_some] at hs
    cases hs
    have hidle := (h.free cpu hc).2
    have hsame : ∀ i : Slot, i.1 < y.st.cpuCount → (y.queue i).erase (y.st.rq cpu).idlePcb = y.queue i :=
      fun i hi => List.erase_of_not_mem (h.idle_not_mem hi hidle)
    refine ⟨T, h.trees, fun i hi => ?_, fun i hi p hp => ?_, h.free, fun p => ?_⟩
    · simp only [hsame i hi]
      exact h.stable i hi
    · simp only [hsame i hi] at hp
      exact h.home i hi p hp
    have hmem : p ∈ QSys.queued ⟨y.st, fun i => (y.queue i).erase (y.st.rq cpu).idlePcb, y.put, y.got⟩ ↔
        p ∈ y.queued := by
      rw [mem_queued, mem_queued]
      refine exists_congr fun i => and_congr_right fun hi => ?_
      simp only [hsame i hi]
    simp only [hidle, if_true, hmem]
    exact h.once p
  rw [hd, map_some] at hs
  cases hs
  have hpq : p ∈ y.queue (cpu, c) := (h.mem_tree (i := (cpu, c)) hc p).1 (hkeys ▸ mem_cons_self)
  have hnot := (h.home (cpu, c) hc p hpq).2.2
  refine ⟨_, htrees, fun i hi => ?_, fun i hi k hk => ?_, fun d hd' => ?_, fun k => ?_⟩
  · show Stable y.st.prio ((y.queue i).erase p) _
    by_cases e : i = (cpu, c)
    · subst e
      rw [update_self, hX]
      have hst := h.stable (cpu, c) hi
      rw [hkeys] at hst
      exact hst.tail
    · rw [update_of_ne e, h.erase_other hi hc hpq e]
      exact h.stable i hi
  · exact h.home i hi k (List.mem_of_mem_erase hk)
  · obtain ⟨e1, e2⟩ := setTree_rq y.st (cpu, c) t X.keys.length d
    simp only [e1, e2]
    exact h.free d hd'
  have honce := h.once k
  simp only [hnot, Bool.false_eq_true, if_false]
  by_cases ek : k = p
  · subst ek
    have hmem : k ∉ QSys.queued ⟨y.st.setTree (cpu, c) t X.keys.length, fun i => (y.queue i).erase k, y.put,
        k :: y.got⟩ := by
      rw [mem_queued]
      rintro ⟨i, hi, hk⟩
      exact (h.nodup hi).not_mem_erase hk
    rw [if_pos (mem_queued.2 ⟨(cpu, c), hc, hpq⟩)] at honce
    rw [if_neg hmem, List.count_cons_self, honce]
  · have hmem : k ∈ QSys.queued ⟨y.st.setTree (cpu, c) t X.keys.length, fun i => (y.queue i).erase p, y.put,
        p :: y.got⟩ ↔ k ∈ y.queued := by
      rw [mem_queued, mem_queued]
      exact exists_congr fun i => and_congr_right fun _ => List.mem_erase_of_ne ek
    rw [List.count_cons_of_ne (Ne.symm ek), honce]
    simp only [hmem]

theorem adjust_inv {cls : ℕ} {prio : ℤ} (hs : qstep y (.adjust p cls cpu prio) = some y') : QInv y' T := by
  simp only [qstep] at hs
  split_ifs at hs with hno
  cases hs
  -- the PCBs of queued processes are as they were
  have hsame : ∀ i : Slot, i.1 < y.st.cpuCount → ∀ k ∈ y.queue i, ∀ v, (y.st.setPcb p v).pcb k = y.st.pcb k := by
    intro i hi k hk v
    refine update_of_ne (fun e => hno ?_) _ _
    exact mem_queued.2 ⟨i, hi, e ▸ hk⟩
  refine ⟨h.trees.setPcb p _, fun i hi => ?_, fun i hi k hk => ?_, h.free, h.once⟩
  · refine (h.stable i hi).congr fun k hk => ?_
    rw [St.prio, hsame i hi k hk]
    rfl
  · simp only [hsame i hi k hk]
    exact h.home i hi k hk

theorem qstep_inv {o : QOp} (hs : qstep y o = some y') : ∃ T', QInv y' T' := by
  cases o with
  | enqueue p => exact enqueue_inv h hs
  | dequeue cpu => exact dequeue_inv h hs
  | adjust p cls cpu prio => exact ⟨T, adjust_inv h hs⟩

theorem qrun_inv {ops : List QOp} (hr : qrun y ops = some y') : ∃ T', QInv y' T' := by
  induction ops generalizing y T with
  | nil =>
    cases hr
    exact ⟨T, h⟩
  | cons o ops ih =>
    obtain ⟨y1, h1, h2⟩ := Option.bind_eq_some_iff.1 hr
    obtain ⟨T1, hi⟩ := qstep_inv h h1
    exact ih hi h2

end

theorem schedInit_cpuCount (s : St) (n : ℕ) : (schedInit s n).cpuCount = if maxCpus < n then maxCpus else n := rfl

/-- the run queues of the first CPUs after `sched_init` -/
theorem schedInit_rq (s : St) {n c : ℕ} (hc : c < (schedInit s n).cpuCount) :
    ∃ d : Fin maxCpus, d.val = c ∧ (schedInit s n).rq c = initRunq d := by
  rw [schedInit_cpuCount] at hc
  have hlt : c < maxCpus := by
    split_ifs at hc
    · exact hc
    · omega
  refine ⟨⟨c, hlt⟩, rfl, ?_⟩
  simp only [schedInit, dif_pos hlt]
  exact if_pos hc

theorem start_inv (s : St) {n : ℕ} (hn : 0 < n) : QInv (QSys.start s n) fun _ => .nil := by
  have hfew : 0 < (schedInit s n).cpuCount ∧ (schedInit s n).cpuCount ≤ maxCpus := by
    rw [schedInit_cpuCount]
    split_ifs with h
    · decide
    · omega
  have hempty : ∀ p, p ∉ (QSys.start s n).queued := by
    intro p hp
    obtain ⟨i, -, hm⟩ := mem_queued.1 hp
    cases hm
  refine ⟨⟨hfew, fun i hi => ?_, fun i hi => ?_, fun i j _ _ p hp => absurd hp List.not_mem_nil⟩, fun i _ => Stable.nil _,
    fun i _ p hp => absurd hp List.not_mem_nil, fun c hc => ?_, fun p => ?_⟩
  · obtain ⟨d, -, hrq⟩ := schedInit_rq s hi
    refine ⟨trivial, ?_, List.nodup_nil⟩
    show ((schedInit s n).rq i.1).root i.2 = none
    rw [hrq]
    rfl
  · obtain ⟨d, -, hrq⟩ := schedInit_rq s hi
    show ((schedInit s n).rq i.1).count i.2 = 0
    rw [hrq]
    rfl
  · obtain ⟨d, -, hrq⟩ := schedInit_rq s hc
    show ((schedInit s n).rq c).lock = false ∧ ((schedInit s n).rq c).idlePcb.isIdle = true
    rw [hrq]
    exact ⟨rfl, rfl⟩
  · rw [if_neg (hempty p)]
    rfl

section

variable (h : QInv y T) (hc : cpu < y.st.cpuCount)
include h hc

/-- the best class, in terms of the arrivals -/
theorem QInv.bestClass_eq :
    (classes.find? fun c => decide (y.queue (cpu, c) ≠ [])) = bestClass y.st cpu := by
  rw [Sched.bestClass_eq h.trees hc]
  refine congrArg (find? · _) (funext fun c => ?_)
  have hp := (h.stable (cpu, c) hc).perm
  rw [decide_eq_decide, not_iff_not]
  constructor
  · intro e
    rw [e] at hp
    exact hp.eq_nil
  · intro e
    rw [e] at hp
    exact hp.symm.eq_nil

/-- what `sched_dequeue` returns -/
theorem QInv.dequeue_best :
    ∃ s', schedDequeue y.st cpu = some (y.best cpu, s') := by
  rcases schedDequeue_spec h.trees hc with ⟨hb, hd⟩ | ⟨c, p, rest, t, X, hb, hkeys, -, hd, -⟩
  · refine ⟨y.st, ?_⟩
    rw [QSys.best, h.bestClass_eq hc, hb]
    exact hd
  have hst := h.stable (cpu, c) hc
  rw [hkeys] at hst
  refine ⟨y.st.setTree (cpu, c) t X.keys.length, ?_⟩
  rw [QSys.best, h.bestClass_eq hc, hb]
  simp only [hst.pick, getD_some]
  exact hd

/-- the idle process is next exactly when nothing is queued -/
theorem QInv.best_idle :
    y.best cpu = (y.st.rq cpu).idlePcb ↔ ∀ c, y.queue (cpu, c) = [] := by
  rcases hf : classes.find? (fun c => decide (y.queue (cpu, c) ≠ [])) with _ | c
  · simp only [QSys.best, hf, true_iff]
    intro c
    have hc' := List.find?_eq_none.1 hf c (mem_classes c)
    simpa using hc'
  have hne : y.queue (cpu, c) ≠ [] := by
    have hsome := List.find?_some hf
    exact of_decide_eq_true hsome
  simp only [QSys.best, hf]
  constructor
  · intro hidle
    rcases hp : pick y.st.prio (y.queue (cpu, c)) with _ | p
    · exact absurd ((h.stable (cpu, c) hc).pick_eq_none.1 hp) hne
    · rw [hp, getD_some] at hidle
      have hmem : p ∈ y.queue (cpu, c) := List.mem_of_find?_eq_some hp
      exact absurd (hidle ▸ hmem) (h.idle_not_mem (i := (cpu, c)) hc (h.free cpu hc).2)
  · intro hall
    exact absurd (hall c) hne

/-- the number of processes queued on a CPU -/
def QSys.waiting (y : QSys) (cpu : ℕ) : ℕ := (classes.map fun c => (y.queue (cpu, c)).length).sum

/-- a dequeue while something is queued takes one process away -/
theorem QInv.dequeue_one (hpos : 0 < y.waiting cpu) :
    ∃ y1, qstep y (.dequeue cpu) = some y1 ∧ y1.waiting cpu + 1 = y.waiting cpu ∧
      y1.st.cpuCount = y.st.cpuCount := by
  rcases schedDequeue_spec h.trees hc with ⟨hb, -⟩ | ⟨c, p, rest, t, X, -, hkeys, -, hd, -⟩
  · -- no class has a queued process
    rw [← h.bestClass_eq hc, List.find?_eq_none] at hb
    refine absurd hpos ?_
    have hz : y.waiting cpu = 0 := by
      refine List.sum_eq_zero fun n hn => ?_
      obtain ⟨c, hcm, rfl⟩ := mem_map.1 hn
      have hnil := hb c hcm
      simp only [ne_eq, decide_not, Bool.not_eq_true', Bool.not_eq_false, decide_eq_true_eq] at hnil
      rw [hnil]
      rfl
    rw [hz]
    exact lt_irrefl 0
  refine ⟨⟨y.st.setTree (cpu, c) t X.keys.length, fun i => (y.queue i).erase p, y.put,
    if p.isIdle then y.got else p :: y.got⟩, ?_, ?_, rfl⟩
  · simp only [qstep, if_pos hc, hd, map_some]
  have hpq : p ∈ y.queue (cpu, c) := (h.mem_tree (i := (cpu, c)) hc p).1 (hkeys ▸ mem_cons_self)
  have hlen := List.length_erase_of_mem hpq
  have hlpos := List.length_pos_of_mem hpq
  have hother : ∀ d, d ≠ c → (y.queue (cpu, d)).erase p = y.queue (cpu, d) :=
    fun d hne => h.erase_other (i := (cpu, d)) hc hc hpq fun e => hne (congrArg Prod.snd e)
  simp only [QSys.waiting, classes, List.map_cons, List.map_nil, List.sum_cons, List.sum_nil]
  cases c <;> simp (disch := decide) only [hlen, hother] <;> omega

/-- so as many dequeues as there are queued processes empty the queues of a CPU -/
theorem QInv.drain :
    ∃ y', qrun y (List.replicate (y.waiting cpu) (.dequeue cpu)) = some y' ∧ ∀ c, y'.queue (cpu, c) = [] := by
  generalize hk : y.waiting cpu = k
  induction k generalizing y T with
  | zero =>
    refine ⟨y, rfl, fun c => ?_⟩
    have hmem : (y.queue (cpu, c)).length ∈ classes.map fun c => (y.queue (cpu, c)).length :=
      mem_map.2 ⟨c, mem_classes c, rfl⟩
    exact List.length_eq_zero_iff.1 (Nat.le_zero.1 (hk ▸ List.single_le_sum (fun _ _ => Nat.zero_le _) _ hmem))
  | succ k ih =>
    obtain ⟨y1, h1, h2, h3⟩ := h.dequeue_one hc (hk ▸ Nat.succ_pos k)
    obtain ⟨T1, hi⟩ := dequeue_inv h h1
    obtain ⟨y', hr, he⟩ := ih hi (h3 ▸ hc) (by omega)
    refine ⟨y', ?_, he⟩
    rw [List.replicate_succ, qrun, h1]
    exact hr

end

end Runs

/-- what the run queues promise -/
structure QueueSound (y : QSys) : Prop where
  /-- calls return, and a dequeue returns the first arrival of least priority in the best class -/
  next : ∀ cpu < y.st.cpuCount, ∃ s', schedDequeue y.st cpu = some (y.best cpu, s')
  accepts : ∀ p, p ∉ y.queued → p.isIdle = false → ∃ s', schedEnqueue y.st p = some s'
  idle : ∀ cpu < y.st.cpuCount, y.best cpu = (y.st.rq cpu).idlePcb ↔ ∀ c, y.queue (cpu, c) = []
  /-- queues hold processes of their class and CPU -/
  home : ∀ cpu < y.st.cpuCount, ∀ c, ∀ p ∈ y.queue (cpu, c),
    (y.st.pcb p).cpu = cpu ∧ classOf (y.st.pcb p).schedClass = c
  /-- every process is returned as often as it was enqueued, but for the one time it may still be queued -/
  once : ∀ p, y.put.count p = y.got.count p + if p ∈ y.queued then 1 else 0
  drains : ∀ cpu < y.st.cpuCount, ∃ y', qrun y (List.replicate (y.waiting cpu) (.dequeue cpu)) = some y' ∧
    ∀ c, y'.queue (cpu, c) = []
  /-- counts are the sizes of the trees, which hold the queued processes -/
  count : ∀ cpu < y.st.cpuCount, ∀ c, ∃ T, Is (y.st.store (cpu, c)) T ∧ T.keys.Perm (y.queue (cpu, c)) ∧
    y.st.count (cpu, c) = T.keys.length

/-- **The run queues are priority queues with first-in first-out ties.** For any number of CPUs, in every state of every
run. -/
theorem queue_run_sound (s : St) {n : ℕ} (hn : 0 < n) {ops : List QOp} {y : QSys}
    (hr : qrun (QSys.start s n) ops = some y) : QueueSound y := by
  obtain ⟨T, h⟩ := qrun_inv (start_inv s hn) hr
  refine ⟨fun cpu hc => h.dequeue_best hc, fun p hp hi => ?_, fun cpu hc => h.best_idle hc, fun cpu hc c p hp => ?_,
    h.once, fun cpu hc => h.drain hc, fun cpu hc c => ?_⟩
  · have hlock := (h.free _ (enqueueCpu_lt h.trees.few.1 p)).1
    obtain ⟨t, X, -, -, h1, -⟩ := schedEnqueue_spec h.trees (h.not_in_tree hp) hlock
    exact ⟨_, h1⟩
  · exact ⟨(h.home (cpu, c) hc p hp).1, (h.home (cpu, c) hc p hp).2.1⟩
  · exact ⟨T (cpu, c), h.trees.is (cpu, c) hc, (h.stable (cpu, c) hc).perm, h.trees.count (cpu, c) hc⟩

/-- an INTR process and an RT process: the RT process comes first -/
theorem queue_run_sound_two : ∃ a b y, qrun (QSys.start St.zero 1)
    [.adjust a 1 0 5, .enqueue a, .enqueue b, .dequeue 0] = some y ∧ y.got = [b] ∧ QueueSound y := by
  let a : PcbId := .proc ⟨0, by decide⟩
  let b : PcbId := .proc ⟨1, by decide⟩
  have hrun : (qrun (QSys.start St.zero 1) [.adjust a 1 0 5, .enqueue a, .enqueue b, .dequeue 0]).map QSys.got =
      some [b] := rfl
  obtain ⟨y, hy, hgot⟩ := Option.map_eq_some_iff.1 hrun
  exact ⟨a, b, y, hy, hgot, queue_run_sound St.zero Nat.one_pos hy⟩

end OpenASD.Sched
