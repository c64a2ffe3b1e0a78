/-
The break of a process (kernel/arch/syscall.c: sys_brk), between system calls and page faults of all processes.

`g_brk_cur` is one variable for the whole kernel. `brk_run_sound`: for a process p the answers of its own sys_brk calls do
not depend on the sys_brk calls of the others, and every page below a break that it was granted is backed in its own
address space, in every run in which the others only ask for the break and every growth of p finds four free pages for each
page. `break_shared`: one growth of another process changes the answer that p gets, and then p is granted a break below
which it has no pages.
-/
import OpenASD.Arch.Memory

namespace OpenASD.Arch

open Mm

/-! ## What a process sees -/

/-- all calls but the sys_brk calls of other processes -/
def own (p : ℕ) : Call → Bool
  | .brk q _ => decide (q = p)
  | _ => true

/-- the answer to p, if the call is a sys_brk of p -/
def answer (p : ℕ) (x : MemSt) : Call → List ℕ
  | .brk q n => if q = p then [(sysBrk x q n).1] else []
  | _ => []

def answers (p : ℕ) : MemSt → List Call → List ℕ
  | _, [] => []
  | x, c :: cs => answer p x c ++ answers p (step x c) cs

/-- the others only ask for the break, or have no address space; a growth of p finds four free pages for each page -/
def Cond (p : ℕ) (x : MemSt) : Call → Prop
  | .brk q n =>
    if q = p then x.brk < n → n ≤ brkBase + brkLimit → 4 * growPages x.brk n ≤ freeSum x.vm.phys.lists
    else idle n ∨ x.vaMap q = none
  | _ => True

/-- every step of the run meets the condition -/
def Meets (p : ℕ) : MemSt → List Call → Prop
  | _, [] => True
  | x, c :: cs => Cond p x c ∧ Meets p (step x c) cs

/-! ## Two runs -/

/-- 0 stands for BRK_BASE -/
def MemSt.norm (x : MemSt) : MemSt := { x with brkCur := x.brk }

section

variable (x : MemSt)
include x

theorem norm_brk : x.norm.brk = x.brk := by
  unfold MemSt.norm MemSt.brk
  by_cases h : x.brkCur = 0 <;> simp [h]

theorem norm_norm : x.norm.norm = x.norm := by
  have h : x.norm.norm = { x.norm with brkCur := x.norm.brk } := rfl
  rw [h, norm_brk]
  rfl

/-- sys_brk writes the break before it looks at it -/
theorem sysBrk_norm (p n : ℕ) :
    (sysBrk x.norm p n).1 = (sysBrk x p n).1 ∧ (sysBrk x.norm p n).2.norm = (sysBrk x p n).2.norm := by
  unfold sysBrk
  have hmap : x.norm.vaMap p = x.vaMap p := rfl
  rw [hmap]
  cases x.vaMap p with
  | none => exact ⟨rfl, norm_norm x⟩
  | some i =>
    simp only [norm_brk]
    exact ⟨rfl, rfl⟩

theorem sysMmap_norm (p len prot flags fd : ℕ) :
    (sysMmap x.norm p len prot flags fd).2 = (sysMmap x p len prot flags fd).2.norm := by
  unfold sysMmap
  split_ifs with h1
  · rfl
  have hmap : x.norm.vaMap p = x.vaMap p := rfl
  have hbump : x.norm.mmapBump = x.mmapBump := rfl
  have hvm : x.norm.vm = x.vm := rfl
  rw [hmap, hbump, hvm]
  cases x.vaMap p with
  | none => rfl
  | some i =>
    dsimp only
    split_ifs <;> rfl

theorem pageFault_norm (p cr2 : ℕ) (write : Bool) : pageFault x.norm p cr2 write = (pageFault x p cr2 write).norm := by
  unfold pageFault
  have hmap : x.norm.vaMap p = x.vaMap p := rfl
  rw [hmap]
  cases x.vaMap p with
  | none | some i => rfl

theorem step_norm (c : Call) : (step x.norm c).norm = (step x c).norm := by
  cases c with
  | brk q n => exact (sysBrk_norm x q n).2
  | mmap q len prot flags fd =>
    show (sysMmap x.norm q len prot flags fd).2.norm = _
    rw [sysMmap_norm, norm_norm]
    rfl
  | fault q cr2 write =>
    show (pageFault x.norm q cr2 write).norm = _
    rw [pageFault_norm, norm_norm]
    rfl

end

theorem answer_norm (p : ℕ) (x : MemSt) (c : Call) : answer p x.norm c = answer p x c := by
  cases c with
  | brk q n => rw [answer, answer, (sysBrk_norm x q n).1]
  | mmap q len prot flags fd | fault q cr2 write => rfl

variable {x : MemSt}

theorem answers_norm (p : ℕ) {y : MemSt} (h : x.norm = y.norm) (c : List Call) : answers p x c = answers p y c := by
  induction c generalizing x y with
  | nil => rfl
  | cons a c ih =>
    have hstep : (step x a).norm = (step y a).norm := by rw [← step_norm x, h, step_norm y]
    rw [answers, answers, ih hstep, ← answer_norm p x, h, answer_norm p y]

variable {n : ℕ}

/-- a request that only asks leaves the state as it is -/
theorem idle_norm {q : ℕ} (h : idle n ∨ x.vaMap q = none) : (sysBrk x q n).2.norm = x.norm := by
  obtain ⟨-, he⟩ | ⟨i, hi, he | ⟨hidle, -⟩⟩ := sysBrk_cases x q n
  · rw [he]
  · rw [he]
    exact norm_norm x
  rcases h with h | h
  · exact absurd h hidle
  · rw [h] at hi
    cases hi

variable {c : List Call}

/-- the answers are those of the run without the sys_brk calls of the others -/
theorem answers_own {p : ℕ} (h : Meets p x c) :
    answers p x c = answers p x (c.filter (own p)) := by
  induction c generalizing x with
  | nil => rfl
  | cons a c ih =>
    obtain ⟨ha, hc⟩ := h
    cases hown : own p a with
    | true => rw [List.filter_cons_of_pos hown, answers, answers, ih hc]
    | false =>
      rw [List.filter_cons_of_neg (by simp [hown]), answers]
      cases a with
      | brk q n =>
        have hq : q ≠ p := by simpa [own] using hown
        rw [Cond, if_neg hq] at ha
        rw [answer, if_neg hq, List.nil_append, ih hc]
        exact answers_norm p (idle_norm ha) _
      | mmap q len prot flags fd | fault q cr2 write => cases hown

/-! ## The pages below the break -/

/-- every page from BRK_BASE to lim is backed in the address space of p -/
def HeapBacked (root : ℕ → Option ℕ) (p : ℕ) (x : MemSt) (lim : ℕ) : Prop :=
  ∀ i, x.vaMap p = some i → ∀ va, brkBase ≤ va → va < lim → Backed root x.vm.phys.mem i va

section

variable {S : ℕ → Prop} {root : ℕ → Option ℕ} {x x' : MemSt} {p : ℕ}

theorem HeapBacked.extends {lim lim' : ℕ} (h : HeapBacked root p x lim) (he : Extends root x x') (hlim : lim' ≤ lim)
    (hlow : lim' ≤ brkBase + brkLimit) : HeapBacked root p x' lim' := by
  intro i hi va h1 h2
  have hva : va < 2 ^ 47 := by
    simp only [brkBase, brkLimit] at *
    omega
  rw [he.vaMap] at hi
  exact he.backed i va (user_of_lt hva) (h i hi va h1 (lt_of_lt_of_le h2 hlim))

/-- with the memory there, a growth does not fail -/
theorem Good.grown (hg : Good S root x) {i : ℕ} (hi : x.vaMap p = some i) {v : VmSt} (hv : Arch.ensureHeap x.vm i = some v)
    (hlt : x.brk < n) (hn : n ≤ brkBase + brkLimit) (hmem : 4 * growPages x.brk n ≤ freeSum x.vm.phys.lists) :
    (Arch.growHeap v i x.brk n).1 = true ∧
      ∀ va, pageAlignDown x.brk ≤ va → va < n → Backed root (Arch.growHeap v i x.brk n).2.phys.mem i va := by
  obtain ⟨hgv, -, hphys⟩ := hg.ensureHeap hv
  obtain ⟨-, -, hfull⟩ := hgv.growHeap (p := p) hi hg.brk_range.1 hlt hn
  rw [← hphys] at hmem
  exact hfull hmem

section

variable (h : HeapBacked root p x x.brk) (hg : Good S root x)
include h hg

/-- a sys_brk of p itself leaves the pages below the break backed -/
theorem HeapBacked.sysBrk (hc : Cond p x (.brk p n)) :
    HeapBacked root p (sysBrk x p n).2 (sysBrk x p n).2.brk := by
  obtain ⟨-, hb2⟩ := hg.brk_range
  obtain ⟨hgood, hext⟩ := hg.sysBrk p n
  obtain ⟨-, hr⟩ := hgood.brk_range
  rw [Cond, if_pos rfl] at hc
  obtain ⟨-, he⟩ | ⟨i, hi, he | ⟨hidle, v, hv, hcase⟩⟩ := sysBrk_cases x p n
  · rw [he]
    exact h
  · refine h.extends hext (le_of_eq ?_) hr
    rw [he]
    exact norm_brk x
  simp only [idle, not_or, not_lt] at hidle
  obtain ⟨hlt, hno, he⟩ | ⟨hlt, -, he⟩ | ⟨hle, he⟩ := hcase
  · have hyes := (hg.grown hi hv hlt hidle.2.2 (hc hlt hidle.2.2)).1
    rw [hno] at hyes
    cases hyes
  · have hall := (hg.grown hi hv hlt hidle.2.2 (hc hlt hidle.2.2)).2
    have hbrk : (Arch.sysBrk x p n).2.brk = n := by
      rw [he]
      show (if n = 0 then brkBase else n) = n
      rw [if_neg hidle.1]
    rw [hbrk] at hr ⊢
    intro j hj va h1 h2
    rw [hext.vaMap, hi] at hj
    cases hj
    by_cases hva : va < x.brk
    · exact (h.extends hext le_rfl hb2) i (by rw [hext.vaMap, hi]) va h1 hva
    · rw [he]
      refine hall va (le_trans ?_ (not_lt.1 hva)) h2
      exact Nat.div_mul_le_self _ _
  · refine h.extends hext ?_ hr
    rw [he]
    show (if n = 0 then brkBase else n) ≤ x.brk
    rw [if_neg hidle.1]
    exact hle

omit h hg in
/-- other calls, and the idle ones of the others, leave the break as it is -/
theorem brk_keep {c : Call} (hc : own p c = false ∧ Cond p x c ∨ ∀ q n, c ≠ .brk q n) : (step x c).brk = x.brk := by
  cases c with
  | brk q n =>
    obtain ⟨hown, hc⟩ | hc := hc
    · rw [Cond, if_neg (by simpa [own] using hown)] at hc
      rw [← norm_brk, step, idle_norm hc, norm_brk]
    · exact absurd rfl (hc q n)
  | mmap q len prot flags fd =>
    obtain ⟨-, he⟩ | ⟨i, -, -, -, -, ⟨-, he⟩ | ⟨-, v, -, he⟩⟩ := sysMmap_cases x q len prot flags fd
    all_goals
      rw [step, he]
      try rfl
  | fault q cr2 write =>
    rw [step, pageFault]
    cases x.vaMap q with
    | none | some i => rfl

/-- **Step.** -/
theorem HeapBacked.step {c : Call} (hc : Cond p x c) :
    HeapBacked root p (step x c) (step x c).brk := by
  obtain ⟨-, hext⟩ := hg.step c
  have hb2 := hg.brk_range.2
  have hkeep : (Arch.step x c).brk = x.brk → HeapBacked root p (Arch.step x c) (Arch.step x c).brk := by
    intro he
    exact h.extends hext he.le (he.le.trans hb2)
  cases hown : own p c with
  | false => exact hkeep (brk_keep (.inl ⟨hown, hc⟩))
  | true =>
    cases c with
    | brk q n =>
      have hq : q = p := by simpa [own] using hown
      subst hq
      exact h.sysBrk hg hc
    | mmap q len prot flags fd | fault q cr2 write => exact hkeep (brk_keep (p := p) (.inr fun _ _ => Call.noConfusion))

/-- **Run.** -/
theorem HeapBacked.run (hc : Meets p x c) :
    HeapBacked root p (run x c) (run x c).brk := by
  induction c generalizing x with
  | nil => exact h
  | cons a c ih => exact ih (h.step hg hc.1) (hg.step a).1 hc.2

end

end

theorem Meets.append {p : ℕ} {d : List Call} (h : Meets p x (c ++ d)) : Meets p x c ∧ Meets p (run x c) d := by
  induction c generalizing x with
  | nil => exact ⟨trivial, h⟩
  | cons a c ih =>
    obtain ⟨h1, h2⟩ := ih h.2
    exact ⟨⟨h.1, h1⟩, h2⟩

/-- **The break of a process is its own**, while the others only ask for it: two runs that agree but for the sys_brk calls of
other processes give p the same answers, and after every growth the pages of p's heap are backed. -/
theorem brk_run_sound {S : ℕ → Prop} {root : ℕ → Option ℕ} {x : MemSt} (hx : Good S root x) (hbrk : x.brk = brkBase) {p : ℕ}
    {c d : List Call} (hc : Meets p x c) (hd : Meets p x d) (hsame : c.filter (own p) = d.filter (own p)) :
    answers p x c = answers p x d ∧ ∀ before n after, c = before ++ .brk p n :: after → (run x before).brk < n →
      (sysBrk (run x before) p n).1 = n → HeapBacked root p (sysBrk (run x before) p n).2 n := by
  refine ⟨by rw [answers_own hc, answers_own hd, hsame], fun before n after he hlt hans => ?_⟩
  rw [he] at hc
  obtain ⟨hb, ha⟩ := hc.append
  have hstart : HeapBacked root p x x.brk := by
    intro i _ va h1 h2
    omega
  have hgood := hx.run before
  have hheap := (hstart.run hx hb).sysBrk hgood ha.1
  -- a growth that was granted has moved the break
  have hmoved : (sysBrk (run x before) p n).2.brk = n := by
    have hne : n ≠ 0 := by omega
    obtain ⟨-, he⟩ | ⟨i, -, he | ⟨-, v, -, ⟨-, -, he⟩ | ⟨-, -, he⟩ | ⟨-, he⟩⟩⟩ := sysBrk_cases (run x before) p n
    all_goals
      rw [he] at hans ⊢
      first
        | exact if_neg hne
        | omega
  rwa [hmoved] at hheap

/-- a process grows its heap by a page, before and without a question of another one -/
theorem brk_run_sound_two : ∃ S root x, Good S root x ∧ x.vaMap 1 = some 0 ∧ x.vaMap 2 = some 1 ∧
    answers 1 x [.brk 2 0, .brk 1 (brkBase + 4096)] = answers 1 x [.brk 1 (brkBase + 4096)] ∧
    ∀ before n after, [.brk 2 0, .brk 1 (brkBase + 4096)] = before ++ .brk 1 n :: after → (run x before).brk < n →
      (sysBrk (run x before) 1 n).1 = n → HeapBacked root 1 (sysBrk (run x before) 1 n).2 n := by
  obtain ⟨root, hg, h1, h2⟩ := twoProcesses_good
  have hbrk : twoProcesses.brk = brkBase := by decide +kernel
  have hnorm : (step twoProcesses (.brk 2 0)).brk = brkBase ∧ (step twoProcesses (.brk 2 0)).vm = twoProcesses.vm := by
    have he : (step twoProcesses (.brk 2 0)).norm = twoProcesses.norm := idle_norm (.inl (.inl rfl))
    have hvm : (step twoProcesses (.brk 2 0)).norm.vm = twoProcesses.norm.vm := congrArg MemSt.vm he
    exact ⟨by rw [← norm_brk, he, norm_brk, hbrk], hvm⟩
  have hmem : 4 * growPages brkBase (brkBase + 4096) ≤ freeSum twoProcesses.vm.phys.lists := by decide +kernel
  have hd : Meets 1 twoProcesses [.brk 1 (brkBase + 4096)] := by
    refine ⟨?_, trivial⟩
    rw [Cond, if_pos rfl, hbrk]
    exact fun _ _ => hmem
  have hc : Meets 1 twoProcesses [.brk 2 0, .brk 1 (brkBase + 4096)] := by
    refine ⟨?_, ?_, trivial⟩
    · exact .inl (.inl rfl)
    · rw [Cond, if_pos rfl, hnorm.1, hnorm.2]
      exact fun _ _ => hmem
  exact ⟨_, root, twoProcesses, hg, h1, h2, brk_run_sound hg hbrk hc hd (by decide)⟩

/-- **One break for all.** After process 2 has grown its heap by two pages, process 1 is told that break; it grows by one
more page and gets it, but the first page of its heap is not there. -/
theorem break_shared : answers 1 twoProcesses [.brk 1 0] = [brkBase] ∧
    answers 1 twoProcesses [.brk 2 (brkBase + 8192), .brk 1 0] = [brkBase + 8192] ∧
    (let x := step twoProcesses (.brk 2 (brkBase + 8192))
      let r := sysBrk x 1 (brkBase + 12288)
      x.brk < brkBase + 12288 ∧ r.1 = brkBase + 12288 ∧ r.2.vaMap 1 = some 0 ∧
        ammVirtToKva r.2.vm.phys.mem (r.2.vm.vmaps 0) brkBase = 0) := by
  refine ⟨?_, ?_, ?_, ?_, ?_, ?_⟩ <;> decide +kernel

end OpenASD.Arch
