/-
Failures of sys_mmap (kernel/arch/syscall.c). The call moves `g_mmap_bump`, then adds the region, then populates it, and
takes nothing back when a later step fails. The window of the cursor has the heap of sys_brk in its middle.

- `mmapStep_cases`: with room and memory for the mapping, a call fails with the state as it was or maps at the cursor;
- `mmap_run_sound`: the same for all calls of a run, whose ranges lie apart from each other and below the heap;
- `mmap_failure_keeps`: a failed call that moved the cursor, with its region and a page still there.
-/
import OpenASD.Arch.Wx
import OpenASD.Core.Machine

namespace OpenASD.Arch

open Mm
open Machine (Always)

/-- the arguments of sys_mmap that it looks at, and the process that calls it -/
structure MmapArgs where
  cur : ℕ
  len : ℕ
  prot : ℕ
  flags : ℕ
  fd : ℕ

def mmapStep (x : MemSt) (c : MmapArgs) : ℕ × MemSt := sysMmap x c.cur c.len c.prot c.flags c.fd

instance (r : ℕ) : Decidable (Failed r) := inferInstanceAs (Decidable (_ ∨ _))

/-- address and size of the mappings that a run makes -/
def mappings (x : MemSt) : List MmapArgs → List (ℕ × ℕ)
  | [] => []
  | c :: cs =>
    if Failed (mmapStep x c).1 then mappings (mmapStep x c).2 cs
    else ((mmapStep x c).1, mmapBytes c.len) :: mappings (mmapStep x c).2 cs

/-- what sys_mmap checks before it moves the cursor -/
def Refused (x : MemSt) (c : MmapArgs) : Prop :=
  (c.flags &&& 0x20 = 0 ∨ c.fd ≠ 2 ^ 64 - 1 ∨ c.len = 0) ∨ x.vaMap c.cur = none ∨
    mmapLimit < x.mmapBump + mmapBytes c.len

/-- a free range below the heap, a region descriptor, and memory for the pages and their tables -/
structure Room (x : MemSt) (c : MmapArgs) : Prop where
  size : mmapBytes c.len ≠ 0
  below : x.mmapBump + mmapBytes c.len ≤ brkBase
  apart : ∀ i, x.vaMap c.cur = some i → ammRegionOverlaps (x.vm.vmaps i) x.mmapBump (mmapBytes c.len) = false
  pool : x.vm.regionNext < maxRegions
  memory : 4 * popPages x.mmapBump (mmapBytes c.len) ≤ freeSum x.vm.phys.lists

section

variable {S : ℕ → Prop} {root : ℕ → Option ℕ} {x : MemSt} {c : MmapArgs}

theorem mmapStep_cases (hx : Good S root x) (hc : Refused x c ∨ Room x c) :
    Failed (mmapStep x c).1 ∧ (mmapStep x c).2 = x ∨
    ¬ Failed (mmapStep x c).1 ∧ (mmapStep x c).1 = x.mmapBump ∧
      (mmapStep x c).2.mmapBump = x.mmapBump + mmapBytes c.len ∧ x.mmapBump + mmapBytes c.len ≤ brkBase := by
  obtain hf | ⟨i, hi, h1, h2, hargs, hcase⟩ := sysMmap_cases x c.cur c.len c.prot c.flags c.fd
  · exact .inl hf
  right
  have hroom : Room x c := by
    refine hc.resolve_left ?_
    rintro (h | h | h)
    · exact hargs h
    · cases hi.symm.trans h
    · exact absurd (mmap_range h1 h2) (not_le.2 h)
  have hbelow := hroom.below
  have hlow : x.mmapBump + mmapBytes c.len ≤ 2 ^ 47 := hbelow.trans (by decide)
  have hadd : (ammRegionAdd x.vm i (mmapRegion x c.len c.prot)).1 = 0 := by
    rw [ammRegionAdd, if_neg (by simp [mmapRegion, hroom.size, hroom.apart i hi, hroom.pool])]
  obtain ⟨hno, -⟩ | ⟨-, v, rfl, he⟩ := hcase
  · exact absurd hadd hno
  obtain ⟨hg, -⟩ := hx.add i (mmapRegion x c.len c.prot) hlow
  obtain ⟨-, -, -, hok⟩ := hg.populate hi (fun j hj => page_lt hlow hj) (kprot c.prot) rfl
  have hphys : (ammRegionAdd x.vm i (mmapRegion x c.len c.prot)).2.phys = x.vm.phys := by
    rw [ammRegionAdd]
    split_ifs <;> rfl
  have hpages : 0 < popPages x.mmapBump (mmapBytes c.len) := by
    have hsize := hroom.size
    refine Nat.div_pos ?_ (by decide)
    simp only [pageAlign, pageAlignDown, u64, pageSize]
    omega
  have hne := (hok (Nat.pos_of_ne_zero hroom.size) hpages (by rw [hphys]; exact hroom.memory)).1
  rw [mmapStep, he, if_neg hne]
  refine ⟨?_, rfl, ?_, hbelow⟩
  · simp only [Failed, mapFailed, esysFaultReg]
    omega
  · exact Nat.mod_eq_of_lt (lt_of_le_of_lt hlow (by decide))

/-- **Runs of sys_mmap.** From every kernel with user address spaces, in every run in which each call is refused at once or
has room for its mapping: a call that fails leaves everything as it was, and the mappings lie one above the other, below
the heap. -/
theorem mmap_run_sound (hx : Good S root x) {cs : List MmapArgs}
    (hc : Always mmapStep (fun x c => Refused x c ∨ Room x c) x cs) :
    Always mmapStep (fun x c => Failed (mmapStep x c).1 → (mmapStep x c).2 = x) x cs ∧
    (mappings x cs).Pairwise (fun a b => a.1 + a.2 ≤ b.1) ∧
    ∀ r ∈ mappings x cs, x.mmapBump ≤ r.1 ∧ r.1 + r.2 ≤ brkBase := by
  induction cs generalizing x with
  | nil => exact ⟨trivial, List.Pairwise.nil, nofun⟩
  | cons c cs ih =>
    rw [mappings]
    have hg : Good S root (mmapStep x c).2 := (hx.sysMmap c.cur c.len c.prot c.flags c.fd).1
    obtain ⟨hok, hapart, hrange⟩ := ih hg hc.2
    obtain ⟨hf, hsame⟩ | ⟨hf, hat, hbump, hbelow⟩ := mmapStep_cases hx hc.1
    · rw [if_pos hf]
      rw [hsame] at hrange hapart ⊢
      exact ⟨⟨fun _ => hsame, hok⟩, hapart, hrange⟩
    rw [if_neg hf, hat, List.pairwise_cons, List.forall_mem_cons]
    have habove : ∀ r ∈ mappings (mmapStep x c).2 cs, x.mmapBump + mmapBytes c.len ≤ r.1 ∧ r.1 + r.2 ≤ brkBase :=
      fun r hr => hbump ▸ hrange r hr
    exact ⟨⟨fun h => absurd h hf, hok⟩, ⟨fun r hr => (habove r hr).1, hapart⟩, ⟨le_rfl, hbelow⟩,
      fun r hr => ⟨by have := (habove r hr).1; omega, (habove r hr).2⟩⟩

end

/-- memory to read and write -/
def mapCall (len : ℕ) : MmapArgs := ⟨1, len, 3, 0x20, 2 ^ 64 - 1⟩

/-- a mapping, a call without a length, and a mapping above the first -/
theorem mmap_run_three : let cs := [mapCall 4096, mapCall 0, mapCall 4096]
    mappings smallProcess cs = [(mmapBase, 4096), (mmapBase + 4096, 4096)] ∧
    Always mmapStep (fun x c => Failed (mmapStep x c).1 → (mmapStep x c).2 = x) smallProcess cs ∧
    (mappings smallProcess cs).Pairwise (fun a b => a.1 + a.2 ≤ b.1) := by
  have hroom : ∀ x, x = smallProcess ∨ x = (mmapStep smallProcess (mapCall 4096)).2 → Room x (mapCall 4096) := by
    rintro x (rfl | rfl)
    all_goals
      refine ⟨by decide, by decide +kernel, fun i hi => ?_, by decide +kernel, by decide +kernel⟩
      have h0 : smallProcess.vaMap 1 = some 0 := by decide +kernel
      obtain rfl : i = 0 := Option.some.inj (hi.symm.trans h0)
      decide +kernel
  have hsame : ∀ x, (mmapStep x (mapCall 0)).2 = x := fun x => rfl
  have hc : Always mmapStep (fun x c => Refused x c ∨ Room x c) smallProcess [mapCall 4096, mapCall 0, mapCall 4096] := by
    refine ⟨.inr (hroom _ (.inl rfl)), .inl (.inl (.inr (.inr rfl))), .inr ?_, trivial⟩
    rw [hsame]
    exact hroom _ (.inr rfl)
  obtain ⟨hfail, hapart, -⟩ := mmap_run_sound smallProcess_good.1 hc
  exact ⟨by decide +kernel, hfail, hapart⟩

/-- Sixteen free pages, and a mapping of seventeen: the call fails, with the cursor moved, the region in the list and the
pages gone. -/
theorem mmap_failure_keeps : let r := mmapStep twoProcesses ⟨1, 17 * 4096, 3, 0x20, 2 ^ 64 - 1⟩
    Failed r.1 ∧ r.2.mmapBump ≠ twoProcesses.mmapBump ∧ (r.2.vm.vmaps 0).regions ≠ [] ∧
      r.2.vm.phys.freePages ≠ twoProcesses.vm.phys.freePages := by
  decide +kernel

end OpenASD.Arch
