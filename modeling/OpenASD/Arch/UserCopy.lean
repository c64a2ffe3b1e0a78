/-
Copies from user memory (kernel/arch/syscall.c: user_access_page, copy_from_user), over the address spaces of `Arch.Memory`.
A copy goes from page to page, and a page that is absent is faulted in on the way.

`MemSt.view` is the memory of a process as its page tables have it. A page fault on an absent page leaves the pages alone that
are present, so the bytes that a round has read are still there when the copy ends, and later (`Later`).
- `copyLoop_bytes`: a copy that succeeds gives what the bytewise `copyFromUser` gives on the memory after it.
-/
import OpenASD.Arch.Fault
import OpenASD.Arch.Syscall

namespace OpenASD.Arch

open Mm ByteMem
open Vfs (Bytes)

/-- `amm_virt_to_kva` in the address space of a process; 0 if it has none -/
def MemSt.kva (x : MemSt) (cur va : ℕ) : ℕ :=
  match x.vaMap cur with
  | none => 0
  | some i => ammVirtToKva x.vm.phys.mem (x.vm.vmaps i) va

def MemSt.userAccessPage (x : MemSt) (cur va : ℕ) (forWrite : Bool) : ℤ × MemSt :=
  match x.vaMap cur with
  | none => (-1, x)
  | some i =>
    if x.kva cur (pageAlignDown va) ≠ 0 then (0, x)
    else
      let r := ammPageFault x.vm.phys (x.vm.vmaps i) va forWrite
      (r.1, x.setPhys r.2)

/-- the loop: n bytes from va on, a page or the rest of one in a round, so n rounds are enough -/
def MemSt.copyLoop (cur : ℕ) : ℕ → MemSt → ℕ → ℕ → Option Bytes × MemSt
  | 0, x, _, _ => (some [], x)
  | fuel + 1, x, va, n =>
    if n = 0 then (some [], x)
    else
      let chunk := min (pageSize - va % pageSize) n
      let r := x.userAccessPage cur va false
      let kva := r.2.kva cur (pageAlignDown va)
      if r.1 ≠ 0 ∨ kva = 0 then (none, r.2)
      else
        let q := copyLoop cur fuel r.2 (va + chunk) (n - chunk)
        (q.1.map (get r.2.vm.phys.mem (virtToPhys kva + va % pageSize) chunk ++ ·), q.2)

/-- the caller has validated the address, so it is not NULL -/
def MemSt.copyFromUser (cur : Option ℕ) (x : MemSt) (addr n : ℕ) : Option Bytes × MemSt :=
  match cur with
  | none => (if n = 0 then some [] else none, x)
  | some p => copyLoop p n x addr n

/-- the memory of a process; what is present is written to without a fault -/
def MemSt.view (x : MemSt) (cur : ℕ) : Arch.User where
  mem a := if x.kva cur a = 0 then none else some (x.vm.phys.mem (virtToPhys (x.kva cur a)))
  writable a := x.kva cur a ≠ 0

/-- a good kernel y, in which every byte of the process is as it is in x -/
def Later (S : ℕ → Prop) (root : ℕ → Option ℕ) (p : ℕ) (x y : MemSt) : Prop :=
  Good S root y ∧ ∀ a b, a < 2 ^ 47 → (x.view p).mem a = some b → (y.view p).mem a = some b

section

variable {S : ℕ → Prop} {root : ℕ → Option ℕ} {x y z : MemSt} {p i va n : ℕ} {b : Bytes}

theorem Later.trans (h : Later S root p x y) (h' : Later S root p y z) : Later S root p x z :=
  ⟨h'.1, fun a b ha hb => h'.2 a b ha (h.2 a b ha hb)⟩

/-- what has been copied can be copied again -/
theorem Later.copy (h : Later S root p x y) (hn : va + n ≤ 2 ^ 47) (hb : Arch.copyFromUser (x.view p) va n = some b) :
    Arch.copyFromUser (y.view p) va n = some b := by
  induction n generalizing va b with
  | zero => exact hb
  | succ n ih =>
    obtain ⟨c, hc, hrest⟩ := Option.bind_eq_some_iff.1 hb
    obtain ⟨bs, hbs, rfl⟩ := Option.map_eq_some_iff.1 hrest
    rw [Arch.copyFromUser, h.2 va c (by omega) hc, Option.bind_some, ih (by omega) hbs, Option.map_some]

theorem kva_eq (hi : x.vaMap p = some i) (a : ℕ) : x.kva p a = ammVirtToKva x.vm.phys.mem (x.vm.vmaps i) a := by
  rw [MemSt.kva, hi]

theorem copyFromUser_add (u : Arch.User) (buf m n : ℕ) : Arch.copyFromUser u buf (m + n) =
    (Arch.copyFromUser u buf m).bind fun a => (Arch.copyFromUser u (buf + m) n).map (a ++ ·) := by
  induction m generalizing buf with
  | zero => simp [Arch.copyFromUser]
  | succ m ih =>
    have e : m + 1 + n = m + n + 1 := by omega
    have e' : buf + 1 + m = buf + (m + 1) := by omega
    rw [e, Arch.copyFromUser, Arch.copyFromUser]
    rcases u.mem buf with _ | b
    · rfl
    simp only [Option.bind_some, ih, e']
    rcases Arch.copyFromUser u (buf + 1) m with _ | a
    · rfl
    · rcases Arch.copyFromUser u (buf + (m + 1)) n with _ | c <;> rfl

variable (h : Good S root x)
include h

/-- present pages that keep their place and their bytes are seen as before -/
theorem later_of_untouched (hi : x.vaMap p = some i) (hy : Good S root y) (he : Extends root x y)
    (hu : Untouched root x.vm.phys.mem y.vm.phys.mem) : Later S root p x y := by
  refine ⟨hy, fun a b ha hb => ?_⟩
  obtain ⟨out, hs, -⟩ := h.tables
  obtain ⟨out', hs', hl'⟩ := hy.tables
  have hi' : y.vaMap p = some i := he.vaMap ▸ hi
  have hr := h.roots p i hi
  have hr' := hy.roots p i hi'
  simp only [MemSt.view, kva_eq hi, kva_eq hi', Option.ite_none_left_eq_some, Option.some.injEq] at hb ⊢
  have hback := hs.kva_backed hr hb.1
  have hkva' := hs'.backed_kva hl' hy.low hr' (user_of_lt ha) (he.backed i a (user_of_lt ha) hback)
  obtain ⟨hpage, hbytes⟩ := hu i a (user_of_lt ha) hback
  refine ⟨hkva', ?_⟩
  rw [hs'.kva_phys hr' hkva', hpage, ← hs.kva_phys hr hb.1, ← hb.2]
  apply hbytes
  rw [hs.kva_phys hr hb.1]
  exact ⟨Nat.le_add_right _ _, Nat.add_lt_add_left (Nat.mod_lt a (by decide)) _⟩

/-- a page that is absent is faulted in, and nothing else happens -/
theorem access_later (hva : va < 2 ^ 47) : Later S root p x (x.userAccessPage p va false).2 := by
  have hself : Later S root p x x := ⟨h, fun _ _ _ hb => hb⟩
  unfold MemSt.userAccessPage
  cases hi : x.vaMap p with
  | none => exact hself
  | some i =>
    dsimp only
    split_ifs with hkva
    · exact hself
    obtain ⟨out, hs, hl⟩ := h.tables
    have hr := h.roots p i hi
    have habsent : ¬ Backed root x.vm.phys.mem i va := fun hb => by
      have hvpn := vpn_page va
      rw [kva_eq hi] at hkva
      exact hkva (hs.backed_kva hl h.low hr (topIdx_vpn hvpn ▸ user_of_lt hva) (backed_vpn hvpn.symm hb))
    obtain ⟨hg, he⟩ := h.step (.fault p va false)
    rw [Arch.step, pageFault, hi] at hg he
    refine later_of_untouched h hi hg he ?_
    have hread : decide (0 &&& 2 ≠ 0) = false := by decide
    rw [← hread]
    by_cases hd : Denied x i va 0
    · exact denied_untouched hs hl hd
    · exact (served_untouched hs hl hr hva hd).2 habsent

omit h in
/-- bytes one after another -/
theorem copyFromUser_get {u : Arch.User} {m : Mem} {q : ℕ} (hb : ∀ j < n, u.mem (va + j) = some (m (q + j))) :
    Arch.copyFromUser u va n = some (get m q n) := by
  induction n generalizing va q with
  | zero => rfl
  | succ n ih =>
    have hrest : Arch.copyFromUser u (va + 1) n = some (get m (q + 1) n) := ih fun j hj => by
      rw [Nat.add_assoc, Nat.add_assoc, Nat.add_comm 1 j]
      exact hb (j + 1) (Nat.succ_lt_succ hj)
    have hfirst : u.mem va = some (m q) := hb 0 (Nat.succ_pos n)
    rw [Arch.copyFromUser, hfirst, Option.bind_some, hrest, Nat.add_comm n 1, get_append]
    rfl

/-- the bytes of a page that is present -/
theorem view_page (hva : va < 2 ^ 47) (hkva : x.kva p (pageAlignDown va) ≠ 0) (hn : va % pageSize + n ≤ pageSize) :
    Arch.copyFromUser (x.view p) va n = some (get x.vm.phys.mem (virtToPhys (x.kva p (pageAlignDown va)) + va % pageSize) n) := by
  obtain ⟨out, hs, hl⟩ := h.tables
  obtain ⟨i, hi⟩ : ∃ i, x.vaMap p = some i := by
    refine Option.ne_none_iff_exists'.1 fun hi => hkva ?_
    rw [MemSt.kva, hi]
  have hr := h.roots p i hi
  rw [kva_eq hi] at hkva ⊢
  refine copyFromUser_get fun j hj => ?_
  simp only [MemSt.view, kva_eq hi]
  have hvpn : vpn (pageAlignDown va) = vpn (va + j) := by
    simp only [vpn, pageAlignDown, pageSize] at *
    omega
  have hlow : va + j < 2 ^ 47 := by
    simp only [pageSize] at hn
    omega
  have hback := backed_vpn hvpn (hs.kva_backed hr hkva)
  have hne := hs.backed_kva hl h.low hr (user_of_lt hlow) hback
  have hoff : pageAlignDown va % pageSize = 0 ∧ (va + j) % pageSize = va % pageSize + j := by
    simp only [pageAlignDown, pageSize] at *
    omega
  rw [if_neg hne, hs.kva_phys hr hne, hs.kva_phys hr hkva, pte_vpn hvpn, hoff.1, hoff.2, Nat.add_zero, Nat.add_assoc]

/-- **A copy by pages is a copy by bytes** of the memory as it is after it, in which everything is as before. -/
theorem copyLoop_bytes {fuel : ℕ} (hf : n ≤ fuel) (hn : va + n ≤ 2 ^ 47) :
    Later S root p x (MemSt.copyLoop p fuel x va n).2 ∧ ∀ b, (MemSt.copyLoop p fuel x va n).1 = some b →
      Arch.copyFromUser ((MemSt.copyLoop p fuel x va n).2.view p) va n = some b := by
  induction fuel generalizing x va n with
  | zero =>
    obtain rfl : n = 0 := by omega
    exact ⟨⟨h, fun _ _ _ hb => hb⟩, fun b hb => hb⟩
  | succ fuel ih =>
    rw [MemSt.copyLoop]
    split_ifs with h0
    · subst h0
      exact ⟨⟨h, fun _ _ _ hb => hb⟩, fun b hb => hb⟩
    dsimp only
    have hl := access_later h (p := p) (by omega : va < 2 ^ 47)
    generalize x.userAccessPage p va false = r at hl ⊢
    split_ifs with hfail
    · exact ⟨hl, nofun⟩
    obtain ⟨hpos, hmax, hle⟩ : 0 < min (pageSize - va % pageSize) n ∧
        va % pageSize + min (pageSize - va % pageSize) n ≤ pageSize ∧ min (pageSize - va % pageSize) n ≤ n := by
      simp only [pageSize]
      omega
    generalize min (pageSize - va % pageSize) n = chunk at *
    obtain ⟨k, rfl⟩ := Nat.exists_eq_add_of_le hle
    have hpage := view_page hl.1 (by omega : va < 2 ^ 47) (not_or.1 hfail).2 hmax
    rw [Nat.add_sub_cancel_left]
    obtain ⟨hlater, hbytes⟩ := ih hl.1 (by omega : k ≤ fuel) (by omega : va + chunk + k ≤ 2 ^ 47)
    refine ⟨hl.trans hlater, fun b hb => ?_⟩
    obtain ⟨rest, hrest, rfl⟩ := Option.map_eq_some_iff.1 hb
    rw [copyFromUser_add, hlater.copy (by omega) hpage, Option.bind_some, hbytes rest hrest, Option.map_some]

end

end OpenASD.Arch
