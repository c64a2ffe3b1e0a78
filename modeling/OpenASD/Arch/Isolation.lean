/-
Isolation of descriptors: a process reaches files through its own `fd_table` only.

Descriptors from MAX_FDS on are numbers of nodes, meant for callers in the kernel; the system calls pass them on from user
mode. `Isolated` says of one call that nodes outside the caller's table neither influence it nor change, that tables of
others do not either, and that only contexts and files of the caller's own nodes are touched.

Results:
- `isolated_iff`: for every state, process and call, exactly when a call is isolated.
- `foreign_write`: a process writes to a file that another one has open.
-/
import OpenASD.Arch.Syscall
import OpenASD.Vfs.Modes

namespace OpenASD.Arch

open Vfs
open Function (update update_comm update_of_ne)

variable {σ π φ κ γ : Type}

/-! ## Descriptors -/

theorem setNode_other (s : State σ π) (v : Node σ π) {n m : ℕ} (h : m ≠ n) : (s.setNode n v).node m = s.node m := by
  show update s.node n v m = s.node m
  rw [update_of_ne h]

theorem setNode_self (s : State σ π) (n : ℕ) (v : Node σ π) : (s.setNode n v).node n = v := by
  show update s.node n v n = v
  rw [Function.update_self]

theorem lookup_low {s : State σ π} {p : π} {fd : ℕ} (h : fd < maxFds) : lookup s (some p) fd = s.fdTable p fd :=
  if_neg (Nat.not_le.2 h)

theorem lookup_high {s : State σ π} {p : π} {fd : ℕ} (h : maxFds ≤ fd) : lookup s (some p) fd =
    if maxNodes ≤ fd - maxFds ∨ (s.node (fd - maxFds)).nodeId ≠ fd - maxFds then none else some (fd - maxFds) := if_pos h

/-- the node is in the process's table -/
def Own (s : State σ π) (p : π) (n : ℕ) : Prop := ∃ fd, s.fdTable p fd = some n

/-- a process's own descriptors lead to its own nodes -/
theorem lookup_own {s : State σ π} {p : π} {fd nid : ℕ} (h : fd < maxFds ∨ maxFds + maxNodes ≤ fd ∨ Own s p (fd - maxFds))
    (hl : lookup s (some p) fd = some nid) : Own s p nid := by
  by_cases hlow : fd < maxFds
  · rw [lookup_low hlow] at hl
    exact ⟨fd, hl⟩
  rw [lookup_high (Nat.le_of_not_lt hlow)] at hl
  split_ifs at hl with hout
  obtain rfl := Option.some.inj hl
  rw [not_or] at hout
  rcases h with h | h | h
  · exact absurd h hlow
  · exact absurd (Nat.le_sub_of_add_le' h) hout.1
  · exact h

/-- nothing is touched, or only the context of the node that the descriptor leads to, and its file -/
def Within (V : View σ φ κ γ) (s : State σ π) (l : Option ℕ) (w : σ) : Prop :=
  V.Same s.world w ∨ ∃ nid, l = some nid ∧ V.Local (s.node nid).bctx s.world w

theorem Within.refl (V : View σ φ κ γ) (s : State σ π) (l : Option ℕ) : Within V s l s.world := .inl (View.Same.refl V _)

/-! ## Isolation -/

variable [DecidableEq π]

def Machine.setNode (s : Machine σ π) (n : ℕ) (v : Node σ π) : Machine σ π := { s with vfs := s.vfs.setNode n v }

/-- another table for a process -/
def setTable (s : State σ π) (q : π) (t : ℕ → Option ℕ) : State σ π := { s with fdTable := update s.fdTable q t }

def Machine.setTable (s : Machine σ π) (q : π) (t : ℕ → Option ℕ) : Machine σ π := { s with vfs := Arch.setTable s.vfs q t }

structure Isolated (V : View σ φ κ γ) (E : Env σ) (s : Machine σ π) (p : π) (c : FdCall) : Prop where
  /-- other nodes are neither read nor changed -/
  node : ∀ n, ¬ Own s.vfs p n → ∀ v, fdCall E (s.setNode n v) p c = ((fdCall E s p c).1, (fdCall E s p c).2.setNode n v)
  /-- the tables of other processes are neither read nor changed -/
  table : ∀ q, q ≠ p → ∀ t, fdCall E (s.setTable q t) p c = ((fdCall E s p c).1, (fdCall E s p c).2.setTable q t)
  /-- contexts of other nodes do not change -/
  ctx : ∀ h, (∀ n, Own s.vfs p n → (s.vfs.node n).bctx ≠ h) → V.ctx (fdCall E s p c).2.vfs.world h = V.ctx s.vfs.world h
  /-- nor do other files -/
  file : ∀ x, (∀ n, Own s.vfs p n → V.target s.vfs.world (s.vfs.node n).bctx ≠ some x) →
    V.content (fdCall E s p c).2.vfs.world x = V.content s.vfs.world x

/-- the descriptor with which a call gets to the VFS, if it does -/
def vfsFd (s : Machine σ π) : FdCall → Option ℕ
  | .read fd buf n => if n = 0 ∨ validateUserPtr buf n = false ∨ fd = 0 then none else some (fd % 2 ^ 32)
  | .write fd buf n =>
    if n = 0 ∨ validateUserPtr buf n = false ∨ fd ≤ 2 ∨ copyFromUser s.user buf (min n kbufSize) = none then none
    else some (fd % 2 ^ 32)
  | .seek fd _ _ => some (fd % 2 ^ 32)
  | .close fd => some (fd % 2 ^ 32)

/-- that descriptor is not the number of a node, or of one of the caller's nodes -/
def OwnFd (s : Machine σ π) (p : π) (c : FdCall) : Prop :=
  ∀ fd, vfsFd s c = some fd → fd < maxFds ∨ maxFds + maxNodes ≤ fd ∨ Own s.vfs p (fd - maxFds)

/-! ## Frames -/

/-- a change of the state that does not concern the node nid and the process p -/
structure Aside (F : State σ π → State σ π) (nid : ℕ) (p : π) : Prop where
  world : ∀ s, (F s).world = s.world
  node : ∀ s, (F s).node nid = s.node nid
  setWorld : ∀ s w, F (s.setWorld w) = (F s).setWorld w
  setNode : ∀ s v, F (s.setNode nid v) = (F s).setNode nid v
  setFd : ∀ s fd x, F (s.setFd p fd x) = (F s).setFd p fd x

theorem aside_setNode {n nid : ℕ} (hne : n ≠ nid) (v : Node σ π) (p : π) : Aside (fun s => s.setNode n v) nid p where
  world _ := rfl
  node s := setNode_other s v hne.symm
  setWorld _ _ := rfl
  setNode s u := by
    have h := update_comm hne.symm u v s.node
    simp only [State.setNode, h]
  setFd _ _ _ := rfl

theorem aside_setTable {p q : π} (hne : q ≠ p) (t : ℕ → Option ℕ) (nid : ℕ) : Aside (fun s : State σ π => setTable s q t) nid p where
  world _ := rfl
  node _ := rfl
  setWorld _ _ := rfl
  setNode _ _ := rfl
  setFd s fd x := by
    have h : update (update s.fdTable p (update (s.fdTable p) fd x)) q t =
        update (update s.fdTable q t) p (update (s.fdTable p) fd x) :=
      update_comm hne.symm _ t s.fdTable
    simp only [setTable, State.setFd, h, update_of_ne hne.symm]

section Aside

variable {E : Env σ} {F : State σ π → State σ π} {nid : ℕ} {p : π}

section

variable (hF : Aside F nid p) (s : State σ π)
include hF s

theorem readNode_aside (n : ℕ) : readNode E (F s) nid n = ((readNode E s nid n).1, F (readNode E s nid n).2) := by
  unfold readNode
  rw [hF.node, hF.world]
  cases (s.node nid).ring with
  | some ring => simp only [hF.setWorld]
  | none =>
    cases (s.node nid).backend.bind fun be => be.ops.opRead with
    | none => rfl
    | some f =>
      dsimp only
      cases (f s.world (s.node nid).bctx n).1 with
      | error e => simp only [hF.setWorld]
      | ok b => simp only [hF.setNode, hF.setWorld]

theorem writeNode_aside (data : Bytes) :
    writeNode E (F s) nid data = ((writeNode E s nid data).1, F (writeNode E s nid data).2) := by
  unfold writeNode
  rw [hF.node, hF.world]
  cases (s.node nid).ring with
  | some ring => simp only [hF.setWorld]
  | none =>
    by_cases hport : (s.node nid).portId ≠ 0
    · simp only [if_pos hport, hF.setWorld]
    simp only [if_neg hport]
    cases (s.node nid).backend.bind fun be => be.ops.opWrite with
    | none => rfl
    | some f =>
      dsimp only
      cases (f s.world (s.node nid).bctx data).1 with
      | error e => simp only [hF.setWorld]
      | ok u => simp only [hF.setNode, hF.setWorld]

theorem seekNode_aside (off whence : ℤ) :
    seekNode (F s) nid off whence = ((seekNode s nid off whence).1, F (seekNode s nid off whence).2) := by
  unfold seekNode
  rw [hF.node, hF.world]
  cases (s.node nid).backend.bind fun be => be.ops.opSeek with
  | some f =>
    dsimp only
    cases (f s.world (s.node nid).bctx off whence).1 with
    | error e => simp only [hF.setWorld]
    | ok n => simp only [hF.setNode, hF.setWorld]
  | none =>
    cases plainSeek (s.node nid) off whence with
    | error e => rfl
    | ok n =>
      dsimp only
      split_ifs
      · rfl
      · simp only [hF.setNode]

theorem closeNode_aside (v : Node σ π) : closeNode (F s) v = F (closeNode s v) := by
  unfold closeNode closeCtx
  cases v.backend with
  | none => rfl
  | some be =>
    dsimp only
    cases be.ops.opClose with
    | none => rfl
    | some f => simp only [hF.world, hF.setWorld]

theorem dropRef_aside : dropRef (F s) nid = F (dropRef s nid) := by
  rcases dropRef_cases s nid with ⟨h0, he⟩ | ⟨count, hc, hne, he⟩
  · rcases dropRef_cases (F s) nid with ⟨-, he'⟩ | ⟨count', hc', hne', -⟩
    · rw [he', he, hF.node, closeNode_aside hF, hF.setNode]
    · rw [hF.node] at hc'
      exact absurd (hc'.trans h0) hne'
  rcases dropRef_cases (F s) nid with ⟨h0', -⟩ | ⟨count', hc', -, he'⟩
  · rw [hF.node] at h0'
    exact absurd (hc.trans h0') hne
  · rw [hF.node, ← hc] at hc'
    rw [he', he, hF.node, hF.setNode, hc']

theorem clearFd_aside (fd : ℕ) : clearFd (F s) (some p) fd = F (clearFd s (some p) fd) := by
  unfold clearFd
  split_ifs
  · rfl
  · exact (hF.setFd s fd none).symm

end

/-! ## Calls that are isolated -/

/-- the change does not concern what the descriptor leads to -/
structure Off (F : State σ π → State σ π) (s : State σ π) (p : π) (fd : ℕ) : Prop where
  lookup : lookup (F s) (some p) fd = lookup s (some p) fd
  aside : ∀ nid, Vfs.lookup s (some p) fd = some nid → Aside F nid p

variable {s : State σ π} {fd : ℕ}

theorem vfsRead_off (h : Off F s p fd) (n : ℕ) :
    vfsRead E (F s) (some p) fd n = ((vfsRead E s (some p) fd n).1, F (vfsRead E s (some p) fd n).2) := by
  unfold vfsRead
  split_ifs
  · rfl
  rw [h.lookup]
  cases hl : Vfs.lookup s (some p) fd with
  | none => rfl
  | some nid => exact readNode_aside (h.aside nid hl) s n

theorem vfsWrite_off (h : Off F s p fd) (data : Bytes) :
    vfsWrite E (F s) (some p) fd data = ((vfsWrite E s (some p) fd data).1, F (vfsWrite E s (some p) fd data).2) := by
  unfold vfsWrite
  split_ifs
  · rfl
  rw [h.lookup]
  cases hl : Vfs.lookup s (some p) fd with
  | none => rfl
  | some nid => exact writeNode_aside (h.aside nid hl) s data

theorem vfsSeek_off (h : Off F s p fd) (off whence : ℤ) :
    vfsSeek (F s) (some p) fd off whence = ((vfsSeek s (some p) fd off whence).1, F (vfsSeek s (some p) fd off whence).2) := by
  unfold vfsSeek
  split_ifs
  · rfl
  rw [h.lookup]
  cases hl : Vfs.lookup s (some p) fd with
  | none => rfl
  | some nid => exact seekNode_aside (h.aside nid hl) s off whence

theorem vfsClose_off (h : Off F s p fd) :
    vfsClose (F s) (some p) fd = ((vfsClose s (some p) fd).1, F (vfsClose s (some p) fd).2) := by
  unfold vfsClose
  split_ifs
  · rfl
  rw [h.lookup]
  cases hl : Vfs.lookup s (some p) fd with
  | none => rfl
  | some nid =>
    dsimp only
    rw [clearFd_aside (h.aside nid hl), dropRef_aside (h.aside nid hl)]

/-- the same for a system call -/
theorem fdCall_off {m : Machine σ π} {c : FdCall} (h : ∀ fd, vfsFd m c = some fd → Off F m.vfs p fd) :
    fdCall E { m with vfs := F m.vfs } p c =
      ((fdCall E m p c).1, { (fdCall E m p c).2 with vfs := F (fdCall E m p c).2.vfs }) := by
  cases c with
  | read fd buf n =>
    unfold fdCall sysRead
    by_cases h1 : n = 0
    · simp only [if_pos h1]
    by_cases h2 : validateUserPtr buf n = false
    · simp only [if_neg h1, if_pos h2]
    by_cases h3 : fd = 0
    · simp only [if_neg h1, if_neg h2, if_pos h3]
    · have hoff := h (fd % 2 ^ 32) (if_neg (by simp [h1, h2, h3]))
      simp only [if_neg h1, if_neg h2, if_neg h3, vfsRead_off hoff]
      cases (vfsRead E m.vfs (some p) (fd % 2 ^ 32) (min n kbufSize)).1 <;> rfl
  | write fd buf n =>
    unfold fdCall sysWrite
    by_cases h1 : n = 0
    · simp only [if_pos h1]
    by_cases h2 : validateUserPtr buf n = false
    · simp only [if_neg h1, if_pos h2]
    by_cases h3 : fd = 1 ∨ fd = 2
    · simp only [if_neg h1, if_neg h2, if_pos h3]
    by_cases h4 : fd = 0
    · simp only [if_neg h1, if_neg h2, if_neg h3, if_pos h4]
    simp only [if_neg h1, if_neg h2, if_neg h3, if_neg h4]
    cases hd : copyFromUser m.user buf (min n kbufSize) with
    | none => rfl
    | some data =>
      have h5 : ¬ fd ≤ 2 := by omega
      have hoff := h (fd % 2 ^ 32) (if_neg (by simp [h1, h2, h5, hd]))
      simp only [vfsWrite_off hoff]
      cases (vfsWrite E m.vfs (some p) (fd % 2 ^ 32) data).1 <;> rfl
  | seek fd off whence =>
    have hoff := h (fd % 2 ^ 32) rfl
    simp only [fdCall, sysSeek, vfsSeek_off hoff]
  | close fd =>
    have hoff := h (fd % 2 ^ 32) rfl
    simp only [fdCall, sysClose, vfsClose_off hoff]

end Aside

/-! ## What a descriptor leads to -/

section Lookup

variable {s : State σ π} {p : π} {fd n nid : ℕ}

theorem off_setNode (h : fd < maxFds ∨ maxFds + maxNodes ≤ fd ∨ Own s p (fd - maxFds)) (hn : ¬ Own s p n) (v : Node σ π) :
    Off (fun s => s.setNode n v) s p fd := by
  refine ⟨?_, fun nid hl => aside_setNode (fun e => hn (by rw [e]; exact lookup_own h hl)) v p⟩
  by_cases hlow : fd < maxFds
  · rw [lookup_low hlow, lookup_low hlow]
    rfl
  rw [lookup_high (Nat.le_of_not_lt hlow), lookup_high (Nat.le_of_not_lt hlow)]
  rcases h with h | h | h
  · exact absurd h hlow
  · have hout : maxNodes ≤ fd - maxFds := Nat.le_sub_of_add_le' h
    simp only [hout, true_or, if_true]
  · have hne : fd - maxFds ≠ n := fun e => hn (e ▸ h)
    rw [setNode_other s v hne]

theorem off_setTable {q : π} (hne : q ≠ p) (t : ℕ → Option ℕ) : Off (fun s => setTable s q t) s p fd := by
  refine ⟨?_, fun nid _ => aside_setTable hne t nid⟩
  by_cases hlow : fd < maxFds
  · rw [lookup_low hlow, lookup_low hlow]
    show update s.fdTable q t p fd = s.fdTable p fd
    rw [update_of_ne hne.symm]
  · rw [lookup_high (Nat.le_of_not_lt hlow), lookup_high (Nat.le_of_not_lt hlow)]
    rfl

end Lookup

/-! ## Contexts and files -/

section World

variable {V : View σ φ κ γ} {E : Env σ} {s : State σ π} {p : π} {fd : ℕ}

section

variable {nid : ℕ} {w : σ} (hE : EnvSound V E) (hb : Backed V s)

omit [DecidableEq π] in
theorem Within.node (h : V.Same s.world w ∨ V.Local (s.node nid).bctx s.world w) : Within V s (some nid) w :=
  h.imp_right fun h => ⟨nid, rfl, h⟩

include hE hb

omit [DecidableEq π] in
theorem vfsRead_within (n : ℕ) : Within V s (lookup s (some p) fd) (vfsRead E s (some p) fd n).2.world := by
  unfold vfsRead
  split_ifs
  · exact Within.refl V s _
  · cases lookup s (some p) fd with
    | none => exact Within.refl V s _
    | some nid => exact Within.node (readNode_step hE hb nid n).2.2

omit [DecidableEq π] in
theorem vfsWrite_within (data : Bytes) :
    Within V s (lookup s (some p) fd) (vfsWrite E s (some p) fd data).2.world := by
  unfold vfsWrite
  split_ifs
  · exact Within.refl V s _
  · cases lookup s (some p) fd with
    | none => exact Within.refl V s _
    | some nid => exact Within.node (writeNode_step hE hb nid data).2.2

end

omit [DecidableEq π] in
theorem vfsSeek_within (hb : Backed V s) (off whence : ℤ) :
    Within V s (lookup s (some p) fd) (vfsSeek s (some p) fd off whence).2.world := by
  unfold vfsSeek
  split_ifs
  · exact Within.refl V s _
  · cases lookup s (some p) fd with
    | none => exact Within.refl V s _
    | some nid => exact Within.node (seekNode_step hb nid off whence).2.2

theorem vfsClose_within (hb : Backed V s) : Within V s (lookup s (some p) fd) (vfsClose s (some p) fd).2.world := by
  unfold vfsClose
  split_ifs
  · exact Within.refl V s _
  cases lookup s (some p) fd with
  | none => exact Within.refl V s _
  | some nid =>
    dsimp only
    rcases dropRef_cases (clearFd s (some p) fd) nid with ⟨-, he⟩ | ⟨count, -, -, he⟩
    · rw [he]
      show Within V s _ (closeNode (clearFd s (some p) fd) ((clearFd s (some p) fd).node nid)).world
      unfold closeNode closeCtx
      rw [clearFd_node]
      cases hbe : (s.node nid).backend with
      | none =>
        rw [clearFd_world]
        exact Within.refl V s _
      | some be =>
        dsimp only
        cases hf : be.ops.opClose with
        | none =>
          rw [clearFd_world]
          exact Within.refl V s _
        | some f =>
          have hloc := ((hb.node nid be hbe).closed f hf s.world (s.node nid).bctx).2
          rw [clearFd_world]
          exact .inr ⟨nid, rfl, hloc⟩
    · rw [he]
      show Within V s _ (clearFd s (some p) fd).world
      rw [clearFd_world]
      exact Within.refl V s _

/-- a system call -/
theorem fdCall_within (hE : EnvSound V E) {m : Machine σ π} (hb : Backed V m.vfs) (p : π) (c : FdCall) :
    V.Same m.vfs.world (fdCall E m p c).2.vfs.world ∨
      ∃ fd, vfsFd m c = some fd ∧ Within V m.vfs (lookup m.vfs (some p) fd) (fdCall E m p c).2.vfs.world := by
  cases c with
  | read fd buf n =>
    simp only [fdCall, sysRead]
    split_ifs with h1 h2 h3
    · exact .inl (View.Same.refl V _)
    · exact .inl (View.Same.refl V _)
    · exact .inl (View.Same.refl V _)
    refine .inr ⟨fd % 2 ^ 32, if_neg (by simp [h1, h2, h3]), ?_⟩
    have hw : Within V m.vfs (lookup m.vfs (some p) (fd % 2 ^ 32))
        (vfsRead E m.vfs (some p) (fd % 2 ^ 32) (min n kbufSize)).2.world := vfsRead_within hE hb _
    cases (vfsRead E m.vfs (some p) (fd % 2 ^ 32) (min n kbufSize)).1 <;> exact hw
  | write fd buf n =>
    simp only [fdCall, sysWrite]
    by_cases h1 : n = 0
    · simp only [if_pos h1]
      exact .inl (View.Same.refl V _)
    by_cases h2 : validateUserPtr buf n = false
    · simp only [if_neg h1, if_pos h2]
      exact .inl (View.Same.refl V _)
    by_cases h3 : fd ≤ 2
    · refine .inl ?_
      split_ifs <;> first | exact View.Same.refl V _ | omega
    have h4 : ¬ (fd = 1 ∨ fd = 2) := by omega
    have h5 : ¬ fd = 0 := by omega
    simp only [if_neg h1, if_neg h2, if_neg h4, if_neg h5]
    cases hd : copyFromUser m.user buf (min n kbufSize) with
    | none => exact .inl (View.Same.refl V _)
    | some data =>
      refine .inr ⟨fd % 2 ^ 32, if_neg (by simp [h1, h2, h3, hd]), ?_⟩
      have hw : Within V m.vfs (lookup m.vfs (some p) (fd % 2 ^ 32))
          (vfsWrite E m.vfs (some p) (fd % 2 ^ 32) data).2.world := vfsWrite_within hE hb data
      dsimp only
      cases (vfsWrite E m.vfs (some p) (fd % 2 ^ 32) data).1 <;> exact hw
  | seek fd off whence => exact .inr ⟨fd % 2 ^ 32, rfl, vfsSeek_within hb _ _⟩
  | close fd => exact .inr ⟨fd % 2 ^ 32, rfl, vfsClose_within hb⟩

end World

/-! ## Calls that are not -/

section Foreign

variable {E : Env σ} {m : Machine σ π} {p : π} {fd n : ℕ}

/-- a free node -/
def away (n : ℕ) : Node σ π := ⟨n + 1, 0, 0, 0, 0, [], none, 0, none, none, 0⟩

/-- a node that refuses everything but to be closed -/
def present (n : ℕ) : Node σ π :=
  ⟨n, 0, 0, 0, 0, [], some ⟨1, [], { Ops.empty with opSeek := some fun w _ _ _ => (.error ePerm, w) }⟩, 0, none, none, 0⟩

omit [DecidableEq π] in
theorem lookup_away (h : maxFds ≤ fd) (s : State σ π) (p : π) :
    lookup (s.setNode (fd - maxFds) (away (fd - maxFds))) (some p) fd = none := by
  rw [lookup_high h, setNode_self]
  exact if_pos (.inr (Nat.succ_ne_self _))

omit [DecidableEq π] in
theorem lookup_present (h : maxFds ≤ fd) (hlt : fd < maxFds + maxNodes) (s : State σ π) (p : π) :
    lookup (s.setNode (fd - maxFds) (present (fd - maxFds))) (some p) fd = some (fd - maxFds) := by
  have hin : ¬ maxNodes ≤ fd - maxFds := Nat.not_le.2 (Nat.sub_lt_left_of_lt_add h hlt)
  rw [lookup_high h, setNode_self]
  exact if_neg fun hor => hor.elim hin fun hne => hne rfl

/-- through such a descriptor one sees whether a node is in use -/
theorem fdCall_sees {c : FdCall} (hfd : vfsFd m c = some fd) (h : maxFds ≤ fd) (hlt : fd < maxFds + maxNodes) :
    (fdCall E (m.setNode (fd - maxFds) (away (fd - maxFds))) p c).1 ≠
      (fdCall E (m.setNode (fd - maxFds) (present (fd - maxFds))) p c).1 := by
  have h0 : fd ≠ 0 := Nat.ne_of_gt (Nat.lt_of_lt_of_le (by decide) h)
  have ha := lookup_away h m.vfs p
  have hp := lookup_present h hlt m.vfs p
  have hnode := setNode_self m.vfs (fd - maxFds) (present (fd - maxFds))
  have hperm : (some eInval : Option ℤ) ≠ some ePerm := by decide
  cases c with
  | read x buf k =>
    simp only [vfsFd] at hfd
    split_ifs at hfd with hx
    cases hfd
    simp only [not_or] at hx
    simp only [fdCall, sysRead, Machine.setNode, if_neg hx.1, if_neg hx.2.1, if_neg hx.2.2, vfsRead, if_neg h0, ha, hp]
    simp only [readNode, hnode]
    exact hperm
  | write x buf k =>
    simp only [vfsFd] at hfd
    split_ifs at hfd with hx
    cases hfd
    simp only [not_or] at hx
    obtain ⟨h1, h2, h3, h4⟩ := hx
    obtain ⟨data, hd⟩ := Option.ne_none_iff_exists'.1 h4
    have h5 : ¬ (x = 1 ∨ x = 2) := by omega
    have h6 : ¬ x = 0 := by omega
    have h7 : ¬ (x % 2 ^ 32 = 0 ∨ data = []) := by
      rintro (hz | rfl)
      · exact h0 hz
      have hlen := copyFromUser_length hd
      have hmin : min k kbufSize = 0 := hlen.symm
      rw [Nat.min_def] at hmin
      split_ifs at hmin
      · exact h1 hmin
      · exact absurd hmin (by decide)
    simp only [fdCall, sysWrite, Machine.setNode, if_neg h1, if_neg h2, if_neg h5, if_neg h6, hd, vfsWrite, if_neg h7, ha, hp]
    simp only [writeNode, hnode]
    exact hperm
  | seek x off whence =>
    cases hfd
    simp only [fdCall, sysSeek, Machine.setNode, vfsSeek, if_neg h0, ha, hp]
    simp only [seekNode, hnode]
    exact hperm
  | close x =>
    cases hfd
    simp only [fdCall, sysClose, Machine.setNode, vfsClose, if_neg h0, ha, hp]
    decide

end Foreign

/-! ## Exactly when -/

/-- **Isolation.** For every state of the system, every process and every descriptor that it passes to read, write, seek or
close: the call is isolated if and only if its descriptor, on 32 bits, is no number of a node, or that of a node in the
caller's own table; or it does not get to the VFS. -/
theorem isolated_iff {V : View σ φ κ γ} {E : Env σ} (hE : EnvSound V E) {m : Machine σ π} (hb : Backed V m.vfs) (p : π)
    (c : FdCall) : Isolated V E m p c ↔ OwnFd m p c := by
  constructor
  · intro h fd hfd
    by_contra hnot
    simp only [not_or, Nat.not_lt, Nat.not_le] at hnot
    obtain ⟨hle, hlt, hown⟩ := hnot
    -- the result cannot depend on the node
    have h1 := congrArg Prod.fst (h.node _ hown (away (fd - maxFds)))
    have h2 := congrArg Prod.fst (h.node _ hown (present (fd - maxFds)))
    exact fdCall_sees hfd hle hlt (h1.trans h2.symm)
  intro h
  have hown : ∀ {fd nid}, vfsFd m c = some fd → lookup m.vfs (some p) fd = some nid → Own m.vfs p nid :=
    fun hfd hl => lookup_own (h _ hfd) hl
  refine ⟨fun n hn v => ?_, fun q hq t => ?_, fun x hx => ?_, fun x hx => ?_⟩
  · exact fdCall_off (F := fun s => s.setNode n v) fun fd hfd => off_setNode (h fd hfd) hn v
  · exact fdCall_off (F := fun s => setTable s q t) fun fd hfd => off_setTable hq t
  · rcases fdCall_within hE hb p c with hs | ⟨fd, hfd, hs | ⟨nid, hl, hloc⟩⟩
    · exact congrFun hs.1 x
    · exact congrFun hs.1 x
    · exact hloc.1 x (hx nid (hown hfd hl)).symm
  rcases fdCall_within hE hb p c with hs | ⟨fd, hfd, hs | ⟨nid, hl, hloc⟩⟩
  · exact congrFun hs.2 x
  · exact congrFun hs.2 x
  · exact hloc.2 x (hx nid (hown hfd hl))

/-- process 7 has `/a` open, as its descriptor 1 and node 1; at 0x1000 every process has the byte 9 -/
def sharedHost : Machine Ram ℕ :=
  ⟨(vfsOpen fileState.vfs ['/', 'a'] 3 (some 7)).2, ⟨fun a => if a = 0x1000 then some 9 else none, fun _ => true⟩, ⟨[], []⟩⟩

theorem sharedHost_backed : Backed ramView sharedHost.vfs := by
  have h := (vfsOpen_opens fileState.vfs ['/', 'a'] 3 (some 7)).backed fileState_backed
  unfold sharedHost
  dsimp only
  exact h

/-- process 7 reads its own file -/
theorem isolated_iff_own : Isolated ramView noEnv sharedHost 7 (.read 1 0x1000 2) := by
  apply (isolated_iff noEnv_sound sharedHost_backed 7 (.read 1 0x1000 2)).2
  intro fd hfd
  have hfd' : some 1 = some fd := hfd
  cases hfd'
  exact .inl (by decide)

/-- **Foreign descriptors.** Process 8 has no file open. It writes to descriptor 257, and changes the file and the offset of
process 7. -/
theorem foreign_write : (∀ fd < maxFds, sharedHost.vfs.fdTable 8 fd = none) ∧
    (fdCall noEnv sharedHost 8 (.write 257 0x1000 1)).1 = some 1 ∧
    ramView.content sharedHost.vfs.world (0, 0) = some ([1, 2, 3], 3) ∧
    ramView.content (fdCall noEnv sharedHost 8 (.write 257 0x1000 1)).2.vfs.world (0, 0) = some ([9, 2, 3], 3) ∧
    (sharedHost.vfs.node 1).offset = 0 ∧ ((fdCall noEnv sharedHost 8 (.write 257 0x1000 1)).2.vfs.node 1).offset = 1 := by
  decide +kernel

end OpenASD.Arch
