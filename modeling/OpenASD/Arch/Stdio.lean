/-
Descriptors and the console (kernel/arch/syscall.c over kernel/vfs/vfs.c): sys_open takes the first free entry of the
table of the process, from number 1 on; sys_write and sys_writev send what is written to the numbers 1 and 2 to the
console.

`WriteCall.pieces` is what a call reads from the memory of the process, `storeAll` the effect on a file.

- `run_console`, `run_file`: a call on 1 or 2 shows its pieces, a call on another descriptor of a file hands them to the
  write function of the file;
- `writes_reach_file_iff`: on a descriptor from sys_open a call stores its bytes in the file and shows nothing exactly
  if the entries 1 and 2 of the table were taken when the file was opened.
-/
import OpenASD.Arch.Writev
import OpenASD.Vfs.Calls

namespace OpenASD.Arch

open Vfs

variable {σ π : Type} {v : State σ π}

/-! ## sys_open -/

/-- the loop of `copy_user_cstr` over at most n characters -/
def cstrLoop (u : User) (addr : ℕ) : ℕ → Option Bytes
  | 0 => none
  | n + 1 =>
    match copyFromUser u addr 1 with
    | none => none
    | some b => if b = [0] then some [] else (cstrLoop u (addr + 1) n).map (b ++ ·)

/-- the characters before the NUL; none if one cannot be read or the NUL is not found -/
def copyUserCstr (u : User) (kcap uptr maxU : ℕ) : Option Bytes :=
  if kcap = 0 ∨ validateUserPtr uptr 1 = false then none else cstrLoop u uptr (min (kcap - 1) maxU)

def pathOf (b : Bytes) : Str := b.map fun c => Char.ofNat c.toNat

def sysOpen [DecidableEq π] (s : Machine σ π) (cur : Option π) (path flags : ℕ) : Option ℤ × Machine σ π :=
  match copyUserCstr s.user vfsPathMax path vfsPathMax with
  | none => (some esysFault, s)
  | some b =>
    let r := vfsOpen s.vfs (pathOf b) (flags % 2 ^ 32) cur
    (some (match r.1 with
      | .ok fd => (fd : ℤ)
      | .error e => e), { s with vfs := r.2 })

/-! ## The two calls -/

inductive WriteCall
  | write (buf n : ℕ)
  | writev (iov cnt : ℕ)

def WriteCall.run (E : Env σ) (s : Machine σ π) (cur : Option π) (fd : ℕ) : WriteCall → Option ℤ × Machine σ π
  | .write buf n => sysWrite E s cur fd buf n
  | .writev iov cnt => sysWritev bytewise E s cur fd iov cnt

/-- the pieces that are read for a file: one of up to 4096 bytes by sys_write, all by sys_writev -/
def WriteCall.pieces (u : User) : WriteCall → List Bytes
  | .write buf n =>
    if n = 0 ∨ validateUserPtr buf n = false then [] else (copyFromUser u buf (min n kbufSize)).toList
  | .writev iov cnt =>
    if cnt = 0 ∨ 16 < cnt ∨ validateUserPtr iov (cnt * iovecSize) = false then []
    else
      match iovecsAt u iov cnt with
      | none => []
      | some vecs => (scan u 0 vecs).1

/-- pieces are handed to the write function of a file until it fails -/
def storeAll (f : σ → ℕ → Bytes → Except ℤ Unit × σ) (c : ℕ) (w : σ) : List Bytes → σ
  | [] => w
  | b :: bs =>
    match f w c b with
    | (.ok (), w) => storeAll f c w bs
    | (.error _, w) => w

theorem WriteCall.pieces_piece (u : User) (call : WriteCall) : ∀ b ∈ call.pieces u, Piece b := by
  intro b hb
  cases call with
  | write buf n =>
    rw [WriteCall.pieces] at hb
    split_ifs at hb with h0
    · cases hb
    have hlen := copyFromUser_length (Option.mem_toList.1 hb)
    refine ⟨fun e => ?_, hlen ▸ Nat.min_le_right n kbufSize⟩
    rw [e, List.length_nil] at hlen
    have hk : 0 < kbufSize := by decide
    omega
  | writev iov cnt =>
    rw [WriteCall.pieces] at hb
    split_ifs at hb with h0
    · cases hb
    · split at hb
      · cases hb
      · exact scan_pieces b hb

section Sink

variable {E : Env σ} {s : Machine σ π} {cur : Option π} {fd nid c : ℕ} {f : σ → ℕ → Bytes → Except ℤ Unit × σ}

/-! ### A file -/

section

variable (hfd : ¬ (fd = 1 ∨ fd = 2)) (h0 : fd % 2 ^ 32 ≠ 0) (hlook : lookup s.vfs cur (fd % 2 ^ 32) = some nid)
include hfd h0 hlook

theorem emitAll_file {bs : List Bytes} (hon : OnFile (s.vfs.node nid) f c) (hbs : ∀ b ∈ bs, Piece b) :
    (emitAll E s cur fd bs).2.vfs.world = storeAll f c s.vfs.world bs ∧
      (emitAll E s cur fd bs).2.console = s.console := by
  induction bs generalizing s with
  | nil => exact ⟨rfl, rfl⟩
  | cons b bs ih =>
    have hb : ¬ (fd % 2 ^ 32 = 0 ∨ b = []) := not_or.2 ⟨h0, (hbs b List.mem_cons_self).1⟩
    rw [emitAll, storeAll, writevChunk, if_neg hfd, vfsWrite_file hlook hon, if_neg hb]
    rcases f s.vfs.world c b with ⟨e | _, w⟩
    · exact ⟨rfl, rfl⟩
    · exact ih ((lookup_afterWrite s.vfs nid w b.length cur _).trans hlook) (hon.afterWrite w b.length)
        fun x hx => hbs x (List.mem_cons_of_mem b hx)

omit hfd h0 hlook in
theorem conclude_snd {α : Type} (r : Except ℤ Unit × Machine σ π) (last : Except ℤ α) : (conclude r last).2 = r.2 := by
  rcases r with ⟨_ | _, s⟩ <;> rfl

omit hfd h0 hlook in
/-- sys_writev leaves what the writing of its pieces leaves -/
theorem sysWritev_snd (iov cnt : ℕ) :
    (sysWritev bytewise E s cur fd iov cnt).2 = (emitAll E s cur fd ((WriteCall.writev iov cnt).pieces s.user)).2 := by
  rw [sysWritev, WriteCall.pieces]
  by_cases h1 : cnt = 0
  · rw [if_pos h1, if_pos (.inl h1)]
    rfl
  by_cases h2 : 16 < cnt
  · rw [if_neg h1, if_pos h2, if_pos (.inr (.inl h2))]
    rfl
  by_cases h3 : validateUserPtr iov (cnt * iovecSize) = false
  · rw [if_neg h1, if_neg h2, if_pos h3, if_pos (.inr (.inr h3))]
    rfl
  rw [if_neg h1, if_neg h2, if_neg h3, if_neg (not_or.2 ⟨h1, not_or.2 ⟨h2, h3⟩⟩), iovecsAt]
  dsimp only
  cases copyFromUser s.user iov (cnt * iovecSize) with
  | none => rfl
  | some b =>
    simp only [writevLoop_eq, Option.map_some]
    generalize kiov b cnt = vecs
    rw [← conclude_snd (emitAll E s cur fd (scan s.user 0 vecs).1) (scan s.user 0 vecs).2]
    rcases conclude (emitAll E s cur fd (scan s.user 0 vecs).1) (scan s.user 0 vecs).2 with ⟨_ | _, s1⟩ <;> rfl

/-- **A file.** The pieces of a call go to its write function, and the console shows nothing. -/
theorem run_file
    (hon : OnFile (s.vfs.node nid) f c) (call : WriteCall) :
    (call.run E s cur fd).2.vfs.world = storeAll f c s.vfs.world (call.pieces s.user) ∧
      (call.run E s cur fd).2.console = s.console := by
  cases call with
  | write buf n =>
    rw [WriteCall.run, sysWrite, WriteCall.pieces]
    by_cases h1 : n = 0
    · rw [if_pos h1, if_pos (.inl h1)]
      exact ⟨rfl, rfl⟩
    by_cases h2 : validateUserPtr buf n = false
    · rw [if_neg h1, if_pos h2, if_pos (.inr h2)]
      exact ⟨rfl, rfl⟩
    have hfd0 : fd ≠ 0 := by
      intro e
      rw [e] at h0
      exact h0 (Nat.zero_mod _)
    rw [if_neg h1, if_neg h2, if_neg hfd, if_neg hfd0, if_neg (not_or.2 ⟨h1, h2⟩)]
    rcases hcopy : copyFromUser s.user buf (min n kbufSize) with _ | data
    · exact ⟨rfl, rfl⟩
    have hdata : data ≠ [] := by
      refine (WriteCall.pieces_piece s.user (.write buf n) data ?_).1
      rw [WriteCall.pieces, if_neg (not_or.2 ⟨h1, h2⟩), hcopy]
      exact List.mem_singleton_self data
    simp only [vfsWrite_file hlook hon, if_neg (not_or.2 ⟨h0, hdata⟩), Option.toList_some, storeAll]
    rcases f s.vfs.world c data with ⟨_ | _, w⟩ <;> exact ⟨rfl, rfl⟩
  | writev iov cnt =>
    rw [WriteCall.run, sysWritev_snd]
    exact emitAll_file hfd h0 hlook hon (WriteCall.pieces_piece s.user _)

end

/-! ### The console -/

theorem emitAll_console (hfd : fd = 1 ∨ fd = 2) (bs : List Bytes) :
    (emitAll E s cur fd bs).2.console.output = s.console.output ++ bs.flatten := by
  induction bs generalizing s with
  | nil => exact (List.append_nil _).symm
  | cons b bs ih =>
    rw [emitAll, writevChunk, if_pos hfd, List.flatten_cons, ← List.append_assoc]
    exact ih

/-- what is shown stays -/
theorem consoleWrite_le (u : User) (buf : ℕ) (out : Bytes) (n fuel : ℕ) :
    out.length ≤ (consoleWrite u buf out n fuel).2.length := by
  induction fuel generalizing buf out n with
  | zero => exact le_rfl
  | succ fuel ih =>
    rw [consoleWrite]
    split_ifs
    · exact le_rfl
    cases copyFromUser u buf (min n 256) with
    | none => exact le_rfl
    | some b =>
      refine le_trans ?_ (ih (buf + min n 256) (out ++ b) (n - min n 256))
      rw [List.length_append]
      exact Nat.le_add_right _ _

/-- bytes that can be read for a file can be shown, at least the first 256 of them -/
theorem consoleWrite_lt {u : User} {buf n : ℕ} {data : Bytes} (out : Bytes) (hn : n ≠ 0)
    (h : copyFromUser u buf (min n kbufSize) = some data) : out.length < (consoleWrite u buf out n n).2.length := by
  have hsplit : min n kbufSize = min n 256 + (min n kbufSize - min n 256) := by
    rw [Nat.add_sub_cancel']
    exact min_le_min_left n (by decide)
  rw [hsplit, copyFromUser_add, Option.bind_eq_some_iff] at h
  obtain ⟨b, hb, -⟩ := h
  have hlen := copyFromUser_length hb
  obtain ⟨m, rfl⟩ := Nat.exists_eq_succ_of_ne_zero hn
  rw [consoleWrite, if_neg hn, hb]
  refine lt_of_lt_of_le ?_ (consoleWrite_le u _ (out ++ b) _ m)
  rw [List.length_append]
  omega

/-- **The console.** A call that reads something shows something. -/
theorem run_console (hfd : fd = 1 ∨ fd = 2) {call : WriteCall} (hread : call.pieces s.user ≠ []) :
    s.console.output.length < (call.run E s cur fd).2.console.output.length := by
  cases call with
  | write buf n =>
    rw [WriteCall.pieces] at hread
    have h0 : ¬ (n = 0 ∨ validateUserPtr buf n = false) := fun h => hread (if_pos h)
    rw [if_neg h0] at hread
    obtain ⟨h1, h2⟩ := not_or.1 h0
    rw [WriteCall.run, sysWrite, if_neg h1, if_neg h2, if_pos hfd]
    rcases hcopy : copyFromUser s.user buf (min n kbufSize) with _ | data
    · rw [hcopy] at hread
      exact absurd rfl hread
    · exact consoleWrite_lt s.console.output h1 hcopy
  | writev iov cnt =>
    have hpiece := WriteCall.pieces_piece s.user (.writev iov cnt)
    rw [WriteCall.run, sysWritev_snd, emitAll_console hfd, List.length_append]
    rcases hp : (WriteCall.writev iov cnt).pieces s.user with _ | ⟨b, bs⟩
    · exact absurd hp hread
    · have hb : 0 < b.length := List.length_pos_of_ne_nil (hpiece b (hp ▸ List.mem_cons_self)).1
      rw [List.flatten_cons, List.length_append]
      omega

end Sink

/-! ## A descriptor from sys_open -/

/-- the write function and the context of the file behind a descriptor; none if the file cannot be written -/
def fileAt (v : State σ π) (p : π) (fd : ℕ) : Option ((σ → ℕ → Bytes → Except ℤ Unit × σ) × ℕ) :=
  (v.fdTable p fd).bind fun nid =>
    ((v.node nid).backend.bind fun be => be.ops.opWrite).map fun f => (f, (v.node nid).bctx)

/-- a descriptor that still has its file -/
structure Kept (v v' : State σ π) (p : π) (fd : ℕ) : Prop where
  table : v'.fdTable p fd = v.fdTable p fd
  node : ∀ nid, v.fdTable p fd = some nid → (v'.node nid).ring = (v.node nid).ring ∧
    (v'.node nid).portId = (v.node nid).portId ∧ (v'.node nid).backend = (v.node nid).backend ∧
    (v'.node nid).bctx = (v.node nid).bctx

theorem Kept.refl (v : State σ π) (p : π) (fd : ℕ) : Kept v v p fd := ⟨rfl, fun _ _ => ⟨rfl, rfl, rfl, rfl⟩⟩

/-- the first free descriptor is above 2 exactly if 1 and 2 are taken -/
theorem freeFd_gt_two {p : π} {fd : ℕ} (h : freeFd v p = some fd) :
    ¬ (fd = 1 ∨ fd = 2) ↔ v.fdTable p 1 ≠ none ∧ v.fdTable p 2 ≠ none := by
  obtain ⟨h0, -, hfree⟩ := freeFd_some h
  have hfirst : ∀ i, 1 ≤ i → i < fd → v.fdTable p i ≠ none := by
    intro i h1 hi hnone
    have hused := (List.find?_range'_eq_some.1 h).2.2 i h1 hi
    rw [hnone] at hused
    cases hused
  constructor
  · intro hno
    exact ⟨hfirst 1 le_rfl (by omega), hfirst 2 (by decide) (by omega)⟩
  · rintro ⟨h1, h2⟩ (rfl | rfl)
    · exact h1 hfree
    · exact h2 hfree

section Open

variable [DecidableEq π] {s s1 t : Machine σ π} {p : π} {path flags fd c : ℕ} {f : σ → ℕ → Bytes → Except ℤ Unit × σ}

theorem vfsOpen_error {name : Str} {caller : Option π} {e : ℤ} (h : (vfsOpen v name flags caller).1 = .error e) : e < 0 := by
  have hopens := vfsOpen_opens v name flags caller
  generalize vfsOpen v name flags caller = r at h hopens
  cases hopens with
  | refused he => exact Except.error.inj h ▸ he
  | absent | full | noSlot => exact Except.error.inj h ▸ (by decide)
  | kernel | slot => cases h

/-- the descriptor is the first free one, and its node is the node of a file -/
theorem vfsOpen_ok {v' : State σ π} {name : Str} (h : vfsOpen v name flags (some p) = (.ok fd, v')) :
    freeFd v p = some fd ∧
      ∃ nid, v'.fdTable p fd = some nid ∧ (v'.node nid).ring = none ∧ (v'.node nid).portId = 0 := by
  have hopens := vfsOpen_opens v name flags (some p)
  rw [h] at hopens
  cases hopens with
  | kernel _ _ _ _ _ hcaller => cases hcaller
  | @slot canon be rel f r nid p' _ _ _ _ _ _ hcaller hfd =>
    obtain rfl : p = p' := Option.some.inj hcaller
    refine ⟨hfd, nid, ?_, ?_, ?_⟩
    · simp only [State.setFd, Function.update_self]
    · simp only [State.setFd, installNode, Function.update_self]
    · simp only [State.setFd, installNode, Function.update_self]

theorem sysOpen_ok (h : sysOpen s (some p) path flags = (some (fd : ℤ), s1)) : freeFd s.vfs p = some fd ∧
    ∃ nid, s1.vfs.fdTable p fd = some nid ∧ (s1.vfs.node nid).ring = none ∧ (s1.vfs.node nid).portId = 0 := by
  unfold sysOpen at h
  split at h
  · cases h
  rename_i b hb
  have hneg : ∀ e, (vfsOpen s.vfs (pathOf b) (flags % 2 ^ 32) (some p)).1 = .error e → e < 0 :=
    fun e => vfsOpen_error
  rcases hr : vfsOpen s.vfs (pathOf b) (flags % 2 ^ 32) (some p) with ⟨e | fd', v⟩
  · rw [hr] at h hneg
    have he : e = (fd : ℤ) := Option.some.inj (congrArg Prod.fst h)
    have hlt := hneg e rfl
    omega
  rw [hr] at h
  obtain rfl : fd' = fd := Int.ofNat.inj (Option.some.inj (congrArg Prod.fst h))
  obtain rfl : v = s1.vfs := congrArg (fun r => r.2.vfs) h
  exact vfsOpen_ok hr

/-- **Stored or shown.** On a descriptor that sys_open has returned for a file that can be written, and that still has
its file, a call that reads something hands it to the file and shows nothing exactly if the entries 1 and 2 of the table
of the process were taken when the file was opened. -/
theorem writes_reach_file_iff {E : Env σ} (hopen : sysOpen s (some p) path flags = (some (fd : ℤ), s1))
    (hfile : fileAt s1.vfs p fd = some (f, c)) (hkept : Kept s1.vfs t.vfs p fd) {call : WriteCall}
    (hread : call.pieces t.user ≠ []) :
    ((call.run E t (some p) fd).2.vfs.world = storeAll f c t.vfs.world (call.pieces t.user) ∧
      (call.run E t (some p) fd).2.console = t.console) ↔ s.vfs.fdTable p 1 ≠ none ∧ s.vfs.fdTable p 2 ≠ none := by
  obtain ⟨hfree, nid, hnid, hring, hport⟩ := sysOpen_ok hopen
  rw [← freeFd_gt_two hfree]
  constructor
  · rintro ⟨-, hsilent⟩ hfd
    have hlt : t.console.output.length < (call.run E t (some p) fd).2.console.output.length := run_console hfd hread
    rw [hsilent] at hlt
    exact lt_irrefl _ hlt
  intro hfd
  obtain ⟨h0, hlt, -⟩ := freeFd_some hfree
  have hmod : fd % 2 ^ 32 = fd := Nat.mod_eq_of_lt (lt_trans hlt (by decide))
  obtain ⟨k1, k2, k3, k4⟩ := hkept.node nid hnid
  have hlook : lookup t.vfs (some p) (fd % 2 ^ 32) = some nid := by
    rw [hmod, lookup, if_neg (Nat.not_le.2 hlt), Option.bind_some, hkept.table, hnid]
  have hon : OnFile (t.vfs.node nid) f c := by
    rw [fileAt, hnid, Option.bind_some, Option.map_eq_some_iff] at hfile
    obtain ⟨g, hg, heq⟩ := hfile
    obtain ⟨rfl, rfl⟩ := Prod.mk.inj heq
    exact ⟨k1.trans hring, k2.trans hport, k3 ▸ hg, k4⟩
  exact run_file hfd (hmod.symm ▸ h0) hlook hon call

end Open

/-- a path, and one byte after it -/
def stdioUser : User := ⟨fun a => if a < 4096 then none else ([47, 97, 0, 104] : Bytes)[a - 4096]?, fun _ => false⟩

/-- an empty RAM file system at the root; process 0 has its descriptors up to a number in use -/
def stdioMachine (taken : ℕ) : Machine Ram ℕ where
  vfs :=
    { (vfsMount (vfsInit emptyRam) ['/'] (ramfsOps 0)).2 with
      fdTable := fun _ fd => if fd = 0 ∨ taken < fd then none else some 9 }
  user := stdioUser
  console := ⟨[], []⟩

/-- process 0 opens the file, with its descriptors up to a number in use -/
abbrev opened (taken : ℕ) : Option ℤ × Machine Ram ℕ := sysOpen (stdioMachine taken) (some 0) 4096 6

theorem writes_reach_file_iff_third : ∃ s1 f c, opened 2 = (some 3, s1) ∧
    fileAt s1.vfs 0 3 = some (f, c) ∧ (sysWrite noEnv s1 (some 0) 3 4099 1).2.vfs.world = storeAll f c s1.vfs.world [[104]] ∧
    (sysWrite noEnv s1 (some 0) 3 4099 1).2.console = s1.console := by
  have hval : (opened 2).1 = some 3 := by decide +kernel
  have hwritable : (fileAt (opened 2).2.vfs 0 3).isSome = true := by decide +kernel
  have hpieces : (WriteCall.write 4099 1).pieces (opened 2).2.user = [[104]] := by decide +kernel
  have hread : (WriteCall.write 4099 1).pieces (opened 2).2.user ≠ [] := by decide
  generalize hrun : opened 2 = r at hval hwritable hpieces hread
  obtain ⟨v, s1⟩ := r
  obtain rfl : v = some ((3 : ℕ) : ℤ) := hval
  obtain ⟨⟨f, c⟩, hfile⟩ := Option.isSome_iff_exists.1 hwritable
  have hboth := (writes_reach_file_iff (E := noEnv) hrun hfile (Kept.refl s1.vfs 0 3) hread).2 (by decide)
  rw [hpieces] at hboth
  exact ⟨s1, f, c, rfl, hfile, hboth⟩

/-- **The first two files are the console.** The first file that a process opens gets descriptor 1; the byte that is
written to it is shown, and the file stays empty. -/
theorem first_file_is_console : (opened 0).1 = some 1 ∧
    (WriteCall.write 4099 1).pieces (opened 0).2.user = [[104]] ∧
    (sysWrite noEnv (opened 0).2 (some 0) 1 4099 1).1 = some 1 ∧
    (sysWrite noEnv (opened 0).2 (some 0) 1 4099 1).2.console.output = [104] ∧
    ((sysWrite noEnv (opened 0).2 (some 0) 1 4099 1).2.vfs.world.entry 0 0).size = 0 := by
  decide +kernel

end OpenASD.Arch
