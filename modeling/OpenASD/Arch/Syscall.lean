/-
System calls on descriptors (kernel/arch/syscall.c): read, write, seek and close. This module is the model only.

Arguments are registers, so 64-bit numbers; `(fd_t)fd` keeps the lower 32 bits. `User` is the memory of the calling process
with all pages that a copy would fault in, and the copies go byte by byte here; copy_from_user by pages, over the page tables,
is in `Arch.UserCopy`. The console gives the characters that are there; a read waits while there is none, which is a call
without a result.
-/
import OpenASD.Vfs.Nodes

namespace OpenASD.Arch

open Vfs

/-! ## State -/

structure User where
  /-- none for an address that cannot be read -/
  mem : ℕ → Option UInt8
  writable : ℕ → Bool

structure Console where
  input : Bytes
  output : Bytes

/-- the files, and what belongs to the calling process -/
structure Machine (σ π : Type) (υ : Type := User) where
  vfs : State σ π
  user : υ
  console : Console

/-- the ESYS_* codes -/
def esysFault : ℤ := -14
def esysInval : ℤ := -22

/-! ## User memory -/

def validateUserPtr (addr size : ℕ) : Bool :=
  decide (0x1000 ≤ addr ∧ addr < 2 ^ 47) &&
    (decide (size = 0) || decide (addr ≤ (addr + size) % 2 ^ 64 ∧ (addr + size) % 2 ^ 64 ≤ 2 ^ 47))

def copyFromUser (u : User) : ℕ → ℕ → Option Bytes
  | _, 0 => some []
  | addr, n + 1 => (u.mem addr).bind fun b => (copyFromUser u (addr + 1) n).map (b :: ·)

theorem copyFromUser_length {u : User} {addr k : ℕ} {b : Bytes} (h : copyFromUser u addr k = some b) : b.length = k := by
  induction k generalizing addr b with
  | zero =>
    obtain rfl := Option.some.inj h
    rfl
  | succ k ih =>
    obtain ⟨x, -, hx⟩ := Option.bind_eq_some_iff.1 h
    obtain ⟨bs, hbs, rfl⟩ := Option.map_eq_some_iff.1 hx
    rw [List.length_cons, ih hbs]

/-- false if it fails; the bytes before that are written -/
def copyToUser (u : User) : ℕ → Bytes → Bool × User
  | _, [] => (true, u)
  | addr, b :: bs =>
    if u.writable addr then copyToUser { u with mem := Function.update u.mem addr (some b) } (addr + 1) bs else (false, u)

/-! ## Calls -/

variable {σ π : Type}

/-- the loop of `sys_read` on the console; none while it waits for a first character -/
def consoleRead (u : User) (buf n got : ℕ) : Bytes → Option ℤ × User × Bytes
  | [] => (if got < n ∧ got = 0 then none else some got, u, [])
  | c :: input =>
    if n ≤ got then (some got, u, c :: input)
    else
      match copyToUser u (buf + got) [c] with
      | (false, u) => (some esysFault, u, input)
      | (true, u) => consoleRead u buf n (got + 1) input

/-- the size of the kernel's buffer -/
def kbufSize : ℕ := 4096

def sysRead (E : Env σ) (s : Machine σ π) (cur : Option π) (fd buf n : ℕ) : Option ℤ × Machine σ π :=
  if n = 0 then (some 0, s)
  else if validateUserPtr buf n = false then (some esysFault, s)
  else if fd = 0 then
    let r := consoleRead s.user buf n 0 s.console.input
    (r.1, { s with user := r.2.1, console := { s.console with input := r.2.2 } })
  else
    let r := vfsRead E s.vfs cur (fd % 2 ^ 32) (min n kbufSize)
    match r.1 with
    | .error e => (some e, { s with vfs := r.2 })
    | .ok b =>
      let c := copyToUser s.user buf b
      (some (if c.1 then (b.length : ℤ) else esysFault), { s with vfs := r.2, user := c.2 })

/-- the loop of `sys_write` on the console, by pieces of 256 bytes; fuel is the length -/
def consoleWrite (u : User) (buf : ℕ) (out : Bytes) (n : ℕ) : ℕ → Bool × Bytes
  | 0 => (true, out)
  | fuel + 1 =>
    if n = 0 then (true, out)
    else
      match copyFromUser u buf (min n 256) with
      | none => (false, out)
      | some b => consoleWrite u (buf + min n 256) (out ++ b) (n - min n 256) fuel

def sysWrite (E : Env σ) (s : Machine σ π) (cur : Option π) (fd buf n : ℕ) : Option ℤ × Machine σ π :=
  if n = 0 then (some 0, s)
  else if validateUserPtr buf n = false then (some esysFault, s)
  else if fd = 1 ∨ fd = 2 then
    let r := consoleWrite s.user buf s.console.output n n
    (some (if r.1 then (n : ℤ) else esysFault), { s with console := { s.console with output := r.2 } })
  else if fd = 0 then (some esysInval, s)
  else
    match copyFromUser s.user buf (min n kbufSize) with
    | none => (some esysFault, s)
    | some data =>
      let r := vfsWrite E s.vfs cur (fd % 2 ^ 32) data
      match r.1 with
      | .error e => (some e, { s with vfs := r.2 })
      | .ok () => (some (min n kbufSize : ℕ), { s with vfs := r.2 })

/-- a cast to `int` -/
def int32 (n : ℕ) : ℤ := (n : ℤ).bmod (2 ^ 32)

def sysSeek (s : Machine σ π) (cur : Option π) (fd off whence : ℕ) : Option ℤ × Machine σ π :=
  let r := vfsSeek s.vfs cur (fd % 2 ^ 32) (int64 off) (int32 whence)
  (some (match r.1 with
    | .ok n => (n : ℤ)
    | .error e => e), { s with vfs := r.2 })

def sysClose [DecidableEq π] (s : Machine σ π) (cur : Option π) (fd : ℕ) : Option ℤ × Machine σ π :=
  let r := vfsClose s.vfs cur (fd % 2 ^ 32)
  (some (match r.1 with
    | .ok () => 0
    | .error e => e), { s with vfs := r.2 })

/-- system calls with a descriptor -/
inductive FdCall where
  | read (fd buf n : ℕ)
  | write (fd buf n : ℕ)
  | seek (fd off whence : ℕ)
  | close (fd : ℕ)

/-- a call by process p -/
def fdCall [DecidableEq π] (E : Env σ) (s : Machine σ π) (p : π) : FdCall → Option ℤ × Machine σ π
  | .read fd buf n => sysRead E s (some p) fd buf n
  | .write fd buf n => sysWrite E s (some p) fd buf n
  | .seek fd off whence => sysSeek s (some p) fd off whence
  | .close fd => sysClose s (some p) fd

end OpenASD.Arch
