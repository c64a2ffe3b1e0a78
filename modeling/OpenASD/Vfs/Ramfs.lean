/-
The RAM file system (kernel/vfs/ramfs.c), and what it stands for: a file is a sequence of bytes.

An entry has a buffer and a size; a handle has an entry and an offset of its own. `alloc` says what kmalloc does: its
k-th call fails, or returns memory with some old content. `ramfs_write` behind the end of a file (another handle has
truncated it) makes the file longer by a buffer from kmalloc and leaves the gap as it was.

Paths are shorter than RAMFS_NAME_LEN, as those are that the VFS passes on.

Results:
- `ramfs_refines`: with all allocations succeeding, every run in which no write starts behind the end of its file gives the
  same results as `Ref`, where files are byte sequences and a gap is filled with zeros.
- `gap_is_junk`: a run where the gap is read.
-/
import OpenASD.Core.Bitmap
import OpenASD.Core.Machine
import OpenASD.Vfs.Nodes

namespace OpenASD.Vfs

open Machine
open Function (update update_eq_self update_idem update_of_ne update_self)
open List (countP_congr length_drop mem_range range)
open Option (map_some)

/-! ## State -/

/-- RAMFS_MAX_FILES -/
def ramfsMaxFiles : ℕ := 256

/-- `ramfs_entry_t` -/
structure Entry where
  path : Str
  data : Option Bytes
  size : ℕ
  kind : Kind
  valid : Bool
deriving DecidableEq

/-- an entry of a table, or the static entry of the root directory -/
inductive EntryRef where
  | slot (i : ℕ)
  | root
deriving DecidableEq

/-- `ramfs_file_t` -/
structure Handle where
  fs : ℕ
  entry : EntryRef
  offset : ℕ
deriving DecidableEq

/-- the bytes that a pointer leads to, none for NULL -/
abbrev Ptr := Option (ℕ → UInt8)

structure Ram where
  /-- the tables of all instances -/
  entry : ℕ → ℕ → Entry
  /-- `s_root` -/
  root : Entry
  handle : ℕ → Option Handle
  /-- the address of the last handle -/
  lastHandle : ℕ
  alloc : ℕ → Ptr
  /-- calls of kmalloc so far -/
  allocs : ℕ

variable (w : Ram)

namespace Ram

def get (fs : ℕ) : EntryRef → Entry
  | .slot i => w.entry fs i
  | .root => w.root

def set (fs : ℕ) (r : EntryRef) (e : Entry) : Ram :=
  match r with
  | .slot i => { w with entry := update w.entry fs (update (w.entry fs) i e) }
  | .root => { w with root := e }

def setHandle (h : ℕ) (f : Option Handle) : Ram := { w with handle := update w.handle h f }

/-- `kmalloc`: the old content of the memory -/
def kmalloc : Ptr × Ram := (w.alloc w.allocs, { w with allocs := w.allocs + 1 })

end Ram

/-! ## The source's functions -/

/-- `ramfs_find` -/
def ramfsFind (fs : ℕ) (path : Str) : Option ℕ :=
  (range ramfsMaxFiles).find? fun i => (w.entry fs i).valid && decide ((w.entry fs i).path = path)

/-- the first free entry -/
def ramfsFree (fs : ℕ) : Option ℕ := (range ramfsMaxFiles).find? fun i => !(w.entry fs i).valid

def newFile (path : Str) : Entry := ⟨path, none, 0, .file, true⟩

/-- the entry that `ramfs_open` opens -/
def openEntry (fs : ℕ) (path : Str) (flags : ℕ) : Option EntryRef × Ram :=
  match ramfsFind w fs path with
  | some i => (some (.slot i), w)
  | none =>
    if oDir flags = true ∧ path = ['/'] then (some .root, w)
    else if oCreat flags then
      match ramfsFree w fs with
      | none => (none, w)
      | some i => (some (.slot i), w.set fs (.slot i) (newFile path))
    else (none, w)

/-- VFS_O_TRUNC -/
def truncate (fs : ℕ) (r : EntryRef) (flags : ℕ) : Ram :=
  if oTrunc flags = true ∧ (w.get fs r).kind = .file ∧ (w.get fs r).data ≠ none then
    w.set fs r { w.get fs r with data := none, size := 0 }
  else w

/-- the handle's address, 0 for NULL -/
def newHandle (f : Handle) : ℕ × Ram :=
  match w.kmalloc with
  | (none, w) => (0, w)
  | (some _, w) => (w.lastHandle + 1, { w.setHandle (w.lastHandle + 1) (some f) with lastHandle := w.lastHandle + 1 })

def ramfsOpen (fs : ℕ) (w : Ram) (path : Str) (flags : ℕ) : ℕ × Ram :=
  match openEntry w fs path flags with
  | (none, w) => (0, w)
  | (some r, w) =>
    if (w.get fs r).kind = .dir ∧ oDir flags = false then (0, w)
    else newHandle (truncate w fs r flags) ⟨fs, r, 0⟩

def ramfsClose (h : ℕ) : Ram := w.setHandle h none

def ramfsRead (h n : ℕ) : Except ℤ Bytes × Ram :=
  match w.handle h with
  | none => (.error eInval, w)
  | some f =>
    let e := w.get f.fs f.entry
    if e.size ≤ f.offset then (.ok [], w)
    else
      let toRead := min n (e.size - f.offset)
      (.ok (((e.data.getD []).drop f.offset).take toRead), w.setHandle h (some { f with offset := f.offset + toRead }))

/-- `memcpy(data + offset, buf, n)` -/
def overwrite (data : Bytes) (offset : ℕ) (buf : Bytes) : Bytes :=
  data.take offset ++ buf ++ data.drop (offset + buf.length)

/-- the new buffer: the old bytes, then what kmalloc left there -/
def grown (e : Entry) (junk : ℕ → UInt8) (newEnd : ℕ) : Entry :=
  { e with
    data := some ((e.data.getD []).take e.size ++ ((range newEnd).map junk).drop e.size)
    size := newEnd }

/-- `f->offset + n` on 64 bits -/
@[irreducible] def writeEnd (offset n : ℕ) : ℕ := (offset + n) % 2 ^ 64

/-- the entry is made long enough; none if kmalloc fails -/
def makeRoom (fs : ℕ) (r : EntryRef) (newEnd : ℕ) : Option Ram :=
  if (w.get fs r).size < newEnd then
    match w.kmalloc with
    | (none, _) => none
    | (some junk, w) => some (w.set fs r (grown (w.get fs r) junk newEnd))
  else some w

def ramfsWrite (h : ℕ) (buf : Bytes) : Except ℤ Unit × Ram :=
  match w.handle h with
  | none => (.error eInval, w)
  | some f =>
    if 0 < buf.length ∧ writeEnd f.offset buf.length < f.offset then (.error eNospc, w)
    else
      match makeRoom w f.fs f.entry (writeEnd f.offset buf.length) with
      | none => (.error eNospc, w.kmalloc.2)
      | some w =>
        let e := w.get f.fs f.entry
        let w := w.set f.fs f.entry { e with data := e.data.map fun d => overwrite d f.offset buf }
        (.ok (), w.setHandle h (some { f with offset := writeEnd f.offset buf.length }))

/-- where a seek goes to -/
def seekTo (offset size : ℕ) (off whence : ℤ) : Except ℤ ℕ :=
  let target :=
    if whence = 0 then some off
    else if whence = 1 then some (int64 (offset + off))
    else if whence = 2 then some (int64 (size + off))
    else none
  match target with
  | none => .error eInval
  | some n => if n < 0 ∨ (size : ℤ) < n then .error eInval else .ok n.toNat

def ramfsSeek (h : ℕ) (off whence : ℤ) : Except ℤ ℕ × Ram :=
  match w.handle h with
  | none => (.error eInval, w)
  | some f =>
    match seekTo f.offset (w.get f.fs f.entry).size off whence with
    | .error e => (.error e, w)
    | .ok n => (.ok n, w.setHandle h (some { f with offset := n }))

/-- what stands behind the last `/` -/
def baseName (path : Str) : Str := (path.reverse.takeWhile (· ≠ '/')).reverse

def ramfsStat (fs : ℕ) (w : Ram) (path : Str) : Except ℤ StatInfo :=
  match ramfsFind w fs path with
  | none => .error eNoent
  | some i => .ok ⟨(w.entry fs i).size, (w.entry fs i).kind, 0, baseName (w.entry fs i).path⟩

/-- `ramfs_add_dir`: the first free entry, also if there is one with this path -/
def ramfsMkdir (fs : ℕ) (w : Ram) (path : Str) : Except ℤ Unit × Ram :=
  match ramfsFree w fs with
  | none => (.error eNospc, w)
  | some i => (.ok (), w.set fs (.slot i) ⟨path, none, 0, .dir, true⟩)

def nul : Char := Char.ofNat 0

/-- `strncpy` into an array -/
def strncpy (old src : Str) (n : ℕ) : Str := src.take n ++ List.replicate (n - src.length) nul ++ old.drop n

/-- the name of an entry below a directory -/
def childName (dir path : Str) : Option Str :=
  if dir = ['/'] then
    match path with
    | '/' :: c :: rest => some (c :: rest)
    | _ => none
  else if dir.isPrefixOf path && decide ((path.drop dir.length).head? = some '/') then some (path.drop (dir.length + 1))
  else none

/-- one round of the loop of `ramfs_readdir`, with the entries that are filled and the buffer as it was -/
def readdirStep (f : Handle) (buf out : List Dirent) (i : ℕ) : List Dirent :=
  let e := w.entry f.fs i
  let old := ((buf.drop out.length).head?.map Dirent.name).getD []
  if out.length < buf.length ∧ e.valid = true ∧ f.entry ≠ .slot i then
    match childName (w.get f.fs f.entry).path e.path with
    | none => out
    | some name =>
      if '/' ∈ name then
        -- sub_len: up to the last `/` of the name
        let subLen := name.length - (baseName name).length - 1
        if out.any fun d => decide (d.name.take subLen = name.take subLen ∧ (d.name.drop subLen).head? = some nul ∧
          d.kind = .dir) then out
        else out ++ [⟨strncpy old name (subLen + 1), .dir, 0⟩]
      else out ++ [⟨strncpy old name 256, e.kind, e.size⟩]
  else out

def ramfsReaddir (h : ℕ) (buf : List Dirent) : Except ℤ (List Dirent) × Ram :=
  match w.handle h with
  | none => (.error eInval, w)
  | some f => (.ok ((range ramfsMaxFiles).foldl (readdirStep w f buf) []), w)

/-- `ramfs_ops` of an instance -/
def ramfsOps (fs : ℕ) : Ops Ram where
  opOpen := some (ramfsOpen fs)
  opClose := some ramfsClose
  opRead := some ramfsRead
  opWrite := some ramfsWrite
  opSeek := some ramfsSeek
  opReaddir := some ramfsReaddir
  opStat := some (ramfsStat fs)
  opUnlink := some fun w _ => (.error ePerm, w)
  opMkdir := some (ramfsMkdir fs)

/-! ## Files as byte sequences -/

structure RefFile where
  kind : Kind
  bytes : Bytes

structure RefHandle where
  fs : ℕ
  path : Str
  offset : ℕ

/-- the reference: files by instance and path -/
structure Ref where
  file : ℕ → Str → Option RefFile
  /-- how many files can still be made -/
  free : ℕ → ℕ
  handle : ℕ → Option RefHandle
  lastHandle : ℕ

/-- bytes are replaced or added at an offset; a gap is filled with zeros -/
def writeAt (bytes : Bytes) (offset : ℕ) (buf : Bytes) : Bytes :=
  (bytes ++ List.replicate (offset - bytes.length) 0).take offset ++ buf ++ bytes.drop (offset + buf.length)

variable (r : Ref)

namespace Ref

def setFile (fs : ℕ) (path : Str) (f : RefFile) : Ref :=
  { r with file := fun fs' path' => if fs' = fs ∧ path' = path then some f else r.file fs' path' }

def setHandle (h : ℕ) (f : Option RefHandle) : Ref := { r with handle := update r.handle h f }

def newHandle (f : RefHandle) : ℕ × Ref :=
  (r.lastHandle + 1, { r.setHandle (r.lastHandle + 1) (some f) with lastHandle := r.lastHandle + 1 })

/-- the bytes of the file of a handle -/
def bytes (f : RefHandle) : Bytes := ((r.file f.fs f.path).map RefFile.bytes).getD []

def setBytes (f : RefHandle) (b : Bytes) : Ref := r.setFile f.fs f.path ⟨.file, b⟩

/-- open a file, not a directory -/
def openFile (fs : ℕ) (path : Str) (flags : ℕ) : ℕ × Ref :=
  match r.file fs path with
  | some f =>
    if f.kind = .dir then (0, r)
    else newHandle (if oTrunc flags then r.setFile fs path ⟨.file, []⟩ else r) ⟨fs, path, 0⟩
  | none =>
    if oCreat flags = true ∧ 0 < r.free fs then
      newHandle { r.setFile fs path ⟨.file, []⟩ with free := update r.free fs (r.free fs - 1) } ⟨fs, path, 0⟩
    else (0, r)

def read (h n : ℕ) : Except ℤ Bytes × Ref :=
  match r.handle h with
  | none => (.error eInval, r)
  | some f =>
    let b := ((r.bytes f).drop f.offset).take n
    (.ok b, r.setHandle h (some { f with offset := f.offset + b.length }))

def write (h : ℕ) (buf : Bytes) : Except ℤ Unit × Ref :=
  match r.handle h with
  | none => (.error eInval, r)
  | some f =>
    if 2 ^ 64 ≤ f.offset + buf.length then (.error eNospc, r)
    else
      (.ok (), (r.setBytes f (writeAt (r.bytes f) f.offset buf)).setHandle h
        (some { f with offset := f.offset + buf.length }))

def seek (h : ℕ) (off whence : ℤ) : Except ℤ ℕ × Ref :=
  match r.handle h with
  | none => (.error eInval, r)
  | some f =>
    match seekTo f.offset (r.bytes f).length off whence with
    | .error e => (.error e, r)
    | .ok n => (.ok n, r.setHandle h (some { f with offset := n }))

end Ref

/-! ## Calls -/

inductive FOp where
  | openFile (fs : ℕ) (path : Str) (flags : ℕ)
  | read (h n : ℕ)
  | write (h : ℕ) (buf : Bytes)
  | seek (h : ℕ) (off whence : ℤ)
  | close (h : ℕ)

inductive FOut where
  | opened (h : ℕ)
  | bytes (r : Except ℤ Bytes)
  | wrote (r : Except ℤ Unit)
  | sought (r : Except ℤ ℕ)
  | closed
deriving DecidableEq

def ramStep : FOp → FOut × Ram
  | .openFile fs path flags => let r := ramfsOpen fs w path flags; (.opened r.1, r.2)
  | .read h n => let r := ramfsRead w h n; (.bytes r.1, r.2)
  | .write h buf => let r := ramfsWrite w h buf; (.wrote r.1, r.2)
  | .seek h off whence => let r := ramfsSeek w h off whence; (.sought r.1, r.2)
  | .close h => (.closed, ramfsClose w h)

def refStep : FOp → FOut × Ref
  | .openFile fs path flags => let x := r.openFile fs path flags; (.opened x.1, x.2)
  | .read h n => let x := r.read h n; (.bytes x.1, x.2)
  | .write h buf => let x := r.write h buf; (.wrote x.1, x.2)
  | .seek h off whence => let x := r.seek h off whence; (.sought x.1, x.2)
  | .close h => (.closed, r.setHandle h none)

/-! ## The tables -/

section Table

variable {w w' : Ram} {fs i j : ℕ} {path : Str} {e : Entry}

theorem table_update {π β : Type} [DecidableEq π] (t : π → ℕ → β) (p : π) (i : ℕ) (v : β) (q : π) (j : ℕ) :
    update t p (update (t p) i v) q j = if q = p ∧ j = i then v else t q j := by
  by_cases hq : q = p
  · subst hq
    rw [update_self, Function.update_apply]
    simp
  · simp [hq]

theorem set_slot_entry (w : Ram) (fs i : ℕ) (e : Entry) (fs' j : ℕ) :
    (w.set fs (.slot i) e).entry fs' j = if fs' = fs ∧ j = i then e else w.entry fs' j :=
  table_update w.entry fs i e fs' j

theorem set_slot_self (w : Ram) (fs i : ℕ) (e : Entry) : (w.set fs (.slot i) e).entry fs i = e := by
  simp [set_slot_entry]

theorem ramfsFind_some (h : ramfsFind w fs path = some i) :
    i < ramfsMaxFiles ∧ (w.entry fs i).valid = true ∧ (w.entry fs i).path = path := by
  have hp := List.find?_some h
  have hm := List.mem_of_find?_eq_some h
  simp only [Bool.and_eq_true, decide_eq_true_eq] at hp
  exact ⟨mem_range.1 hm, hp⟩

theorem ramfsFree_some (h : ramfsFree w fs = some i) : i < ramfsMaxFiles ∧ (w.entry fs i).valid = false := by
  have hp := List.find?_some h
  have hm := List.mem_of_find?_eq_some h
  simp only [Bool.not_eq_true'] at hp
  exact ⟨mem_range.1 hm, hp⟩

/-- a change of data leaves the names -/
theorem find_set_data (hv : e.valid = (w.entry fs i).valid) (hp : e.path = (w.entry fs i).path) (fs' : ℕ) (path : Str) :
    ramfsFind (w.set fs (.slot i) e) fs' path = ramfsFind w fs' path := by
  unfold ramfsFind
  congr 1
  funext j
  rw [set_slot_entry]
  split_ifs with h
  · rw [h.1, h.2, hv, hp]
  · rfl

/-- a new entry has its name, and the other names are as they were -/
theorem find_set_new (hi : i < ramfsMaxFiles) (hfree : (w.entry fs i).valid = false) (hnone : ramfsFind w fs path = none)
    (he : e.valid = true) (hp : e.path = path) (fs' : ℕ) (path' : Str) :
    ramfsFind (w.set fs (.slot i) e) fs' path' = if fs' = fs ∧ path' = path then some i else ramfsFind w fs' path' := by
  split_ifs with h
  · obtain ⟨rfl, rfl⟩ := h
    unfold ramfsFind at hnone ⊢
    rw [List.find?_range_eq_some]
    refine ⟨?_, mem_range.2 hi, fun j hj => ?_⟩
    · rw [set_slot_self, he, hp]
      simp
    rw [List.find?_eq_none] at hnone
    have hj' := hnone j (mem_range.2 (Nat.lt_trans hj hi))
    rw [set_slot_entry, if_neg fun h => Nat.ne_of_lt hj h.2, Bool.not_eq_true', ← Bool.not_eq_true]
    exact hj'
  unfold ramfsFind
  congr 1
  funext j
  rw [set_slot_entry]
  split_ifs with h'
  · obtain ⟨rfl, rfl⟩ := h'
    have hne : e.path ≠ path' := fun hx => h ⟨rfl, hx.symm.trans hp⟩
    rw [hfree]
    simp [hne]
  · rfl

/-- the number of free entries -/
def freeCount (w : Ram) (fs : ℕ) : ℕ := (range ramfsMaxFiles).countP fun i => !(w.entry fs i).valid

theorem freeCount_pos (w : Ram) (fs : ℕ) : 0 < freeCount w fs ↔ ramfsFree w fs ≠ none := by
  unfold freeCount ramfsFree
  simp

theorem freeCount_set_new (hi : i < ramfsMaxFiles) (hfree : (w.entry fs i).valid = false) (he : e.valid = true) (fs' : ℕ) :
    freeCount (w.set fs (.slot i) e) fs' = if fs' = fs then freeCount w fs - 1 else freeCount w fs' := by
  split_ifs with h
  · subst h
    apply Nat.eq_sub_of_add_eq
    refine (Bitmap.countP_range_succ_of_ne hi ?_ ?_ ?_).symm
    · rw [hfree]
      rfl
    · rw [set_slot_self, he]
      rfl
    · intro j hj
      rw [set_slot_entry, if_neg fun h => hj h.2]
  · refine countP_congr fun j _ => ?_
    rw [set_slot_entry, if_neg fun h' => h h'.1]

theorem freeCount_set_data (hv : e.valid = (w.entry fs i).valid) (fs' : ℕ) :
    freeCount (w.set fs (.slot i) e) fs' = freeCount w fs' := by
  refine countP_congr fun j _ => ?_
  rw [set_slot_entry]
  split_ifs with h
  · rw [h.1, h.2, hv]
  · rfl

end Table

/-! ## Refinement -/

/-- the size of an entry is that of its buffer -/
structure EntryOk (e : Entry) : Prop where
  size : e.size = (e.data.getD []).length
  small : e.size < 2 ^ 64

def fileOf (e : Entry) : RefFile := ⟨e.kind, e.data.getD []⟩

/-- a handle and its counterpart: the file of that name, which is no directory -/
structure HandleSim (w : Ram) (f : Handle) (g : RefHandle) : Prop where
  fs : g.fs = f.fs
  offset : g.offset = f.offset
  small : f.offset < 2 ^ 64
  entry : ∃ i, f.entry = .slot i ∧ ramfsFind w f.fs g.path = some i ∧ (w.entry f.fs i).kind = .file

structure Sim (w : Ram) (r : Ref) : Prop where
  alloc : ∀ k, w.alloc k ≠ none
  ok : ∀ fs i, (w.entry fs i).valid = true → EntryOk (w.entry fs i)
  file : ∀ fs path, r.file fs path = (ramfsFind w fs path).map fun i => fileOf (w.entry fs i)
  free : ∀ fs, r.free fs = freeCount w fs
  last : r.lastHandle = w.lastHandle
  closed : ∀ h, w.handle h = none ↔ r.handle h = none
  handle : ∀ h f g, w.handle h = some f → r.handle h = some g → HandleSim w f g

section Sim

variable {w : Ram} {r : Ref} {fs i h : ℕ} {path : Str} {e : Entry} {f : Handle} {g : RefHandle}

/-- the entry of a handle -/
theorem HandleSim.bytes (hs : Sim w r) (hf : HandleSim w f g) :
    (w.get f.fs f.entry).data.getD [] = r.bytes g ∧ EntryOk (w.get f.fs f.entry) := by
  obtain ⟨i, hi, hfind, -⟩ := hf.entry
  obtain ⟨-, hv, -⟩ := ramfsFind_some hfind
  rw [hi, Ref.bytes, hf.fs, hs.file, hfind]
  exact ⟨rfl, hs.ok f.fs i hv⟩

theorem Sim.setHandle (hs : Sim w r) {fo : Option Handle} {go : Option RefHandle} (hnone : fo = none ↔ go = none)
    (hsim : ∀ f g, fo = some f → go = some g → HandleSim w f g) : Sim (w.setHandle h fo) (r.setHandle h go) := by
  refine ⟨hs.alloc, hs.ok, hs.file, hs.free, hs.last, fun h' => ?_, fun h' f g hf hg => ?_⟩
  · show update w.handle h fo h' = none ↔ update r.handle h go h' = none
    by_cases he : h' = h
    · subst he
      rw [update_self, update_self]
      exact hnone
    · rw [update_of_ne he, update_of_ne he]
      exact hs.closed h'
  have hf' : update w.handle h fo h' = some f := hf
  have hg' : update r.handle h go h' = some g := hg
  have hfg : HandleSim w f g := by
    by_cases he : h' = h
    · subst he
      rw [update_self] at hf' hg'
      exact hsim f g hf' hg'
    · rw [update_of_ne he] at hf' hg'
      exact hs.handle h' f g hf' hg'
  exact ⟨hfg.fs, hfg.offset, hfg.small, hfg.entry⟩

variable {n offset : ℕ} {buf : Bytes}

section

variable (hs : Sim w r)
include hs

/-- the offset of a handle changes -/
theorem Sim.setOffset (hf : HandleSim w f g) (hn : n < 2 ^ 64) :
    Sim (w.setHandle h (some { f with offset := n })) (r.setHandle h (some { g with offset := n })) := by
  refine hs.setHandle ⟨fun e => (nomatch e), fun e => (nomatch e)⟩ fun f' g' hf' hg' => ?_
  cases hf'
  cases hg'
  exact ⟨hf.fs, rfl, hn, hf.entry⟩

theorem Sim.kmalloc : Sim { w with allocs := w.allocs + 1 } r :=
  ⟨hs.alloc, hs.ok, hs.file, hs.free, hs.last, hs.closed, fun h f g hf hg => by
    obtain ⟨a, b, c, d⟩ := hs.handle h f g hf hg
    exact ⟨a, b, c, d⟩⟩

/-- a new handle, for a file that is there -/
theorem Sim.newHandle (hfind : ramfsFind w fs path = some i) (hk : (w.entry fs i).kind = .file) :
    (Vfs.newHandle w ⟨fs, .slot i, 0⟩).1 = (r.newHandle ⟨fs, path, 0⟩).1 ∧
      Sim (Vfs.newHandle w ⟨fs, .slot i, 0⟩).2 (r.newHandle ⟨fs, path, 0⟩).2 := by
  obtain ⟨junk, hj⟩ := Option.ne_none_iff_exists'.1 (hs.alloc w.allocs)
  have hnew : Vfs.newHandle w ⟨fs, .slot i, 0⟩ = (w.lastHandle + 1,
      { { w with allocs := w.allocs + 1 }.setHandle (w.lastHandle + 1) (some ⟨fs, .slot i, 0⟩) with
        lastHandle := w.lastHandle + 1 }) := by
    unfold Vfs.newHandle Ram.kmalloc
    rw [hj]
  have hset : Sim ({ w with allocs := w.allocs + 1 }.setHandle (w.lastHandle + 1) (some ⟨fs, .slot i, 0⟩))
      (r.setHandle (w.lastHandle + 1) (some ⟨fs, path, 0⟩)) := by
    refine hs.kmalloc.setHandle ⟨fun e => (nomatch e), fun e => (nomatch e)⟩ fun f g hf hg => ?_
    cases hf
    cases hg
    exact ⟨rfl, rfl, Nat.two_pow_pos 64, i, rfl, hfind, hk⟩
  rw [hnew, Ref.newHandle, hs.last]
  refine ⟨rfl, ?_⟩
  exact ⟨hset.alloc, hset.ok, hset.file, hset.free, rfl, hset.closed, fun h f g hf hg => by
    obtain ⟨a, b, c, d⟩ := hset.handle h f g hf hg
    exact ⟨a, b, c, d⟩⟩

/-- the entry of a file becomes e: an entry that only this name finds, or none does -/
theorem Sim.setSlot (hname : ∀ path' j, ramfsFind w fs path' = some j → (path' = path ↔ j = i))
    (hfind : ∀ fs' path', ramfsFind (w.set fs (.slot i) e) fs' path' =
      if fs' = fs ∧ path' = path then some i else ramfsFind w fs' path') (hk : e.kind = .file) (he : EntryOk e)
    {free : ℕ → ℕ} (hfree : ∀ fs', free fs' = freeCount (w.set fs (.slot i) e) fs') :
    Sim (w.set fs (.slot i) e) { r.setFile fs path (fileOf e) with free := free } := by
  refine ⟨hs.alloc, fun fs' j hj => ?_, fun fs' path' => ?_, hfree, hs.last, hs.closed, fun h f g hf hg => ?_⟩
  · rw [set_slot_entry] at hj ⊢
    split_ifs at hj ⊢ with hij
    · exact he
    · exact hs.ok fs' j hj
  · rw [hfind]
    show (if fs' = fs ∧ path' = path then some (fileOf e) else r.file fs' path') = _
    split_ifs with hsame
    · rw [hsame.1, map_some, set_slot_self]
    rw [hs.file]
    rcases hj : ramfsFind w fs' path' with _ | j
    · rfl
    -- another name, so another entry
    have hne : ¬ (fs' = fs ∧ j = i) := by
      rintro ⟨rfl, rfl⟩
      exact hsame ⟨rfl, (hname path' j hj).2 rfl⟩
    rw [map_some, map_some, set_slot_entry, if_neg hne]
  obtain ⟨a, b, c, j, hj, hfj, hkj⟩ := hs.handle h f g hf hg
  refine ⟨a, b, c, j, hj, ?_, ?_⟩
  · rw [hfind]
    split_ifs with hsame
    · rw [(hname g.path j (hsame.1 ▸ hfj)).1 hsame.2]
    · exact hfj
  · rw [set_slot_entry]
    split_ifs
    · exact hk
    · exact hkj

/-- the data of a file changes -/
theorem Sim.setData (hfind : ramfsFind w fs path = some i) (hv : e.valid = (w.entry fs i).valid)
    (hp : e.path = (w.entry fs i).path) (hk : e.kind = .file) (he : EntryOk e) :
    Sim (w.set fs (.slot i) e) (r.setFile fs path (fileOf e)) := by
  refine hs.setSlot (fun path' j hj => ⟨?_, ?_⟩) (fun fs' path' => ?_) hk he fun fs' => ?_
  · rintro rfl
    exact Option.some.inj (hj.symm.trans hfind)
  · rintro rfl
    exact (ramfsFind_some hj).2.2.symm.trans (ramfsFind_some hfind).2.2
  · rw [find_set_data hv hp]
    split_ifs with hsame
    · rw [hsame.1, hsame.2, hfind]
    · rfl
  · rw [freeCount_set_data hv]
    exact hs.free fs'

/-- a new file -/
theorem Sim.create (hnone : ramfsFind w fs path = none) (hfree : ramfsFree w fs = some i) :
    Sim (w.set fs (.slot i) (newFile path))
      { r.setFile fs path ⟨.file, []⟩ with free := update r.free fs (r.free fs - 1) } := by
  obtain ⟨hi, hv⟩ := ramfsFree_some hfree
  refine hs.setSlot (fun path' j hj => iff_of_false ?_ ?_) (find_set_new hi hv hnone rfl rfl) rfl
    ⟨rfl, Nat.two_pow_pos 64⟩ fun fs' => ?_
  · rintro rfl
    rw [hnone] at hj
    cases hj
  · rintro rfl
    rw [(ramfsFind_some hj).2.1] at hv
    cases hv
  rw [freeCount_set_new hi hv rfl, Function.update_apply, hs.free, hs.free]

end

theorem set_get_self (w : Ram) (fs i : ℕ) : w.set fs (.slot i) (w.entry fs i) = w := by
  show { w with entry := update w.entry fs (update (w.entry fs) i (w.entry fs i)) } = w
  rw [update_eq_self, update_eq_self]

/-- truncation -/
theorem Sim.truncate (hs : Sim w r) (hfind : ramfsFind w fs path = some i) (hk : (w.entry fs i).kind = .file) (flags : ℕ) :
    Sim (Vfs.truncate w fs (.slot i) flags) (if oTrunc flags then r.setFile fs path ⟨.file, []⟩ else r) ∧
      ramfsFind (Vfs.truncate w fs (.slot i) flags) fs path = some i ∧
      ((Vfs.truncate w fs (.slot i) flags).entry fs i).kind = .file := by
  unfold Vfs.truncate
  by_cases ht : oTrunc flags = true
  · rw [if_pos ht]
    by_cases hd : (w.entry fs i).data = none
    · have hsame := hs.setData hfind rfl rfl hk (hs.ok fs i (ramfsFind_some hfind).2.1)
      have hfile : fileOf (w.entry fs i) = ⟨.file, []⟩ := by
        rw [fileOf, hk, hd]
        rfl
      rw [set_get_self, hfile] at hsame
      rw [if_neg fun h => h.2.2 hd]
      exact ⟨hsame, hfind, hk⟩
    have hset := hs.setData hfind (e := { w.entry fs i with data := none, size := 0 }) rfl rfl hk
      ⟨rfl, Nat.two_pow_pos 64⟩
    have hfile : fileOf { w.entry fs i with data := none, size := 0 } = ⟨.file, []⟩ := by
      exact congrArg (RefFile.mk · []) hk
    rw [hfile] at hset
    rw [if_pos ⟨ht, hk, hd⟩]
    refine ⟨hset, ?_, ?_⟩
    · exact (find_set_data (e := { w.entry fs i with data := none, size := 0 }) rfl rfl fs path).trans hfind
    · rw [set_slot_self]
      exact hk
  · rw [if_neg ht, if_neg fun h => ht h.1]
    exact ⟨hs, hfind, hk⟩

theorem Sim.openFile (hs : Sim w r) (fs : ℕ) (path : Str) {flags : ℕ} (hdir : oDir flags = false) :
    (ramfsOpen fs w path flags).1 = (r.openFile fs path flags).1 ∧
      Sim (ramfsOpen fs w path flags).2 (r.openFile fs path flags).2 := by
  have hfile := hs.file fs path
  unfold ramfsOpen openEntry Ref.openFile
  rcases hfind : ramfsFind w fs path with _ | i
  · have hroot : ¬ (oDir flags = true ∧ path = ['/']) := fun h => Bool.false_ne_true (hdir.symm.trans h.1)
    rw [hfind, Option.map_none] at hfile
    simp only [hfile, if_neg hroot]
    by_cases hc : oCreat flags = true
    · rw [if_pos hc]
      rcases hfree : ramfsFree w fs with _ | i
      · have hzero : ¬ (oCreat flags = true ∧ 0 < r.free fs) := by
          rw [hs.free, freeCount_pos, hfree]
          exact fun h => h.2 rfl
        rw [if_neg hzero]
        exact ⟨rfl, hs⟩
      have hpos : oCreat flags = true ∧ 0 < r.free fs := by
        rw [hs.free, freeCount_pos, hfree]
        exact ⟨hc, fun h => nomatch h⟩
      obtain ⟨hi, hv⟩ := ramfsFree_some hfree
      have hnew := hs.create hfind hfree
      have hfind' := find_set_new hi hv hfind (e := newFile path) rfl rfl fs path
      rw [if_pos ⟨rfl, rfl⟩] at hfind'
      have hget : (w.set fs (.slot i) (newFile path)).get fs (.slot i) = newFile path := set_slot_self w fs i _
      have htr : Vfs.truncate (w.set fs (.slot i) (newFile path)) fs (.slot i) flags =
          w.set fs (.slot i) (newFile path) := by
        unfold Vfs.truncate
        rw [hget]
        exact if_neg fun h => h.2.2 rfl
      have hkind : ¬ ((newFile path).kind = .dir ∧ oDir flags = false) := fun h => nomatch h.1
      rw [if_pos hpos]
      simp only [hget, if_neg hkind, htr]
      refine hnew.newHandle hfind' ?_
      rw [set_slot_self]
      rfl
    · rw [if_neg hc, if_neg fun h => hc h.1]
      exact ⟨rfl, hs⟩
  · rw [hfind, map_some] at hfile
    simp only [hfile]
    by_cases hk : (w.entry fs i).kind = .dir
    · have hk1 : (w.get fs (.slot i)).kind = .dir ∧ oDir flags = false := ⟨hk, hdir⟩
      have hk2 : (fileOf (w.entry fs i)).kind = .dir := hk
      rw [if_pos hk1, if_pos hk2]
      exact ⟨rfl, hs⟩
    have hk1 : ¬ ((w.get fs (.slot i)).kind = .dir ∧ oDir flags = false) := fun h => hk h.1
    have hk2 : ¬ (fileOf (w.entry fs i)).kind = .dir := hk
    have hk3 : (w.entry fs i).kind = .file := by
      rcases hx : (w.entry fs i).kind with _ | _
      · rfl
      · exact absurd hx hk
    rw [if_neg hk1, if_neg hk2]
    obtain ⟨h1, h2, h3⟩ := hs.truncate hfind hk3 flags
    exact h1.newHandle h2 h3

theorem seekTo_le {size : ℕ} {off whence : ℤ} (h : seekTo offset size off whence = .ok n) : n ≤ size := by
  unfold seekTo at h
  simp only at h
  split at h
  · cases h
  · split_ifs at h with hbad
    have hn := Except.ok.inj h
    omega

theorem Sim.handles (hs : Sim w r) (h : ℕ) : (w.handle h = none ∧ r.handle h = none) ∨
    ∃ f g, w.handle h = some f ∧ r.handle h = some g ∧ HandleSim w f g := by
  rcases hw : w.handle h with _ | f
  · exact Or.inl ⟨rfl, (hs.closed h).1 hw⟩
  rcases hr : r.handle h with _ | g
  · rw [(hs.closed h).2 hr] at hw
    cases hw
  · exact Or.inr ⟨f, g, rfl, rfl, hs.handle h f g hw hr⟩

theorem Sim.read (hs : Sim w r) (h n : ℕ) :
    (ramfsRead w h n).1 = (r.read h n).1 ∧ Sim (ramfsRead w h n).2 (r.read h n).2 := by
  unfold ramfsRead Ref.read
  obtain ⟨hw, hr⟩ | ⟨f, g, hw, hr, hf⟩ := hs.handles h
  · rw [hw, hr]
    exact ⟨rfl, hs⟩
  obtain ⟨hbytes, hok⟩ := hf.bytes hs
  have hsize : (w.get f.fs f.entry).size = (r.bytes g).length := by rw [hok.size, hbytes]
  simp only [hw, hr, hbytes, hsize, hf.offset]
  by_cases hend : (r.bytes g).length ≤ f.offset
  · have hnil : ((r.bytes g).drop f.offset).take n = [] := by rw [List.drop_of_length_le hend, List.take_nil]
    have hsame : r.setHandle h (some { g with offset := f.offset + ([] : Bytes).length }) = r := by
      rw [← hf.offset]
      show { r with handle := update r.handle h (some g) } = r
      rw [← hr, update_eq_self]
    rw [if_pos hend, hnil, hsame]
    exact ⟨rfl, hs⟩
  have htake : ((r.bytes g).drop f.offset).take (min n ((r.bytes g).length - f.offset)) =
      ((r.bytes g).drop f.offset).take n := by
    rw [← length_drop]
    exact List.take_eq_take_min.symm
  have hlen : (((r.bytes g).drop f.offset).take n).length = min n ((r.bytes g).length - f.offset) := by
    rw [List.length_take, length_drop]
  rw [if_neg hend, htake, hlen]
  refine ⟨rfl, hs.setOffset hf ?_⟩
  have hsmall := hok.small
  omega

theorem Sim.seek (hs : Sim w r) (h : ℕ) (off whence : ℤ) :
    (ramfsSeek w h off whence).1 = (r.seek h off whence).1 ∧ Sim (ramfsSeek w h off whence).2 (r.seek h off whence).2 := by
  unfold ramfsSeek Ref.seek
  obtain ⟨hw, hr⟩ | ⟨f, g, hw, hr, hf⟩ := hs.handles h
  · rw [hw, hr]
    exact ⟨rfl, hs⟩
  obtain ⟨hbytes, hok⟩ := hf.bytes hs
  have hsize : (w.get f.fs f.entry).size = (r.bytes g).length := by rw [hok.size, hbytes]
  simp only [hw, hr, hsize, hf.offset]
  rcases hx : seekTo f.offset (r.bytes g).length off whence with err | n
  · exact ⟨rfl, hs⟩
  refine ⟨rfl, hs.setOffset hf ?_⟩
  have hle : n ≤ (r.bytes g).length := seekTo_le hx
  have hsmall := hok.small
  omega

/-- the entry after a write that does not start behind its end -/
def written (e : Entry) (junk : ℕ → UInt8) (offset : ℕ) (buf : Bytes) : Entry :=
  let e := if e.size < offset + buf.length then grown e junk (offset + buf.length) else e
  { e with data := e.data.map fun d => overwrite d offset buf }

theorem writeAt_eq {b : Bytes} (h : offset ≤ b.length) : writeAt b offset buf = overwrite b offset buf := by
  rw [writeAt, overwrite, Nat.sub_eq_zero_of_le h]
  simp

theorem overwrite_length {b : Bytes} (buf : Bytes) (h : offset ≤ b.length) :
    (overwrite b offset buf).length = max b.length (offset + buf.length) := by
  rw [overwrite]
  simp only [List.length_append, List.length_take, length_drop]
  omega

theorem written_spec (he : EntryOk e) (junk : ℕ → UInt8) (hoff : offset ≤ e.size) (hsmall : offset + buf.length < 2 ^ 64) :
    (written e junk offset buf).data.getD [] = writeAt (e.data.getD []) offset buf ∧
      EntryOk (written e junk offset buf) := by
  have hlen := he.size
  have hoff' : offset ≤ (e.data.getD []).length := hlen ▸ hoff
  have hlength := overwrite_length buf hoff'
  obtain ⟨hdata, hsize⟩ : (written e junk offset buf).data.getD [] = overwrite (e.data.getD []) offset buf ∧
      (written e junk offset buf).size = max e.size (offset + buf.length) := by
    by_cases hgrow : e.size < offset + buf.length
    · -- the old bytes behind the offset, and the content of the new memory, are overwritten
      have hjunk : ((range (offset + buf.length)).map junk).length = offset + buf.length := by simp
      rw [written, if_pos hgrow]
      refine ⟨?_, (max_eq_right hgrow.le).symm⟩
      show overwrite ((e.data.getD []).take e.size ++ _) offset buf = _
      rw [hlen, List.take_length, overwrite, overwrite, List.take_append_of_le_length hoff']
      congr 1
      rw [List.drop_of_length_le, List.drop_of_length_le]
      · omega
      · rw [List.length_append, length_drop, hjunk]
        omega
    · rw [written, if_neg hgrow]
      refine ⟨?_, (max_eq_left (Nat.le_of_not_lt hgrow)).symm⟩
      rcases hd : e.data with _ | d
      · -- an empty file and nothing to write
        rw [hd] at hlen
        have hz : e.size = 0 := hlen
        have hnil : buf = [] := List.length_eq_zero_iff.1 (by omega)
        rw [hnil]
        simp [overwrite]
      · rfl
  rw [writeAt_eq hoff']
  refine ⟨hdata, ?_, ?_⟩
  · rw [hdata, hlength, hsize, hlen]
  · rw [hsize]
    exact max_lt he.small hsmall

theorem set_set (w : Ram) (fs i : ℕ) (a b : Entry) : (w.set fs (.slot i) a).set fs (.slot i) b = w.set fs (.slot i) b := by
  have h : update (update w.entry fs (update (w.entry fs) i a)) fs
      (update (update w.entry fs (update (w.entry fs) i a) fs) i b) =
      update w.entry fs (update (w.entry fs) i b) := by
    rw [update_self, update_idem, update_idem]
  exact congrArg (fun x => { w with entry := x }) h

theorem writeEnd_eq (h : offset + n < 2 ^ 64) : writeEnd offset n = offset + n := by
  rw [writeEnd, Nat.mod_eq_of_lt h]

theorem writeEnd_wraps (h : 2 ^ 64 ≤ offset + n) (ho : offset < 2 ^ 64) (hn : n < 2 ^ 64) :
    0 < n ∧ writeEnd offset n < offset := by
  have hpos : 0 < n := by omega
  have hmod : (offset + n) % 2 ^ 64 = offset + n - 2 ^ 64 := by
    omega
  rw [writeEnd, hmod]
  exact ⟨hpos, by omega⟩

/-- the room for a write, with the write itself: one new entry -/
theorem makeRoom_written (hs : Sim w r) (fs i offset : ℕ) (buf : Bytes) :
    ∃ junk w' w1, makeRoom w fs (.slot i) (offset + buf.length) = some w' ∧ Sim w1 r ∧ w1.entry = w.entry ∧
      w'.set fs (.slot i) { w'.get fs (.slot i) with
        data := (w'.get fs (.slot i)).data.map fun d => overwrite d offset buf } =
      w1.set fs (.slot i) (written (w.entry fs i) junk offset buf) := by
  obtain ⟨junk, hj⟩ := Option.ne_none_iff_exists'.1 (hs.alloc w.allocs)
  unfold makeRoom written
  by_cases hgrow : (w.entry fs i).size < offset + buf.length
  · let w1 : Ram := { w with allocs := w.allocs + 1 }
    let e1 := grown (w.entry fs i) junk (offset + buf.length)
    refine ⟨junk, w1.set fs (.slot i) e1, w1, ?_, hs.kmalloc, rfl, ?_⟩
    · have hgrow' : (w.get fs (.slot i)).size < offset + buf.length := hgrow
      rw [if_pos hgrow', Ram.kmalloc, hj]
      rfl
    · have hget : (w1.set fs (.slot i) e1).get fs (.slot i) = e1 := set_slot_self _ fs i _
      rw [hget, set_set, if_pos hgrow]
  · have hgrow' : ¬ (w.get fs (.slot i)).size < offset + buf.length := hgrow
    refine ⟨junk, w, w, if_neg hgrow', hs, rfl, ?_⟩
    rw [if_neg hgrow]
    rfl

theorem Sim.write (hs : Sim w r) (h : ℕ) (hbuf : buf.length < 2 ^ 64)
    (hoff : ∀ f, w.handle h = some f → f.offset ≤ (w.get f.fs f.entry).size) :
    (ramfsWrite w h buf).1 = (r.write h buf).1 ∧ Sim (ramfsWrite w h buf).2 (r.write h buf).2 := by
  unfold ramfsWrite Ref.write
  obtain ⟨hw, hr⟩ | ⟨f, g, hw, hr, hf⟩ := hs.handles h
  · rw [hw, hr]
    exact ⟨rfl, hs⟩
  obtain ⟨hbytes, hok⟩ := hf.bytes hs
  obtain ⟨i, hi, hfind, hkind⟩ := hf.entry
  have hle := hoff f hw
  simp only [hw, hr, hf.offset]
  by_cases hwrap : 2 ^ 64 ≤ f.offset + buf.length
  · rw [if_pos (writeEnd_wraps hwrap hf.small hbuf), if_pos hwrap]
    exact ⟨rfl, hs⟩
  have hsmall : f.offset + buf.length < 2 ^ 64 := Nat.lt_of_not_le hwrap
  have hend := writeEnd_eq hsmall
  have hnowrap : ¬ (0 < buf.length ∧ writeEnd f.offset buf.length < f.offset) := by
    omega
  rw [if_neg hnowrap, if_neg hwrap, hend]
  rw [hi] at hle hok hbytes ⊢
  obtain ⟨junk, w', w1, hroom, hs1, hentry, hset⟩ := makeRoom_written hs f.fs i f.offset buf
  simp only [hroom]
  rw [hset]
  have he : w1.entry f.fs i = w.entry f.fs i := congrFun (congrFun hentry f.fs) i
  obtain ⟨hdata, hok'⟩ := written_spec hok junk hle hsmall
  have hfind1 : ramfsFind w1 f.fs g.path = some i := by
    rw [← hfind]
    unfold ramfsFind
    rw [hentry]
  have hsame : (written (w.entry f.fs i) junk f.offset buf).valid = (w1.entry f.fs i).valid ∧
      (written (w.entry f.fs i) junk f.offset buf).path = (w1.entry f.fs i).path ∧
      (written (w.entry f.fs i) junk f.offset buf).kind = .file := by
    rw [he, ← hkind]
    unfold written grown
    split_ifs <;> exact ⟨rfl, rfl, rfl⟩
  have hset' := hs1.setData hfind1 hsame.1 hsame.2.1 hsame.2.2 hok'
  have hfile : fileOf (written (w.entry f.fs i) junk f.offset buf) =
      ⟨.file, writeAt (r.bytes g) f.offset buf⟩ := by
    rw [fileOf, hsame.2.2, ← hbytes]
    exact congrArg (RefFile.mk .file) hdata
  have hf' : HandleSim (w1.set f.fs (.slot i) (written (w.entry f.fs i) junk f.offset buf)) f g := by
    refine ⟨hf.fs, hf.offset, hf.small, i, hi, ?_, ?_⟩
    · rw [find_set_data hsame.1 hsame.2.1]
      exact hfind1
    · rw [set_slot_self]
      exact hsame.2.2
  rw [hfile] at hset'
  refine ⟨trivial, ?_⟩
  have hdone := hset'.setOffset (h := h) hf' hsmall
  rw [hi, hf.fs] at hdone
  show Sim _ ((r.setFile g.fs g.path _).setHandle h _)
  rw [hf.fs]
  exact hdone

end Sim

/-! ## Runs -/

/-- calls of the interface: files are opened without VFS_O_DIR, and lengths are of type `size_t` -/
def FOp.legal : FOp → Bool
  | .openFile _ _ flags => !oDir flags
  | .write _ buf => decide (buf.length < 2 ^ 64)
  | _ => true

/-- a write does not start behind the end of its file -/
def noGap (w : Ram) : FOp → Bool
  | .write h _ => match w.handle h with
    | none => true
    | some f => decide (f.offset ≤ (w.get f.fs f.entry).size)
  | _ => true

/-- one call -/
theorem Sim.step {w : Ram} {r : Ref} (hs : Sim w r) {o : FOp} (hl : o.legal = true) (hg : noGap w o = true) :
    (ramStep w o).1 = (refStep r o).1 ∧ Sim (ramStep w o).2 (refStep r o).2 := by
  cases o with
  | openFile fs path flags =>
    have hd : oDir flags = false := by simpa [FOp.legal] using hl
    obtain ⟨h1, h2⟩ := hs.openFile fs path hd
    exact ⟨congrArg FOut.opened h1, h2⟩
  | read h n =>
    obtain ⟨h1, h2⟩ := hs.read h n
    exact ⟨congrArg FOut.bytes h1, h2⟩
  | write h buf =>
    have hoff : ∀ f, w.handle h = some f → f.offset ≤ (w.get f.fs f.entry).size := by
      intro f hf
      rw [noGap, hf] at hg
      exact of_decide_eq_true hg
    obtain ⟨h1, h2⟩ := hs.write h (of_decide_eq_true hl) hoff
    exact ⟨congrArg FOut.wrote h1, h2⟩
  | seek h off whence =>
    obtain ⟨h1, h2⟩ := hs.seek h off whence
    exact ⟨congrArg FOut.sought h1, h2⟩
  | close h =>
    exact ⟨rfl, hs.setHandle ⟨fun _ => rfl, fun _ => rfl⟩ fun f g hf _ => nomatch hf⟩

/-- file systems at the start: all entries in order, no file open -/
structure RamStart (w : Ram) : Prop where
  ok : ∀ fs i, (w.entry fs i).valid = true → EntryOk (w.entry fs i)
  closed : ∀ h, w.handle h = none

/-- what a state stands for, before any file is opened -/
def Ref.of (w : Ram) : Ref where
  file fs path := (ramfsFind w fs path).map fun i => fileOf (w.entry fs i)
  free := freeCount w
  handle _ := none
  lastHandle := w.lastHandle

/-- **Files are byte sequences.** With all allocations succeeding, a run of opens, reads, writes, seeks and closes through
any handles gives the results of the reference, provided that no write starts behind the end of its file. The buffers of
files are apart (`Vfs.Buffers`), which rests on the conditions of `Mm.good_run_sound` and `Mm.kfree_exact`. -/
theorem ramfs_refines {w : Ram} (hstart : RamStart w) (halloc : ∀ k, w.alloc k ≠ none) {ops : List FOp}
    (hlegal : ∀ o ∈ ops, o.legal = true) (hgap : Always ramStep (fun w o => noGap w o = true) w ops) :
    trace ramStep w ops = trace refStep (Ref.of w) ops := by
  have hsim : Sim w (Ref.of w) := by
    refine ⟨halloc, hstart.ok, fun _ _ => rfl, fun _ => rfl, rfl, fun h => ?_, fun h f g _ hg => nomatch hg⟩
    exact iff_of_true (hstart.closed h) rfl
  have hstep : ∀ w r o, Sim w r → (o.legal = true ∧ noGap w o = true) →
      (ramStep w o).1 = (refStep r o).1 ∧ Sim (ramStep w o).2 (refStep r o).2 :=
    fun w r o hs hP => hs.step hP.1 hP.2
  exact trace_eq hstep hsim (hgap.and_mem hlegal)

/-- no file yet; kmalloc finds old bytes 0xAA -/
def emptyRam : Ram :=
  ⟨fun _ _ => ⟨[], none, 0, .file, false⟩, ⟨['/'], none, 0, .dir, true⟩, fun _ => none, 0, fun _ => some fun _ => 0xAA, 0⟩

theorem emptyRam_start : RamStart emptyRam := ⟨fun _ _ h => (nomatch h), fun _ => rfl⟩

/-- a file is written through one handle and read through another -/
def sharedOps : List FOp :=
  [.openFile 0 ['/', 'a'] 6, .write 1 [1, 2, 3], .openFile 0 ['/', 'a'] 1, .read 2 2, .seek 1 0 0, .write 1 [8, 9],
    .seek 2 0 0, .read 2 5]

theorem ramfs_refines_shared : trace ramStep emptyRam sharedOps = trace refStep (Ref.of emptyRam) sharedOps ∧
    (trace ramStep emptyRam sharedOps).getLast? = some (.bytes (.ok [8, 9, 3])) := by
  refine ⟨ramfs_refines emptyRam_start (fun _ h => nomatch h) (by decide +kernel) ?_, by decide +kernel⟩
  refine ⟨?_, ?_, ?_, ?_, ?_, ?_, ?_, ?_, trivial⟩ <;> decide +kernel

/-- a file is emptied through a second handle, and the first one goes on writing at its offset -/
def gapOps : List FOp :=
  [.openFile 0 ['/', 'a'] 6, .write 1 [1, 2, 3], .openFile 0 ['/', 'a'] 11, .write 1 [9], .read 2 4]

/-- **The gap is not filled.** The bytes between the end of the file and the write are those that kmalloc found. -/
theorem gap_is_junk : (∀ o ∈ gapOps, o.legal = true) ∧
    (trace ramStep emptyRam gapOps).getLast? = some (.bytes (.ok [0xAA, 0xAA, 0xAA, 9])) ∧
    (trace refStep (Ref.of emptyRam) gapOps).getLast? = some (.bytes (.ok [0, 0, 0, 9])) := by
  decide +kernel

end OpenASD.Vfs
