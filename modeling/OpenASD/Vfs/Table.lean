/-
The tables of the RAM file systems (kernel/vfs/ramfs.c) under all calls that create or fill entries: ramfs_open,
ramfs_write and ramfs_mkdir, which the VFS calls, and ramfs_root_mkdir and ramfs_root_writefile, which the kernel calls.

`Edit` lists what one call can do to a table; `TableOk` says that a path has one entry and a directory no data.

- `Edit.tableOk`: each edit keeps the tables in order;
- `tableStep_ok`: so does each call, if vfs_mkdir makes no directory that is there, and neither a write nor
  ramfs_root_writefile is for a directory (`Proper`).
-/
import OpenASD.Vfs.Ramfs

namespace OpenASD.Vfs

open Machine

/-! ## The calls of the kernel -/

/-- RAMFS_NAME_LEN -/
def ramfsNameLen : ℕ := 256

/-- `g_vfs_root_fs`, the second instance -/
def vfsRootFs : ℕ := 1

/-- the bytes from a pointer that may be NULL; what kmalloc found stays then -/
def bytesFrom (data : Ptr) (junk : ℕ → UInt8) (size : ℕ) : Bytes := (List.range size).map (data.getD junk)

def ramfsAddDir (fs : ℕ) (w : Ram) (path : Str) : Except ℤ Unit × Ram :=
  match ramfsFree w fs with
  | none => (.error (-1), w)
  | some i => (.ok (), w.set fs (.slot i) ⟨path.take ramfsNameLen, none, 0, .dir, true⟩)

def ramfsAddFile (fs : ℕ) (w : Ram) (path : Str) (data : Ptr) (size : ℕ) : Except ℤ Unit × Ram :=
  match ramfsFree w fs with
  | none => (.error (-1), w)
  | some i =>
    match w.kmalloc with
    | (none, w) =>
      if 0 < size then
        -- the entry stays free, with the new path
        (.error (-1), w.set fs (.slot i) { w.entry fs i with path := path.take ramfsNameLen, data := none })
      else (.ok (), w.set fs (.slot i) ⟨path.take ramfsNameLen, none, size, .file, true⟩)
    | (some junk, w) =>
      (.ok (), w.set fs (.slot i) ⟨path.take ramfsNameLen, some (bytesFrom data junk size), size, .file, true⟩)

def ramfsRootMkdir (w : Ram) (path : Str) : Except ℤ Unit × Ram :=
  match ramfsFind w vfsRootFs path with
  | some _ => (.ok (), w)
  | none => ramfsAddDir vfsRootFs w path

def ramfsRootWritefile (w : Ram) (path : Str) (data : Ptr) (size : ℕ) : Except ℤ Unit × Ram :=
  match ramfsFind w vfsRootFs path with
  | some i =>
    if 0 < size then
      match w.kmalloc with
      | (none, w) => (.error (-1), w)
      | (some junk, w) =>
        (.ok (), w.set vfsRootFs (.slot i)
          { w.entry vfsRootFs i with data := some (bytesFrom data junk size), size := size })
    else (.ok (), w.set vfsRootFs (.slot i) { w.entry vfsRootFs i with data := none, size := size })
  | none => ramfsAddFile vfsRootFs w path data size

/-- for the paths that the VFS passes on, `ramfs_mkdir` is `ramfs_add_dir` with another code -/
theorem ramfsMkdir_eq {path : Str} (h : path.length < ramfsNameLen) (fs : ℕ) (w : Ram) :
    ramfsMkdir fs w path = ((ramfsAddDir fs w path).1.mapError fun _ => eNospc, (ramfsAddDir fs w path).2) := by
  unfold ramfsMkdir ramfsAddDir
  rw [List.take_of_length_le (Nat.le_of_lt h)]
  cases ramfsFree w fs <;> rfl

/-! ## The machine -/

inductive TableOp where
  /-- open, read, write, seek or close -/
  | file (o : FOp)
  | mkdir (fs : ℕ) (path : Str)
  | rootMkdir (path : Str)
  | rootWritefile (path : Str) (data : Ptr) (size : ℕ)

inductive TableOut where
  | file (o : FOut)
  | done (r : Except ℤ Unit)
deriving DecidableEq

def tableStep (w : Ram) : TableOp → TableOut × Ram
  | .file o => let r := ramStep w o; (.file r.1, r.2)
  | .mkdir fs path => let r := ramfsMkdir fs w path; (.done r.1, r.2)
  | .rootMkdir path => let r := ramfsRootMkdir w path; (.done r.1, r.2)
  | .rootWritefile path data size => let r := ramfsRootWritefile w path data size; (.done r.1, r.2)

/-! ## Entries by reference -/

section

variable (w : Ram) (fs : ℕ) (r : EntryRef)
include w fs r

theorem get_set (e : Entry) : (w.set fs r e).get fs r = e := by
  cases r with
  | slot i => exact set_slot_self w fs i e
  | root => rfl

theorem set_again (e e' : Entry) : (w.set fs r e).set fs r e' = w.set fs r e' := by
  cases r with
  | slot i => exact set_set w fs i e e'
  | root => rfl

theorem set_get : w.set fs r (w.get fs r) = w := by
  cases r with
  | slot i => exact set_get_self w fs i
  | root => rfl

theorem set_allocs (e : Entry) (n : ℕ) : ({ w with allocs := n } : Ram).set fs r e = { w.set fs r e with allocs := n } := by
  cases r <;> rfl

theorem get_allocs (n : ℕ) : ({ w with allocs := n } : Ram).get fs r = w.get fs r := by
  cases r <;> rfl

end

/-! ## Edits -/

/-- a directory has no data -/
def DirEmpty (e : Entry) : Prop := e.valid = true → e.kind = .dir → e.data = none ∧ e.size = 0

/-- one entry for a path, and no data in a directory -/
structure TableOk (w : Ram) : Prop where
  paths : ∀ fs i j, i < ramfsMaxFiles → j < ramfsMaxFiles → (w.entry fs i).valid = true → (w.entry fs j).valid = true →
    (w.entry fs i).path = (w.entry fs j).path → i = j
  dirs : ∀ fs r, DirEmpty (w.get fs r)

/-- what a call does to the tables, to no more than one entry -/
inductive Edit (w : Ram) : Ram → Prop
  | same : Edit w w
  /-- other data for an entry -/
  | fill {fs r e} (hname : e.valid = (w.get fs r).valid ∧ e.path = (w.get fs r).path) (hdir : DirEmpty e) :
      Edit w (w.set fs r e)
  /-- a new entry -/
  | create {fs i e} (hfree : (w.entry fs i).valid = false) (hnew : ramfsFind w fs e.path = none) (hdir : DirEmpty e) :
      Edit w (w.set fs (.slot i) e)
  /-- a free entry that stays free -/
  | spoil {fs i e} (hfree : e.valid = false) : Edit w (w.set fs (.slot i) e)
  /-- calls of kmalloc and handles are not in the tables -/
  | beside {w1 w2} (h : Edit w w1) (he : w2.entry = w1.entry) (hr : w2.root = w1.root) : Edit w w2

section Edit

variable {w w' : Ram} {fs i : ℕ} {r : EntryRef} {e : Entry} {path : Str}

theorem get_set_cases (w : Ram) (fs : ℕ) (r : EntryRef) (e : Entry) (fs' : ℕ) (r' : EntryRef) :
    (w.set fs r e).get fs' r' = e ∧ w.get fs' r' = w.get fs r ∨ (w.set fs r e).get fs' r' = w.get fs' r' := by
  cases r with
  | root =>
    cases r' with
    | root => exact .inl ⟨rfl, rfl⟩
    | slot j => exact .inr rfl
  | slot i =>
    cases r' with
    | root => exact .inr rfl
    | slot j =>
      have h := set_slot_entry w fs i e fs' j
      split_ifs at h with hij
      · refine .inl ⟨h, ?_⟩
        rw [hij.1, hij.2]
      · exact .inr h

theorem dirs_set (h : TableOk w) (hdir : DirEmpty e) (fs' : ℕ) (r' : EntryRef) : DirEmpty ((w.set fs r e).get fs' r') := by
  rcases get_set_cases w fs r e fs' r' with ⟨h1, -⟩ | h1
  · rw [h1]
    exact hdir
  · rw [h1]
    exact h.dirs fs' r'

/-- a path that is not found has no entry -/
theorem ramfsFind_none (h : ramfsFind w fs path = none) (hi : i < ramfsMaxFiles) (hv : (w.entry fs i).valid = true) :
    (w.entry fs i).path ≠ path := by
  intro hp
  have hno := List.find?_eq_none.1 h i (List.mem_range.2 hi)
  simp [hv, hp] at hno

/-- a slot is written, with a path that no other entry has or as a free one -/
theorem TableOk.set_slot (h : TableOk w) {k : ℕ} (hdir : DirEmpty e) (hnew : e.valid = true → ∀ i < ramfsMaxFiles,
    (w.entry fs i).valid = true → (w.entry fs i).path ≠ e.path) : TableOk (w.set fs (.slot k) e) := by
  refine ⟨fun fs' i j hi hj hvi hvj hp => ?_, dirs_set h hdir⟩
  rw [set_slot_entry] at hvi hvj hp
  rw [set_slot_entry w fs k e fs' j] at hp
  split_ifs at hvi hvj hp with h1 h2 h2
  · exact h1.2.trans h2.2.symm
  · rw [h1.1] at hvj hp
    exact absurd hp.symm (hnew hvi j hj hvj)
  · rw [h2.1] at hvi hp
    exact absurd hp (hnew hvj i hi hvi)
  · exact h.paths fs' i j hi hj hvi hvj hp

/-- **Edits keep the tables in order.** -/
theorem Edit.tableOk (hedit : Edit w w') (h : TableOk w) : TableOk w' := by
  induction hedit with
  | same => exact h
  | @fill fs r e hname hdir =>
    have hsame : ∀ fs' i, ((w.set fs r e).entry fs' i).valid = (w.entry fs' i).valid ∧
        ((w.set fs r e).entry fs' i).path = (w.entry fs' i).path := by
      intro fs' i
      cases r with
      | root => exact ⟨rfl, rfl⟩
      | slot j =>
        rw [set_slot_entry]
        split_ifs with hij
        · rw [hij.1, hij.2]
          exact hname
        · exact ⟨rfl, rfl⟩
    refine ⟨fun fs' i j hi hj hvi hvj hp => ?_, dirs_set h hdir⟩
    rw [(hsame fs' i).1] at hvi
    rw [(hsame fs' j).1] at hvj
    rw [(hsame fs' i).2, (hsame fs' j).2] at hp
    exact h.paths fs' i j hi hj hvi hvj hp
  | create hfree hnew hdir => exact h.set_slot hdir fun _ i hi hv => ramfsFind_none hnew hi hv
  | spoil hfree =>
    have hno : ∀ {P : Prop}, _ → P := fun hv => absurd (hfree.symm.trans hv) Bool.false_ne_true
    exact h.set_slot hno hno
  | @beside w1 w2 _ he hr ih =>
    have hget : ∀ fs r, w2.get fs r = w1.get fs r := by
      intro fs r
      cases r with
      | root => exact hr
      | slot i => exact congrFun (congrFun he fs) i
    refine ⟨fun fs i j => ?_, fun fs r => hget fs r ▸ ih.dirs fs r⟩
    rw [he]
    exact ih.paths fs i j

/-! ### The calls as edits -/

theorem openEntry_edit (w : Ram) (fs : ℕ) (path : Str) (flags : ℕ) : Edit w (openEntry w fs path flags).2 := by
  unfold openEntry
  cases hfind : ramfsFind w fs path with
  | some i => exact .same
  | none =>
    split_ifs
    · exact .same
    · cases hfree : ramfsFree w fs with
      | none => exact .same
      | some i => exact .create (ramfsFree_some hfree).2 hfind fun _ hk => nomatch hk
    · exact .same

/-- only files are truncated -/
theorem truncate_edit (w : Ram) (fs : ℕ) (r : EntryRef) (flags : ℕ) : Edit w (truncate w fs r flags) := by
  unfold truncate
  split_ifs
  · exact .fill ⟨rfl, rfl⟩ fun _ _ => ⟨rfl, rfl⟩
  · exact .same

theorem newHandle_edit (w : Ram) (f : Handle) : Edit w (newHandle w f).2 := by
  unfold newHandle Ram.kmalloc
  cases w.alloc w.allocs <;> exact .beside .same rfl rfl

theorem ramfsOpen_tableOk (h : TableOk w) (fs : ℕ) (path : Str) (flags : ℕ) : TableOk (ramfsOpen fs w path flags).2 := by
  have h1 := (openEntry_edit w fs path flags).tableOk h
  unfold ramfsOpen
  rcases hopen : openEntry w fs path flags with ⟨_ | r, w1⟩
  · rw [hopen] at h1
    exact h1
  rw [hopen] at h1
  dsimp only
  split_ifs
  · exact h1
  · exact (newHandle_edit _ _).tableOk ((truncate_edit w1 fs r flags).tableOk h1)

/-- data for a file -/
theorem Edit.fillFile (hk : (w.get fs r).kind = .file) (data : Option Bytes) (size : ℕ) :
    Edit w (w.set fs r { w.get fs r with data := data, size := size }) := by
  refine .fill ⟨rfl, rfl⟩ fun _ hd => ?_
  exact absurd (hk.symm.trans hd) (by decide)

theorem makeRoom_edit {n : ℕ} (hk : (w.get fs r).kind = .file) (hr : makeRoom w fs r n = some w') :
    Edit w w' ∧ (w'.get fs r).kind = .file := by
  unfold makeRoom Ram.kmalloc at hr
  split_ifs at hr
  · cases halloc : w.alloc w.allocs with
    | none =>
      rw [halloc] at hr
      cases hr
    | some junk =>
      rw [halloc] at hr
      cases hr
      rw [get_allocs, set_allocs]
      refine ⟨.beside (.fillFile hk _ _) rfl rfl, ?_⟩
      exact (congrArg Entry.kind (get_set w fs r _)).trans hk
  · cases hr
    exact ⟨.same, hk⟩

theorem ramfsRead_edit (w : Ram) (h n : ℕ) : Edit w (ramfsRead w h n).2 := by
  unfold ramfsRead
  cases w.handle h with
  | none => exact .same
  | some f =>
    dsimp only
    split_ifs
    · exact .same
    · exact .beside .same rfl rfl

theorem ramfsSeek_edit (w : Ram) (h : ℕ) (off whence : ℤ) : Edit w (ramfsSeek w h off whence).2 := by
  unfold ramfsSeek
  cases w.handle h with
  | none => exact .same
  | some f =>
    dsimp only
    cases seekTo f.offset (w.get f.fs f.entry).size off whence with
    | error e => exact .same
    | ok n => exact .beside .same rfl rfl

/-- a write through a handle of a file -/
theorem ramfsWrite_tableOk {h : ℕ} (ht : TableOk w)
    (hfile : ∀ f, w.handle h = some f → (w.get f.fs f.entry).kind = .file) (buf : Bytes) :
    TableOk (ramfsWrite w h buf).2 := by
  unfold ramfsWrite
  cases hh : w.handle h with
  | none => exact ht
  | some f =>
    dsimp only
    split_ifs
    · exact ht
    cases hroom : makeRoom w f.fs f.entry (writeEnd f.offset buf.length) with
    | none => exact (Edit.beside .same rfl rfl : Edit w w.kmalloc.2).tableOk ht
    | some w1 =>
      obtain ⟨hedit, hk⟩ := makeRoom_edit (hfile f hh) hroom
      refine Edit.tableOk (.beside (.fillFile hk _ (w1.get f.fs f.entry).size) rfl rfl) (hedit.tableOk ht)

section

variable (hlen : path.length < ramfsNameLen)
include hlen

/-- **A new entry.** -/
theorem ramfsAddDir_edit (hnew : ramfsFind w fs path = none) : Edit w (ramfsAddDir fs w path).2 := by
  unfold ramfsAddDir
  rw [List.take_of_length_le (Nat.le_of_lt hlen)]
  cases hfree : ramfsFree w fs with
  | none => exact .same
  | some i => exact .create (ramfsFree_some hfree).2 hnew fun _ _ => ⟨rfl, rfl⟩

theorem ramfsAddFile_edit (hnew : ramfsFind w fs path = none)
    (data : Ptr) (size : ℕ) : Edit w (ramfsAddFile fs w path data size).2 := by
  unfold ramfsAddFile Ram.kmalloc
  rw [List.take_of_length_le (Nat.le_of_lt hlen)]
  cases hfree : ramfsFree w fs with
  | none => exact .same
  | some i =>
    have hv := (ramfsFree_some hfree).2
    have hfile : ∀ data, Edit w (w.set fs (.slot i) ⟨path, data, size, .file, true⟩) :=
      fun data => .create hv hnew fun _ hk => nomatch hk
    have hspoil : Edit w (w.set fs (.slot i) { w.entry fs i with path := path, data := none }) := .spoil hv
    cases w.alloc w.allocs with
    | none =>
      split_ifs
      · exact .beside hspoil rfl rfl
      · exact .beside (hfile none) rfl rfl
    | some junk => exact .beside (hfile (some (bytesFrom data junk size))) rfl rfl

theorem ramfsRootMkdir_edit : Edit w (ramfsRootMkdir w path).2 := by
  unfold ramfsRootMkdir
  cases hfind : ramfsFind w vfsRootFs path with
  | some i => exact .same
  | none => exact ramfsAddDir_edit hlen hfind

/-- a file is filled, or a directory with nothing -/
theorem ramfsRootWritefile_edit {data : Ptr} {size : ℕ}
    (hfile : ∀ i, ramfsFind w vfsRootFs path = some i → (w.entry vfsRootFs i).kind = .file ∨ size = 0) :
    Edit w (ramfsRootWritefile w path data size).2 := by
  unfold ramfsRootWritefile Ram.kmalloc
  cases hfind : ramfsFind w vfsRootFs path with
  | none => exact ramfsAddFile_edit hlen hfind data size
  | some i =>
    split_ifs with hs
    · have hk : (w.get vfsRootFs (.slot i)).kind = .file := (hfile i hfind).resolve_right (Nat.ne_of_gt hs)
      cases w.alloc w.allocs with
      | none => exact .beside .same rfl rfl
      | some junk => exact .beside (.fillFile hk (some (bytesFrom data junk size)) size) rfl rfl
    have h0 : size = 0 := Nat.eq_zero_of_not_pos hs
    have hempty : DirEmpty { w.entry vfsRootFs i with data := none, size := size } := fun _ _ => ⟨rfl, h0⟩
    have hfill : Edit w (w.set vfsRootFs (.slot i) { w.entry vfsRootFs i with data := none, size := size }) :=
      .fill ⟨rfl, rfl⟩ hempty
    exact hfill

end

end Edit

/-! ## Runs -/

/-- the paths of the VFS fit an entry -/
def TableOp.Fits : TableOp → Prop
  | .file (.openFile _ path _) => path.length < ramfsNameLen
  | .mkdir _ path => path.length < ramfsNameLen
  | _ => True

instance decidableFits : (o : TableOp) → Decidable o.Fits
  | .file (.openFile _ path _) => inferInstanceAs (Decidable (path.length < ramfsNameLen))
  | .file (.write _ _) => .isTrue trivial
  | .file (.read _ _) => .isTrue trivial
  | .file (.seek _ _ _) => .isTrue trivial
  | .file (.close _) => .isTrue trivial
  | .mkdir _ path => inferInstanceAs (Decidable (path.length < ramfsNameLen))
  | .rootMkdir _ => .isTrue trivial
  | .rootWritefile _ _ _ => .isTrue trivial

/-- calls that respect the tables: a write is for a file, vfs_mkdir for a path that is not there; the kernel's paths fit
an entry, and it writes no directory -/
def Proper (w : Ram) : TableOp → Prop
  | .file (.write h _) => ∀ f ∈ w.handle h, (w.get f.fs f.entry).kind = .file
  | .file _ => True
  | .mkdir fs path => ramfsFind w fs path = none
  | .rootMkdir path => path.length < ramfsNameLen
  | .rootWritefile path _ size => path.length < ramfsNameLen ∧
      ∀ i ∈ ramfsFind w vfsRootFs path, (w.entry vfsRootFs i).kind = .file ∨ size = 0

instance decidableProper (w : Ram) : (o : TableOp) → Decidable (Proper w o)
  | .file (.write h _) => inferInstanceAs (Decidable (∀ f ∈ w.handle h, (w.get f.fs f.entry).kind = .file))
  | .file (.openFile _ _ _) => .isTrue trivial
  | .file (.read _ _) => .isTrue trivial
  | .file (.seek _ _ _) => .isTrue trivial
  | .file (.close _) => .isTrue trivial
  | .mkdir fs path => inferInstanceAs (Decidable (ramfsFind w fs path = none))
  | .rootMkdir path => inferInstanceAs (Decidable (path.length < ramfsNameLen))
  | .rootWritefile path _ size => inferInstanceAs (Decidable (path.length < ramfsNameLen ∧
      ∀ i ∈ ramfsFind w vfsRootFs path, (w.entry vfsRootFs i).kind = .file ∨ size = 0))

/-- **One call.** -/
theorem tableStep_ok {w : Ram} (h : TableOk w) {o : TableOp} (hfit : o.Fits) (hp : Proper w o) :
    TableOk (tableStep w o).2 := by
  cases o with
  | file o =>
    cases o with
    | openFile fs path flags => exact ramfsOpen_tableOk h fs path flags
    | write a buf => exact ramfsWrite_tableOk h hp buf
    | read a n => exact (ramfsRead_edit w a n).tableOk h
    | seek a off whence => exact (ramfsSeek_edit w a off whence).tableOk h
    | close a => exact (Edit.beside .same rfl rfl : Edit w (ramfsClose w a)).tableOk h
  | mkdir fs path =>
    have heq : (ramfsMkdir fs w path).2 = (ramfsAddDir fs w path).2 := by rw [ramfsMkdir_eq hfit]
    exact heq ▸ (ramfsAddDir_edit hfit hp).tableOk h
  | rootMkdir path => exact (ramfsRootMkdir_edit hp).tableOk h
  | rootWritefile path data size => exact (ramfsRootWritefile_edit hp.1 hp.2).tableOk h

end OpenASD.Vfs
