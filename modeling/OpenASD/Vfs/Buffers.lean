/-
The RAM file systems with their memory (kernel/vfs/ramfs.c): the data of an entry is a pointer to a block from kmalloc,
which ramfs_write, ramfs_open and ramfs_root_writefile replace and give back with kfree.

The model of `Vfs.Ramfs` has the bytes of a file in its entry. That is right as long as no two entries share a block, and
`abs` takes the one model to the other. It rests on kmalloc (`Fresh`), which gives out a block in use once a slab of 8-byte
objects is full (`Mm.eight_byte_overlap`), but not in a run that is good in the sense of `Mm.good_run_sound`.

- `step_refines`: if kmalloc gives a fresh block, a call keeps the blocks apart, and is the call on files as byte sequences;
- `table_invariant`: in every run with such calls no two entries share a block; if the calls are proper, a path has one entry
  and no directory has data.
-/
import OpenASD.Core.Blocks
import OpenASD.Vfs.Table

namespace OpenASD.Vfs.Buffers

open Machine
open List (range)
open Function (update update_eq_self)

/-! ## State -/

/-- `ramfs_entry_t`; the address of the data is 0 for NULL -/
structure Raw where
  path : Str
  data : ℕ
  size : ℕ
  kind : Kind
  valid : Bool
deriving DecidableEq

/-- an entry of an instance; none for `s_root` -/
abbrev Key := Option (ℕ × ℕ)

def key (fs : ℕ) : EntryRef → Key
  | .slot i => some (fs, i)
  | .root => none

structure State where
  entry : Key → Raw
  handle : ℕ → Option Handle
  /-- the address of the last handle -/
  lastHandle : ℕ
  /-- what the calls of kmalloc find, none for those that fail -/
  alloc : ℕ → Ptr
  allocs : ℕ
  heap : Blocks Bytes
  /-- the block that a call of kmalloc gives, with these in use -/
  place : ℕ → List ℕ → ℕ

variable (s : State)

namespace State

def set (k : Key) (e : Raw) : State := { s with entry := update s.entry k e }

def setHandle (h : ℕ) (f : Option Handle) : State := { s with handle := update s.handle h f }

/-- the address of the new block, 0 for NULL -/
def kmalloc (n : ℕ) : ℕ × State :=
  match s.alloc s.allocs with
  | none => (0, { s with allocs := s.allocs + 1 })
  | some junk =>
    (s.place s.allocs s.heap.live, { s with
      allocs := s.allocs + 1
      heap := s.heap.alloc (s.place s.allocs s.heap.live) ((range n).map junk) })

/-- `if (p) kfree(p)` -/
def kfree (a : ℕ) : State := if a = 0 then s else { s with heap := s.heap.free a }

/-- a `memcpy`: the new content of a block -/
def store (a : ℕ) (b : Bytes) : State := { s with heap := s.heap.store a b }

/-- the content of the block of an entry -/
def bytes (e : Raw) : Option Bytes := if e.data = 0 then none else some (s.heap.content e.data)

end State

/-! ## The source's functions -/

def ramfsFind (fs : ℕ) (path : Str) : Option ℕ :=
  (range ramfsMaxFiles).find? fun i =>
    (s.entry (some (fs, i))).valid && decide ((s.entry (some (fs, i))).path = path)

/-- the first free entry -/
def ramfsFree (fs : ℕ) : Option ℕ :=
  (range ramfsMaxFiles).find? fun i => !(s.entry (some (fs, i))).valid

/-- the entry that `ramfs_open` opens -/
def openEntry (fs : ℕ) (path : Str) (flags : ℕ) : Option EntryRef × State :=
  match ramfsFind s fs path with
  | some i => (some (.slot i), s)
  | none =>
    if oDir flags = true ∧ path = ['/'] then (some .root, s)
    else if oCreat flags then
      match ramfsFree s fs with
      | none => (none, s)
      | some i => (some (.slot i), s.set (some (fs, i)) ⟨path.take ramfsNameLen, 0, 0, .file, true⟩)
    else (none, s)

/-- VFS_O_TRUNC -/
def truncate (k : Key) (flags : ℕ) : State :=
  if oTrunc flags = true ∧ (s.entry k).kind = .file ∧ (s.entry k).data ≠ 0 then
    (s.kfree (s.entry k).data).set k { s.entry k with data := 0, size := 0 }
  else s

/-- the handle's address, 0 for NULL -/
def newHandle (f : Handle) : ℕ × State :=
  match s.alloc s.allocs with
  | none => (0, { s with allocs := s.allocs + 1 })
  | some _ => (s.lastHandle + 1,
    { s.setHandle (s.lastHandle + 1) (some f) with lastHandle := s.lastHandle + 1, allocs := s.allocs + 1 })

def ramfsOpen (fs : ℕ) (s : State) (path : Str) (flags : ℕ) : ℕ × State :=
  match openEntry s fs path flags with
  | (none, s) => (0, s)
  | (some r, s) =>
    if (s.entry (key fs r)).kind = .dir ∧ oDir flags = false then (0, s)
    else newHandle (truncate s (key fs r) flags) ⟨fs, r, 0⟩

def ramfsClose (h : ℕ) : State := s.setHandle h none

def ramfsRead (h n : ℕ) : Except ℤ Bytes × State :=
  match s.handle h with
  | none => (.error eInval, s)
  | some f =>
    let e := s.entry (key f.fs f.entry)
    if e.size ≤ f.offset then (.ok [], s)
    else
      let toRead := min n (e.size - f.offset)
      (.ok ((((s.bytes e).getD []).drop f.offset).take toRead),
        s.setHandle h (some { f with offset := f.offset + toRead }))

/-- a longer block, with the old bytes; none if kmalloc fails -/
def makeRoom (k : Key) (newEnd : ℕ) : Option State :=
  let e := s.entry k
  if e.size < newEnd then
    let r := s.kmalloc newEnd
    if r.1 = 0 then none
    else
      let s' := r.2.store r.1 (((s.bytes e).getD []).take e.size ++ (r.2.heap.content r.1).drop e.size)
      some ((s'.kfree e.data).set k { e with data := r.1, size := newEnd })
  else some s

def ramfsWrite (h : ℕ) (buf : Bytes) : Except ℤ Unit × State :=
  match s.handle h with
  | none => (.error eInval, s)
  | some f =>
    if 0 < buf.length ∧ writeEnd f.offset buf.length < f.offset then (.error eNospc, s)
    else
      match makeRoom s (key f.fs f.entry) (writeEnd f.offset buf.length) with
      | none => (.error eNospc, (s.kmalloc (writeEnd f.offset buf.length)).2)
      | some s =>
        let a := (s.entry (key f.fs f.entry)).data
        -- without a block there is nothing to copy
        let s' := if a = 0 then s else s.store a (overwrite (s.heap.content a) f.offset buf)
        (.ok (), s'.setHandle h (some { f with offset := writeEnd f.offset buf.length }))

def ramfsSeek (h : ℕ) (off whence : ℤ) : Except ℤ ℕ × State :=
  match s.handle h with
  | none => (.error eInval, s)
  | some f =>
    match seekTo f.offset (s.entry (key f.fs f.entry)).size off whence with
    | .error e => (.error e, s)
    | .ok n => (.ok n, s.setHandle h (some { f with offset := n }))

def ramfsAddDir (fs : ℕ) (s : State) (path : Str) : Except ℤ Unit × State :=
  match ramfsFree s fs with
  | none => (.error (-1), s)
  | some i => (.ok (), s.set (some (fs, i)) ⟨path.take ramfsNameLen, 0, 0, .dir, true⟩)

def ramfsMkdir (fs : ℕ) (s : State) (path : Str) : Except ℤ Unit × State :=
  match ramfsAddDir fs s path with
  | (.ok (), s) => (.ok (), s)
  | (.error _, s) => (.error eNospc, s)

/-- `if (data && size > 0) memcpy(p, data, size)` -/
def copyIn (a : ℕ) (data : Ptr) (size : ℕ) : State :=
  match data with
  | none => s
  | some d => if 0 < size then s.store a ((range size).map d) else s

def ramfsAddFile (fs : ℕ) (s : State) (path : Str) (data : Ptr) (size : ℕ) : Except ℤ Unit × State :=
  match ramfsFree s fs with
  | none => (.error (-1), s)
  | some i =>
    let e := s.entry (some (fs, i))
    let r := s.kmalloc size
    if r.1 = 0 ∧ 0 < size then
      (.error (-1), r.2.set (some (fs, i)) { e with path := path.take ramfsNameLen, data := 0 })
    else
      (.ok (), (copyIn r.2 r.1 data size).set (some (fs, i)) ⟨path.take ramfsNameLen, r.1, size, .file, true⟩)

def ramfsRootMkdir (path : Str) : Except ℤ Unit × State :=
  match ramfsFind s vfsRootFs path with
  | some _ => (.ok (), s)
  | none => ramfsAddDir vfsRootFs s path

def ramfsRootWritefile (path : Str) (data : Ptr) (size : ℕ) : Except ℤ Unit × State :=
  match ramfsFind s vfsRootFs path with
  | some i =>
    let e := s.entry (some (vfsRootFs, i))
    let r := if 0 < size then s.kmalloc size else (0, s)
    if r.1 = 0 ∧ 0 < size then (.error (-1), r.2)
    else
      (.ok (), (copyIn (r.2.kfree e.data) r.1 data size).set (some (vfsRootFs, i)) { e with data := r.1, size := size })
  | none => ramfsAddFile vfsRootFs s path data size

/-! ## The machine -/

def fileStep : FOp → FOut × State
  | .openFile fs path flags => let r := ramfsOpen fs s path flags; (.opened r.1, r.2)
  | .read h n => let r := ramfsRead s h n; (.bytes r.1, r.2)
  | .write h buf => let r := ramfsWrite s h buf; (.wrote r.1, r.2)
  | .seek h off whence => let r := ramfsSeek s h off whence; (.sought r.1, r.2)
  | .close h => (.closed, ramfsClose s h)

def step : TableOp → TableOut × State
  | .file o => let r := fileStep s o; (.file r.1, r.2)
  | .mkdir fs path => let r := ramfsMkdir fs s path; (.done r.1, r.2)
  | .rootMkdir path => let r := ramfsRootMkdir s path; (.done r.1, r.2)
  | .rootWritefile path data size => let r := ramfsRootWritefile s path data size; (.done r.1, r.2)

/-! ## Blocks and their owners -/

namespace State

def Owned : Prop := Blocks.Owned s.heap fun k => (s.entry k).data

/-- the next block from kmalloc is not in use -/
def Fresh : Prop := s.place s.allocs s.heap.live ≠ 0 ∧ s.place s.allocs s.heap.live ∉ s.heap.live

instance (s : State) : Decidable s.Fresh := inferInstanceAs (Decidable (_ ∧ _))

/-- an entry with the bytes of its block -/
def valueOf (e : Raw) : Entry := ⟨e.path, s.bytes e, e.size, e.kind, e.valid⟩

def value (k : Key) : Entry := s.valueOf (s.entry k)

/-- files as byte sequences -/
def abs : Ram :=
  ⟨fun fs i => s.value (some (fs, i)), s.value none, s.handle, s.lastHandle, s.alloc, s.allocs⟩

end State

/-- a call changes one entry: its block is the old one, a new one or none, and the other blocks stay -/
structure Changed (s s' : State) (k : Key) (e : Raw) : Prop where
  entry : s'.entry = update s.entry k e
  live : ∀ x ∈ s.heap.live, x ≠ (s.entry k).data → x ∈ s'.heap.live
  content : ∀ x ∈ s.heap.live, x ≠ (s.entry k).data → s'.heap.content x = s.heap.content x
  block : e.data = 0 ∨ e.data = (s.entry k).data ∧ s'.heap.live = s.heap.live ∨
    e.data ∈ s'.heap.live ∧ e.data ∉ s.heap.live

section Changed

variable {s s' : State} {k : Key} {e : Raw} {fs : ℕ} {r : EntryRef}

/-- the pointers after a change -/
theorem data_update (s : State) (k : Key) (e : Raw) :
    (fun k' => (update s.entry k e k').data) = update (fun k' => (s.entry k').data) k e.data := by
  funext k'
  exact Function.apply_update (fun _ => Raw.data) s.entry k e k'

theorem Changed.owned (hc : Changed s s' k e) (ho : s.Owned) : s'.Owned := by
  unfold State.Owned
  rw [hc.entry, data_update]
  rcases hc.block with h0 | ⟨hsame, hlive⟩ | ⟨hnew, hfresh⟩
  · exact Blocks.Owned.set ho k (fun hne => absurd h0 hne) hc.live
  · rw [hsame, update_eq_self]
    exact ⟨fun i hi => hlive ▸ ho.live i hi, ho.unique⟩
  · exact Blocks.Owned.set ho k (fun _ => ⟨hfresh, hnew⟩) hc.live

theorem Changed.value_self (hc : Changed s s' k e) : s'.value k = s'.valueOf e := by
  rw [State.value, hc.entry, Function.update_self]

/-- the other entries have the bytes that they had -/
theorem Changed.value_other (hc : Changed s s' k e) (ho : s.Owned) {k' : Key} (hk : k' ≠ k) : s'.value k' = s.value k' := by
  have hentry : s'.entry k' = s.entry k' := by rw [hc.entry, Function.update_of_ne hk]
  have hbytes : s'.bytes (s.entry k') = s.bytes (s.entry k') := by
    unfold State.bytes
    split_ifs with h0
    · rfl
    · rw [hc.content _ (ho.live k' h0) (ho.apart h0 hk)]
  rw [State.value, State.value, hentry, State.valueOf, State.valueOf, hbytes]

/-- **A change, seen from above.** -/
theorem Changed.abs (hc : Changed s s' (key fs r) e) (ho : s.Owned) (hh : s'.handle = s.handle)
    (hl : s'.lastHandle = s.lastHandle) (ha : s'.alloc = s.alloc) :
    s'.abs = { s.abs.set fs r (s'.valueOf e) with allocs := s'.allocs } := by
  have hentry : s'.abs.entry = (s.abs.set fs r (s'.valueOf e)).entry := by
    funext fs' j
    cases r with
    | root => exact hc.value_other ho (Option.some_ne_none _)
    | slot i =>
      rw [set_slot_entry]
      split_ifs with h
      · rw [h.1, h.2]
        exact hc.value_self
      · refine hc.value_other ho fun heq => h ?_
        exact Prod.mk.inj (Option.some.inj heq)
  have hroot : s'.abs.root = (s.abs.set fs r (s'.valueOf e)).root := by
    cases r with
    | root => exact hc.value_self
    | slot i => exact hc.value_other ho (Option.some_ne_none _).symm
  have hrest : (s.abs.set fs r (s'.valueOf e)).handle = s.handle ∧
      (s.abs.set fs r (s'.valueOf e)).lastHandle = s.lastHandle ∧
      (s.abs.set fs r (s'.valueOf e)).alloc = s.alloc := by cases r <;> exact ⟨rfl, rfl, rfl⟩
  obtain ⟨h1, h2, h3⟩ := hrest
  simp only [← hentry, ← hroot, h1, h2, h3, ← hh, ← hl, ← ha]
  rfl

end Changed

/-! ### Memory -/

section Memory

variable {s : State} {n a : ℕ}

theorem kmalloc_fails (h : s.alloc s.allocs = none) : s.kmalloc n = (0, { s with allocs := s.allocs + 1 }) := by
  rw [State.kmalloc, h]

theorem kmalloc_finds (hf : s.Fresh) {junk : ℕ → UInt8} (h : s.alloc s.allocs = some junk) :
    ∃ a, a ≠ 0 ∧ a ∉ s.heap.live ∧ s.kmalloc n = (a, { s with
      allocs := s.allocs + 1, heap := s.heap.alloc a ((range n).map junk) }) := by
  refine ⟨_, hf.1, hf.2, ?_⟩
  rw [State.kmalloc, h]

theorem kfree_live {x : ℕ} (hx : x ∈ s.heap.live) (ha : x ≠ a) : x ∈ (s.kfree a).heap.live := by
  unfold State.kfree
  split_ifs
  · exact hx
  · exact Blocks.mem_free.2 ⟨hx, ha⟩

theorem kfree_content (s : State) (a : ℕ) : (s.kfree a).heap.content = s.heap.content := by
  unfold State.kfree
  split_ifs <;> rfl

/-- kfree leaves all but the heap -/
theorem kfree_eq (s : State) (a : ℕ) : s.kfree a = { s with heap := (s.kfree a).heap } := by
  unfold State.kfree
  split_ifs <;> rfl

end Memory

/-! ### The calls -/

/-- the blocks are apart, and the call is the one on byte sequences -/
structure Refines {α : Type} (r : α × State) (v : α × Ram) : Prop where
  owned : r.2.Owned
  abs : v = (r.1, r.2.abs)

theorem Refines.map {α β : Type} {r : α × State} {v : α × Ram} (h : Refines r v) (f : α → β) :
    Refines (f r.1, r.2) (f v.1, v.2) := ⟨h.owned, by rw [h.abs]⟩

section Calls

variable {α : Type} {s : State} {k : Key} {e : Raw} {fs i h : ℕ} {r : EntryRef} {path : Str}

section

variable (s fs h r path)

theorem find_abs : Vfs.ramfsFind s.abs fs path = ramfsFind s fs path := rfl

theorem free_abs : Vfs.ramfsFree s.abs fs = ramfsFree s fs := rfl

theorem handle_abs : s.abs.handle h = s.handle h := rfl

theorem alloc_abs : s.abs.alloc s.abs.allocs = s.alloc s.allocs := rfl

theorem get_abs : s.abs.get fs r = s.value (key fs r) := by
  cases r <;> rfl

theorem size_abs : (s.abs.get fs r).size = (s.entry (key fs r)).size := by
  rw [get_abs]
  rfl

end

theorem bytes_eq_none : s.bytes e = none ↔ e.data = 0 := by
  unfold State.bytes
  split_ifs with h0 <;> simp [h0]

theorem makeRoom_none (hf : s.Fresh) {n : ℕ} (h : makeRoom s k n = none) : s.alloc s.allocs = none := by
  unfold makeRoom at h
  dsimp only at h
  split_ifs at h with _ h0
  by_contra hno
  obtain ⟨junk, hj⟩ := Option.ne_none_iff_exists'.1 hno
  obtain ⟨a, ha0, -, hk⟩ := kmalloc_finds hf (n := n) hj
  rw [hk] at h0
  exact ha0 h0

/-- kmalloc has found a block, it is filled, and another one is given back -/
def renewed (s : State) (a : ℕ) (junk b : Bytes) (d : ℕ) : State :=
  (({ s with allocs := s.allocs + 1, heap := s.heap.alloc a junk } : State).store a b).kfree d

theorem copyIn_kfree (s : State) (d a : ℕ) (data : Ptr) (size : ℕ) :
    copyIn (s.kfree d) a data size = (copyIn s a data size).kfree d := by
  unfold copyIn State.kfree State.store
  cases data with
  | none => rfl
  | some f =>
    split_ifs <;> rfl

theorem copyIn_empty {size : ℕ} (hs : ¬ 0 < size) (s : State) (a : ℕ) (data : Ptr) :
    copyIn s a data size = s := by
  cases data with
  | none => rfl
  | some f => exact if_neg hs

/-- what the new block holds -/
theorem copyIn_renewed (s : State) (a : ℕ) (junk : ℕ → UInt8) (data : Ptr) (size : ℕ) :
    copyIn { s with allocs := s.allocs + 1, heap := s.heap.alloc a ((range size).map junk) } a data size =
      renewed s a ((range size).map junk) (bytesFrom data junk size) 0 := by
  have hagain : ∀ b : Bytes, (s.heap.alloc a b).store a b = s.heap.alloc a b := by
    intro b
    unfold Blocks.alloc Blocks.store
    rw [Function.update_idem]
  have hsame : ∀ b : Bytes, renewed s a b b 0 = { s with allocs := s.allocs + 1, heap := s.heap.alloc a b } := by
    intro b
    unfold renewed State.store State.kfree
    rw [if_pos rfl, hagain]
  unfold copyIn
  cases data with
  | none => exact (hsame _).symm
  | some f =>
    split_ifs with hs
    · rfl
    · obtain rfl : size = 0 := Nat.eq_zero_of_not_pos hs
      exact (hsame []).symm

section

variable (ho : s.Owned)
include ho

/-- an entry has no block any more; its old one may be given back -/
theorem release_refines (fs : ℕ) (r : EntryRef) {d : ℕ} (hd : d = 0 ∨ d = (s.entry (key fs r)).data)
    (h0 : e.data = 0) (x : α) :
    Refines (x, (s.kfree d).set (key fs r) e) (x, s.abs.set fs r ⟨e.path, none, e.size, e.kind, e.valid⟩) := by
  have hc : Changed s ((s.kfree d).set (key fs r) e) (key fs r) e := by
    refine ⟨?_, fun x hx hne => ?_, fun x hx hne => congrFun (kfree_content s d) x, .inl h0⟩
    · rw [kfree_eq]
      rfl
    · rcases hd with rfl | rfl
      · exact hx
      · exact kfree_live hx hne
  have hvalue : ((s.kfree d).set (key fs r) e).valueOf e = ⟨e.path, none, e.size, e.kind, e.valid⟩ := by
    rw [State.valueOf, bytes_eq_none.2 h0]
  refine ⟨hc.owned ho, congrArg (Prod.mk x) ?_⟩
  rw [kfree_eq] at hc hvalue ⊢
  refine Eq.trans ?_ (hc.abs ho rfl rfl rfl).symm
  rw [hvalue]
  cases r <;> rfl

/-- an entry without a block is written -/
theorem set_refines (fs : ℕ) (r : EntryRef) (h0 : e.data = 0) (x : α) :
    Refines (x, s.set (key fs r) e) (x, s.abs.set fs r ⟨e.path, none, e.size, e.kind, e.valid⟩) :=
  release_refines ho fs r (.inl rfl) h0 x

theorem openEntry_refines (fs : ℕ) (hlen : path.length < ramfsNameLen) (flags : ℕ) :
    Refines (openEntry s fs path flags) (Vfs.openEntry s.abs fs path flags) := by
  unfold openEntry Vfs.openEntry
  rw [find_abs, free_abs, List.take_of_length_le (Nat.le_of_lt hlen)]
  cases ramfsFind s fs path with
  | some i => exact ⟨ho, rfl⟩
  | none =>
    split_ifs
    · exact ⟨ho, rfl⟩
    · cases ramfsFree s fs with
      | none => exact ⟨ho, rfl⟩
      | some i => exact set_refines ho fs (.slot i) rfl _
    · exact ⟨ho, rfl⟩

theorem truncate_refines (fs : ℕ) (r : EntryRef) (flags : ℕ) :
    (truncate s (key fs r) flags).Owned ∧ (truncate s (key fs r) flags).abs = Vfs.truncate s.abs fs r flags := by
  have hcond : (oTrunc flags = true ∧ (s.abs.get fs r).kind = .file ∧ (s.abs.get fs r).data ≠ none) ↔
      (oTrunc flags = true ∧ (s.entry (key fs r)).kind = .file ∧ (s.entry (key fs r)).data ≠ 0) := by
    rw [get_abs]
    exact and_congr_right fun _ => and_congr_right fun _ => not_congr bytes_eq_none
  unfold truncate Vfs.truncate
  by_cases h : oTrunc flags = true ∧ (s.entry (key fs r)).kind = .file ∧ (s.entry (key fs r)).data ≠ 0
  · have h0 : ({ s.entry (key fs r) with data := 0, size := 0 } : Raw).data = 0 := rfl
    obtain ⟨h1, h2⟩ := release_refines ho fs r (.inr rfl) h0 ()
    rw [if_pos h, if_pos (hcond.2 h), get_abs]
    exact ⟨h1, (congrArg Prod.snd h2).symm⟩
  · rw [if_neg h, if_neg fun hv => h (hcond.1 hv)]
    exact ⟨ho, rfl⟩

theorem newHandle_refines (f : Handle) : Refines (newHandle s f) (Vfs.newHandle s.abs f) := by
  unfold newHandle Vfs.newHandle Ram.kmalloc
  rw [alloc_abs]
  cases s.alloc s.allocs <;> exact ⟨ho, rfl⟩

theorem ramfsOpen_refines (fs : ℕ) (hlen : path.length < ramfsNameLen) (flags : ℕ) :
    Refines (ramfsOpen fs s path flags) (Vfs.ramfsOpen fs s.abs path flags) := by
  obtain ⟨h1, h2⟩ := openEntry_refines ho fs hlen flags
  unfold ramfsOpen Vfs.ramfsOpen
  rw [h2]
  rcases hopen : openEntry s fs path flags with ⟨_ | r, s1⟩
  · rw [hopen] at h1
    exact ⟨h1, rfl⟩
  rw [hopen] at h1
  have hkind : (s1.abs.get fs r).kind = (s1.entry (key fs r)).kind := by
    rw [get_abs]
    rfl
  dsimp only
  rw [hkind]
  split_ifs
  · exact ⟨h1, rfl⟩
  · obtain ⟨h3, h4⟩ := truncate_refines h1 fs r flags
    rw [← h4]
    exact newHandle_refines h3 _

theorem ramfsRead_refines (h n : ℕ) : Refines (ramfsRead s h n) (Vfs.ramfsRead s.abs h n) := by
  unfold ramfsRead Vfs.ramfsRead
  rw [handle_abs]
  cases s.handle h with
  | none => exact ⟨ho, rfl⟩
  | some f =>
    dsimp only
    rw [size_abs, get_abs]
    split_ifs <;> exact ⟨ho, rfl⟩

theorem ramfsSeek_refines (h : ℕ) (off whence : ℤ) :
    Refines (ramfsSeek s h off whence) (Vfs.ramfsSeek s.abs h off whence) := by
  unfold ramfsSeek Vfs.ramfsSeek
  rw [handle_abs]
  cases s.handle h with
  | none => exact ⟨ho, rfl⟩
  | some f =>
    dsimp only
    rw [size_abs]
    cases seekTo f.offset (s.entry (key f.fs f.entry)).size off whence <;> exact ⟨ho, rfl⟩

/-- the new block is for an entry; the old one of that entry may be given back -/
theorem renew_refines {a d : ℕ} (ha0 : a ≠ 0) (hfresh : a ∉ s.heap.live) (junk b : Bytes) (fs : ℕ)
    (r : EntryRef) (hdata : e.data = a) (hd : d = 0 ∨ d = (s.entry (key fs r)).data) (x : α) :
    Refines (x, (renewed s a junk b d).set (key fs r) e)
      (x, { s.abs.set fs r ⟨e.path, some b, e.size, e.kind, e.valid⟩ with allocs := s.allocs + 1 }) := by
  have hfields : renewed s a junk b d = { s with allocs := s.allocs + 1, heap := (renewed s a junk b d).heap } :=
    kfree_eq _ d
  have hlive : ∀ x ∈ a :: s.heap.live, x ≠ (s.entry (key fs r)).data → x ∈ (renewed s a junk b d).heap.live := by
    intro x hx hne
    rcases hd with rfl | rfl
    · exact hx
    · exact kfree_live hx hne
  have hne : a ≠ (s.entry (key fs r)).data := by
    by_cases h0 : (s.entry (key fs r)).data = 0
    · rw [h0]
      exact ha0
    · exact fun heq => hfresh (heq ▸ ho.live (key fs r) h0)
  have hcontent : ∀ x, (renewed s a junk b d).heap.content x = ((s.heap.alloc a junk).store a b).content x :=
    fun x => congrFun (kfree_content _ d) x
  have hc : Changed s ((renewed s a junk b d).set (key fs r) e) (key fs r) e := by
    refine ⟨?_, fun x hx hx' => hlive x (List.mem_cons_of_mem a hx) hx', fun x hx _ => ?_, ?_⟩
    · rw [hfields]
      rfl
    · have hxa : x ≠ a := fun heq => hfresh (heq ▸ hx)
      exact (hcontent x).trans ((Blocks.store_of_ne hxa b).trans (Blocks.alloc_of_ne hxa junk))
    · rw [hdata]
      exact .inr (.inr ⟨hlive a List.mem_cons_self hne, hfresh⟩)
  have hvalue : ((renewed s a junk b d).set (key fs r) e).valueOf e = ⟨e.path, some b, e.size, e.kind, e.valid⟩ := by
    have hb : (renewed s a junk b d).heap.content a = b := (hcontent a).trans (Blocks.store_self _ a b)
    unfold State.valueOf State.bytes
    rw [hdata, if_neg ha0]
    exact congrArg (fun x => (⟨e.path, some x, e.size, e.kind, e.valid⟩ : Entry)) hb
  refine ⟨hc.owned ho, congrArg (Prod.mk x) ?_⟩
  rw [hfields] at hc hvalue ⊢
  have habs := hc.abs ho rfl rfl rfl
  rw [hvalue] at habs
  exact habs.symm

theorem makeRoom_refines (hf : s.Fresh) (fs : ℕ) (r : EntryRef) (n : ℕ) :
    Vfs.makeRoom s.abs fs r n = (makeRoom s (key fs r) n).map State.abs ∧
      ∀ s', makeRoom s (key fs r) n = some s' → s'.Owned := by
  unfold makeRoom Vfs.makeRoom Ram.kmalloc
  rw [size_abs, alloc_abs]
  by_cases hgrow : (s.entry (key fs r)).size < n
  · rw [if_pos hgrow, if_pos hgrow]
    cases hfind : s.alloc s.allocs with
    | none =>
      rw [kmalloc_fails hfind]
      exact ⟨rfl, fun s' h => nomatch h⟩
    | some junk =>
      obtain ⟨a, ha0, hfresh, hk⟩ := kmalloc_finds hf (n := n) hfind
      have hdata : ({ s.entry (key fs r) with data := a, size := n } : Raw).data = a := rfl
      obtain ⟨h1, h2⟩ := renew_refines ho ha0 hfresh ((range n).map junk)
        (((s.bytes (s.entry (key fs r))).getD []).take (s.entry (key fs r)).size ++
          ((range n).map junk).drop (s.entry (key fs r)).size) fs r hdata (.inr rfl) ()
      rw [hk]
      dsimp only
      rw [if_neg ha0, Blocks.alloc_self]
      refine ⟨?_, fun s' h => ?_⟩
      · rw [get_allocs, set_allocs, get_abs]
        exact congrArg (some ∘ Prod.snd) h2
      · rw [← Option.some.inj h]
        exact h1
  · rw [if_neg hgrow, if_neg hgrow]
    refine ⟨rfl, fun s' h => ?_⟩
    cases h
    exact ho

/-- bytes are written to the block of an entry -/
theorem store_refines (fs : ℕ) (r : EntryRef) (b : Bytes) (h0 : (s.entry (key fs r)).data ≠ 0) :
    (s.store (s.entry (key fs r)).data b).Owned ∧ (s.store (s.entry (key fs r)).data b).abs =
      s.abs.set fs r { s.abs.get fs r with data := some b } := by
  have hc : Changed s (s.store (s.entry (key fs r)).data b) (key fs r) (s.entry (key fs r)) := by
    refine ⟨(update_eq_self _ _).symm, fun x hx _ => hx, fun x _ hx => Blocks.store_of_ne hx b, ?_⟩
    exact .inr (.inl ⟨rfl, rfl⟩)
  have hvalue : (s.store (s.entry (key fs r)).data b).valueOf (s.entry (key fs r)) =
      { s.abs.get fs r with data := some b } := by
    rw [get_abs]
    unfold State.valueOf State.bytes
    rw [if_neg h0]
    exact congrArg (fun x => ({ s.value (key fs r) with data := some x } : Entry)) (Blocks.store_self _ _ b)
  have habs := hc.abs ho rfl rfl rfl
  rw [hvalue] at habs
  refine ⟨hc.owned ho, habs.trans ?_⟩
  cases r <;> rfl

theorem ramfsWrite_refines (hf : s.Fresh) (h : ℕ) (buf : Bytes) : Refines (ramfsWrite s h buf) (Vfs.ramfsWrite s.abs h buf) := by
  unfold ramfsWrite Vfs.ramfsWrite
  rw [handle_abs]
  cases s.handle h with
  | none => exact ⟨ho, rfl⟩
  | some f =>
    obtain ⟨hroom, howned⟩ := makeRoom_refines ho hf f.fs f.entry (writeEnd f.offset buf.length)
    dsimp only
    split_ifs
    · exact ⟨ho, rfl⟩
    rw [hroom]
    cases hr : makeRoom s (key f.fs f.entry) (writeEnd f.offset buf.length) with
    | none =>
      rw [kmalloc_fails (makeRoom_none hf hr)]
      exact ⟨ho, rfl⟩
    | some s1 =>
      have ho1 := howned s1 hr
      rw [Option.map_some]
      dsimp only
      by_cases h0 : (s1.entry (key f.fs f.entry)).data = 0
      · have hnone : (s1.abs.get f.fs f.entry).data = none := by
          rw [get_abs]
          exact bytes_eq_none.2 h0
        have hsame : ({ s1.abs.get f.fs f.entry with data := none } : Entry) = s1.abs.get f.fs f.entry := by
          rw [← hnone]
        rw [if_pos h0, hnone, Option.map_none, hsame, set_get]
        exact ⟨ho1, rfl⟩
      have hsome : (s1.abs.get f.fs f.entry).data = some (s1.heap.content (s1.entry (key f.fs f.entry)).data) := by
        rw [get_abs]
        exact if_neg h0
      obtain ⟨h1, h2⟩ := store_refines ho1 f.fs f.entry
        (overwrite (s1.heap.content (s1.entry (key f.fs f.entry)).data) f.offset buf) h0
      rw [if_neg h0, hsome, Option.map_some, ← h2]
      exact ⟨h1, rfl⟩

theorem ramfsAddDir_refines (fs : ℕ) (path : Str) : Refines (ramfsAddDir fs s path) (Vfs.ramfsAddDir fs s.abs path) := by
  unfold ramfsAddDir Vfs.ramfsAddDir
  rw [free_abs]
  cases ramfsFree s fs with
  | none => exact ⟨ho, rfl⟩
  | some i => exact set_refines ho fs (.slot i) rfl _

theorem ramfsMkdir_refines (fs : ℕ) (hlen : path.length < ramfsNameLen) :
    Refines (ramfsMkdir fs s path) (Vfs.ramfsMkdir fs s.abs path) := by
  obtain ⟨h1, h2⟩ := ramfsAddDir_refines ho fs path
  rw [ramfsMkdir_eq hlen, h2]
  unfold ramfsMkdir
  rcases hadd : ramfsAddDir fs s path with ⟨_ | _, s1⟩
  · rw [hadd] at h1
    exact ⟨h1, rfl⟩
  · rw [hadd] at h1
    exact ⟨h1, rfl⟩

theorem ramfsRootMkdir_refines (path : Str) : Refines (ramfsRootMkdir s path) (Vfs.ramfsRootMkdir s.abs path) := by
  unfold ramfsRootMkdir Vfs.ramfsRootMkdir
  rw [find_abs]
  cases ramfsFind s vfsRootFs path with
  | some i => exact ⟨ho, rfl⟩
  | none => exact ramfsAddDir_refines ho vfsRootFs path

variable (hf : s.Fresh)
include hf

theorem ramfsAddFile_refines (fs : ℕ) (path : Str) (data : Ptr) (size : ℕ) :
    Refines (ramfsAddFile fs s path data size) (Vfs.ramfsAddFile fs s.abs path data size) := by
  unfold ramfsAddFile Vfs.ramfsAddFile Ram.kmalloc
  rw [free_abs, alloc_abs]
  cases ramfsFree s fs with
  | none => exact ⟨ho, rfl⟩
  | some i =>
    cases hfind : s.alloc s.allocs with
    | none =>
      have ho' : ({ s with allocs := s.allocs + 1 } : State).Owned := ho
      rw [kmalloc_fails hfind]
      dsimp only
      by_cases hs : 0 < size
      · rw [if_pos ⟨rfl, hs⟩, if_pos hs]
        exact set_refines ho' fs (.slot i) rfl _
      · rw [if_neg fun h => hs h.2, if_neg hs, copyIn_empty hs]
        exact set_refines ho' fs (.slot i) rfl _
    | some junk =>
      obtain ⟨a, ha0, hfresh, hk⟩ := kmalloc_finds hf (n := size) hfind
      rw [hk]
      dsimp only
      rw [if_neg fun h => ha0 h.1, copyIn_renewed]
      exact renew_refines ho ha0 hfresh _ (bytesFrom data junk size) fs (.slot i) rfl (.inl rfl) _

theorem ramfsRootWritefile_refines (path : Str) (data : Ptr) (size : ℕ) :
    Refines (ramfsRootWritefile s path data size) (Vfs.ramfsRootWritefile s.abs path data size) := by
  unfold ramfsRootWritefile Vfs.ramfsRootWritefile Ram.kmalloc
  rw [find_abs, alloc_abs]
  cases ramfsFind s vfsRootFs path with
  | none => exact ramfsAddFile_refines ho hf vfsRootFs path data size
  | some i =>
    dsimp only
    by_cases hs : 0 < size
    · rw [if_pos hs, if_pos hs]
      cases hj : s.alloc s.allocs with
      | none =>
        rw [kmalloc_fails hj, if_pos ⟨rfl, hs⟩]
        exact ⟨ho, rfl⟩
      | some junk =>
        obtain ⟨a, ha0, hfresh, hk⟩ := kmalloc_finds hf (n := size) hj
        rw [hk]
        rw [if_neg fun h => ha0 h.1, copyIn_kfree, copyIn_renewed]
        exact renew_refines ho ha0 hfresh _ (bytesFrom data junk size) vfsRootFs (.slot i) rfl (.inr rfl) _
    · rw [if_neg hs, if_neg fun h => hs h.2, if_neg hs, copyIn_empty hs]
      exact release_refines ho vfsRootFs (.slot i) (.inr rfl) rfl _

/-! ### Steps -/

theorem fileStep_refines {o : FOp} (hfit : (TableOp.file o).Fits) :
    Refines (fileStep s o) (ramStep s.abs o) := by
  cases o with
  | openFile fs path flags => exact (ramfsOpen_refines ho fs hfit flags).map FOut.opened
  | read h n => exact (ramfsRead_refines ho h n).map FOut.bytes
  | write h buf => exact (ramfsWrite_refines ho hf h buf).map FOut.wrote
  | seek h off whence => exact (ramfsSeek_refines ho h off whence).map FOut.sought
  | close h => exact ⟨ho, rfl⟩

/-- **One call.** The blocks stay apart, and the call is the one on files as byte sequences. -/
theorem step_refines {o : TableOp} (hfit : o.Fits) :
    Refines (step s o) (tableStep s.abs o) := by
  cases o with
  | file o => exact (fileStep_refines ho hf hfit).map TableOut.file
  | mkdir fs path => exact (ramfsMkdir_refines ho fs hfit).map TableOut.done
  | rootMkdir path => exact (ramfsRootMkdir_refines ho path).map TableOut.done
  | rootWritefile path data size => exact (ramfsRootWritefile_refines ho hf path data size).map TableOut.done

end

end Calls

/-! ## Runs -/

/-- at the start: empty tables, the static entry of the root, no block -/
def start (alloc : ℕ → Ptr) (place : ℕ → List ℕ → ℕ) : State where
  entry
    | none => ⟨['/'], 0, 0, .dir, true⟩
    | some _ => ⟨[], 0, 0, .file, false⟩
  handle _ := none
  lastHandle := 0
  alloc := alloc
  allocs := 0
  heap := ⟨[], fun _ => []⟩
  place := place

theorem start_owned (alloc : ℕ → Ptr) (place : ℕ → List ℕ → ℕ) : (start alloc place).Owned := by
  have hnull : (fun k => ((start alloc place).entry k).data) = fun _ => 0 := by
    funext k
    cases k <;> rfl
  unfold State.Owned
  rw [hnull]
  exact Blocks.owned_none _

theorem start_tableOk (alloc : ℕ → Ptr) (place : ℕ → List ℕ → ℕ) : TableOk (start alloc place).abs := by
  constructor
  · intro fs i j _ _ h
    cases h
  intro fs r
  cases r with
  | root => exact fun _ _ => ⟨rfl, rfl⟩
  | slot i => exact fun h => nomatch h

/-- at most one valid entry for a path -/
def OnePerPath (s : State) : Prop :=
  ∀ fs i j, i < ramfsMaxFiles → j < ramfsMaxFiles → (s.entry (some (fs, i))).valid = true →
    (s.entry (some (fs, j))).valid = true → (s.entry (some (fs, i))).path = (s.entry (some (fs, j))).path → i = j

def DirsEmpty (s : State) : Prop :=
  ∀ k, (s.entry k).valid = true → (s.entry k).kind = .dir → (s.entry k).data = 0 ∧ (s.entry k).size = 0

/-- no two entries, valid or not, have the same block -/
def NoSharing (s : State) : Prop := ∀ k k', (s.entry k).data ≠ 0 → (s.entry k).data = (s.entry k').data → k = k'

theorem dirsEmpty_of_tableOk {s : State} (h : TableOk s.abs) : DirsEmpty s := by
  intro k hv hk
  have hdir : ∀ fs r, key fs r = k → (s.entry k).data = 0 ∧ (s.entry k).size = 0 := by
    intro fs r hkey
    have hempty := h.dirs fs r
    rw [get_abs, hkey] at hempty
    obtain ⟨h1, h2⟩ := hempty hv hk
    exact ⟨bytes_eq_none.1 h1, h2⟩
  rcases k with _ | ⟨fs, i⟩
  · exact hdir 0 .root rfl
  · exact hdir fs (.slot i) rfl

/-- **The tables.** In every run in which kmalloc gives out no block that is in use, no two entries share a block; if all calls
are proper, each path has at most one valid entry and no directory has data. -/
theorem table_invariant (alloc : ℕ → Ptr) (place : ℕ → List ℕ → ℕ) {ops : List TableOp}
    (hfit : ∀ o ∈ ops, o.Fits) :
    (Always step (fun s _ => s.Fresh) (start alloc place) ops → NoSharing (after step (start alloc place) ops)) ∧
    (Always step (fun s o => s.Fresh ∧ Proper s.abs o) (start alloc place) ops →
      OnePerPath (after step (start alloc place) ops) ∧ DirsEmpty (after step (start alloc place) ops)) := by
  constructor
  · intro hfresh
    have hinv : ∀ s o, State.Owned s → (o.Fits ∧ s.Fresh) → (step s o).2.Owned :=
      fun s o ho hP => (step_refines ho hP.2 hP.1).owned
    exact (after_inv hinv (start_owned alloc place) (hfresh.and_mem hfit)).unique
  intro hproper
  have hinv : ∀ s o, (s.Owned ∧ TableOk s.abs) → (o.Fits ∧ s.Fresh ∧ Proper s.abs o) →
      ((step s o).2.Owned ∧ TableOk (step s o).2.abs) := by
    intro s o ⟨ho, ht⟩ ⟨hf, hfr, hp⟩
    obtain ⟨h1, h2⟩ := step_refines ho hfr hf
    have h3 := tableStep_ok ht hf hp
    rw [h2] at h3
    exact ⟨h1, h3⟩
  obtain ⟨-, ht⟩ := after_inv hinv ⟨start_owned alloc place, start_tableOk alloc place⟩ (hproper.and_mem hfit)
  exact ⟨ht.paths, dirsEmpty_of_tableOk ht⟩

/-- kmalloc always finds memory, with old bytes 0xAA -/
def booted : State := start (fun _ => some fun _ => 0xAA) fun k _ => k + 1

/-- a file is opened and written, directories are made, and the kernel writes a new file and the old one -/
def properOps : List TableOp :=
  [.file (.openFile 1 ['/', 'a'] 6), .file (.write 1 [1, 2, 3]), .rootMkdir ['/', 'd'], .mkdir 1 ['/', 'e'],
    .rootWritefile ['/', 'f'] (some fun _ => 7) 2, .rootWritefile ['/', 'a'] none 1]

theorem table_invariant_proper : NoSharing (after step booted properOps) ∧ OnePerPath (after step booted properOps) ∧
    DirsEmpty (after step booted properOps) ∧ ((after step booted properOps).entry (some (1, 0))).size = 1 := by
  have hfit : ∀ o ∈ properOps, o.Fits := by decide +kernel
  obtain ⟨h1, h2⟩ := table_invariant (fun _ => some fun _ => 0xAA) (fun k _ => k + 1) hfit
  obtain ⟨h3, h4⟩ := h2 (by decide +kernel)
  exact ⟨h1 (by decide +kernel), h3, h4, by decide +kernel⟩

/-- a directory is made twice through the VFS -/
def twiceMade : State := after step booted [.mkdir 1 ['/', 'd'], .mkdir 1 ['/', 'd']]

/-- the kernel makes a directory and writes a file of its name -/
def filledDir : State := after step booted [.rootMkdir ['/', 'd'], .rootWritefile ['/', 'd'] (some fun _ => 7) 2]

/-- the root directory is opened, and a byte is written -/
def filledRoot : State := after step booted [.file (.openFile 1 ['/'] 16), .file (.write 1 [5])]

/-- **What is not checked.** A path has two entries, and directories have data. -/
theorem tables_spoiled : ¬ OnePerPath twiceMade ∧ ¬ DirsEmpty filledDir ∧ ¬ DirsEmpty filledRoot := by
  refine ⟨fun h => ?_, fun h => ?_, fun h => ?_⟩
  · have hsame := h 1 0 1 (by decide) (by decide) (by decide +kernel) (by decide +kernel) (by decide +kernel)
    exact absurd hsame (by decide)
  · exact absurd (h (some (1, 0)) (by decide +kernel) (by decide +kernel)).2 (by decide +kernel)
  · exact absurd (h none (by decide +kernel) (by decide +kernel)).2 (by decide +kernel)

end OpenASD.Vfs.Buffers
