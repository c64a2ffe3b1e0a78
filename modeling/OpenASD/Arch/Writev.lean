/-
Vectored writes (sys_writev in kernel/arch/syscall.c): up to 16 buffers of the calling process are copied by pieces of
4096 bytes, and each piece goes to the console or to vfs_write. The copy is a parameter: by pages over the page tables
(`paged`), or byte by byte of a memory that stays as it is (`bytewise`). What kmalloc gives to vfs_write is part of `Ram`.

`scan` is what a bytewise call reads on the way: the pieces up to the first failure, and how the call would end if all of
them were written. Writing a piece does not touch the memory of the process, so the call is `emitAll` of these pieces, then
that end (`writevLoop_eq`).

- `vfsWrite_file`: a write on the descriptor of a file is a call of its backend;
- `Wrote.step`: pieces that are written to a file of the RAM file system one after the other leave it as one write of
  all of them does;
- `writevLoop_ends`: a call by pages fails, or has written the buffers as they are in the memory after it;
- `writev_is_one_write`: a call by pages that returns no error returns the sum of the lengths, and leaves the files and
  offsets as one ramfs_write of the buffers in order does.
-/
import OpenASD.Arch.UserCopy
import OpenASD.Vfs.Table

namespace OpenASD.Arch

open Vfs ByteMem
open List (length_append length_nil map_cons mem_cons not_mem_nil sum_cons)
open Option (bind_some getD_some map_some)

/-! ## The call -/

/-- `asd_iovec_t` -/
structure Iovec where
  base : ℕ
  len : ℕ
deriving DecidableEq

/-- the size of `asd_iovec_t` -/
def iovecSize : ℕ := 16

def Iovec.ofBytes (b : Bytes) : Iovec := ⟨leNat (b.take 8), leNat ((b.drop 8).take 8)⟩

/-- the array `kiov` in the memory that was copied -/
def kiov (b : Bytes) : ℕ → List Iovec
  | 0 => []
  | n + 1 => Iovec.ofBytes b :: kiov (b.drop iovecSize) n

def esysOverflow : ℤ := -75

variable {σ π υ : Type} {e : ℤ}

/-- one piece -/
def writevChunk (E : Env σ) (s : Machine σ π υ) (cur : Option π) (fd : ℕ) (data : Bytes) :
    Except ℤ Unit × Machine σ π υ :=
  if fd = 1 ∨ fd = 2 then (.ok (), { s with console := { s.console with output := s.console.output ++ data } })
  else
    let r := vfsWrite E s.vfs cur (fd % 2 ^ 32) data
    (r.1, { s with vfs := r.2 })

section Call

variable (copy : υ → ℕ → ℕ → Option Bytes × υ) (E : Env σ)

/-- the inner loop: one buffer; it ends within as many rounds as there are bytes left -/
def writevBuf (s : Machine σ π υ) (cur : Option π) (fd buf left : ℕ) : ℕ → Except ℤ Unit × Machine σ π υ
  | 0 => (.ok (), s)
  | fuel + 1 =>
    if left = 0 then (.ok (), s)
    else
      let r := copy s.user buf (min left kbufSize)
      let s := { s with user := r.2 }
      match r.1 with
      | none => (.error esysFault, s)
      | some data =>
        match writevChunk E s cur fd data with
        | (.error e, s) => (.error e, s)
        | (.ok (), s) => writevBuf s cur fd (buf + min left kbufSize) (left - min left kbufSize) fuel

/-- the outer loop -/
def writevLoop (s : Machine σ π υ) (cur : Option π) (fd total : ℕ) : List Iovec → Except ℤ ℕ × Machine σ π υ
  | [] => (.ok total, s)
  | v :: vs =>
    if v.len = 0 then writevLoop s cur fd total vs
    else if validateUserPtr v.base v.len = false then (.error esysFault, s)
    else if (total + v.len) % 2 ^ 64 < total then (.error esysOverflow, s)
    else
      match writevBuf copy E s cur fd v.base v.len v.len with
      | (.error e, s) => (.error e, s)
      | (.ok (), s) => writevLoop s cur fd ((total + v.len) % 2 ^ 64) vs

def sysWritev (s : Machine σ π υ) (cur : Option π) (fd iov cnt : ℕ) : Option ℤ × Machine σ π υ :=
  if cnt = 0 then (some 0, s)
  else if 16 < cnt then (some esysInval, s)
  else if validateUserPtr iov (cnt * iovecSize) = false then (some esysFault, s)
  else
    let r := copy s.user iov (cnt * iovecSize)
    let s := { s with user := r.2 }
    match r.1 with
    | none => (some esysFault, s)
    | some b =>
      match writevLoop copy E s cur fd 0 (kiov b cnt) with
      | (.error e, s) => (some e, s)
      | (.ok n, s) => (some (n : ℤ), s)

end Call

/-- the copy that leaves the memory as it is -/
abbrev bytewise (u : User) (addr n : ℕ) : Option Bytes × User := (copyFromUser u addr n, u)

/-! ## What is read, and what is written -/

/-- the pieces of a buffer up to the first that cannot be read -/
def chunks (u : User) (buf left : ℕ) : ℕ → List Bytes × Except ℤ Unit
  | 0 => ([], .ok ())
  | fuel + 1 =>
    if left = 0 then ([], .ok ())
    else
      match copyFromUser u buf (min left kbufSize) with
      | none => ([], .error esysFault)
      | some data =>
        let r := chunks u (buf + min left kbufSize) (left - min left kbufSize) fuel
        (data :: r.1, r.2)

/-- the pieces of all buffers up to the first failure, and the end of the call if they are written -/
def scan (u : User) (total : ℕ) : List Iovec → List Bytes × Except ℤ ℕ
  | [] => ([], .ok total)
  | v :: vs =>
    if v.len = 0 then scan u total vs
    else if validateUserPtr v.base v.len = false then ([], .error esysFault)
    else if (total + v.len) % 2 ^ 64 < total then ([], .error esysOverflow)
    else
      let r := chunks u v.base v.len v.len
      match r.2 with
      | .error e => (r.1, .error e)
      | .ok () =>
        let q := scan u ((total + v.len) % 2 ^ 64) vs
        (r.1 ++ q.1, q.2)

/-- pieces are written until one fails -/
def emitAll (E : Env σ) (s : Machine σ π) (cur : Option π) (fd : ℕ) : List Bytes → Except ℤ Unit × Machine σ π
  | [] => (.ok (), s)
  | b :: bs =>
    match writevChunk E s cur fd b with
    | (.error e, s) => (.error e, s)
    | (.ok (), s) => emitAll E s cur fd bs

/-- the end of the call -/
def conclude {α : Type} (r : Except ℤ Unit × Machine σ π) (last : Except ℤ α) : Except ℤ α × Machine σ π :=
  match r with
  | (.error e, s) => (.error e, s)
  | (.ok (), s) => (last, s)

section Split

variable (E : Env σ) {s : Machine σ π υ} {cur : Option π} {fd : ℕ}

theorem writevChunk_user (s : Machine σ π υ) (cur : Option π) (fd : ℕ) (data : Bytes) :
    (writevChunk E s cur fd data).2.user = s.user := by
  unfold writevChunk
  split_ifs <;> rfl

section

variable (s : Machine σ π) (cur : Option π)

theorem emitAll_user (fd : ℕ) (bs : List Bytes) :
    (emitAll E s cur fd bs).2.user = s.user := by
  induction bs generalizing s with
  | nil => rfl
  | cons b bs ih =>
    have hu := writevChunk_user E s cur fd b
    rw [emitAll]
    rcases hc : writevChunk E s cur fd b with ⟨r, s1⟩
    rw [hc] at hu
    cases r with
    | error e => exact hu
    | ok => exact (ih s1).trans hu

theorem emitAll_append (fd : ℕ) (as bs : List Bytes) :
    emitAll E s cur fd (as ++ bs) = match emitAll E s cur fd as with
      | (.error e, s) => (.error e, s)
      | (.ok (), s) => emitAll E s cur fd bs := by
  induction as generalizing s with
  | nil => rfl
  | cons a as ih =>
    rw [List.cons_append, emitAll, emitAll]
    rcases writevChunk E s cur fd a with ⟨r, s1⟩
    cases r with
    | error e => rfl
    | ok => exact ih s1

theorem writevBuf_eq (fd buf left fuel : ℕ) : writevBuf bytewise E s cur fd buf left fuel =
      conclude (emitAll E s cur fd (chunks s.user buf left fuel).1) (chunks s.user buf left fuel).2 := by
  induction fuel generalizing s buf left with
  | zero => rfl
  | succ fuel ih =>
    rw [writevBuf, chunks]
    split_ifs
    · rfl
    dsimp only
    rcases copyFromUser s.user buf (min left kbufSize) with _ | data
    · rfl
    have hu := writevChunk_user E s cur fd data
    simp only [emitAll]
    rcases hc : writevChunk E s cur fd data with ⟨r, s1⟩
    rw [hc] at hu
    cases r with
    | error e => rfl
    | ok =>
      have hu' : s1.user = s.user := hu
      simp only [ih s1, hu']

/-- **The call by its pieces.** -/
theorem writevLoop_eq (fd total : ℕ) (vecs : List Iovec) :
    writevLoop bytewise E s cur fd total vecs =
      conclude (emitAll E s cur fd (scan s.user total vecs).1) (scan s.user total vecs).2 := by
  induction vecs generalizing s total with
  | nil => rfl
  | cons v vs ih =>
    rw [writevLoop, scan]
    split_ifs
    · exact ih s total
    · rfl
    · rfl
    rw [writevBuf_eq]
    rcases hr : chunks s.user v.base v.len v.len with ⟨cs, last⟩
    have hu := emitAll_user E s cur fd cs
    cases last with
    | error e =>
      rcases emitAll E s cur fd cs with ⟨r, s1⟩
      cases r <;> rfl
    | ok =>
      simp only [emitAll_append]
      rcases hc : emitAll E s cur fd cs with ⟨r, s1⟩
      rw [hc] at hu
      cases r with
      | error e => rfl
      | ok =>
        have hu' : s1.user = s.user := hu
        simp only [conclude, ih s1, hu']

end

end Split

/-- the vector in the memory of the process -/
def iovecsAt (u : User) (iov cnt : ℕ) : Option (List Iovec) := (copyFromUser u iov (cnt * iovecSize)).map (kiov · cnt)

/-- the buffers of a vector, in order -/
def gather (u : User) : List Iovec → Option Bytes
  | [] => some []
  | v :: vs => (copyFromUser u v.base v.len).bind fun b => (gather u vs).map (b ++ ·)

section Read

variable {u : User}

variable {fuel left total : ℕ} {vecs : List Iovec} {buf : ℕ}

/-- a piece that the kernel's buffer can hold -/
def Piece (b : Bytes) : Prop := b ≠ [] ∧ b.length ≤ kbufSize

theorem chunks_pieces : ∀ b ∈ (chunks u buf left fuel).1, Piece b := by
  induction fuel generalizing buf left with
  | zero => nofun
  | succ fuel ih =>
    rw [chunks]
    split_ifs with h0
    · nofun
    rcases hc : copyFromUser u buf (min left kbufSize) with _ | a
    · nofun
    have hlen := copyFromUser_length hc
    refine List.forall_mem_cons.2 ⟨⟨fun e => ?_, hlen.trans_le (Nat.min_le_right _ _)⟩, ih⟩
    rw [e, length_nil, kbufSize] at hlen
    omega

theorem scan_pieces : ∀ b ∈ (scan u total vecs).1, Piece b := by
  induction vecs generalizing total with
  | nil => nofun
  | cons v vs ih =>
    rw [scan]
    split_ifs
    · exact ih
    · nofun
    · nofun
    have hc : ∀ b ∈ (chunks u v.base v.len v.len).1, Piece b := chunks_pieces
    generalize chunks u v.base v.len v.len = r at hc
    obtain ⟨cs, _ | _⟩ := r
    · exact hc
    · exact List.forall_mem_append.2 ⟨hc, ih⟩

theorem kiov_len (b : Bytes) (n : ℕ) : ∀ v ∈ kiov b n, v.len < 2 ^ 64 := by
  induction n generalizing b with
  | zero => exact fun v hv => absurd hv not_mem_nil
  | succ n ih =>
    intro v hv
    rcases mem_cons.1 hv with rfl | hv
    · have h := leNat_lt ((b.drop 8).take 8)
      have hle : ((b.drop 8).take 8).length ≤ 8 := List.length_take_le 8 _
      have hpow : 256 ^ ((b.drop 8).take 8).length ≤ 256 ^ 8 := Nat.pow_le_pow_right (by decide) hle
      exact lt_of_lt_of_le h (hpow.trans (by norm_num))
    · exact ih _ v hv

end Read

/-! ## Files of the RAM file system -/

/-- an entry after bytes were written into it at an offset that is not behind its end -/
def appended (e : Entry) (offset : ℕ) (buf : Bytes) : Entry :=
  if buf = [] then e
  else { e with data := some (overwrite (e.data.getD []) offset buf), size := max e.size (offset + buf.length) }

/-- the files and handles after bytes were written through a handle -/
def putBytes (w : Ram) (h : ℕ) (f : Handle) (buf : Bytes) : Ram :=
  (w.set f.fs f.entry (appended (w.get f.fs f.entry) f.offset buf)).setHandle h
    (some { f with offset := f.offset + buf.length })

section Append

variable {e : Entry} {offset : ℕ} {a b buf : Bytes}

theorem overwrite_append {d : Bytes} (h : offset ≤ d.length) :
    overwrite (overwrite d offset a) (offset + a.length) b = overwrite d offset (a ++ b) := by
  have h1 : (d.take offset ++ a).length = offset + a.length := by
    rw [length_append, List.length_take, Nat.min_eq_left h]
  have h2 : (overwrite d offset a).take (offset + a.length) = d.take offset ++ a := by
    rw [overwrite, ← h1]
    exact List.take_left
  have h3 : (overwrite d offset a).drop (offset + a.length + b.length) = d.drop (offset + (a ++ b).length) := by
    rw [overwrite, ← List.drop_drop, ← h1, List.drop_left, h1, List.drop_drop, length_append, Nat.add_assoc]
  calc overwrite (overwrite d offset a) (offset + a.length) b
      = (overwrite d offset a).take (offset + a.length) ++ b ++
          (overwrite d offset a).drop (offset + a.length + b.length) := rfl
    _ = d.take offset ++ a ++ b ++ d.drop (offset + (a ++ b).length) := by rw [h2, h3]
    _ = overwrite d offset (a ++ b) := by
      rw [overwrite]
      simp only [List.append_assoc]

theorem appended_nil (e : Entry) (offset : ℕ) : appended e offset [] = e := if_pos rfl

theorem appended_size (e : Entry) (hoff : offset ≤ e.size) (buf : Bytes) :
    (appended e offset buf).size = max e.size (offset + buf.length) := by
  unfold appended
  split_ifs with h
  · subst h
    exact (Nat.max_eq_left hoff).symm
  · rfl

/-- what is written in two pieces is written at once -/
theorem appended_append (he : EntryOk e) (hoff : offset ≤ e.size) :
    appended (appended e offset a) (offset + a.length) b = appended e offset (a ++ b) := by
  by_cases ha : a = []
  · subst ha
    rw [appended_nil, length_nil, Nat.add_zero, List.nil_append]
  by_cases hb : b = []
  · subst hb
    rw [appended_nil, List.append_nil]
  have hab : a ++ b ≠ [] := by simp [ha]
  have hd : overwrite (overwrite (e.data.getD []) offset a) (offset + a.length) b =
      overwrite (e.data.getD []) offset (a ++ b) := overwrite_append (he.size ▸ hoff)
  have hs : max (max e.size (offset + a.length)) (offset + a.length + b.length) =
      max e.size (offset + (a ++ b).length) := by
    rw [length_append]
    omega
  simp only [appended, if_neg ha, if_neg hb, if_neg hab, getD_some, hd, hs]

theorem appended_ok (he : EntryOk e) (hoff : offset ≤ e.size) (hfit : offset + buf.length < 2 ^ 64) :
    EntryOk (appended e offset buf) := by
  unfold appended
  split_ifs
  · exact he
  have hlen := overwrite_length buf (he.size ▸ hoff : offset ≤ (e.data.getD []).length)
  refine ⟨?_, ?_⟩
  · simp only [getD_some, hlen, he.size]
  · have := he.small
    simp only
    omega

/-- what ramfs_write makes of an entry -/
theorem written_eq (he : EntryOk e) (junk : ℕ → UInt8) (hoff : offset ≤ e.size) (hfit : offset + buf.length < 2 ^ 64) :
    written e junk offset buf = appended e offset buf := by
  have hoff' : offset ≤ (e.data.getD []).length := he.size ▸ hoff
  obtain ⟨hdata, -⟩ := written_spec he junk hoff hfit
  rw [writeAt_eq hoff'] at hdata
  by_cases hb : buf = []
  · subst hb
    have hno : ¬ e.size < offset + ([] : Bytes).length := by
      rw [length_nil]
      omega
    rw [appended_nil, written]
    simp only [if_neg hno]
    have hmap : (e.data.map fun d => overwrite d offset []) = e.data := by
      have hid : (fun d : Bytes => overwrite d offset []) = id := by
        funext d
        simp [overwrite]
      rw [hid, Option.map_id_fun, id]
    rw [hmap]
  have hpos : 0 < buf.length := List.length_pos_iff.2 hb
  by_cases hgrow : e.size < offset + buf.length
  · rw [written, if_pos hgrow] at hdata ⊢
    simp only [grown, map_some, getD_some] at hdata
    simp only [grown, map_some, hdata, appended, if_neg hb, Nat.max_eq_right hgrow.le]
  obtain ⟨d, hd⟩ : ∃ d, e.data = some d := by
    rcases hd : e.data with _ | d
    · have hz : e.size = 0 := by
        rw [he.size, hd]
        rfl
      omega
    · exact ⟨d, rfl⟩
  rw [written, if_neg hgrow]
  simp only [appended, if_neg hb, hd, map_some, getD_some, Nat.max_eq_left (Nat.le_of_not_lt hgrow)]

end Append

section Write

variable {w w' w1 w2 : Ram} {h : ℕ} {f : Handle} {a b buf : Bytes}

section

variable (hh : w.handle h = some f)
include hh

/-- a write that does not start behind the end, and ends below 2 ^ 64 -/
theorem ramfsWrite_eq (he : EntryOk (w.get f.fs f.entry))
    (hoff : f.offset ≤ (w.get f.fs f.entry).size) (hfit : f.offset + buf.length < 2 ^ 64) : ramfsWrite w h buf =
      if (w.get f.fs f.entry).size < f.offset + buf.length then
        match w.alloc w.allocs with
        | none => (.error eNospc, { w with allocs := w.allocs + 1 })
        | some _ => (.ok (), { putBytes w h f buf with allocs := w.allocs + 1 })
      else (.ok (), putBytes w h f buf) := by
  have hend := writeEnd_eq hfit
  have hnowrap : ¬ (0 < buf.length ∧ f.offset + buf.length < f.offset) := by omega
  have hput : ∀ junk, (w.set f.fs f.entry (written (w.get f.fs f.entry) junk f.offset buf)).setHandle h
      (some { f with offset := f.offset + buf.length }) = putBytes w h f buf := by
    intro junk
    rw [written_eq he junk hoff hfit]
    rfl
  unfold ramfsWrite
  rw [hh]
  simp only [hend, if_neg hnowrap, makeRoom]
  by_cases hgrow : (w.get f.fs f.entry).size < f.offset + buf.length
  · simp only [if_pos hgrow, Ram.kmalloc]
    rcases w.alloc w.allocs with _ | junk
    · rfl
    · simp only [get_set, set_again, get_allocs, set_allocs]
      rw [← hput junk, written, if_pos hgrow]
      rfl
  · simp only [if_neg hgrow]
    rw [← hput (fun _ => 0), written, if_neg hgrow]

/-- a write that succeeds ends below 2 ^ 64 -/
theorem ramfsWrite_fits (hoff : f.offset < 2 ^ 64) (hb : buf.length < 2 ^ 64)
    (hr : ramfsWrite w h buf = (.ok (), w')) : f.offset + buf.length < 2 ^ 64 := by
  by_contra hno
  have hwrap := writeEnd_wraps (Nat.le_of_not_lt hno) hoff hb
  unfold ramfsWrite at hr
  rw [hh] at hr
  simp only [if_pos hwrap] at hr
  cases hr

theorem putBytes_nil : putBytes w h f [] = w := by
  rw [putBytes, appended_nil, set_get]
  have hf : ({ f with offset := f.offset + ([] : Bytes).length } : Handle) = f := rfl
  rw [hf, ← hh, Ram.setHandle, Function.update_eq_self]

omit hh in
theorem putBytes_append (he : EntryOk (w.get f.fs f.entry)) (hoff : f.offset ≤ (w.get f.fs f.entry).size) :
    putBytes (putBytes w h f a) h { f with offset := f.offset + a.length } b = putBytes w h f (a ++ b) := by
  have hset : ∀ (w : Ram) (g : Option Handle) (e : Entry), (w.setHandle h g).set f.fs f.entry e =
      (w.set f.fs f.entry e).setHandle h g := by
    intro w g e
    cases f.entry <;> rfl
  have hget : (putBytes w h f a).get f.fs f.entry = appended (w.get f.fs f.entry) f.offset a := by
    exact get_set _ f.fs f.entry _
  have hlen : f.offset + a.length + b.length = f.offset + (a ++ b).length := by
    rw [length_append, Nat.add_assoc]
  calc putBytes (putBytes w h f a) h { f with offset := f.offset + a.length } b
      = ((putBytes w h f a).set f.fs f.entry (appended (appended (w.get f.fs f.entry) f.offset a)
          (f.offset + a.length) b)).setHandle h (some { f with offset := f.offset + a.length + b.length }) := by
        rw [← hget]
        rfl
    _ = ((w.set f.fs f.entry (appended (w.get f.fs f.entry) f.offset (a ++ b))).setHandle h
          (some { f with offset := f.offset + a.length })).setHandle h
            (some { f with offset := f.offset + a.length + b.length }) := by
        rw [appended_append he hoff, putBytes, hset, set_again]
    _ = putBytes w h f (a ++ b) := by
        rw [hlen, putBytes]
        simp only [Ram.setHandle, Function.update_idem]

/-- bytes were written through a handle, in any number of pieces -/
structure Wrote (w : Ram) (h : ℕ) (f : Handle) (buf : Bytes) (w' : Ram) : Prop where
  state : w' = { putBytes w h f buf with allocs := w'.allocs }
  fits : f.offset + buf.length < 2 ^ 64
  /-- if the file had to grow, the next allocation succeeds -/
  room : (w.get f.fs f.entry).size < f.offset + buf.length → w.alloc w.allocs ≠ none
  unused : (w.get f.fs f.entry).size < f.offset + buf.length ∨ w'.allocs = w.allocs

theorem Wrote.nil (hoff : f.offset ≤ (w.get f.fs f.entry).size) (hsmall : f.offset < 2 ^ 64) :
    Wrote w h f [] w := by
  refine ⟨?_, hsmall, fun hgrow => ?_, Or.inr rfl⟩
  · rw [putBytes_nil hh]
  · rw [length_nil] at hgrow
    omega

end

/-- **One more piece.** -/
theorem Wrote.step (hw : Wrote w h f a w1) (he : EntryOk (w.get f.fs f.entry))
    (hoff : f.offset ≤ (w.get f.fs f.entry).size) (hb : b.length < 2 ^ 64) (hr : ramfsWrite w1 h b = (.ok (), w2)) :
    Wrote w h f (a ++ b) w2 := by
  have hlen : f.offset + (a ++ b).length = f.offset + a.length + b.length := by
    rw [length_append, Nat.add_assoc]
  -- the file and the handle that the piece finds
  have hh1 : w1.handle h = some { f with offset := f.offset + a.length } := by
    rw [hw.state]
    exact Function.update_self _ _ _
  have hget1 : w1.get f.fs f.entry = appended (w.get f.fs f.entry) f.offset a := by
    rw [hw.state, get_allocs, putBytes]
    cases hf : f.entry with
    | slot i => exact get_set w f.fs (.slot i) _
    | root => rfl
  have hsize1 : (w1.get f.fs f.entry).size = max (w.get f.fs f.entry).size (f.offset + a.length) := by
    rw [hget1, appended_size _ hoff]
  have he1 : EntryOk (w1.get f.fs f.entry) := hget1 ▸ appended_ok he hoff hw.fits
  have hoff1 : f.offset + a.length ≤ (w1.get f.fs f.entry).size := hsize1 ▸ Nat.le_max_right _ _
  have hfit : f.offset + a.length + b.length < 2 ^ 64 := ramfsWrite_fits hh1 hw.fits hb hr
  have halloc1 : w1.alloc = w.alloc := by
    rw [hw.state, putBytes]
    cases f.entry <;> rfl
  have hput : { putBytes w1 h { f with offset := f.offset + a.length } b with allocs := w2.allocs } =
      { putBytes w h f (a ++ b) with allocs := w2.allocs } := by
    rw [← putBytes_append he hoff]
    conv_lhs => rw [hw.state]
    simp only [putBytes, get_allocs, set_allocs]
    rfl
  rw [ramfsWrite_eq hh1 he1 hoff1 hfit] at hr
  by_cases hgrow : (w1.get f.fs f.entry).size < f.offset + a.length + b.length
  · have hgrow' : (w.get f.fs f.entry).size < f.offset + (a ++ b).length := by
      omega
    simp only [if_pos hgrow] at hr
    rcases hal : w1.alloc w1.allocs with _ | junk
    · rw [hal] at hr
      cases hr
    rw [hal] at hr
    cases hr
    refine ⟨hput, hlen ▸ hfit, fun _ => ?_, Or.inl hgrow'⟩
    rcases hw.unused with hg | hn
    · exact hw.room hg
    · rw [halloc1, hn] at hal
      rw [hal]
      exact Option.some_ne_none junk
  · simp only [if_neg hgrow] at hr
    cases hr
    refine ⟨hput, hlen ▸ hfit, fun hg => hw.room ?_, ?_⟩
    · -- the pieces before have made the file longer
      omega
    rcases hw.unused with hg' | hn
    · exact Or.inl (hlen ▸ Nat.lt_of_lt_of_le hg' (Nat.le_add_right _ _))
    · refine Or.inr ?_
      cases f.entry <;> exact hn

/-- the files, the handles and their offsets are the same -/
structure SameFiles (w w' : Ram) : Prop where
  entry : w'.entry = w.entry
  root : w'.root = w.root
  handle : w'.handle = w.handle
  last : w'.lastHandle = w.lastHandle

/-- **Pieces are one write.** -/
theorem Wrote.one (hw : Wrote w h f buf w') (hh : w.handle h = some f) (he : EntryOk (w.get f.fs f.entry))
    (hoff : f.offset ≤ (w.get f.fs f.entry).size) : ∃ w1, ramfsWrite w h buf = (.ok (), w1) ∧ SameFiles w1 w' := by
  have hst := hw.state
  rw [ramfsWrite_eq hh he hoff hw.fits]
  split_ifs with hgrow
  · obtain ⟨junk, hj⟩ := Option.ne_none_iff_exists'.1 (hw.room hgrow)
    rw [hj]
    refine ⟨_, rfl, ?_⟩
    rw [hst]
    exact ⟨rfl, rfl, rfl, rfl⟩
  · refine ⟨_, rfl, ?_⟩
    rw [hst]
    exact ⟨rfl, rfl, rfl, rfl⟩

end Write

/-! ## Vectored writes to a file -/

/-- the node of a file whose backend has a write function; c is the context there -/
structure OnFile (v : Vfs.Node σ π) (f : σ → ℕ → Bytes → Except ℤ Unit × σ) (c : ℕ) : Prop where
  ring : v.ring = none
  port : v.portId = 0
  write : (v.backend.bind fun be => be.ops.opWrite) = some f
  ctx : v.bctx = c

section Descriptor

variable {E : Env σ} {v : State σ π} {cur : Option π} {fd nid c : ℕ} {b : Bytes}
  {f : σ → ℕ → Bytes → Except ℤ Unit × σ}

/-- the tables when a write of n bytes has succeeded -/
def afterWrite (v : State σ π) (nid : ℕ) (w : σ) (n : ℕ) : State σ π :=
  (v.setWorld w).setNode nid (advance (v.node nid) n)

theorem afterWrite_node (v : State σ π) (nid : ℕ) (w : σ) (n : ℕ) :
    (afterWrite v nid w n).node nid = advance (v.node nid) n := Function.update_self _ _ _

/-- descriptors keep their nodes -/
theorem lookup_afterWrite (v : State σ π) (nid : ℕ) (w : σ) (n : ℕ) (cur : Option π) (fd : ℕ) :
    lookup (afterWrite v nid w n) cur fd = lookup v cur fd := by
  have hid : ∀ m, ((afterWrite v nid w n).node m).nodeId = (v.node m).nodeId := by
    intro m
    by_cases e : m = nid
    · subst e
      rw [afterWrite_node]
      rfl
    · exact congrArg Node.nodeId (Function.update_of_ne e _ _)
  unfold lookup
  rw [hid]
  rfl

theorem OnFile.afterWrite (hon : OnFile (v.node nid) f c) (w : σ) (n : ℕ) :
    OnFile ((afterWrite v nid w n).node nid) f c := by
  rw [afterWrite_node]
  exact ⟨hon.ring, hon.port, hon.write, hon.ctx⟩

/-- a write on the descriptor of a file is a call of its backend -/
theorem vfsWrite_file (hlook : lookup v cur fd = some nid) (hon : OnFile (v.node nid) f c) : vfsWrite E v cur fd b =
      if fd = 0 ∨ b = [] then (.error eInval, v)
      else
        match f v.world c b with
        | (.ok (), w) => (.ok (), Arch.afterWrite v nid w b.length)
        | (.error e, w) => (.error e, v.setWorld w) := by
  unfold vfsWrite
  split_ifs with h0
  · rfl
  · simp only [hlook, writeNode, hon.ring, hon.port, ne_eq, not_true_eq_false, if_false, hon.write, hon.ctx]
    rcases f v.world c b with ⟨_ | _, w⟩ <;> rfl

end Descriptor

section File

variable {S : ℕ → Prop} {root : ℕ → Option ℕ} {E : Env Ram} {s : Machine Ram ℕ MemSt} {a b : Bytes} {addr n : ℕ}

theorem ramfsWrite_error {w : Ram} {h : ℕ} (hr : (ramfsWrite w h b).1 = .error e) : e < 0 := by
  unfold ramfsWrite at hr
  split at hr
  · cases hr
    decide
  split_ifs at hr
  · cases hr
    decide
  split at hr
  · cases hr
    decide
  · cases hr

theorem validateUserPtr_end (h0 : n ≠ 0) (hn : n < 2 ^ 64) (h : ¬ validateUserPtr addr n = false) : addr + n ≤ 2 ^ 47 := by
  simp only [validateUserPtr, h0, decide_false, Bool.false_or, Bool.not_eq_false, Bool.and_eq_true, decide_eq_true_eq] at h
  omega

/-- copies for process p -/
abbrev paged (p : ℕ) : MemSt → ℕ → ℕ → Option Bytes × MemSt := MemSt.copyFromUser (some p)

/-- what a call of process p is about: a descriptor, its node and handle, and the files before the call -/
structure Target where
  p : ℕ
  fd : ℕ
  nid : ℕ
  h : ℕ
  w : Ram
  f : Handle

/-- during the call: the descriptor has its file, and the bytes a have been written to it -/
structure Writing (S : ℕ → Prop) (root : ℕ → Option ℕ) (t : Target) (a : Bytes) (s : Machine Ram ℕ MemSt) : Prop where
  fd : ¬ (t.fd = 1 ∨ t.fd = 2)
  entry : EntryOk (t.w.get t.f.fs t.f.entry)
  off : t.f.offset ≤ (t.w.get t.f.fs t.f.entry).size
  good : Good S root s.user
  look : lookup s.vfs (some t.p) (t.fd % 2 ^ 32) = some t.nid
  on : OnFile (s.vfs.node t.nid) ramfsWrite t.h
  wrote : Wrote t.w t.h t.f a s.vfs.world

/-- the end of a part of the call: a negative code, or a result with Q, and the bytes that are read have been written too -/
def Ends {α : Type} (S : ℕ → Prop) (root : ℕ → Option ℕ) (t : Target) (a : Bytes) (s : Machine Ram ℕ MemSt)
    (read : User → Option Bytes) (Q : α → Prop) : Except ℤ α × Machine Ram ℕ MemSt → Prop
  | (.error e, _) => e < 0
  | (.ok x, s') => Q x ∧ Later S root t.p s.user s'.user ∧
      ∃ b, read (s'.user.view t.p) = some b ∧ Writing S root t (a ++ b) s'

variable {t : Target}

section

variable (hs : Writing S root t a s)
include hs

theorem Writing.nothing :
    Later S root t.p s.user s.user ∧ ∃ b, some [] = some b ∧ Writing S root t (a ++ b) s :=
  ⟨⟨hs.good, fun _ _ _ hb => hb⟩, [], rfl, (List.append_nil a).symm ▸ hs⟩

theorem writevChunk_ends (hb : b.length ≤ kbufSize) :
    match writevChunk E s (some t.p) t.fd b with
    | (.error e, _) => e < 0
    | (.ok (), s') => s'.user = s.user ∧ Writing S root t (a ++ b) s' := by
  rw [writevChunk, if_neg hs.fd, vfsWrite_file hs.look hs.on]
  split_ifs
  · exact (by decide : eInval < 0)
  rcases hw : ramfsWrite s.vfs.world t.h b with ⟨e | _, w1⟩
  · exact ramfsWrite_error (congrArg Prod.fst hw)
  · exact ⟨rfl, hs.fd, hs.entry, hs.off, hs.good, (lookup_afterWrite s.vfs t.nid w1 b.length _ _).trans hs.look,
      hs.on.afterWrite w1 b.length, hs.wrote.step hs.entry hs.off (lt_of_le_of_lt hb (by decide)) hw⟩

/-- one buffer -/
theorem writevBuf_ends {left fuel : ℕ} (hf : left ≤ fuel) (hn : addr + left ≤ 2 ^ 47) :
    Ends S root t a s (copyFromUser · addr left) (fun _ => True)
      (writevBuf (paged t.p) E s (some t.p) t.fd addr left fuel) := by
  induction fuel generalizing s a addr left with
  | zero =>
    obtain rfl : left = 0 := by omega
    exact ⟨trivial, hs.nothing⟩
  | succ fuel ih =>
    rw [writevBuf]
    split_ifs with h0
    · subst h0
      exact ⟨trivial, hs.nothing⟩
    dsimp only
    obtain ⟨hpos, hmax, hle⟩ : 0 < min left kbufSize ∧ min left kbufSize ≤ kbufSize ∧ min left kbufSize ≤ left := by
      rw [kbufSize]
      omega
    generalize min left kbufSize = k at *
    obtain ⟨rest, rfl⟩ := Nat.exists_eq_add_of_le hle
    obtain ⟨hl, hbytes⟩ := copyLoop_bytes hs.good (p := t.p) (le_refl k) (by omega : addr + k ≤ 2 ^ 47)
    rw [Nat.add_sub_cancel_left, paged, MemSt.copyFromUser]
    generalize MemSt.copyLoop t.p k s.user addr k = r at hl hbytes ⊢
    obtain ⟨_ | data, x⟩ := r
    · exact (by decide : esysFault < 0)
    have hdata := hbytes data rfl
    have hpiece := writevChunk_ends (E := E) (s := { s with user := x })
      ⟨hs.fd, hs.entry, hs.off, hl.1, hs.look, hs.on, hs.wrote⟩ ((copyFromUser_length hdata).trans_le hmax)
    dsimp only
    generalize writevChunk E { s with user := x } (some t.p) t.fd data = r at hpiece ⊢
    obtain ⟨e | _, s1⟩ := r
    · exact hpiece
    obtain ⟨hu, hs1⟩ := hpiece
    have hnext := ih hs1 (by omega : rest ≤ fuel) (by omega : addr + k + rest ≤ 2 ^ 47)
    dsimp only
    generalize writevBuf (paged t.p) E s1 (some t.p) t.fd (addr + k) rest fuel = r at hnext ⊢
    obtain ⟨e | _, s2⟩ := r
    · exact hnext
    obtain ⟨-, hl2, b, hb, hs2⟩ := hnext
    rw [hu] at hl2
    refine ⟨trivial, hl.trans hl2, data ++ b, ?_, List.append_assoc a data b ▸ hs2⟩
    dsimp only at hb ⊢
    rw [copyFromUser_add, hl2.copy (by omega) hdata, bind_some, hb, map_some]

/-- all buffers -/
theorem writevLoop_ends {total : ℕ} {vecs : List Iovec} (ht : total < 2 ^ 64)
    (hlen : ∀ v ∈ vecs, v.len < 2 ^ 64) :
    Ends S root t a s (gather · vecs) (fun n => n = total + (vecs.map Iovec.len).sum)
      (writevLoop (paged t.p) E s (some t.p) t.fd total vecs) := by
  induction vecs generalizing s a total with
  | nil => exact ⟨rfl, hs.nothing⟩
  | cons v vs ih =>
    have hv := hlen v List.mem_cons_self
    have hvs : ∀ v ∈ vs, v.len < 2 ^ 64 := fun x hx => hlen x (List.mem_cons_of_mem v hx)
    rw [writevLoop]
    split_ifs with h0 h1 h2
    · have hread : ∀ u, gather u (v :: vs) = gather u vs := by
        intro u
        rw [gather, h0, copyFromUser, bind_some]
        exact Option.map_id'
      simp only [hread, map_cons, sum_cons, h0, Nat.zero_add]
      exact ih hs ht hvs
    · exact (by decide : esysFault < 0)
    · exact (by decide : esysOverflow < 0)
    have hfit : (total + v.len) % 2 ^ 64 = total + v.len := by omega
    have hend := validateUserPtr_end h0 hv h1
    have hbuf := writevBuf_ends (E := E) hs (le_refl v.len) hend
    generalize writevBuf (paged t.p) E s (some t.p) t.fd v.base v.len v.len = r at hbuf ⊢
    obtain ⟨e | _, s1⟩ := r
    · exact hbuf
    obtain ⟨-, hl, b, hb, hs1⟩ := hbuf
    have hnext := ih hs1 (Nat.mod_lt (total + v.len) (by decide)) hvs
    dsimp only
    generalize writevLoop (paged t.p) E s1 (some t.p) t.fd ((total + v.len) % 2 ^ 64) vs = r at hnext ⊢
    obtain ⟨e | n, s2⟩ := r
    · exact hnext
    obtain ⟨hn, hl2, c, hc, hs2⟩ := hnext
    refine ⟨?_, hl.trans hl2, b ++ c, ?_, List.append_assoc a b c ▸ hs2⟩
    · rw [hn, hfit, map_cons, sum_cons, Nat.add_assoc]
    · dsimp only at hb hc ⊢
      rw [gather, hl2.copy hend hb, bind_some, hc, map_some]

end

end File

/-- **A vectored write is one write.** For a process in a good kernel, on a descriptor above 2 of a file of the RAM file system
whose offset is not behind the end: a call that returns no error returns the sum of the lengths, and leaves all files and
offsets as one ramfs_write of the buffers in order does. The buffers are read in the memory after the call, in which every
byte that was there before is as it was. -/
theorem writev_is_one_write {S : ℕ → Prop} {root : ℕ → Option ℕ} {E : Env Ram} {s s' : Machine Ram ℕ MemSt}
    {p fd iov cnt nid h : ℕ} {f : Handle} {v : ℤ} (hg : Good S root s.user) (hfd : 2 < fd)
    (hlook : lookup s.vfs (some p) (fd % 2 ^ 32) = some nid) (hon : OnFile (s.vfs.node nid) ramfsWrite h)
    (hh : s.vfs.world.handle h = some f) (he : EntryOk (s.vfs.world.get f.fs f.entry))
    (hoff : f.offset ≤ (s.vfs.world.get f.fs f.entry).size)
    (hr : sysWritev (paged p) E s (some p) fd iov cnt = (some v, s')) (hv : 0 ≤ v) :
    Later S root p s.user s'.user ∧ ∃ vecs bytes w1, iovecsAt (s'.user.view p) iov cnt = some vecs ∧
      gather (s'.user.view p) vecs = some bytes ∧ v = ((vecs.map Iovec.len).sum : ℕ) ∧
      ramfsWrite s.vfs.world h bytes = (.ok (), w1) ∧ SameFiles w1 s'.vfs.world := by
  have hnil : Wrote s.vfs.world h f [] s.vfs.world := Wrote.nil hh hoff (lt_of_le_of_lt hoff he.small)
  unfold sysWritev at hr
  split_ifs at hr with h0 h1 h2
  · -- an empty vector
    cases hr
    subst h0
    obtain ⟨w1, hw1, hsame⟩ := hnil.one hh he hoff
    exact ⟨⟨hg, fun _ _ _ hb => hb⟩, [], [], w1, rfl, rfl, rfl, hw1, hsame⟩
  · cases hr
    exact absurd hv (by decide)
  · cases hr
    exact absurd hv (by decide)
  have hsize : cnt * iovecSize ≠ 0 ∧ cnt * iovecSize < 2 ^ 64 := by
    rw [iovecSize]
    omega
  have hend := validateUserPtr_end hsize.1 hsize.2 h2
  obtain ⟨hl, hbytes⟩ := copyLoop_bytes hg (p := p) le_rfl hend
  dsimp only [paged, MemSt.copyFromUser] at hr
  generalize MemSt.copyLoop p (cnt * iovecSize) s.user iov (cnt * iovecSize) = r at hr hl hbytes
  obtain ⟨_ | b, x⟩ := r
  · cases hr
    exact absurd hv (by decide)
  have hloop := writevLoop_ends (E := E) (s := { s with user := x }) (t := ⟨p, fd, nid, h, s.vfs.world, f⟩)
    ⟨by dsimp only; omega, he, hoff, hl.1, hlook, hon, hnil⟩ (by decide : 0 < 2 ^ 64) (kiov_len b cnt)
  dsimp only at hr
  generalize writevLoop (paged p) E { s with user := x } (some p) fd 0 (kiov b cnt) = r at hr hloop
  obtain ⟨e | n, s1⟩ := r
  · cases hr
    exact absurd hv (Int.not_le.2 hloop)
  cases hr
  obtain ⟨hn, hl2, bytes, hgather, hdone⟩ := hloop
  obtain ⟨w1, hw1, hsame⟩ := hdone.wrote.one hh he hoff
  refine ⟨hl.trans hl2, kiov b cnt, bytes, w1, ?_, hgather, ?_, hw1, hsame⟩
  · rw [iovecsAt, hl2.copy hend (hbytes b rfl), map_some]
  · rw [hn, Nat.zero_add]

/-- one empty file, open as handle 1 -/
def vectorRam : Ram :=
  { emptyRam with
    entry := fun _ i => if i = 0 then newFile ['/', 'a'] else emptyRam.entry 0 i
    handle := fun h => if h = 1 then some ⟨0, .slot 0, 0⟩ else none
    lastHandle := 1 }

/-- process 1 has that file open as descriptor 3; on its page of heap there are two buffers, 97 and 98, and the last byte of
the page with the first byte of the absent page behind it -/
def vectorMachine : Machine Ram ℕ MemSt where
  vfs :=
    { world := vectorRam
      backends := [⟨1, ['/'], ramfsOps 0⟩]
      node := fun n =>
        if n = 1 then ⟨1, 1, 2, 0, 0, ['/', 'a'], some ⟨1, ['/'], ramfsOps 0⟩, 1, some 0, none, 0⟩ else Node.free
      nextNodeId := 2
      fdTable := fun _ fd => if fd = 3 then some 1 else none }
  user := heapWith (leBytes 8 (brkBase + 32) ++ leBytes 8 2 ++ leBytes 8 (brkBase + 4095) ++ leBytes 8 2 ++ [97, 98])
  console := ⟨[], []⟩

/-- what is not there -/
def noEnv : Env Ram := ⟨fun _ => 8, fun _ _ _ => none, fun _ _ _ => none, fun w _ _ => (.error (-1), w)⟩

/-- the two buffers are written -/
abbrev vectorCall : Option ℤ × Machine Ram ℕ MemSt := sysWritev (paged 1) noEnv vectorMachine (some 1) 3 brkBase 2

theorem writev_is_one_write_two : ∃ s' w1, vectorCall = (some 4, s') ∧
    (vectorMachine.user.view 1).mem (brkBase + 4096) = none ∧
    iovecsAt (s'.user.view 1) brkBase 2 = some [⟨brkBase + 32, 2⟩, ⟨brkBase + 4095, 2⟩] ∧
    ramfsWrite vectorRam 1 [97, 98, 0, 0] = (.ok (), w1) ∧ SameFiles w1 s'.vfs.world := by
  have hval : vectorCall.1 = some 4 := by decide +kernel
  have hvecs : iovecsAt (vectorCall.2.user.view 1) brkBase 2 = some [⟨brkBase + 32, 2⟩, ⟨brkBase + 4095, 2⟩] := by
    decide +kernel
  have hbytes : gather (vectorCall.2.user.view 1) [⟨brkBase + 32, 2⟩, ⟨brkBase + 4095, 2⟩] = some [97, 98, 0, 0] := by
    decide +kernel
  have hrun : vectorCall = (some 4, vectorCall.2) := Prod.ext hval rfl
  obtain ⟨-, vecs, bytes, w1, h1, h2, -, h4, h5⟩ := writev_is_one_write (f := ⟨0, .slot 0, 0⟩) (heapWith_good (by decide))
    (by decide : 2 < 3) rfl ⟨rfl, rfl, rfl, rfl⟩ rfl ⟨rfl, by decide⟩ (by decide) hrun (by decide)
  obtain rfl := Option.some.inj (h1.symm.trans hvecs)
  obtain rfl := Option.some.inj (h2.symm.trans hbytes)
  exact ⟨_, w1, hrun, by decide +kernel, h1, h4, h5⟩

end OpenASD.Arch
