/-
Listings of directories of the RAM file system (ramfs_readdir in kernel/vfs/ramfs.c). The table holds whole paths; a
child of a directory is an entry of its own, or implied by an entry below it.

The loop of ramfs_readdir takes a deeper path up to its last `/`, looks for that among what it has listed so far, and
else lists it with the `/` and without the NUL. So a deeper path does no harm only if it is found.

- `foldl_directs`: as long as deeper paths are found, the loop lists the children that have entries of their own;
- `listing_right_iff`: the listing is right exactly if every deeper path is that of a grandchild whose parent has an
  entry of its own, a directory, in an earlier place of the table.
-/
import Mathlib.Data.List.Dedup
import Mathlib.Data.List.Perm.Basic
import Mathlib.Data.List.TakeWhile
import OpenASD.Vfs.Ramfs

namespace OpenASD.Vfs

open List (append_nil drop_left foldl_append length_append length_cons mem_append_right mem_map mem_range range
  range_succ replicate)

/-! ## Children -/

/-- VFS_DIRENT_NAME_LEN -/
def direntNameLen : ℕ := 256

section Children

variable (w : Ram) (f : Handle)

/-- the path of an entry relative to the directory of a handle -/
def below (i : ℕ) : Option Str :=
  if (w.entry f.fs i).valid = true ∧ f.entry ≠ .slot i then
    childName (w.get f.fs f.entry).path (w.entry f.fs i).path
  else none

/-- the first part of a path -/
def firstPart (name : Str) : Str := name.takeWhile (· ≠ '/')

/-- what stands before the last `/` -/
def parentPart (name : Str) : Str := name.take (name.length - (baseName name).length - 1)

def children : List Str := (((range ramfsMaxFiles).filterMap (below w f)).map firstPart).dedup

/-- the kind and size of a child; one without an entry is a directory -/
def childInfo (c : Str) : Kind × ℤ :=
  match (range ramfsMaxFiles).find? fun i => decide (below w f i = some c) with
  | some i => ((w.entry f.fs i).kind, (w.entry f.fs i).size)
  | none => (.dir, 0)

/-- the string in an array -/
def cstr (a : Str) : Str := a.takeWhile (· ≠ nul)

/-- every child once, and nothing else -/
structure Listed (out : List Dirent) : Prop where
  terminated : ∀ d ∈ out, nul ∈ d.name
  once : (out.map fun d => cstr d.name).Nodup
  children : ∀ c, c ∈ out.map (fun d => cstr d.name) ↔ c ∈ children w f
  info : ∀ d ∈ out, (d.kind, d.size) = childInfo w f (cstr d.name)

/-- the entry of a listing for a child that has an entry of its own -/
def directAt (i : ℕ) : Option Dirent :=
  (below w f i).bind fun name =>
    if '/' ∈ name then none
    else some ⟨name ++ replicate (direntNameLen - name.length) nul, (w.entry f.fs i).kind, (w.entry f.fs i).size⟩

/-- those in the first n places of the table -/
def directs (n : ℕ) : List Dirent := (range n).filterMap (directAt w f)

/-- the entry in place i is no deeper one, or its parent is a directory in an earlier place; or the buffer is full -/
def Covered (cap i : ℕ) : Prop :=
  ∀ name ∈ below w f i, '/' ∈ name →
    (∃ j < i, below w f j = some (parentPart name) ∧ '/' ∉ parentPart name ∧ (w.entry f.fs j).kind = .dir) ∨
      cap ≤ (directs w f i).length

instance decidableCovered (cap i : ℕ) : Decidable (Covered w f cap i) :=
  inferInstanceAs (Decidable (∀ name ∈ below w f i, '/' ∈ name →
    (∃ j < i, below w f j = some (parentPart name) ∧ '/' ∉ parentPart name ∧ (w.entry f.fs j).kind = .dir) ∨
      cap ≤ (directs w f i).length))

end Children

/-- the paths are strings that fit an entry, and distinct -/
structure Contents (w : Ram) (fs : ℕ) : Prop where
  names : ∀ i < ramfsMaxFiles, (w.entry fs i).valid = true →
    (w.entry fs i).path.length < direntNameLen ∧ nul ∉ (w.entry fs i).path
  distinct : ∀ i < ramfsMaxFiles, ∀ j < ramfsMaxFiles, (w.entry fs i).valid = true → (w.entry fs j).valid = true →
    (w.entry fs i).path = (w.entry fs j).path → i = j

/-! ## Strings -/

section Strings

variable {dir path name s : Str}

/-- up to a character -/
theorem takeWhile_ne {c : Char} (hs : c ∉ s) (rest : Str) : (s ++ c :: rest).takeWhile (· ≠ c) = s := by
  have hall : ∀ x ∈ s, decide (x ≠ c) = true := fun x hx => decide_eq_true fun e => hs (e ▸ hx)
  rw [List.takeWhile_append_of_pos hall, List.takeWhile_cons_of_neg (by simp), append_nil]

/-- a name in an array -/
theorem padded (h : name.length < direntNameLen) : ∃ rest,
    name ++ replicate (direntNameLen - name.length) nul = name ++ nul :: rest := by
  obtain ⟨k, hk⟩ := Nat.exists_eq_add_of_lt h
  refine ⟨replicate k nul, ?_⟩
  have hlen : direntNameLen - name.length = k + 1 := by omega
  rw [hlen, List.replicate_succ]

theorem firstPart_slash (name : Str) : '/' ∉ firstPart name := by
  intro h
  have hp := List.mem_takeWhile_imp h
  simp at hp

theorem firstPart_of_notMem (h : '/' ∉ name) : firstPart name = name := by
  refine List.takeWhile_eq_self_iff.2 fun x hx => ?_
  exact decide_eq_true fun e => h (e ▸ hx)

/-- a path at its last `/` -/
theorem split_last (h : '/' ∈ name) : name = parentPart name ++ '/' :: baseName name := by
  obtain ⟨a, b, heq, ha⟩ := List.eq_append_cons_of_mem (List.mem_reverse.2 h)
  have hname : name = b.reverse ++ '/' :: a.reverse := by
    rw [← List.reverse_reverse name, heq]
    simp
  have hbase : baseName name = a.reverse := by
    rw [baseName, heq, takeWhile_ne ha b]
  have hparent : parentPart name = b.reverse := by
    have hlen : name.length - a.reverse.length - 1 = b.reverse.length := by
      rw [hname, length_append, length_cons]
      omega
    rw [parentPart, hbase, hlen, hname, List.take_left]
  rw [hparent, hbase]
  exact hname

theorem parentPart_length (h : '/' ∈ name) : name.length - (baseName name).length - 1 = (parentPart name).length := by
  have hlen := congrArg List.length (split_last h)
  rw [length_append, length_cons] at hlen
  omega

theorem take_parent (h : '/' ∈ name) : name.take (parentPart name).length = parentPart name := by
  rw [← parentPart_length h]
  rfl

theorem firstPart_parent (h : '/' ∈ name) (hp : '/' ∉ parentPart name) : firstPart name = parentPart name := by
  have hsplit := split_last h
  generalize parentPart name = p at hp hsplit ⊢
  rw [hsplit]
  exact takeWhile_ne hp _

theorem childName_some (h : childName dir path = some name) : path = (if dir = ['/'] then [] else dir) ++ '/' :: name := by
  unfold childName at h
  split_ifs at h ⊢ with h1 h2
  · split at h
    · cases h
      rfl
    · cases h
  rw [Bool.and_eq_true, List.isPrefixOf_iff_prefix, decide_eq_true_iff] at h2
  obtain ⟨⟨rest, rfl⟩, hhead⟩ := h2
  rw [drop_left] at hhead
  obtain ⟨rest', rfl⟩ := List.head?_eq_some_iff.1 hhead
  rw [← List.drop_drop, drop_left] at h
  rw [← Option.some.inj h]
  rfl

end Strings

/-! ## The loop -/

section Loop

variable {w : Ram} {f : Handle} {buf out : List Dirent} {i n cap : ℕ} {name : Str}

theorem below_some (h : below w f i = some name) : (w.entry f.fs i).valid = true ∧ (w.entry f.fs i).path =
      (if (w.get f.fs f.entry).path = ['/'] then [] else (w.get f.fs f.entry).path) ++ '/' :: name := by
  unfold below at h
  split_ifs at h with hv
  exact ⟨hv.1, childName_some h⟩

/-- a name below a directory is a string that fits -/
theorem below_fits (hc : Contents w f.fs) (hi : i < ramfsMaxFiles) (h : below w f i = some name) :
    name.length < direntNameLen ∧ nul ∉ name := by
  obtain ⟨hv, hpath⟩ := below_some h
  obtain ⟨hlen, hnul⟩ := hc.names i hi hv
  rw [hpath] at hlen hnul
  refine ⟨?_, fun hm => hnul (mem_append_right _ (List.mem_cons_of_mem _ hm))⟩
  rw [length_append, length_cons] at hlen
  omega

theorem below_inj (hc : Contents w f.fs) {j : ℕ} (hi : i < ramfsMaxFiles) (hj : j < ramfsMaxFiles)
    (h1 : below w f i = some name) (h2 : below w f j = some name) : i = j := by
  obtain ⟨hv1, hp1⟩ := below_some h1
  obtain ⟨hv2, hp2⟩ := below_some h2
  exact hc.distinct i hi j hj hv1 hv2 (hp1.trans hp2.symm)

/-- a deeper path is found among what is listed -/
def found (out : List Dirent) (name : Str) : Bool :=
  out.any fun d => decide (d.name.take (parentPart name).length = parentPart name ∧
    (d.name.drop (parentPart name).length).head? = some nul ∧ d.kind = .dir)

/-- what is listed for a deeper path that is not found -/
def implied (buf out : List Dirent) (name : Str) : Dirent :=
  ⟨strncpy (((buf.drop out.length).head?.map Dirent.name).getD []) name ((parentPart name).length + 1), .dir, 0⟩

/-- the name that stands in the buffer -/
theorem oldName_length (hroom : out.length < buf.length) (hbuf : ∀ d ∈ buf, d.name.length = direntNameLen) :
    (((buf.drop out.length).head?.map Dirent.name).getD []).length = direntNameLen := by
  rw [List.head?_drop, List.getElem?_eq_getElem hroom]
  exact hbuf _ (List.getElem_mem hroom)

theorem strncpy_whole {old : Str} (hold : old.length = direntNameLen) (hname : name.length < direntNameLen) :
    strncpy old name direntNameLen = name ++ replicate (direntNameLen - name.length) nul := by
  rw [strncpy, List.take_of_length_le (Nat.le_of_lt hname), List.drop_of_length_le (Nat.le_of_eq hold), append_nil]

/-- one round, by the name of the entry -/
theorem readdirStep_eq (hc : Contents w f.fs) (hi : i < ramfsMaxFiles)
    (hbuf : ∀ d ∈ buf, d.name.length = direntNameLen) : readdirStep w f buf out i =
      if out.length < buf.length then
        match below w f i with
        | none => out
        | some name =>
          if '/' ∈ name then if found out name then out else out ++ [implied buf out name]
          else out ++ (directAt w f i).toList
      else out := by
  unfold readdirStep
  by_cases hroom : out.length < buf.length
  · rw [if_pos hroom]
    by_cases hv : (w.entry f.fs i).valid = true ∧ f.entry ≠ .slot i
    · have hbelow : below w f i = childName (w.get f.fs f.entry).path (w.entry f.fs i).path := if_pos hv
      simp only [if_pos (And.intro hroom hv), directAt]
      rw [← hbelow]
      cases hname : below w f i with
      | none => rfl
      | some name =>
        dsimp only
        by_cases hslash : '/' ∈ name
        · rw [if_pos hslash, if_pos hslash, parentPart_length hslash, take_parent hslash]
          rfl
        have hcopy : strncpy (((buf.drop out.length).head?.map Dirent.name).getD []) name 256 = _ :=
          strncpy_whole (oldName_length hroom hbuf) (below_fits hc hi hname).1
        rw [if_neg hslash, if_neg hslash, Option.bind_some, if_neg hslash, hcopy]
        rfl
    · have hbelow : below w f i = none := if_neg hv
      simp only [if_neg fun h : out.length < buf.length ∧ _ => hv h.2]
      rw [hbelow]
  · rw [if_neg hroom, if_neg fun h => hroom h.1]

variable {d : Dirent}

theorem directAt_some : directAt w f i = some d ↔ ∃ name, below w f i = some name ∧ '/' ∉ name ∧
    d = ⟨name ++ replicate (direntNameLen - name.length) nul, (w.entry f.fs i).kind, (w.entry f.fs i).size⟩ := by
  unfold directAt
  rw [Option.bind_eq_some_iff]
  refine exists_congr fun name => and_congr_right fun _ => ?_
  split_ifs with h <;> simp [h, eq_comm]

theorem directs_succ (w : Ram) (f : Handle) (n : ℕ) : directs w f (n + 1) = directs w f n ++ (directAt w f n).toList := by
  rw [directs, directs, range_succ, List.filterMap_append]
  cases h : directAt w f n <;> simp [h]

theorem mem_directs : d ∈ directs w f n ↔ ∃ i < n, directAt w f i = some d := by
  simp [directs, List.mem_filterMap]

/-- the name of a child in the array of its entry -/
theorem direct_name (hc : Contents w f.fs) (hi : i < ramfsMaxFiles) (h : directAt w f i = some d) :
    ∃ name rest, below w f i = some name ∧ '/' ∉ name ∧ cstr d.name = name ∧ d.name = name ++ nul :: rest ∧
      d.kind = (w.entry f.fs i).kind ∧ d.size = (w.entry f.fs i).size := by
  obtain ⟨name, hname, hslash, rfl⟩ := directAt_some.1 h
  obtain ⟨hlen, hnul⟩ := below_fits hc hi hname
  obtain ⟨rest, hrest⟩ := padded hlen
  refine ⟨name, rest, hname, hslash, ?_, hrest, rfl, rfl⟩
  rw [cstr, hrest, takeWhile_ne hnul rest]

/-- **What is found.** -/
theorem found_iff (hc : Contents w f.fs) (hn : n ≤ ramfsMaxFiles) (hi : i < ramfsMaxFiles)
    (hname : below w f i = some name) : found (directs w f n) name = true ↔
      ∃ j < n, below w f j = some (parentPart name) ∧ '/' ∉ parentPart name ∧ (w.entry f.fs j).kind = .dir := by
  have hnul : nul ∉ parentPart name := fun h => (below_fits hc hi hname).2 (List.mem_of_mem_take h)
  unfold found
  rw [List.any_eq_true]
  constructor
  · rintro ⟨d, hd, hfound⟩
    obtain ⟨htake, hhead, hkind⟩ := of_decide_eq_true hfound
    obtain ⟨j, hj, hdirect⟩ := mem_directs.1 hd
    obtain ⟨c, rest, hbelow, hcslash, hcstr, -, hk, -⟩ := direct_name hc (Nat.lt_of_lt_of_le hj hn) hdirect
    -- the array holds the parent and then a NUL, so it is the name
    obtain ⟨rest', hdrop⟩ := List.head?_eq_some_iff.1 hhead
    have hsplit : d.name = parentPart name ++ nul :: rest' := by
      rw [← List.take_append_drop (parentPart name).length d.name, htake, hdrop]
    have hsame : c = parentPart name := by
      rw [← hcstr, cstr, hsplit, takeWhile_ne hnul rest']
    rw [hsame] at hbelow hcslash
    exact ⟨j, hj, hbelow, hcslash, hk.symm.trans hkind⟩
  · rintro ⟨j, hj, hbelow, hpslash, hkind⟩
    obtain ⟨rest, hrest⟩ := padded (below_fits hc (Nat.lt_of_lt_of_le hj hn) hbelow).1
    refine ⟨_, mem_directs.2 ⟨j, hj, directAt_some.2 ⟨_, hbelow, hpslash, rfl⟩⟩, decide_eq_true ?_⟩
    rw [hrest, List.take_left, drop_left]
    exact ⟨rfl, rfl, hkind⟩

/-! ### Names -/

theorem mem_children {c : Str} : c ∈ children w f ↔ ∃ i < ramfsMaxFiles, ∃ name, below w f i = some name ∧
    firstPart name = c := by
  simp only [children, List.mem_dedup, mem_map, List.mem_filterMap, mem_range]
  constructor
  · rintro ⟨name, ⟨i, hi, hname⟩, rfl⟩
    exact ⟨i, hi, name, hname, rfl⟩
  · rintro ⟨i, hi, name, hname, rfl⟩
    exact ⟨name, ⟨i, hi, hname⟩, rfl⟩

/-- the names of a listing -/
def namesOf (out : List Dirent) : List Str := out.map fun d => cstr d.name

section

variable (hc : Contents w f.fs) (hn : n ≤ ramfsMaxFiles)
include hc hn

/-- a name that is listed is that of a child with an entry -/
theorem mem_names {c : Str} : c ∈ namesOf (directs w f n) ↔ ∃ i < n, below w f i = some c ∧ '/' ∉ c := by
  constructor
  · intro h
    obtain ⟨d, hd, rfl⟩ := mem_map.1 h
    obtain ⟨i, hi, hdirect⟩ := mem_directs.1 hd
    obtain ⟨name, -, hname, hslash, hcstr, -⟩ := direct_name hc (Nat.lt_of_lt_of_le hi hn) hdirect
    rw [hcstr]
    exact ⟨i, hi, hname, hslash⟩
  · rintro ⟨i, hi, hname, hslash⟩
    obtain ⟨hlen, hnul⟩ := below_fits hc (Nat.lt_of_lt_of_le hi hn) hname
    obtain ⟨rest, hrest⟩ := padded hlen
    refine mem_map.2 ⟨_, mem_directs.2 ⟨i, hi, directAt_some.2 ⟨c, hname, hslash, rfl⟩⟩, ?_⟩
    rw [cstr, hrest, takeWhile_ne hnul rest]

theorem names_nodup : (namesOf (directs w f n)).Nodup := by
  induction n with
  | zero => exact List.nodup_nil
  | succ n ih =>
    have hn' : n ≤ ramfsMaxFiles := Nat.le_of_succ_le hn
    have hlast : ∀ c ∈ namesOf (directAt w f n).toList, below w f n = some c := by
      intro c h
      obtain ⟨d, hd, rfl⟩ := mem_map.1 h
      obtain ⟨name, -, hname, -, hcstr, -⟩ := direct_name hc hn (Option.mem_toList.1 hd)
      rw [hcstr]
      exact hname
    rw [directs_succ, namesOf, List.map_append]
    refine List.Nodup.append (ih hn') ?_ fun c h1 h2 => ?_
    · cases directAt w f n with
      | none => exact List.nodup_nil
      | some d => exact List.nodup_singleton _
    · obtain ⟨i, hi, hname, -⟩ := (mem_names hc hn').1 h1
      exact Nat.ne_of_lt hi (below_inj hc (Nat.lt_of_lt_of_le hi hn') hn hname (hlast c h2))

/-- there are no more of them than children -/
theorem names_subset : namesOf (directs w f n) ⊆ children w f := by
  intro c h
  obtain ⟨i, hi, hname, hslash⟩ := (mem_names hc hn).1 h
  exact mem_children.2 ⟨i, Nat.lt_of_lt_of_le hi hn, c, hname, firstPart_of_notMem hslash⟩

theorem directs_length : (directs w f n).length ≤ (children w f).length := by
  have hsub := (List.subperm_of_subset (names_nodup hc hn) (names_subset hc hn)).length_le
  rwa [namesOf, List.length_map] at hsub

end

/-! ### Rounds -/

/-- **The loop, as long as deeper paths are found.** -/
theorem foldl_directs (hc : Contents w f.fs) (hbuf : ∀ d ∈ buf, d.name.length = direntNameLen)
    (hcap : (children w f).length ≤ buf.length) (hn : n ≤ ramfsMaxFiles) (hcov : ∀ i < n, Covered w f buf.length i) :
    (range n).foldl (readdirStep w f buf) [] = directs w f n := by
  induction n with
  | zero => rfl
  | succ n ih =>
    have hprev := ih (Nat.le_of_succ_le hn) fun i hi => hcov i (Nat.lt_succ_of_lt hi)
    rw [range_succ, foldl_append, hprev, List.foldl_cons, List.foldl_nil, readdirStep_eq hc hn hbuf,
      directs_succ]
    by_cases hroom : (directs w f n).length < buf.length
    · rw [if_pos hroom]
      cases hname : below w f n with
      | none =>
        have hnone : directAt w f n = none := by rw [directAt, hname, Option.bind_none]
        rw [hnone]
        exact (append_nil _).symm
      | some name =>
        dsimp only
        by_cases hslash : '/' ∈ name
        · have hfound := (hcov n (Nat.lt_succ_self n) name hname hslash).resolve_right (Nat.not_le.2 hroom)
          have hnone : directAt w f n = none := by rw [directAt, hname, Option.bind_some, if_pos hslash]
          rw [if_pos hslash, if_pos ((found_iff hc (Nat.le_of_succ_le hn) hn hname).2 hfound), hnone]
          exact (append_nil _).symm
        · rw [if_neg hslash]
    · -- the buffer is full, so there is no other child
      have hle := directs_length hc hn
      rw [directs_succ, length_append] at hle
      rw [if_neg hroom]
      cases hd : directAt w f n with
      | none => exact (append_nil _).symm
      | some d =>
        rw [hd] at hle
        have hone : (some d).toList.length = 1 := rfl
        omega

/-- what is listed stays -/
theorem foldl_mono (l : List ℕ) (hd : d ∈ out) : d ∈ l.foldl (readdirStep w f buf) out := by
  refine List.foldlRecOn (motive := (d ∈ ·)) _ _ hd fun out hd i _ => ?_
  unfold readdirStep
  dsimp only
  split_ifs
  · split
    · exact hd
    split_ifs
    · exact hd
    · exact List.mem_append_left _ hd
    · exact List.mem_append_left _ hd
  · exact hd

section

variable (hc : Contents w f.fs) (hi : i < ramfsMaxFiles) (hname : below w f i = some name)
include hc hi hname

/-- a deeper path that is not found is listed with a `/` -/
theorem implied_slash (hslash : '/' ∈ name) : '/' ∈ cstr (implied buf out name).name := by
  have hnul := (below_fits hc hi hname).2
  have hsplit := split_last hslash
  have htake : name.take ((parentPart name).length + 1) = parentPart name ++ ['/'] := by
    generalize parentPart name = p at hsplit ⊢
    rw [hsplit, List.take_length_add_append]
    rfl
  have hall : ∀ x ∈ parentPart name ++ ['/'], decide (x ≠ nul) = true := by
    intro x hx
    rw [← htake] at hx
    exact decide_eq_true fun e => hnul (e ▸ List.mem_of_mem_take hx)
  unfold implied strncpy cstr
  rw [htake, List.append_assoc, List.takeWhile_append_of_pos hall]
  exact List.mem_append_left _ (mem_append_right _ (List.mem_singleton_self _))

/-- a child with an entry of its own -/
theorem childInfo_eq : childInfo w f name = ((w.entry f.fs i).kind, ((w.entry f.fs i).size : ℤ)) := by
  unfold childInfo
  cases hfind : (range ramfsMaxFiles).find? fun i => decide (below w f i = some name) with
  | none =>
    have hno := List.find?_eq_none.1 hfind i (mem_range.2 hi)
    rw [decide_eq_true_iff] at hno
    exact absurd hname hno
  | some j =>
    have hj := mem_range.1 (List.mem_of_find?_eq_some hfind)
    have hp := List.find?_some hfind
    have hname' : below w f j = some name := of_decide_eq_true hp
    rw [below_inj hc hj hi hname' hname]

end

/-- the children are listed once, with their kinds and sizes -/
theorem directs_listed (hc : Contents w f.fs) (hcap : (children w f).length ≤ cap)
    (hcov : ∀ i < ramfsMaxFiles, Covered w f cap i) : Listed w f (directs w f ramfsMaxFiles) := by
  refine ⟨fun d hd => ?_, names_nodup hc le_rfl, fun c => ⟨fun h => names_subset hc le_rfl h, fun h => ?_⟩,
    fun d hd => ?_⟩
  · obtain ⟨i, hi, hdirect⟩ := mem_directs.1 hd
    obtain ⟨name, rest, -, -, -, harr, -⟩ := direct_name hc hi hdirect
    rw [harr]
    exact mem_append_right _ List.mem_cons_self
  · obtain ⟨i, hi, name, hname, rfl⟩ := mem_children.1 h
    by_cases hslash : '/' ∈ name
    · rcases hcov i hi name hname hslash with ⟨j, hj, hparent, hp, -⟩ | hfull
      · rw [firstPart_parent hslash hp]
        exact (mem_names hc le_rfl).2 ⟨j, Nat.lt_trans hj hi, hparent, hp⟩
      -- as many are listed as there are children, so all of them
      have hle : i ≤ ramfsMaxFiles := Nat.le_of_lt hi
      have hlen : (children w f).length ≤ (namesOf (directs w f i)).length := by
        rw [namesOf, List.length_map]
        exact Nat.le_trans hcap hfull
      have hperm := (List.subperm_of_subset (names_nodup hc hle) (names_subset hc hle)).perm_of_length_le hlen
      obtain ⟨j, hj, hchild, hno⟩ := (mem_names hc hle).1 (hperm.mem_iff.2 h)
      exact (mem_names hc le_rfl).2 ⟨j, Nat.lt_trans hj hi, hchild, hno⟩
    · rw [firstPart_of_notMem hslash]
      exact (mem_names hc le_rfl).2 ⟨i, hi, hname, hslash⟩
  · obtain ⟨i, hi, hdirect⟩ := mem_directs.1 hd
    obtain ⟨name, -, hname, -, hcstr, -, hk, hs⟩ := direct_name hc hi hdirect
    rw [hcstr, childInfo_eq hc hi hname, hk, hs]

end Loop

/-- **Listings.** For contents with distinct paths and a buffer with room for all children: ramfs_readdir lists every
child once, with its kind and size, exactly if each deeper entry is that of a grandchild whose parent is a directory
with an entry in an earlier place, or comes when the buffer is full. -/
theorem listing_right_iff {w : Ram} {f : Handle} {h : ℕ} {buf : List Dirent} (hh : w.handle h = some f)
    (hc : Contents w f.fs) (hbuf : ∀ d ∈ buf, d.name.length = direntNameLen) (hcap : (children w f).length ≤ buf.length) :
    (∃ out, (ramfsReaddir w h buf).1 = .ok out ∧ Listed w f out) ↔ ∀ i < ramfsMaxFiles, Covered w f buf.length i := by
  have hrun : (ramfsReaddir w h buf).1 = .ok ((range ramfsMaxFiles).foldl (readdirStep w f buf) []) := by
    rw [ramfsReaddir, hh]
  rw [hrun]
  constructor
  · rintro ⟨out, hout, hlisted⟩
    obtain rfl := Except.ok.inj hout
    intro i
    -- by induction on the place, since the earlier rounds have listed the children there
    induction i using Nat.strong_induction_on with
    | _ i ih =>
      intro hi name hname hslash
      by_contra hno
      obtain ⟨hmissing, hroom⟩ := not_or.1 hno
      have hprev : (range i).foldl (readdirStep w f buf) [] = directs w f i :=
        foldl_directs hc hbuf hcap (Nat.le_of_lt hi) fun j hj => ih j hj (Nat.lt_trans hj hi)
      have hround : readdirStep w f buf (directs w f i) i = directs w f i ++ [implied buf (directs w f i) name] := by
        have hnot : ¬ found (directs w f i) name = true :=
          fun hf => hmissing ((found_iff hc (Nat.le_of_lt hi) hi hname).1 hf)
        rw [readdirStep_eq hc hi hbuf, if_pos (Nat.lt_of_not_le hroom), hname]
        dsimp only
        rw [if_pos hslash, if_neg hnot]
      have hmem : implied buf (directs w f i) name ∈ (range ramfsMaxFiles).foldl (readdirStep w f buf) [] := by
        obtain ⟨k, hk⟩ := Nat.exists_eq_add_of_le (Nat.succ_le_of_lt hi)
        rw [hk, List.range_add, foldl_append, range_succ, foldl_append, hprev, List.foldl_cons,
          List.foldl_nil, hround]
        exact foldl_mono _ (mem_append_right _ (List.mem_singleton_self _))
      have hchild := (hlisted.children _).1 (mem_map.2 ⟨_, hmem, rfl⟩)
      obtain ⟨j, -, other, -, hfirst⟩ := mem_children.1 hchild
      exact firstPart_slash other (hfirst.symm ▸ implied_slash hc hi hname hslash)
  · intro hcov
    refine ⟨_, rfl, ?_⟩
    rw [foldl_directs hc hbuf hcap le_rfl hcov]
    exact directs_listed hc hcap hcov

/-- a file system with some entries, and handle 1 for its root directory -/
def ramWith (es : List Entry) : Ram :=
  { emptyRam with
    entry := fun fs i => if fs = 0 then es.getD i (emptyRam.entry 0 0) else emptyRam.entry fs i
    handle := fun h => if h = 1 then some ⟨0, .root, 0⟩ else none }

/-- a buffer that was used before -/
def usedBuf (n : ℕ) : List Dirent := replicate n ⟨replicate direntNameLen 'x', .file, 0⟩

/-- a directory, a file in it, and a file beside it -/
def threeEntries : List Entry :=
  [⟨['/', 'd'], none, 0, .dir, true⟩, ⟨['/', 'd', '/', 'x'], some [1], 1, .file, true⟩,
    ⟨['/', 'a'], some [1, 2], 2, .file, true⟩]

theorem listing_right_iff_three : (∃ out, (ramfsReaddir (ramWith threeEntries) 1 (usedBuf 4)).1 = .ok out ∧
      Listed (ramWith threeEntries) ⟨0, .root, 0⟩ out) ∧
    children (ramWith threeEntries) ⟨0, .root, 0⟩ = [['d'], ['a']] := by
  have hsmall : ∀ i, ((ramWith threeEntries).entry 0 i).valid = true → i < 3 := by
    intro i hv
    by_contra hi
    have hnone : threeEntries[i]? = none := List.getElem?_eq_none (Nat.le_of_not_lt hi)
    have hentry : (ramWith threeEntries).entry 0 i = emptyRam.entry 0 0 := by
      show threeEntries.getD i (emptyRam.entry 0 0) = _
      rw [List.getD_eq_getElem?_getD, hnone]
      rfl
    rw [hentry] at hv
    cases hv
  have hnames : ∀ i < 3, ((ramWith threeEntries).entry 0 i).path.length < direntNameLen ∧
      nul ∉ ((ramWith threeEntries).entry 0 i).path := by decide
  have hpaths : ∀ i < 3, ∀ j < 3,
      ((ramWith threeEntries).entry 0 i).path = ((ramWith threeEntries).entry 0 j).path → i = j := by decide
  have hc : Contents (ramWith threeEntries) 0 :=
    ⟨fun i _ hv => hnames i (hsmall i hv), fun i _ j _ hi hj => hpaths i (hsmall i hi) j (hsmall j hj)⟩
  have hbuf : ∀ d ∈ usedBuf 4, d.name.length = direntNameLen := by
    intro d hd
    rw [List.eq_of_mem_replicate hd]
    exact List.length_replicate
  have hchildren : children (ramWith threeEntries) ⟨0, .root, 0⟩ = [['d'], ['a']] := by decide +kernel
  have hcap : (children (ramWith threeEntries) ⟨0, .root, 0⟩).length ≤ (usedBuf 4).length := by
    decide
  exact ⟨(listing_right_iff rfl hc hbuf hcap).2 (by decide +kernel), hchildren⟩

/-- one file in a directory that has no entry -/
def deepFile : List Entry := [⟨['/', 'a', '/', 'b'], none, 0, .file, true⟩]

/-- **A directory without an entry.** It is listed with a `/`, and what stood in the buffer follows. -/
theorem implied_listed_wrong : children (ramWith deepFile) ⟨0, .root, 0⟩ = [['a']] ∧
    (ramfsReaddir (ramWith deepFile) 1 (usedBuf 2)).1 = .ok [⟨'a' :: '/' :: replicate 254 'x', .dir, 0⟩] ∧
    ¬ Listed (ramWith deepFile) ⟨0, .root, 0⟩ [⟨'a' :: '/' :: replicate 254 'x', .dir, 0⟩] := by
  refine ⟨by decide +kernel, by decide +kernel, fun h => ?_⟩
  exact absurd (h.terminated _ (List.mem_singleton_self _)) (by decide +kernel)

end OpenASD.Vfs
