/-
`vfs_canonicalize` on its arrays (kernel/vfs/vfs.c): the working copy that is cut at its slashes, the stack of pointers into
it and the caller's buffer. An access outside an array, or a loop that runs out of rounds, is `none`.

Results:
- `vfsCanonicalize_sim`: on every C string the function stays inside its arrays and computes what `Vfs.vfsCanonicalize`
  says about lists of characters.
- `canonicalize_normal_form`: with a buffer of VFS_PATH_MAX bytes, what it writes on success is the canonical form, and a
  call on that writes it again.
-/
import Mathlib.Data.List.TakeWhile
import OpenASD.Core.CString
import OpenASD.Vfs.Ramfs

namespace OpenASD.Vfs.InPlace

open CString
open List (length_append length_set length_singleton replicate)
open Option (bind_eq_bind bind_some)

/-! ## The source's function -/

/-- `work`, `stk` (indices into work) and the buffer; the two static arrays are as the last call left them -/
structure Bufs where
  work : List Char
  stk : List ℕ
  out : List Char

/-- the arrays have the sizes of their declarations -/
structure Sized (b : Bufs) (outSz : ℕ) : Prop where
  work : b.work.length = vfsPathMax
  stk : b.stk.length = vfsPathMax / 2
  out : b.out.length = outSz

def slashOrEnd (c : Char) : Bool := decide (c = nul) || decide (c = '/')

/-- the component at p is cut off: the working copy, and where the next one starts -/
def cut (work : List Char) (p : ℕ) : Option (List Char × ℕ) := do
  let e ← scan slashOrEnd work work.length p
  let c ← work[e]?
  if c = '/' then (store work e nul).map fun work => (work, e + 1) else some (work, e)

/-- `seg[0] == '\0' || (seg[0] == '.' && seg[1] == '\0')` -/
def isSkipped (work : List Char) (seg : ℕ) : Option Bool := do
  if ← litAt work seg [nul] then some true else litAt work seg ['.', nul]

/-- the loop over the components; without a height of the stack the function returns -1 -/
def segLoop : ℕ → List Char → List ℕ → ℕ → ℕ → Option (List Char × List ℕ × Option ℕ)
  | 0, _, _, _, _ => none
  | n + 1, work, stk, p, top => do
    if (← work[p]?) = nul then some (work, stk, some top)
    else
      let seg := p
      let (work, p) ← cut work p
      if ← isSkipped work seg then segLoop n work stk p top
      else if ← litAt work seg ['.', '.', nul] then segLoop n work stk p (if 0 < top then top - 1 else top)
      else if vfsPathMax / 2 - 1 ≤ top then some (work, stk, none)
      else segLoop n work (← store stk top seg) p (top + 1)

/-- `if (i > 0) out[pos++] = '/'` -/
def putSlash (i : ℕ) (out : List Char) (pos : ℕ) : Option (List Char × ℕ) :=
  if 0 < i then (store out pos '/').map fun out => (out, pos + 1) else some (out, pos)

/-- the loop that writes component i and the following ones; without a position the function returns -1 -/
def rebuild (outSz : ℕ) (work : List Char) (stk : List ℕ) : ℕ → ℕ → List Char → ℕ → Option (List Char × Option ℕ)
  | 0, _, out, pos => some (out, some pos)
  | n + 1, i, out, pos => do
    let seg ← stk[i]?
    let slen := (← scan (fun c => decide (c = nul)) work work.length seg) - seg
    if outSz < pos + slen + 2 then some (out, none)
    else
      let (out, pos) ← putSlash i out pos
      rebuild outSz work stk n (i + 1) (← storeAll out pos ((work.drop seg).take slen)) (pos + slen)

/-- `path` is a C string, without its NUL -/
def vfsCanonicalize (path : Str) (b : Bufs) (outSz : ℕ) : Option (ℤ × Bufs) :=
  if outSz = 0 then some (-1, b)
  else if vfsPathMax ≤ path.length then some (-1, b)
  else do
    let work ← storeAll b.work 0 (path ++ [nul])
    let p ← scan (fun c => decide (c ≠ '/')) work work.length 0
    let (work, stk, top) ← segLoop work.length work b.stk p 0
    match top with
    | none => some (-1, ⟨work, stk, b.out⟩)
    | some top =>
      let (out, pos) ← rebuild outSz work stk top 0 (← store b.out 0 '/') 1
      match pos with
      | none => some (-1, ⟨work, stk, out⟩)
      | some pos => (store out pos nul).map fun out => (0, ⟨work, stk, out⟩)

/-! ## The loop over the components -/

/-- the stack points to the components segs (the top first), which end at p at the latest -/
def Points (work : List Char) (stk : List ℕ) (p : ℕ) : List Str → Prop
  | [] => True
  | s :: segs => ∃ i, stk[segs.length]? = some i ∧ StrAt nul work i s ∧ i + s.length ≤ p ∧ Points work stk p segs

variable {p : ℕ} {segs : List Str} {stk : List ℕ} {work : List Char} {path : Str}

section

variable (h : Points work stk p segs)
include h

theorem Points.push {k : ℕ} (hk : segs.length ≤ k) (v : ℕ) : Points work (stk.set k v) p segs := by
  induction segs with
  | nil => trivial
  | cons s segs ih =>
    obtain ⟨i, hi, hs, hp, hrest⟩ := h
    rw [List.length_cons] at hk
    refine ⟨i, ?_, hs, hp, ih hrest (Nat.le_of_succ_le hk)⟩
    rw [List.getElem?_set_ne (by omega)]
    exact hi

theorem Points.tail : Points work stk p segs.tail := by
  cases segs with
  | nil => trivial
  | cons s segs =>
    obtain ⟨i, -, -, -, hrest⟩ := h
    exact hrest

/-- what is written from p on is not seen by the components before it -/
theorem Points.mono {work' : List Char} {p' : ℕ}
    (hw : ∀ i s, StrAt nul work i s → i + s.length ≤ p → StrAt nul work' i s) (hp : p ≤ p') : Points work' stk p' segs := by
  induction segs with
  | nil => trivial
  | cons s segs ih =>
    obtain ⟨i, hi, hs, hle, hrest⟩ := h
    exact ⟨i, hi, hw i s hs hle, Nat.le_trans hle hp, ih hrest⟩

/-- the components as the second loop meets them -/
theorem Points.getElem? {k : ℕ} {s : Str} (hk : segs.reverse[k]? = some s) : ∃ i, stk[k]? = some i ∧ StrAt nul work i s := by
  induction segs with
  | nil => cases hk
  | cons t segs ih =>
    obtain ⟨i, hi, ht, -, hrest⟩ := h
    rw [List.reverse_cons] at hk
    by_cases hlt : k < segs.reverse.length
    · rw [List.getElem?_append_left hlt] at hk
      exact ih hrest hk
    rw [List.getElem?_append_right (Nat.le_of_not_lt hlt), List.length_reverse] at hk
    rw [List.length_reverse] at hlt
    cases he : k - segs.length with
    | zero =>
      rw [he] at hk
      obtain rfl : t = s := Option.some.inj hk
      obtain rfl : k = segs.length := by omega
      exact ⟨i, hi, ht⟩
    | succ n =>
      rw [he] at hk
      cases hk

end

/-- one component is cut off; a string that ends at or before p does not notice -/
theorem cut_spec {text : Str} (h : StrAt nul work p text) :
    ∃ work' p', cut work p = some (work', p') ∧ work'.length = work.length ∧ StrAt nul work' p (segment text).1 ∧
      StrAt nul work' p' (segment text).2 ∧ p + (segment text).1.length ≤ p' ∧
      ∀ i s, StrAt nul work i s → i + s.length ≤ p → StrAt nul work' i s := by
  obtain ⟨⟨rest, htext⟩, hfree⟩ := h
  have hsplit : text.takeWhile (· ≠ '/') ++ text.dropWhile (· ≠ '/') = text := List.takeWhile_append_dropWhile
  have hseg : ∀ c ∈ text.takeWhile (· ≠ '/'), slashOrEnd c = false := by
    intro c hc
    have hnul : c ≠ nul := fun e => hfree (e ▸ (List.takeWhile_sublist _).subset hc)
    have hslash := List.mem_takeWhile_imp hc
    simpa [slashOrEnd, hnul] using hslash
  have hsegfree : nul ∉ text.takeWhile (· ≠ '/') := fun hm => hfree ((List.takeWhile_sublist _).subset hm)
  have hdrop := List.head?_dropWhile_not (fun c : Char => decide (c ≠ '/')) text
  unfold segment cut
  generalize text.takeWhile (· ≠ '/') = seg at *
  generalize text.dropWhile (· ≠ '/') = d at *
  subst hsplit
  cases d with
  | nil =>
    -- the last component: nothing is written
    rw [List.append_nil] at htext
    have hat := drop_add_of_drop htext
    have hlt := lt_of_drop hat
    have hlt' : seg.length < work.length := by omega
    rw [scan_eq hseg rfl htext hlt']
    refine ⟨work, p + seg.length, ?_, rfl, ⟨⟨rest, htext⟩, hsegfree⟩, ⟨⟨rest, hat⟩, List.not_mem_nil⟩, Nat.le_refl _,
      fun i s hs _ => hs⟩
    simp [getElem?_of_drop hat, nul]
  | cons c d =>
    obtain rfl : c = '/' := by simpa using hdrop
    rw [List.append_assoc, List.cons_append] at htext
    have hat := drop_add_of_drop htext
    have hlt := lt_of_drop hat
    have hlt' : seg.length < work.length := by omega
    rw [scan_eq hseg rfl htext hlt']
    refine ⟨work.set (p + seg.length) nul, p + seg.length + 1, ?_, length_set, ⟨⟨_, drop_set_at htext rfl nul⟩, hsegfree⟩,
      ⟨⟨rest, ?_⟩, fun hm => hfree (List.mem_append_right _ (List.mem_cons_of_mem _ hm))⟩, Nat.le_succ _, ?_⟩
    · simp [getElem?_of_drop hat, store_of_lt hlt]
    · rw [List.drop_set_of_lt (Nat.lt_succ_self _)]
      exact drop_succ_of_drop hat
    intro i s hs hle
    -- a string that ended at the slash would end with it
    have hne : i + s.length ≠ p + seg.length := by
      intro e
      obtain ⟨r, hr⟩ := hs.text
      have hend := drop_add_of_drop hr
      rw [e, hat] at hend
      exact absurd (List.cons.inj hend).1 (by decide)
    exact hs.set (Or.inr (by omega)) nul

theorem isSkipped_eq {seg : Str} (h : StrAt nul work p seg) : isSkipped work p = some (decide (seg = [] ∨ seg = ['.'])) := by
  have h1 : litAt work p [nul] = some (decide (seg = [])) := litAt_eq h List.not_mem_nil
  have h2 : litAt work p ['.', nul] = some (decide (seg = ['.'])) := litAt_eq (t := ['.']) h (by decide)
  rw [isSkipped, h1, h2]
  by_cases hs : seg = [] <;> simp [hs]

/-- **The loop over the components** does what `canonLoop` does on lists, and leaves pointers to what is on the stack. -/
theorem segLoop_sim {n m : ℕ} {text : Str}
    (h : StrAt nul work p text) (hpts : Points work stk p segs) (hn : text.length < n) (hm : text.length ≤ m)
    (hstk : stk.length = vfsPathMax / 2) : ∃ work' stk', work'.length = work.length ∧ stk'.length = vfsPathMax / 2 ∧
      segLoop n work stk p segs.length = some (work', stk', (canonLoop m text segs).map List.length) ∧
      ∀ segs', canonLoop m text segs = some segs' → ∃ p', Points work' stk' p' segs' := by
  induction n generalizing m work stk p text segs with
  | zero => exact absurd hn (Nat.not_lt_zero _)
  | succ n ih =>
    obtain ⟨rest, htext⟩ := h.text
    by_cases ht : text = []
    · subst ht
      have hc : canonLoop m [] segs = some segs := by cases m <;> rfl
      refine ⟨work, stk, rfl, hstk, ?_, ?_⟩
      · rw [segLoop, getElem?_of_drop htext, hc]
        rfl
      · intro segs' he
        obtain rfl := Option.some.inj (hc.symm.trans he)
        exact ⟨p, hpts⟩
    obtain ⟨m, rfl⟩ : ∃ k, m = k + 1 := ⟨m - 1, by have := List.length_pos_iff.2 ht; omega⟩
    obtain ⟨c, text', rfl⟩ := List.exists_cons_of_ne_nil ht
    have hc : c ≠ nul := fun e => h.free (e ▸ List.mem_cons_self)
    obtain ⟨hlt, -, -⟩ := segment_spec (c :: text') ht
    obtain ⟨work', p', hcut, hlen, hseg, hnext, hp', hkeep⟩ := cut_spec h
    have hdd : litAt work' p ['.', '.', nul] = some (decide ((segment (c :: text')).1 = ['.', '.'])) :=
      litAt_eq (t := ['.', '.']) hseg (by decide)
    have hpts' := hpts.mono hkeep (Nat.le_trans (Nat.le_add_right _ _) hp')
    rw [segLoop, getElem?_of_drop htext, canonLoop, if_neg ht]
    generalize segment (c :: text') = r at *
    obtain ⟨seg, rest'⟩ := r
    simp only at *
    have hn' : rest'.length < n := by omega
    have hm' : rest'.length ≤ m := by omega
    simp only [bind_eq_bind, bind_some, if_neg hc, hcut, isSkipped_eq hseg, hdd, decide_eq_true_eq, ← hlen]
    by_cases h1 : seg = [] ∨ seg = ['.']
    · rw [if_pos h1, if_pos h1]
      exact ih hnext hpts' hn' hm' hstk
    rw [if_neg h1, if_neg h1]
    by_cases h2 : seg = ['.', '.']
    · rw [if_pos h2, if_pos h2]
      have htop : (if 0 < segs.length then segs.length - 1 else segs.length) = segs.tail.length := by
        rw [List.length_tail]
        split_ifs <;> omega
      rw [htop]
      exact ih hnext hpts'.tail hn' hm' hstk
    rw [if_neg h2, if_neg h2]
    by_cases h3 : vfsPathMax / 2 - 1 ≤ segs.length
    · rw [if_pos h3, if_pos h3]
      exact ⟨work', stk, rfl, hstk, rfl, fun _ he => by cases he⟩
    rw [if_neg h3, if_neg h3]
    have htop : segs.length < stk.length := by
      omega
    rw [store_of_lt htop, bind_some]
    have hpush : Points work' (stk.set segs.length p) p' (seg :: segs) :=
      ⟨p, List.getElem?_set_self htop, hseg, hp', hpts'.push (Nat.le_refl _) p⟩
    exact ih hnext hpush hn' hm' (by rw [length_set, hstk])

/-! ## The loop that writes the components -/

/-- **The loop that writes the components** stays inside the buffer and writes what `rebuildLoop` says. -/
theorem rebuild_sim {outSz : ℕ} {l : List Str} {i : ℕ} {out : List Char} {done : Str}
    (hat : ∀ k s, l[k]? = some s → ∃ j, stk[i + k]? = some j ∧ StrAt nul work j s) (hlen : out.length = outSz)
    (hpos : done.length < outSz) (htake : out.take done.length = done) (hfree : nul ∉ done) : ∃ out', out'.length = outSz ∧
      rebuild outSz work stk l.length i out done.length =
        some (out', (rebuildLoop outSz done (decide (i = 0)) l).map List.length) ∧
      ∀ s, rebuildLoop outSz done (decide (i = 0)) l = some s → out'.take s.length = s ∧ nul ∉ s := by
  induction l generalizing i out done with
  | nil =>
    refine ⟨out, hlen, rfl, ?_⟩
    intro s hs
    obtain rfl := Option.some.inj hs
    exact ⟨htake, hfree⟩
  | cons seg l ih =>
    obtain ⟨j, hj, hseg⟩ := hat 0 seg rfl
    rw [Nat.add_zero] at hj
    rw [List.length_cons, rebuild, hj, rebuildLoop]
    simp only [bind_eq_bind, bind_some, hseg.scan, Nat.add_sub_cancel_left, hseg.take]
    by_cases hroom : outSz < done.length + seg.length + 2
    · rw [if_pos hroom, if_pos hroom]
      exact ⟨out, hlen, rfl, fun s hs => by cases hs⟩
    rw [if_neg hroom, if_neg hroom]
    -- the `/` before a component that is not the first
    obtain ⟨mid, out1, hmid, hlen1, htake1, hfree1, hml, hstore⟩ : ∃ mid out1,
        (if decide (i = 0) = true then done else done ++ ['/']) = mid ∧ out1.length = outSz ∧
        out1.take mid.length = mid ∧ nul ∉ mid ∧ mid.length + seg.length < outSz ∧
        putSlash i out done.length = some (out1, mid.length) := by
      unfold putSlash
      by_cases hi : i = 0
      · refine ⟨done, out, by simp [hi], hlen, htake, hfree, by omega, by simp [hi]⟩
      have hlt : done.length < out.length := by omega
      refine ⟨done ++ ['/'], out.set done.length '/', by simp [hi], by rw [length_set, hlen], ?_, ?_, ?_, ?_⟩
      · rw [length_append, length_singleton, List.take_add_one, List.take_set_of_le (Nat.le_refl _), htake]
        simp [hlt]
      · rw [List.mem_append, List.mem_singleton, not_or]
        exact ⟨hfree, by decide⟩
      · simp only [length_append, length_singleton]
        omega
      · rw [if_pos (Nat.pos_of_ne_zero hi), store_of_lt hlt]
        simp
    rw [hstore, hmid]
    simp only [bind_some]
    have hall : storeAll out1 mid.length seg = some (out1.take mid.length ++ seg ++ out1.drop (mid.length + seg.length)) :=
      storeAll_eq (by omega)
    rw [hall, bind_some, htake1, ← length_append]
    apply ih
    · intro k s hk
      obtain ⟨j', hj', hs'⟩ := hat (k + 1) s hk
      exact ⟨j', by rw [Nat.add_assoc, Nat.add_comm 1]; exact hj', hs'⟩
    · simp only [length_append, List.length_drop]
      omega
    · rw [length_append]
      omega
    · rw [List.take_left]
    · rw [List.mem_append, not_or]
      exact ⟨hfree1, hseg.free⟩

/-! ## The whole function -/

/-- the working copy -/
theorem copy_spec (hnul : nul ∉ path) (hlen : path.length < work.length) :
    ∃ work', storeAll work 0 (path ++ [nul]) = some work' ∧ work'.length = work.length ∧ StrAt nul work' 0 path := by
  have hfit : 0 + (path ++ [nul]).length ≤ work.length := by
    rw [length_append, length_singleton]
    omega
  refine ⟨_, storeAll_eq hfit, ?_, ⟨work.drop (0 + (path ++ [nul]).length), ?_⟩, hnul⟩
  · simp only [List.take_zero, List.nil_append, length_append, List.length_drop, length_singleton] at hfit ⊢
    omega
  · simp

/-- the slashes at the front are passed over -/
theorem skip_spec (h : StrAt nul work 0 path) :
    ∃ p, scan (fun c => decide (c ≠ '/')) work work.length 0 = some p ∧ StrAt nul work p (path.dropWhile (· = '/')) := by
  obtain ⟨rest, htext⟩ := h.text
  have hlt := h.lt
  have hsplit : path.takeWhile (· = '/') ++ path.dropWhile (· = '/') = path := List.takeWhile_append_dropWhile
  have hfree : nul ∉ path.dropWhile (· = '/') := fun hm => h.free ((List.dropWhile_sublist _).subset hm)
  have hslash : ∀ c ∈ path.takeWhile (· = '/'), decide (c ≠ '/') = false := by
    intro c hc
    simpa using List.mem_takeWhile_imp hc
  have hhead := List.head?_dropWhile_not (fun c : Char => decide (c = '/')) path
  generalize path.takeWhile (· = '/') = lead at *
  generalize path.dropWhile (· = '/') = text at *
  subst hsplit
  rw [List.append_assoc] at htext
  have hstr : StrAt nul work (0 + lead.length) text := ⟨⟨rest, drop_add_of_drop htext⟩, hfree⟩
  rw [length_append] at hlt
  refine ⟨0 + lead.length, ?_, hstr⟩
  cases text with
  | nil => exact scan_eq hslash (by decide) htext (by omega)
  | cons c text =>
    have hc : decide (c ≠ '/') = true := by simpa using hhead
    exact scan_eq hslash hc htext (by omega)

/-- **The function on its arrays.** For every C string and a buffer of two bytes at least, no access leaves an array, and the
result is that of `Vfs.vfsCanonicalize`. -/
theorem vfsCanonicalize_sim (hnul : nul ∉ path) {b : Bufs} {outSz : ℕ} (hsz : 2 ≤ outSz) (hb : Sized b outSz) :
    ∃ r b', vfsCanonicalize path b outSz = some (r, b') ∧ Sized b' outSz ∧
      (r = 0 ∧ (∃ s, Vfs.vfsCanonicalize path outSz = some s ∧ StrAt nul b'.out 0 s) ∨
        r = -1 ∧ Vfs.vfsCanonicalize path outSz = none) := by
  have hz : outSz ≠ 0 := by omega
  rw [vfsCanonicalize, Vfs.vfsCanonicalize, if_neg hz, if_neg hz]
  by_cases hlen : vfsPathMax ≤ path.length
  · rw [if_pos hlen, if_pos hlen]
    exact ⟨-1, b, rfl, hb, Or.inr ⟨rfl, rfl⟩⟩
  rw [if_neg hlen, if_neg hlen]
  have hfit : path.length < b.work.length := by
    rw [hb.work]
    omega
  obtain ⟨work0, hcopy, hlen0, hpath⟩ := copy_spec hnul hfit
  obtain ⟨p, hskip, htext⟩ := skip_spec hpath
  have hle : (path.dropWhile (· = '/')).length ≤ path.length := (List.dropWhile_sublist _).length_le
  have hnil : Points work0 b.stk p [] := trivial
  obtain ⟨work1, stk1, hlen1, hstk1, hloop, hpts⟩ := segLoop_sim (n := work0.length) (m := path.length)
    htext hnil (by omega) hle hb.stk
  have hwork1 : work1.length = vfsPathMax := by rw [hlen1, hlen0, hb.work]
  have hout : 0 < b.out.length := by
    rw [hb.out]
    omega
  simp only [bind_eq_bind, hcopy, bind_some, hskip]
  rw [List.length_nil] at hloop
  rw [hloop]
  cases hc : canonLoop path.length (path.dropWhile (· = '/')) [] with
  | none => exact ⟨-1, ⟨work1, stk1, b.out⟩, rfl, ⟨hwork1, hstk1, hb.out⟩, Or.inr ⟨rfl, rfl⟩⟩
  | some segs =>
    obtain ⟨p', hp'⟩ := hpts segs hc
    have hat : ∀ k s, segs.reverse[k]? = some s → ∃ j, stk1[0 + k]? = some j ∧ StrAt nul work1 j s := by
      intro k s hk
      rw [Nat.zero_add]
      exact hp'.getElem? hk
    have hroot : (b.out.set 0 '/').take (['/'] : Str).length = ['/'] := by
      obtain ⟨c, out, he⟩ := List.exists_cons_of_length_pos hout
      rw [he]
      rfl
    have hone : (['/'] : Str).length < outSz := hsz
    obtain ⟨out', hlen', hrebuild, hdone⟩ := rebuild_sim hat (length_set.trans hb.out) hone hroot (by decide)
    rw [List.length_reverse, length_singleton] at hrebuild
    simp only [Option.map_some, bind_some, store_of_lt hout]
    rw [hrebuild]
    simp only [decide_true] at hdone ⊢
    cases hr : rebuildLoop outSz ['/'] true segs.reverse with
    | none => exact ⟨-1, ⟨work1, stk1, out'⟩, rfl, ⟨hwork1, hstk1, hlen'⟩, Or.inr ⟨rfl, rfl⟩⟩
    | some s =>
      obtain ⟨htake, hfree⟩ := hdone s hr
      have hs : s.length < out'.length := by
        rw [hlen']
        exact rebuildLoop_length hone hr
      refine ⟨0, ⟨work1, stk1, out'.set s.length nul⟩, ?_, ⟨hwork1, hstk1, ?_⟩, Or.inl ⟨rfl, s, rfl, ?_⟩⟩
      · simp [store_of_lt hs]
      · rw [length_set, hlen']
      refine ⟨⟨out'.drop (s.length + 1), ?_⟩, hfree⟩
      calc (out'.set s.length nul).drop 0 = out'.take s.length ++ nul :: out'.drop (s.length + 1) :=
            List.set_eq_take_append_cons_drop.trans (if_pos hs)
        _ = s ++ nul :: out'.drop (s.length + 1) := by rw [htake]

/-- **Normal form.** On every path, with a buffer of VFS_PATH_MAX bytes, the function makes no access outside its arrays; on success the buffer has the canonical form, and a call on that, whatever the arrays hold by then,
succeeds and writes it again. -/
theorem canonicalize_normal_form (path : Str) (hnul : nul ∉ path) (b : Bufs) (hb : Sized b vfsPathMax) :
    ∃ r b', vfsCanonicalize path b vfsPathMax = some (r, b') ∧ (r = 0 ∨ r = -1) ∧
      (r = 0 → StrAt nul b'.out 0 (canonical path) ∧
        ∀ c, Sized c vfsPathMax → ∃ c', vfsCanonicalize (canonical path) c vfsPathMax = some (0, c') ∧
          StrAt nul c'.out 0 (canonical path)) := by
  have hsz : 2 ≤ vfsPathMax := by decide
  obtain ⟨r, b', hrun, -, hr⟩ := vfsCanonicalize_sim hnul hsz hb
  refine ⟨r, b', hrun, hr.imp And.left And.left, ?_⟩
  rcases hr with ⟨-, s, hs, hout⟩ | ⟨rfl, -⟩
  · obtain ⟨rfl, -, hfix⟩ := vfsCanonicalize_some hs
    intro _
    refine ⟨hout, fun c hc => ?_⟩
    obtain ⟨r', c', hrun', -, hr'⟩ := vfsCanonicalize_sim hout.free hsz hc
    rw [hfix] at hr'
    rcases hr' with ⟨rfl, s', hs', hout'⟩ | ⟨-, hnone⟩
    · obtain rfl := Option.some.inj hs'
      exact ⟨c', hrun', hout'⟩
    · cases hnone
  · intro h
    cases h

/-- arrays with some content -/
def usedBufs : Bufs := ⟨replicate vfsPathMax 'x', replicate (vfsPathMax / 2) 7, replicate vfsPathMax 'y'⟩

/-- a relative path with a dot, a double slash and a way back -/
def dottedPath : Str := ['a', '/', '.', '/', '/', 'b', '/', '.', '.', '/', 'c']

theorem canonicalize_normal_form_relative : (vfsCanonicalize dottedPath usedBufs vfsPathMax).map Prod.fst = some 0 ∧
      ∃ r b', vfsCanonicalize dottedPath usedBufs vfsPathMax = some (r, b') ∧ (r = 0 ∨ r = -1) ∧
        (r = 0 → StrAt nul b'.out 0 (canonical dottedPath) ∧
          ∀ c, Sized c vfsPathMax → ∃ c', vfsCanonicalize (canonical dottedPath) c vfsPathMax = some (0, c') ∧
            StrAt nul c'.out 0 (canonical dottedPath)) :=
  ⟨by decide +kernel, canonicalize_normal_form dottedPath (by decide) usedBufs
    ⟨List.length_replicate, List.length_replicate, List.length_replicate⟩⟩

end OpenASD.Vfs.InPlace
