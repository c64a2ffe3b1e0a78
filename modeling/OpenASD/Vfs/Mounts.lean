/-
The choice of a backend (`find_backend` in kernel/vfs/vfs.c). A mount covers a path if its components are the first ones of
the path. On canonical texts that is what the byte comparison of the source tests (`mountMatches_form`).

Results:
- `findBackend_longest`: with distinct canonical mount points, whatever slots they are in, a canonical path goes to the
  mount that covers it with the longest mount point, and to none only if no mount covers it. The relative path is the rest
  of the text; if nothing is left, it is the backend's root.
- `mount_point_itself`: the path of a mount point gets a relative path that does not give it back.
-/
import Mathlib.Data.List.Nodup
import OpenASD.Vfs.Path

namespace OpenASD.Vfs

variable {ω : Type}

/-- the slots in use -/
def mounted (table : List (Backend ω)) : List (Backend ω) := table.filter fun be => decide (be.id ≠ 0)

/-- the mount point is the path, or a part of it that ends with a component -/
def Covers (mountPt path : Str) : Prop := resolve mountPt <+: resolve path

/-! ## Texts and components -/

/-- the text of the components behind another -/
def joined (segs : List Str) : Str := segs.flatMap ('/' :: ·)

/-- the canonical text of components -/
def form (segs : List Str) : Str := '/' :: List.intercalate ['/'] segs

theorem form_cons (seg : Str) (segs : List Str) : form (seg :: segs) = joined (seg :: segs) := by
  rw [form, intercalate_slash]
  rfl

/-- nothing, or something that starts with a slash: what can stand behind a component -/
def AtBoundary (text : Str) : Prop := text = [] ∨ text.head? = some '/'

theorem joined_boundary (segs : List Str) : AtBoundary (joined segs) := by
  cases segs with
  | nil => exact .inl rfl
  | cons seg segs => exact .inr rfl

theorem takeWhile_boundary {seg text : Str} (hs : '/' ∉ seg) (ht : AtBoundary text) :
    (seg ++ text).takeWhile (· ≠ '/') = seg := by
  have hseg : ∀ c ∈ seg, decide (c ≠ '/') = true := fun c hc => decide_eq_true fun e => hs (e ▸ hc)
  rw [List.takeWhile_append_of_pos hseg]
  rcases ht with rfl | ht
  · simp
  cases text with
  | nil => cases ht
  | cons c text =>
    obtain rfl : c = '/' := Option.some.inj ht
    simp

/-- a text is read back in one way -/
theorem boundary_inj {a b x y : Str} (ha : '/' ∉ a) (hb : '/' ∉ b) (hx : AtBoundary x) (hy : AtBoundary y)
    (h : a ++ x = b ++ y) : a = b ∧ x = y := by
  have hab : a = b := by rw [← takeWhile_boundary ha hx, h, takeWhile_boundary hb hy]
  subst hab
  exact ⟨rfl, List.append_cancel_left h⟩

variable {A : List Str} {m path : Str}

/-- components are a first part of others exactly if the text is, up to a boundary -/
theorem prefix_joined {B : List Str} (hA : ∀ seg ∈ A, Kept seg) (hB : ∀ seg ∈ B, Kept seg) {rest : Str}
    (hr : AtBoundary rest) : joined B = joined A ++ rest ↔ ∃ C, B = A ++ C ∧ rest = joined C := by
  induction A generalizing B with
  | nil =>
    constructor
    · intro h
      exact ⟨B, rfl, h.symm⟩
    · rintro ⟨C, rfl, rfl⟩
      rfl
  | cons a A ih =>
    constructor
    · intro h
      cases B with
      | nil => cases h
      | cons b B =>
        have htext : b ++ joined B = a ++ (joined A ++ rest) := by simpa [joined] using h
        have hbd : AtBoundary (joined A ++ rest) := by
          cases A with
          | nil => exact hr
          | cons c A => exact .inr rfl
        obtain ⟨rfl, htail⟩ := boundary_inj (hB b List.mem_cons_self).slash (hA a List.mem_cons_self).slash
          (joined_boundary B) hbd htext
        obtain ⟨C, rfl, rfl⟩ := (ih (fun s hs => hA s (List.mem_cons_of_mem _ hs))
          fun s hs => hB s (List.mem_cons_of_mem _ hs)).1 htail
        exact ⟨C, rfl, rfl⟩
    · rintro ⟨C, rfl, rfl⟩
      simp [joined]

theorem form_append {C : List Str} (hA : A ≠ []) : form (A ++ C) = form A ++ joined C := by
  obtain ⟨a, A, rfl⟩ := List.exists_cons_of_ne_nil hA
  rw [List.cons_append, form_cons, form_cons]
  simp [joined]

theorem two_le_form {seg : Str} (h : Kept seg) (segs : List Str) : 2 ≤ (form (seg :: segs)).length := by
  have hpos := List.length_pos_iff.2 h.ne
  rw [form_cons]
  simp only [joined, List.flatMap_cons, List.length_append, List.length_cons]
  omega

theorem form_ne_root {seg : Str} (h : Kept seg) (segs : List Str) : form (seg :: segs) ≠ ['/'] :=
  fun he => absurd (he ▸ two_le_form h segs) (by decide)

/-! ## One slot -/

theorem mountMatches_iff_boundary (hm : m ≠ ['/']) :
    mountMatches m path = true ↔ ∃ rest, path = m ++ rest ∧ AtBoundary rest := by
  rw [mountMatches, if_neg hm, Bool.and_eq_true, List.isPrefixOf_iff_prefix]
  constructor
  · rintro ⟨⟨rest, rfl⟩, h⟩
    refine ⟨rest, rfl, ?_⟩
    cases rest with
    | nil => exact .inl rfl
    | cons c rest => exact .inr (congrArg some (by simpa using h))
  rintro ⟨rest, rfl, h⟩
  rw [List.drop_left]
  refine ⟨⟨rest, rfl⟩, ?_⟩
  rcases h with rfl | h
  · rfl
  · rw [h]
    rfl

/-- **The test of a slot** on canonical texts compares components. -/
theorem mountMatches_form {B : List Str} (hA : ∀ seg ∈ A, Kept seg) (hB : ∀ seg ∈ B, Kept seg) :
    mountMatches (form A) (form B) = true ↔ A <+: B := by
  cases A with
  | nil => exact ⟨fun _ => List.nil_prefix, fun _ => rfl⟩
  | cons a A =>
    have ha := hA a List.mem_cons_self
    rw [mountMatches_iff_boundary (form_ne_root ha A)]
    cases B with
    | nil =>
      constructor
      · rintro ⟨rest, he, -⟩
        have htwo := two_le_form ha A
        have hlen := congrArg List.length he
        have hone : (form ([] : List Str)).length = 1 := rfl
        rw [hone, List.length_append] at hlen
        omega
      · intro h
        cases List.prefix_nil.1 h
    | cons b B =>
      rw [form_cons, form_cons]
      constructor
      · rintro ⟨rest, he, hr⟩
        obtain ⟨C, hC, -⟩ := (prefix_joined hA hB hr).1 he
        exact ⟨C, hC.symm⟩
      · rintro ⟨C, hC⟩
        exact ⟨joined C, (prefix_joined hA hB (joined_boundary C)).2 ⟨C, hC.symm, rfl⟩, joined_boundary C⟩

/-- the relative path is the text of the components that are left -/
theorem relPath_form {C : List Str} (hA : ∀ seg ∈ A, Kept seg) : relPath (form A) (form (A ++ C)) = form C := by
  cases A with
  | nil => rfl
  | cons a A =>
    rw [relPath, if_neg (form_ne_root (hA a List.mem_cons_self) A), form_append (List.cons_ne_nil a A), List.drop_left]
    cases C with
    | nil => rfl
    | cons c C =>
      rw [form_cons]
      rfl

/-! ## The loop -/

/-- the loop has seen these slots: no one matches, or the best one is the first of the longest that do -/
def BestOf (path : Str) (seen : List (Backend ω)) (best : Option (Backend ω) × ℕ) : Prop :=
  match best.1 with
  | none => best.2 = 0 ∧ ∀ be ∈ seen, mountMatches be.mountPt path = false
  | some be => best.2 = be.mountPt.length ∧ be ∈ seen ∧ mountMatches be.mountPt path = true ∧
      ∀ be' ∈ seen, mountMatches be'.mountPt path = true → be'.mountPt.length ≤ be.mountPt.length

/-- free slots are passed over -/
theorem foldl_mounted (path : Str) (table : List (Backend ω)) (best : Option (Backend ω) × ℕ) :
    table.foldl (findStep path) best = (mounted table).foldl (findStep path) best := by
  rw [mounted, List.foldl_filter]
  congr 1
  funext best be
  by_cases hid : be.id = 0
  · simp [findStep, hid]
  · simp [hid]

variable {seen : List (Backend ω)} {be : Backend ω} {best : Option (Backend ω) × ℕ}

theorem forall_snoc {P : Backend ω → Prop} (h : ∀ b ∈ seen, P b) (hb : P be) : ∀ b ∈ seen ++ [be], P b := by
  simpa [or_imp, forall_and] using And.intro h hb

theorem findStep_best (hid : be.id ≠ 0) (hpos : 0 < be.mountPt.length) (h : BestOf path seen best) :
    BestOf path (seen ++ [be]) (findStep path best be) := by
  obtain ⟨cur, len⟩ := best
  rw [findStep, if_neg hid]
  by_cases hm : mountMatches be.mountPt path = true
  · by_cases hlt : len < be.mountPt.length
    · -- the slot becomes the best one
      simp only [hm, hlt, decide_true, Bool.and_self, if_true]
      refine ⟨rfl, List.mem_append_right _ List.mem_cons_self, hm, forall_snoc (fun be' hold hm' => ?_) fun _ => Nat.le_refl _⟩
      cases cur with
      | none => exact absurd hm' (by simp [h.2 be' hold])
      | some c =>
        obtain ⟨rfl, -, -, hmax⟩ := h
        exact Nat.le_trans (hmax be' hold hm') (Nat.le_of_lt hlt)
    simp only [hm, hlt, decide_false, Bool.and_false, Bool.false_eq_true, if_false]
    cases cur with
    | none =>
      obtain ⟨rfl, -⟩ := h
      exact absurd hpos hlt
    | some c =>
      obtain ⟨rfl, hmem, hmc, hmax⟩ := h
      exact ⟨rfl, List.mem_append_left _ hmem, hmc, forall_snoc hmax fun _ => Nat.le_of_not_lt hlt⟩
  · have hfalse : mountMatches be.mountPt path = false := by simpa using hm
    simp only [hfalse, Bool.false_and, Bool.false_eq_true, if_false]
    cases cur with
    | none =>
      exact ⟨h.1, forall_snoc h.2 hfalse⟩
    | some c =>
      obtain ⟨hlen, hmem, hmc, hmax⟩ := h
      exact ⟨hlen, List.mem_append_left _ hmem, hmc, forall_snoc hmax fun hm' => absurd hm' hm⟩

theorem foldl_best {rest : List (Backend ω)}
    (hrest : ∀ be ∈ rest, be.id ≠ 0 ∧ 0 < be.mountPt.length) (h : BestOf path seen best) :
    BestOf path (seen ++ rest) (rest.foldl (findStep path) best) := by
  induction rest generalizing seen best with
  | nil => simpa using h
  | cons be rest ih =>
    obtain ⟨hid, hpos⟩ := hrest be List.mem_cons_self
    have hstep := ih (fun b hb => hrest b (List.mem_cons_of_mem _ hb)) (findStep_best hid hpos h)
    simpa using hstep

/-! ## Tables of canonical mount points -/

/-- the mount points in use are canonical and distinct -/
structure Distinct (table : List (Backend ω)) : Prop where
  canonical : ∀ be ∈ mounted table, Vfs.canonical be.mountPt = be.mountPt
  nodup : ((mounted table).map Backend.mountPt).Nodup

theorem covers_iff (hm : canonical m = m) (hp : canonical path = path) : mountMatches m path = true ↔ Covers m path := by
  have h := mountMatches_form (resolve_kept m) (resolve_kept path)
  have hm' : form (resolve m) = m := hm
  have hp' : form (resolve path) = path := hp
  rwa [hm', hp'] at h

/-- what the backend of a mount gets for a path -/
structure Relative (m path rel : Str) : Prop where
  slash : rel.head? = some '/'
  root : m = ['/'] → rel = path
  itself : m ≠ ['/'] → m = path → rel = ['/']
  below : m ≠ ['/'] → m ≠ path → m ++ rel = path

theorem Relative.unique {rel rel' : Str} (h : Relative m path rel) (h' : Relative m path rel') : rel = rel' := by
  by_cases hroot : m = ['/']
  · rw [h.root hroot, h'.root hroot]
  · by_cases he : m = path
    · rw [h.itself hroot he, h'.itself hroot he]
    · exact List.append_cancel_left ((h.below hroot he).trans (h'.below hroot he).symm)

section

variable (h : Covers m path) (hm : canonical m = m) (hp : canonical path = path)
include h hm hp

/-- a mount point that covers a path is the start of its text -/
theorem Covers.text : m <+: path := by
  obtain ⟨C, hC⟩ := h
  have hm' : form (resolve m) = m := hm
  have hp' : form (resolve path) = path := hp
  rw [← hm', ← hp', ← hC]
  by_cases hA : resolve m = []
  · rw [hA]
    exact ⟨List.intercalate ['/'] C, rfl⟩
  · exact ⟨joined C, (form_append hA).symm⟩

theorem Covers.relative : Relative m path (relPath m path) := by
  obtain ⟨C, hC⟩ := h
  have hm' : form (resolve m) = m := hm
  have hp' : form (resolve path) = path := hp
  have hrel : relPath m path = form C := by
    have hform := relPath_form (C := C) (resolve_kept m)
    rwa [hC, hm', hp'] at hform
  have hroot : resolve m = [] → m = ['/'] := by
    intro h0
    rw [← hm', h0]
    rfl
  refine ⟨?_, fun he => if_pos he, fun _ he => ?_, fun hne he => ?_⟩
  · rw [hrel]
    rfl
  · subst he
    obtain rfl : C = [] := List.self_eq_append_right.1 hC.symm
    exact hrel
  cases C with
  | nil =>
    rw [List.append_nil] at hC
    exact absurd (by rw [← hm', hC, hp']) he
  | cons c C => rw [hrel, ← hp', ← hC, form_append fun h0 => hne (hroot h0), hm', form_cons]

end

variable {table : List (Backend ω)}

section

variable (h : Distinct table)
include h

/-- of two mounts that cover a path with mount points of one length, both are the same -/
theorem Distinct.unique (hp : Vfs.canonical path = path)
    {be' : Backend ω} (hbe : be ∈ mounted table) (hbe' : be' ∈ mounted table) (hc : Covers be.mountPt path)
    (hc' : Covers be'.mountPt path) (hlen : be.mountPt.length = be'.mountPt.length) : be = be' := by
  have ht := hc.text (h.canonical be hbe) hp
  have ht' := hc'.text (h.canonical be' hbe') hp
  have heq : be.mountPt = be'.mountPt := (List.prefix_of_prefix_length_le ht ht' (Nat.le_of_eq hlen)).eq_of_length hlen
  exact List.inj_on_of_nodup_map h.nodup hbe hbe' heq

omit h in
theorem canonical_pos (h : canonical m = m) : 0 < m.length := by
  rw [← h]
  exact Nat.succ_pos _

theorem findBackend_best (path : Str) :
    BestOf path (mounted table) (table.foldl (findStep path) (none, 0)) := by
  have hused : ∀ be ∈ mounted table, be.id ≠ 0 ∧ 0 < be.mountPt.length :=
    fun be hbe => ⟨of_decide_eq_true (List.mem_filter.1 hbe).2, canonical_pos (h.canonical be hbe)⟩
  have hstart : BestOf path ([] : List (Backend ω)) (none, 0) := ⟨rfl, fun _ hm => by cases hm⟩
  rw [foldl_mounted]
  exact foldl_best hused hstart

/-- the longest mount point that covers the path -/
structure Longest (table : List (Backend ω)) (path : Str) (be : Backend ω) : Prop where
  mem : be ∈ mounted table
  covers : Covers be.mountPt path
  max : ∀ be' ∈ mounted table, Covers be'.mountPt path → be'.mountPt.length ≤ be.mountPt.length

/-- the search ends without a mount that covers the path, or with the longest -/
theorem findBackend_cases (hp : canonical path = path) :
    (findBackend table path = none ∧ ∀ be ∈ mounted table, ¬ Covers be.mountPt path) ∨
      ∃ c, findBackend table path = some (c, relPath c.mountPt path) ∧ Longest table path c := by
  have hbest := findBackend_best h path
  have hiff : ∀ b ∈ mounted table, mountMatches b.mountPt path = true ↔ Covers b.mountPt path :=
    fun b hb => covers_iff (h.canonical b hb) hp
  rw [findBackend]
  generalize table.foldl (findStep path) (none, 0) = r at hbest ⊢
  obtain ⟨cur, len⟩ := r
  cases cur with
  | none =>
    refine .inl ⟨rfl, fun be hbe hc => ?_⟩
    have hno := hbest.2 be hbe
    rw [(hiff be hbe).2 hc] at hno
    cases hno
  | some c =>
    obtain ⟨-, hmem, hmatch, hmax⟩ := hbest
    exact .inr ⟨c, rfl, hmem, (hiff c hmem).1 hmatch, fun b hb hcb => hmax b hb ((hiff b hb).2 hcb)⟩

theorem findBackend_eq_some (hp : canonical path = path) (be : Backend ω) (rel : Str) :
    findBackend table path = some (be, rel) ↔ Longest table path be ∧ Relative be.mountPt path rel := by
  obtain ⟨he, hno⟩ | ⟨c, he, hlong⟩ := findBackend_cases h hp
  · rw [he]
    exact ⟨fun he => (by cases he), fun ⟨hl, _⟩ => absurd hl.covers (hno be hl.mem)⟩
  have hrel := hlong.covers.relative (h.canonical c hlong.mem) hp
  rw [he]
  constructor
  · intro he
    obtain ⟨rfl, rfl⟩ := Prod.mk.inj (Option.some.inj he)
    exact ⟨hlong, hrel⟩
  rintro ⟨hl, hr⟩
  have hlen := Nat.le_antisymm (hlong.max be hl.mem hl.covers) (hl.max c hlong.mem hlong.covers)
  obtain rfl := h.unique hp hl.mem hlong.mem hl.covers hlong.covers hlen
  exact congrArg (fun x => some (be, x)) (hrel.unique hr)

theorem findBackend_eq_none (hp : canonical path = path) :
    findBackend table path = none ↔ ∀ be ∈ mounted table, ¬ Covers be.mountPt path := by
  obtain ⟨he, hno⟩ | ⟨c, he, hlong⟩ := findBackend_cases h hp
  · exact iff_of_true he hno
  · rw [he]
    exact ⟨fun he => (by cases he), fun hno => absurd hlong.covers (hno c hlong.mem)⟩

theorem Distinct.perm {table' : List (Backend ω)} (hp : table'.Perm table) : Distinct table' := by
  have hm : (mounted table').Perm (mounted table) := hp.filter _
  exact ⟨fun be hbe => h.canonical be (hm.mem_iff.1 hbe), (hm.map _).nodup_iff.2 h.nodup⟩

end

theorem Longest.perm {table' : List (Backend ω)} (h : Longest table path be)
    (hp : table'.Perm table) : Longest table' path be := by
  have hm : (mounted table').Perm (mounted table) := hp.filter _
  exact ⟨hm.mem_iff.2 h.mem, h.covers, fun b hb => h.max b (hm.mem_iff.1 hb)⟩

/-- **The longest mount.** With distinct canonical mount points a canonical path goes to the mount with the longest mount
point that covers it, to none exactly if no mount covers it, and where in the table the mounts stand does not matter. -/
theorem findBackend_longest (table : List (Backend ω)) (h : Distinct table) (path : Str) (hp : canonical path = path) :
    (∀ be rel, findBackend table path = some (be, rel) ↔ Longest table path be ∧ Relative be.mountPt path rel) ∧
      (findBackend table path = none ↔ ∀ be ∈ mounted table, ¬ Covers be.mountPt path) ∧
      ∀ table' : List (Backend ω), table'.Perm table → findBackend table' path = findBackend table path := by
  refine ⟨findBackend_eq_some h hp, findBackend_eq_none h hp, fun table' hperm => ?_⟩
  apply Option.ext
  rintro ⟨be, rel⟩
  rw [findBackend_eq_some (h.perm hperm) hp, findBackend_eq_some h hp]
  exact and_congr_left fun _ => ⟨fun hl => hl.perm hperm.symm, fun hl => hl.perm hperm⟩

/-- a root mount behind a free slot, and a mount below it -/
def twoMounts : List (Backend Unit) := [⟨2, ['/', 'b'], ()⟩, ⟨0, [], ()⟩, ⟨1, ['/'], ()⟩]

theorem twoMounts_distinct : Distinct twoMounts :=
  ⟨by decide, by decide⟩

theorem findBackend_longest_below : (∀ be rel, findBackend twoMounts ['/', 'b', '/', 'c'] = some (be, rel) ↔
        Longest twoMounts ['/', 'b', '/', 'c'] be ∧ Relative be.mountPt ['/', 'b', '/', 'c'] rel) ∧
      (findBackend twoMounts ['/', 'b', '/', 'c'] = none ↔
        ∀ be ∈ mounted twoMounts, ¬ Covers be.mountPt ['/', 'b', '/', 'c']) ∧
      ∀ table' : List (Backend Unit), table'.Perm twoMounts →
        findBackend table' ['/', 'b', '/', 'c'] = findBackend twoMounts ['/', 'b', '/', 'c'] :=
  findBackend_longest twoMounts twoMounts_distinct ['/', 'b', '/', 'c'] (by decide)

/-- the mount point `/b` as a path: the relative path is `/`, and `/b` followed by it is another text -/
theorem mount_point_itself : Distinct twoMounts ∧ canonical ['/', 'b'] = ['/', 'b'] ∧
      findBackend twoMounts ['/', 'b'] = some (⟨2, ['/', 'b'], ()⟩, ['/']) ∧ ['/', 'b'] ++ ['/'] ≠ ['/', 'b'] :=
  ⟨twoMounts_distinct, by decide, rfl, by decide⟩

end OpenASD.Vfs
