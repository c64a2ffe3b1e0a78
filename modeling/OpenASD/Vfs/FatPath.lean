/-
Paths on a FAT volume (kernel/vfs/fat32.c: resolve_path). A component is copied to a buffer of 64 bytes. When the buffer is
full the loop ends as it does at a `/`, and the rest of the component is looked up next, in the entry found for its front.

- `resolve_path_walks`: a path that comes to no component of more than 63 characters is resolved component by component;
- `component_cut`: a component of 64 characters is resolved as a directory and a file in it.
-/
import OpenASD.Vfs.FatBounds

namespace OpenASD.Vfs.Fat

open ByteMem

/-- what stands between the slashes -/
def components (path : Str) : List Str := (path.splitOn '/').filter (· ≠ [])

/-- each component names an entry of the directory reached so far; the last of these entries, or none -/
def walk (im : Image) (fs : Fs) (rounds : ℕ) : FatNode → List Str → Except Stop (Option FatNode)
  | cur, [] => .ok (some cur)
  | cur, c :: cs =>
    if cur.isDir = false then .ok none
    else do
      match ← iterDirFind im fs rounds cur.startCluster (some c) with
      | none => .ok none
      | some next => walk im fs rounds next cs

/-- no component that is looked up in a directory has more than 63 characters -/
def fits (im : Image) (fs : Fs) (rounds : ℕ) : FatNode → List Str → Bool
  | _, [] => true
  | cur, c :: cs => !cur.isDir || decide (c.length ≤ 63) &&
    match iterDirFind im fs rounds cur.startCluster (some c) with
    | .ok (some next) => fits im fs rounds next cs
    | _ => true

/-- the first component, and those behind it -/
theorem splitOn_first (p : Str) : ∃ rest, p.splitOn '/' = p.takeWhile (· ≠ '/') :: rest ∧
    components (p.dropWhile (· ≠ '/')) = rest.filter (· ≠ []) := by
  induction p with
  | nil => exact ⟨[], rfl, rfl⟩
  | cons c p ih =>
    by_cases hc : c = '/'
    · subst hc
      exact ⟨p.splitOn '/', by rw [splitOn_cons_slash]; simp, by simp [components, splitOn_cons_slash]⟩
    · obtain ⟨rest, h1, h2⟩ := ih
      exact ⟨rest, by rw [splitOn_cons_ne hc, h1]; simp [hc], by simpa [hc] using h2⟩

/-- slashes at the front do not matter -/
theorem components_dropWhile (p : Str) : components (p.dropWhile (· = '/')) = components p := by
  induction p with
  | nil => rfl
  | cons c p ih =>
    by_cases hc : c = '/'
    · subst hc
      rw [List.dropWhile_cons_of_pos (by simp), ih]
      simp [components, splitOn_cons_slash]
    · simp [hc]

/-- a directory entry with one fill byte -/
def slot (first attr cluster fill : UInt8) (filled : List ℕ) : Bytes :=
  (List.range 32).map fun i =>
    if i = 0 then first else if i = 11 then attr else if i = 26 then cluster else if i ∈ filled then fill else 0

/-- the root directory has a directory with a name of 63 letters a, which has a file B -/
def cutImage : Image where
  byte a :=
    if a < 1536 then fat32Image.byte a
    else if a < 2048 then
      (slot 0x45 0x0F 0 97 (lfnOffsets.take 11) ++ [4, 3, 2, 1].flatMap (slot · 0x0F 0 97 lfnOffsets) ++
        slot 65 0x10 3 0x20 (List.range 11)).getD (a - 1536) 0
    else (slot 66 0 0 0x20 (List.range 11)).getD (a - 2048) 0
  size := 32768

def cutPath : Str := List.replicate 63 'a' ++ ['b']

variable {im : Image} {fs : Fs} {rounds : ℕ} {path : Str}

theorem resolveLoop_walk {n : ℕ} (hn : (path.dropWhile (· = '/')).length ≤ n) {cur : FatNode}
    (hfits : fits im fs rounds cur (components path) = true) :
    resolveLoop im fs rounds n (path.dropWhile (· = '/')) cur = walk im fs rounds cur (components path) := by
  induction n generalizing path cur with
  | zero =>
    rw [← components_dropWhile, List.eq_nil_of_length_eq_zero (Nat.le_zero.1 hn)]
    rfl
  | succ n ih =>
    have hc := List.head?_dropWhile_not (fun c => decide (c = '/')) path
    rw [← components_dropWhile] at hfits ⊢
    cases hp : path.dropWhile (· = '/') with
    | nil => rfl
    | cons c p =>
      rw [hp] at hn hfits hc
      replace hc : c ≠ '/' := by simpa using hc
      obtain ⟨rest, hsplit, hrest⟩ := splitOn_first (c :: p)
      have hcomp : components (c :: p) = (c :: p).takeWhile (· ≠ '/') :: components ((c :: p).dropWhile (· ≠ '/')) := by
        rw [hrest, components, hsplit]
        simp [hc]
      rw [hcomp] at hfits ⊢
      rw [resolveLoop, if_neg (List.cons_ne_nil c p), walk]
      split_ifs with hdir
      · rfl
      simp only [fits, hdir, Bool.not_true, Bool.false_or, Bool.and_eq_true, decide_eq_true_eq] at hfits
      have hpart : pathPart (c :: p) = (c :: p).takeWhile (· ≠ '/') := List.take_of_length_le hfits.1
      have hcut := List.takeWhile_append_dropWhile (p := (· ≠ '/')) (l := c :: p)
      have hdrop : (c :: p).drop (pathPart (c :: p)).length = (c :: p).dropWhile (· ≠ '/') := by
        rw [hpart]
        exact (congrArg (List.drop _) hcut.symm).trans List.drop_left
      -- at least one character is gone
      have hshort : ((c :: p).dropWhile (· ≠ '/')).length ≤ n := by
        have hsum := congrArg List.length hcut
        rw [List.length_append, List.takeWhile_cons_of_pos (by simpa using hc)] at hsum
        simp only [List.length_cons] at hsum hn
        omega
      rw [hdrop, hpart]
      rcases hfind : iterDirFind im fs rounds cur.startCluster (some ((c :: p).takeWhile (· ≠ '/'))) with e | _ | next
      · rfl
      · rfl
      · rw [hfind] at hfits
        exact ih ((List.dropWhile_sublist _).length_le.trans hshort) hfits.2

/-- **Component by component.** On every image, a path that comes to no component of more than 63 characters is resolved
exactly as its components name entries one after another. -/
theorem resolve_path_walks (hfits : fits im fs rounds (rootDir fs) (components path) = true) :
    resolvePath im fs rounds path = walk im fs rounds (rootDir fs) (components path) :=
  resolveLoop_walk le_rfl hfits

/-- a name of 63 characters and a file in it are found; behind a name that is not found, a long one does no harm -/
theorem resolve_path_walks_found :
    resolvePath cutImage fat32Fs 1 (List.replicate 63 'a' ++ ['/', '/', 'b']) =
      walk cutImage fat32Fs 1 (rootDir fat32Fs) [List.replicate 63 'a', ['b']] ∧
    walk cutImage fat32Fs 1 (rootDir fat32Fs) [List.replicate 63 'a', ['b']] = .ok (some ⟨['B'], false, 0, 0⟩) ∧
    resolvePath cutImage fat32Fs 1 ('x' :: '/' :: cutPath) = walk cutImage fat32Fs 1 (rootDir fat32Fs) [['x'], cutPath] :=
  ⟨resolve_path_walks (by decide +kernel), by decide +kernel, resolve_path_walks (by decide +kernel)⟩

/-- **A component is cut.** The component is in no directory, but it is resolved: as the directory and the file in it. -/
theorem component_cut : parseHeader cutImage = some fat32Fs ∧ components cutPath = [cutPath] ∧
    resolvePath cutImage fat32Fs 1 cutPath = .ok (some ⟨['B'], false, 0, 0⟩) ∧
    walk cutImage fat32Fs 1 (rootDir fat32Fs) [cutPath] = .ok none := by
  refine ⟨?_, ?_, ?_, ?_⟩ <;> decide +kernel

end OpenASD.Vfs.Fat
