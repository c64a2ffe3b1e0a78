/-
What the VFS can rely on in a backend. A `View` shows the files in a backend's memory and its open contexts.

Results:
- `ramfs_sound`: the functions of the RAM file system touch no other context than the one they are called with, and no
  other file than the one it is open on; only a write, or an open that truncates, changes contents.
-/
import OpenASD.Vfs.Ramfs

namespace OpenASD.Vfs

variable {σ φ κ γ : Type}

/-! ## Views -/

structure View (σ φ κ γ : Type) where
  /-- none if there is no such file -/
  content : σ → φ → Option κ
  ctx : σ → ℕ → γ
  /-- the file that a context is open on -/
  target : σ → ℕ → Option φ

namespace View

/-- all files are as they were; there may be new ones -/
def Keeps (V : View σ φ κ γ) (w w' : σ) : Prop := ∀ x c, V.content w x = some c → V.content w' x = some c

/-- only this context is touched, and its file -/
def Local (V : View σ φ κ γ) (h : ℕ) (w w' : σ) : Prop :=
  (∀ h', h' ≠ h → V.ctx w' h' = V.ctx w h') ∧ ∀ x, V.target w h ≠ some x → V.content w' x = V.content w x

/-- no file and no context is touched -/
def Same (V : View σ φ κ γ) (w w' : σ) : Prop := V.ctx w' = V.ctx w ∧ V.content w' = V.content w

variable {V : View σ φ κ γ} {w w1 w2 : σ} {h : ℕ}

theorem Same.refl (V : View σ φ κ γ) (w : σ) : V.Same w w := ⟨rfl, rfl⟩

theorem Same.trans (h1 : V.Same w w1) (h2 : V.Same w1 w2) : V.Same w w2 := ⟨h2.1.trans h1.1, h2.2.trans h1.2⟩

theorem Same.keeps (hs : V.Same w w1) : V.Keeps w w1 := fun x _ hc => (congrFun hs.2 x).trans hc

theorem Keeps.refl (V : View σ φ κ γ) (w : σ) : V.Keeps w w := fun _ _ hc => hc

theorem Keeps.trans (h1 : V.Keeps w w1) (h2 : V.Keeps w1 w2) : V.Keeps w w2 := fun x c hc => h2 x c (h1 x c hc)

theorem Local.refl (V : View σ φ κ γ) (h : ℕ) (w : σ) : V.Local h w w := ⟨fun _ _ => rfl, fun _ _ => rfl⟩

end View

/-- the backend says that there is something in the file -/
def stored (ops : Ops σ) (w : σ) (path : Str) : Bool :=
  match ops.opStat with
  | none => true
  | some f => match f w path with
    | .ok info => decide (0 < info.size)
    | .error _ => false

/-- a backend that the VFS can rely on -/
structure Sound (V : View σ φ κ γ) (ops : Ops σ) : Prop where
  opened : ∀ f, ops.opOpen = some f → ∀ w path flags, (oTrunc flags = true → stored ops w path = false) →
    V.Keeps w (f w path flags).2
  closed : ∀ f, ops.opClose = some f → ∀ w h, V.Keeps w (f w h) ∧ V.Local h w (f w h)
  read : ∀ f, ops.opRead = some f → ∀ w h n, V.Keeps w (f w h n).2 ∧ V.Local h w (f w h n).2
  sought : ∀ f, ops.opSeek = some f → ∀ w h off whence, V.Keeps w (f w h off whence).2 ∧ V.Local h w (f w h off whence).2
  wrote : ∀ f, ops.opWrite = some f → ∀ w h b, V.Local h w (f w h b).2

/-- a backend that changes no file, as FAT32 and FFS -/
structure ReadOnly (V : View σ φ κ γ) (ops : Ops σ) : Prop where
  opened : ∀ f, ops.opOpen = some f → ∀ w path flags, V.Keeps w (f w path flags).2
  wrote : ∀ f, ops.opWrite = some f → ∀ w h b, V.Keeps w (f w h b).2

/-! ## The RAM file system -/

/-- the entry of a handle, if it is one of a table -/
def Handle.key (f : Handle) : Option (ℕ × ℕ) :=
  match f.entry with
  | .slot i => some (f.fs, i)
  | .root => none

/-- bytes and size -/
def Entry.content (e : Entry) : Option (Bytes × ℕ) := if e.valid then some ((e.data.getD []).take e.size, e.size) else none

/-- files are the entries in use, by instance and index -/
def ramView : View Ram (ℕ × ℕ) (Bytes × ℕ) (Option Handle) where
  content w x := (w.entry x.1 x.2).content
  ctx w := w.handle
  target w h := (w.handle h).bind Handle.key

section

variable {w : Ram} {fs h : ℕ} {flags : ℕ}

/-- a call that changes nothing but one handle -/
theorem setHandle_local (w : Ram) (h : ℕ) (f : Option Handle) :
    ramView.Keeps w (w.setHandle h f) ∧ ramView.Local h w (w.setHandle h f) :=
  ⟨fun _ _ hc => hc, fun _ hne => Function.update_of_ne hne _ _, fun _ _ => rfl⟩

theorem unchanged (w : Ram) (h : ℕ) : ramView.Keeps w w ∧ ramView.Local h w w :=
  ⟨View.Keeps.refl _ w, View.Local.refl _ h w⟩

/-- another entry is set -/
theorem set_content (w : Ram) {f : Handle} (e : Entry) {x : ℕ × ℕ} (hx : f.key ≠ some x) :
    ramView.content (w.set f.fs f.entry e) x = ramView.content w x := by
  cases hr : f.entry with
  | root => rfl
  | slot i =>
    have hne : ¬ (x.1 = f.fs ∧ x.2 = i) := by
      rintro ⟨h1, h2⟩
      apply hx
      rw [Handle.key, hr, ← h1, ← h2]
    show ((w.set f.fs (.slot i) e).entry x.1 x.2).content = _
    rw [set_slot_entry, if_neg hne]
    rfl

theorem ramfsRead_local (w : Ram) (h n : ℕ) :
    ramView.Keeps w (ramfsRead w h n).2 ∧ ramView.Local h w (ramfsRead w h n).2 := by
  unfold ramfsRead
  cases w.handle h with
  | none => exact unchanged w h
  | some f =>
    dsimp only
    split_ifs
    · exact unchanged w h
    · exact setHandle_local w h _

theorem ramfsSeek_local (w : Ram) (h : ℕ) (off whence : ℤ) :
    ramView.Keeps w (ramfsSeek w h off whence).2 ∧ ramView.Local h w (ramfsSeek w h off whence).2 := by
  unfold ramfsSeek
  cases w.handle h with
  | none => exact unchanged w h
  | some f =>
    dsimp only
    cases seekTo f.offset (w.get f.fs f.entry).size off whence with
    | error e => exact unchanged w h
    | ok n => exact setHandle_local w h _

/-- the room for a write is made in its own entry -/
theorem makeRoom_content {f : Handle} {n : ℕ} {w' : Ram} (hr : makeRoom w f.fs f.entry n = some w') :
    w'.handle = w.handle ∧ ∀ x, f.key ≠ some x → ramView.content w' x = ramView.content w x := by
  unfold makeRoom Ram.kmalloc at hr
  split_ifs at hr with hgrow
  · cases hj : w.alloc w.allocs with
    | none => simp [hj] at hr
    | some junk =>
      simp only [hj] at hr
      cases hr
      refine ⟨?_, fun x hx => set_content _ _ hx⟩
      cases f.entry <;> rfl
  · cases hr
    exact ⟨rfl, fun _ _ => rfl⟩

theorem set_handle (w : Ram) (fs : ℕ) (r : EntryRef) (e : Entry) : (w.set fs r e).handle = w.handle := by
  cases r <;> rfl

theorem ramfsWrite_local (w : Ram) (h : ℕ) (buf : Bytes) : ramView.Local h w (ramfsWrite w h buf).2 := by
  unfold ramfsWrite
  cases hf : w.handle h with
  | none => exact View.Local.refl _ h w
  | some f =>
    have htarget : ramView.target w h = f.key := by
      show (w.handle h).bind Handle.key = f.key
      rw [hf]
      rfl
    dsimp only
    split_ifs with hwrap
    · exact View.Local.refl _ h w
    cases hr : makeRoom w f.fs f.entry (writeEnd f.offset buf.length) with
    | none => exact ⟨fun _ _ => rfl, fun _ _ => rfl⟩
    | some w' =>
      obtain ⟨hh, hc⟩ := makeRoom_content hr
      refine ⟨fun h' hne => ?_, fun x hx => ?_⟩
      · show Function.update (w'.set _ _ _).handle h _ h' = w.handle h'
        rw [Function.update_of_ne hne, set_handle, hh]
      · rw [htarget] at hx
        exact (set_content w' _ hx).trans (hc x hx)

/-- a free entry is no file yet -/
theorem openEntry_keeps (w : Ram) (fs : ℕ) (path : Str) (flags : ℕ) : ramView.Keeps w (openEntry w fs path flags).2 := by
  unfold openEntry
  cases ramfsFind w fs path with
  | some i => exact View.Keeps.refl _ w
  | none =>
    split_ifs
    · exact View.Keeps.refl _ w
    · cases hfree : ramfsFree w fs with
      | none => exact View.Keeps.refl _ w
      | some i =>
        obtain ⟨-, hv⟩ := ramfsFree_some hfree
        intro x c hc
        show ((w.set fs (.slot i) (newFile path)).entry x.1 x.2).content = some c
        have hc' : (w.entry x.1 x.2).content = some c := hc
        rw [set_slot_entry, if_neg]
        · exact hc'
        · rintro ⟨h1, h2⟩
          rw [h1, h2, Entry.content, hv] at hc'
          cases hc'
    · exact View.Keeps.refl _ w

/-- the entry that is opened is the one that stat finds, or has nothing in it -/
theorem openEntry_size {path : Str} {i : ℕ} (h : (openEntry w fs path flags).1 = some (.slot i))
    (hs : stored (ramfsOps fs) w path = false) : ((openEntry w fs path flags).2.entry fs i).size = 0 := by
  have hstat : stored (ramfsOps fs) w path = match ramfsStat fs w path with
      | .ok info => decide (0 < info.size)
      | .error _ => false := rfl
  rw [hstat, ramfsStat] at hs
  unfold openEntry at h ⊢
  cases hfind : ramfsFind w fs path with
  | some j =>
    simp only [hfind, Option.some.injEq, EntryRef.slot.injEq] at h hs
    subst h
    have hnot := of_decide_eq_false hs
    show (w.entry fs j).size = 0
    omega
  | none =>
    simp only [hfind] at h
    split_ifs at h ⊢ with hroot hcreat
    · cases h
    cases hfree : ramfsFree w fs with
    | none => simp [hfree] at h
    | some j =>
      simp only [hfree, Option.some.injEq, EntryRef.slot.injEq] at h
      subst h
      rw [set_slot_self]
      rfl

theorem truncate_keeps (w : Ram) {r : EntryRef}
    (h : ∀ i, r = .slot i → oTrunc flags = true → (w.entry fs i).size = 0) : ramView.Keeps w (truncate w fs r flags) := by
  unfold truncate
  split_ifs with ht
  · cases r with
    | root => exact View.Keeps.refl _ w
    | slot i =>
      have hsize := h i rfl ht.1
      intro x c hc
      have hc' : (w.entry x.1 x.2).content = some c := hc
      show ((w.set fs (.slot i) _).entry x.1 x.2).content = some c
      rw [set_slot_entry]
      split_ifs with hx
      · rw [hx.1, hx.2] at hc'
        rw [← hc']
        unfold Entry.content
        simp [Ram.get, hsize]
      · exact hc'
  · exact View.Keeps.refl _ w

theorem newHandle_keeps (w : Ram) (f : Handle) : ramView.Keeps w (newHandle w f).2 := by
  unfold newHandle Ram.kmalloc
  cases w.alloc w.allocs <;> exact fun _ _ hc => hc

theorem ramfsOpen_keeps (w : Ram) {path : Str}
    (h : oTrunc flags = true → stored (ramfsOps fs) w path = false) : ramView.Keeps w (ramfsOpen fs w path flags).2 := by
  have hkeeps := openEntry_keeps w fs path flags
  have hsize : ∀ i, (openEntry w fs path flags).1 = some (.slot i) → oTrunc flags = true →
      ((openEntry w fs path flags).2.entry fs i).size = 0 := fun i hi ht => openEntry_size hi (h ht)
  unfold ramfsOpen
  generalize openEntry w fs path flags = r at *
  obtain ⟨ro, w'⟩ := r
  cases ro with
  | none => exact hkeeps
  | some r =>
    dsimp only
    split_ifs
    · exact hkeeps
    · refine (hkeeps.trans (truncate_keeps w' fun i hi ht => ?_)).trans (newHandle_keeps _ _)
      exact hsize i (congrArg some hi) ht

/-- **The RAM file system as a backend.** -/
theorem ramfs_sound (fs : ℕ) : Sound ramView (ramfsOps fs) where
  opened := by
    rintro f hf w path flags h
    cases hf
    exact ramfsOpen_keeps w h
  closed := by
    rintro f hf w h
    cases hf
    exact setHandle_local w h none
  read := by
    rintro f hf w h n
    cases hf
    exact ramfsRead_local w h n
  sought := by
    rintro f hf w h off whence
    cases hf
    exact ramfsSeek_local w h off whence
  wrote := by
    rintro f hf w h b
    cases hf
    exact ramfsWrite_local w h b

end

end OpenASD.Vfs
