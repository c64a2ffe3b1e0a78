/-
The driver framework (kernel/drv/adf.c: adf_load, adf_unload).

Every loaded module gets a number of its own here, so that callbacks can be told apart when a slot or an id is used again.
A call yields its result and the callbacks it makes, with a mark where a module is given up. Reading and linking the
file is left out: a file either gives a driver, with its answers to probe and attach, or it does not.

`Lifecycle`: the order of callbacks that doc/adf-driver-api.md describes.
- `adf_run_sound`: it is kept in every run in which each driver that is loaded probes and attaches with success (or fails to
  probe and has no detach), module 0 is never unloaded and ids are not used twice;
- `lifecycle_broken`: detach after a failed probe, detach twice after a failed attach, and detach of a module that is long
  gone.
-/
import Mathlib.Algebra.Group.Nat.Defs
import OpenASD.Core.Machine
import Mathlib.Logic.Function.Basic
import Mathlib.Tactic.SplitIfs

namespace OpenASD.Adf

open Machine
open Function (update update_of_ne update_self)

/-! ## Loading and unloading -/

/-- `adf_driver_t`: what its callbacks answer, and whether there is a detach -/
structure Driver where
  probe : ℤ
  attach : ℤ
  detach : Bool
deriving DecidableEq, Repr

/-- `module_t` as far as it is read: the id, and `dev.entry` with the number of its module -/
structure Slot where
  modId : ℕ
  entry : Option (ℕ × Driver)
deriving DecidableEq, Repr

abbrev maxModules : ℕ := 64

structure St where
  /-- `g_modules` -/
  slots : ℕ → Slot
  /-- `g_next_mod_id` -/
  next : ℕ
  /-- modules so far -/
  loads : ℕ

/-- after adf_init -/
def init : St := ⟨fun _ => ⟨0, none⟩, 1, 0⟩

inductive Event where
  | probe (m : ℕ) (found : Bool)
  | attach (m : ℕ)
  | detach (m : ℕ)
  /-- the module is unloaded -/
  | gone (m : ℕ)
deriving DecidableEq, Repr

/-- the first slot with this mod_id; 0 is that of a free one -/
def findSlot (st : St) (id : ℕ) : Option ℕ := (List.range maxModules).find? fun i => decide ((st.slots i).modId = id)

/-- `if (entry && entry->detach) entry->detach(dev)` -/
def leave (m : ℕ) (d : Driver) : List Event := (if d.detach then [.detach m] else []) ++ [.gone m]

/-- the entry of the slot stays behind -/
def adfUnload (st : St) (id : ℕ) : (ℤ × List Event) × St :=
  match findSlot st id with
  | none => ((-1, []), st)
  | some i =>
    let events := match (st.slots i).entry with
      | none => []
      | some (m, d) => leave m d
    ((0, events), { st with slots := update st.slots i { st.slots i with modId := 0 } })

def adfLoad (st : St) (file : Option Driver) : (ℤ × List Event) × St :=
  match file with
  | none => ((0, []), st)
  | some d =>
    match findSlot st 0 with
    | none => ((0, []), st)
    | some i =>
      let id := st.next
      let m := st.loads
      let st := { slots := update st.slots i ⟨id, some (m, d)⟩, next := (st.next + 1) % 2 ^ 32, loads := m + 1 }
      if d.probe ≠ 0 then
        let r := adfUnload st id
        ((0, .probe m false :: r.1.2), r.2)
      else if d.attach ≠ 0 then
        -- here detach is not tested for NULL
        let r := adfUnload st id
        ((0, .probe m true :: .attach m :: .detach m :: r.1.2), r.2)
      else ((id, [.probe m true, .attach m]), st)

inductive Op where
  | load (file : Option Driver)
  | unload (id : ℕ)
deriving DecidableEq, Repr

def step (st : St) : Op → (ℤ × List Event) × St
  | .load file => adfLoad st file
  | .unload id => adfUnload st id

/-- the callbacks of a run -/
def callbacks (st : St) (ops : List Op) : List Event := (trace step st ops).flatMap Prod.snd

/-! ## The lifecycle -/

/-- what may follow these events -/
def Allowed (past : List Event) : Event → Prop
  | .probe m _ => .gone m ∉ past
  | .attach m => .probe m true ∈ past ∧ .gone m ∉ past
  | .detach m => .attach m ∈ past ∧ .detach m ∉ past ∧ .gone m ∉ past
  | .gone _ => True

instance (past : List Event) (e : Event) : Decidable (Allowed past e) := by
  cases e <;> unfold Allowed <;> infer_instance

/-- every event is allowed after those before it -/
def Lifecycle (past : List Event) : List Event → Prop
  | [] => True
  | e :: es => Allowed past e ∧ Lifecycle (past ++ [e]) es

/-- a module with this id is loaded -/
def Loaded (st : St) (id : ℕ) : Prop := id ≠ 0 ∧ ∃ i < maxModules, (st.slots i).modId = id

/-- a step that keeps the lifecycle -/
def Keeps (st : St) : Op → Prop
  | .load none => True
  | .load (some d) => (d.probe = 0 ∧ d.attach = 0 ∨ d.probe ≠ 0 ∧ d.detach = false) ∧ st.next ≠ 0 ∧ ¬ Loaded st st.next
  | .unload id => id ≠ 0

theorem Lifecycle.append {past es fs : List Event} (h : Lifecycle past es) (h' : Lifecycle (past ++ es) fs) :
    Lifecycle past (es ++ fs) := by
  induction es generalizing past with
  | nil => simpa using h'
  | cons e es ih =>
    refine ⟨h.1, ih h.2 ?_⟩
    simpa using h'

theorem findSlot_some {st : St} {id i : ℕ} (h : findSlot st id = some i) : i < maxModules ∧ (st.slots i).modId = id := by
  have hmem := List.mem_of_find?_eq_some h
  have hid := List.find?_some h
  exact ⟨List.mem_range.1 hmem, by simpa using hid⟩

def Event.module : Event → ℕ
  | .probe m _ => m
  | .attach m => m
  | .detach m => m
  | .gone m => m

/-- the module m is attached and loaded -/
structure Alive (past : List Event) (m : ℕ) : Prop where
  attached : .attach m ∈ past
  undetached : .detach m ∉ past
  here : .gone m ∉ past

/-- what holds between the table and the callbacks so far -/
structure Tied (st : St) (past : List Event) : Prop where
  bound : ∀ e ∈ past, e.module < st.loads
  alive : ∀ i < maxModules, (st.slots i).modId ≠ 0 → ∃ m d, (st.slots i).entry = some (m, d) ∧ m < st.loads ∧ Alive past m
  apart : ∀ i < maxModules, ∀ j < maxModules, (st.slots i).modId ≠ 0 → (st.slots j).modId ≠ 0 →
    (st.slots i).entry.map Prod.fst = (st.slots j).entry.map Prod.fst → i = j

theorem Tied.init : Tied init [] :=
  ⟨fun _ he => (List.not_mem_nil he).elim, fun _ _ h => absurd rfl h, fun _ _ _ _ h => absurd rfl h⟩

section

variable {st : St} {past : List Event}

theorem Alive.grow {m : ℕ} (h : Alive past m) {es : List Event} (hes : ∀ e ∈ es, e.module ≠ m) : Alive (past ++ es) m := by
  refine ⟨List.mem_append_left es h.attached, fun hm => ?_, fun hm => ?_⟩
  · exact (List.mem_append.1 hm).elim h.undetached fun he => hes _ he rfl
  · exact (List.mem_append.1 hm).elim h.here fun he => hes _ he rfl

variable {d : Driver}

theorem leave_module {m : ℕ} {e : Event} (h : e ∈ leave m d) : e.module = m := by
  rcases List.mem_append.1 h with he | he
  · split_ifs at he
    · rw [List.mem_singleton.1 he]
      rfl
    · cases he
  · rw [List.mem_singleton.1 he]
    rfl

section

variable (h : Tied st past)
include h

/-- the module m makes these callbacks, and its slot changes; no other loaded module is m -/
theorem Tied.change {i m n l : ℕ} {s : Slot} {es : List Event} (hes : ∀ e ∈ es, e.module = m) (hm : m < l) (hl : st.loads ≤ l)
    (hother : ∀ j < maxModules, j ≠ i → (st.slots j).modId ≠ 0 → (st.slots j).entry.map Prod.fst ≠ some m)
    (hs : s.modId ≠ 0 → (∃ d, s.entry = some (m, d)) ∧ Alive (past ++ es) m) :
    Tied ⟨update st.slots i s, n, l⟩ (past ++ es) := by
  have hcase : ∀ j, update st.slots i s j = if j = i then s else st.slots j := fun j => Function.update_apply ..
  refine ⟨fun e he => ?_, fun j hj hjne => ?_, fun j hj k hk hjne hkne he => ?_⟩
  · rcases List.mem_append.1 he with he | he
    · exact Nat.lt_of_lt_of_le (h.bound e he) hl
    · rwa [hes e he]
  · simp only [hcase] at hjne ⊢
    split_ifs at hjne ⊢ with hji
    · obtain ⟨⟨d, hd⟩, halive⟩ := hs hjne
      exact ⟨m, d, hd, hm, halive⟩
    obtain ⟨k, d, hentry, hk, halive⟩ := h.alive j hj hjne
    refine ⟨k, d, hentry, Nat.lt_of_lt_of_le hk hl, halive.grow fun e he hek => hother j hj hji hjne ?_⟩
    rw [hentry, ← hek, hes e he]
    rfl
  simp only [hcase] at hjne hkne he
  split_ifs at hjne hkne he with hji hki hki
  · rw [hji, hki]
  · obtain ⟨⟨d, hd⟩, -⟩ := hs hjne
    rw [hd] at he
    exact absurd he.symm (hother k hk hki hkne)
  · obtain ⟨⟨d, hd⟩, -⟩ := hs hkne
    rw [hd] at he
    exact absurd he (hother j hj hji hjne)
  · exact h.apart j hj k hk hjne hkne he

/-- a loaded module is unloaded -/
theorem Tied.unload {id : ℕ} (hid : id ≠ 0) :
    Lifecycle past (adfUnload st id).1.2 ∧ Tied (adfUnload st id).2 (past ++ (adfUnload st id).1.2) ∧
      ((adfUnload st id).1.1 = 0 → Loaded st id) := by
  unfold adfUnload
  cases hf : findSlot st id with
  | none =>
    refine ⟨trivial, by simpa using h, fun h0 => ?_⟩
    cases h0
  | some i =>
    obtain ⟨hi, hslot⟩ := findSlot_some hf
    have hne : (st.slots i).modId ≠ 0 := by rwa [hslot]
    obtain ⟨m, d, hentry, hm, halive⟩ := h.alive i hi hne
    have hlife : Lifecycle past (leave m d) := by
      apply Lifecycle.append
      · split_ifs
        · exact ⟨⟨halive.attached, halive.undetached, halive.here⟩, trivial⟩
        · trivial
      · exact ⟨trivial, trivial⟩
    have hevents : (match (st.slots i).entry with
        | none => []
        | some (m, d) => leave m d) = leave m d := by rw [hentry]
    dsimp only
    rw [hevents]
    refine ⟨hlife, h.change (fun e => leave_module) hm (Nat.le_refl _) (fun j hj hji hjne he => hji ?_) fun h0 => absurd rfl h0,
      fun _ => ⟨hid, i, hi, hslot⟩⟩
    exact h.apart j hj i hi hjne hne (by rw [he, hentry]; rfl)

/-- a driver that probes and attaches, or that fails to probe and has no detach -/
theorem Tied.load (hd : d.probe = 0 ∧ d.attach = 0 ∨ d.probe ≠ 0 ∧ d.detach = false)
    (hnext : st.next ≠ 0) (hfree : ¬ Loaded st st.next) :
    Lifecycle past (adfLoad st (some d)).1.2 ∧ Tied (adfLoad st (some d)).2 (past ++ (adfLoad st (some d)).1.2) := by
  have hfresh : ∀ e : Event, e.module = st.loads → e ∉ past := by
    intro e he hmem
    exact absurd (h.bound e hmem) (by rw [he]; exact Nat.lt_irrefl _)
  have hother : ∀ i, ∀ j < maxModules, j ≠ i → (st.slots j).modId ≠ 0 →
      (st.slots j).entry.map Prod.fst ≠ some st.loads := by
    intro i j hj _ hjne he
    obtain ⟨m, d', hentry, hm, -⟩ := h.alive j hj hjne
    rw [hentry] at he
    exact absurd (Option.some.inj he) (Nat.ne_of_lt hm)
  unfold adfLoad
  cases hf : findSlot st 0 with
  | none => exact ⟨trivial, by simpa using h⟩
  | some i =>
    obtain ⟨hi, hslot⟩ := findSlot_some hf
    dsimp only
    rcases hd with ⟨hp, ha⟩ | ⟨hp, hdet⟩
    · rw [if_neg (not_not.2 hp), if_neg (not_not.2 ha)]
      refine ⟨⟨hfresh _ rfl, ⟨by simp, ?_⟩, trivial⟩, h.change (fun e he => ?_) (Nat.lt_succ_self _) (Nat.le_succ _)
        (hother i) fun _ => ⟨⟨d, rfl⟩, by simp, ?_, ?_⟩⟩
      · simpa using hfresh (.gone st.loads) rfl
      · simp only [List.mem_cons, List.not_mem_nil, or_false] at he
        rcases he with rfl | rfl <;> rfl
      · simpa using hfresh (.detach st.loads) rfl
      · simpa using hfresh (.gone st.loads) rfl
    rw [if_pos hp]
    -- the id is new, so the slot that unload finds is this one
    have hfind : findSlot ⟨update st.slots i ⟨st.next, some (st.loads, d)⟩, (st.next + 1) % 2 ^ 32, st.loads + 1⟩
        st.next = some i := by
      cases hfind : findSlot ⟨update st.slots i ⟨st.next, some (st.loads, d)⟩, (st.next + 1) % 2 ^ 32,
          st.loads + 1⟩ st.next with
      | none =>
        have hno := List.find?_eq_none.1 hfind i (List.mem_range.2 hi)
        simp at hno
      | some j =>
        obtain ⟨hj, hid⟩ := findSlot_some hfind
        by_cases hji : j = i
        · rw [hji]
        · simp only [update_of_ne hji] at hid
          exact absurd ⟨hnext, j, hj, hid⟩ hfree
    rw [adfUnload, hfind]
    simp only [update_self, Function.update_idem, leave, hdet, Bool.false_eq_true, if_false, List.nil_append]
    refine ⟨⟨hfresh _ rfl, trivial, trivial⟩, h.change (fun e he => ?_) (Nat.lt_succ_self _) (Nat.le_succ _) (hother i)
      fun h0 => absurd rfl h0⟩
    simp only [List.mem_cons, List.not_mem_nil, or_false] at he
    rcases he with rfl | rfl <;> rfl

/-- **Step.** -/
theorem Tied.step {op : Op} (hop : Keeps st op) : Lifecycle past (step st op).1.2 ∧
    Tied (step st op).2 (past ++ (step st op).1.2) ∧ ∀ id, op = .unload id → (step st op).1.1 = 0 → Loaded st id := by
  cases op with
  | load file =>
    cases file with
    | none => exact ⟨trivial, by simpa [Adf.step, adfLoad] using h, fun id hid => by cases hid⟩
    | some d =>
      obtain ⟨hd, hnext, hfree⟩ := hop
      obtain ⟨h1, h2⟩ := h.load hd hnext hfree
      exact ⟨h1, h2, fun id hid => by cases hid⟩
  | unload id =>
    obtain ⟨h1, h2, h3⟩ := h.unload hop
    refine ⟨h1, h2, fun id' hid => ?_⟩
    cases hid
    exact h3

/-- **Run.** -/
theorem Tied.run {ops : List Op} (hops : Always Adf.step Keeps st ops) : Lifecycle past (callbacks st ops) ∧
      Always Adf.step (fun st op => ∀ id, op = .unload id → (Adf.step st op).1.1 = 0 → Loaded st id) st ops := by
  induction ops generalizing st past with
  | nil => exact ⟨trivial, trivial⟩
  | cons op ops ih =>
    obtain ⟨h1, h2, h3⟩ := h.step hops.1
    obtain ⟨i1, i2⟩ := ih h2 hops.2
    refine ⟨?_, h3, i2⟩
    exact h1.append i1

end

end

/-- **The lifecycle is kept**, and adf_unload succeeds for loaded modules only, in every run that keeps to the condition. -/
theorem adf_run_sound {ops : List Op} (hops : Always step Keeps init ops) : Lifecycle [] (callbacks init ops) ∧
    Always step (fun st op => ∀ id, op = .unload id → (step st op).1.1 = 0 → Loaded st id) init ops :=
  Tied.init.run hops

/-- a driver that works, one that finds no hardware and has no detach, and the first is unloaded -/
def twoDrivers : List Op := [.load (some ⟨0, 0, true⟩), .load (some ⟨-1, 0, false⟩), .unload 1]

theorem adf_run_sound_two :
    callbacks init twoDrivers = [.probe 0 true, .attach 0, .probe 1 false, .gone 1, .detach 0, .gone 0] ∧
    Lifecycle [] (callbacks init twoDrivers) := by
  have hkeeps : Always step Keeps init twoDrivers := by
    refine ⟨⟨Or.inl ⟨rfl, rfl⟩, by decide, ?_⟩, ⟨Or.inr ⟨by decide, rfl⟩, by decide, ?_⟩, Nat.one_ne_zero, trivial⟩
    · rintro ⟨-, i, -, h⟩
      cases h
    · rintro ⟨-, i, hi, h⟩
      revert i
      decide
  exact ⟨by decide, (adf_run_sound hkeeps).1⟩

/-- **Three ways to break it.** A failed probe is followed by detach; a failed attach by two; and adf_unload(0) succeeds and
calls detach of the module that was in the slot before. -/
theorem lifecycle_broken : (callbacks init [.load (some ⟨-1, 0, true⟩)] = [.probe 0 false, .detach 0, .gone 0] ∧
      ¬ Lifecycle [] [.probe 0 false, .detach 0, .gone 0]) ∧
    (callbacks init [.load (some ⟨0, -1, true⟩)] = [.probe 0 true, .attach 0, .detach 0, .detach 0, .gone 0] ∧
      ¬ Lifecycle [] [.probe 0 true, .attach 0, .detach 0, .detach 0, .gone 0]) ∧
    (callbacks init [.load (some ⟨0, 0, true⟩), .unload 1, .unload 0] =
        [.probe 0 true, .attach 0, .detach 0, .gone 0, .detach 0, .gone 0] ∧
      ¬ Lifecycle [] [.probe 0 true, .attach 0, .detach 0, .gone 0, .detach 0, .gone 0]) := by
  have hprobe : ¬ Allowed [.probe 0 false] (.detach 0) := by decide
  have htwice : ¬ Allowed [.probe 0 true, .attach 0, .detach 0] (.detach 0) := by decide
  have hgone : ¬ Allowed [.probe 0 true, .attach 0, .detach 0, .gone 0] (.detach 0) := by decide
  refine ⟨⟨by decide, fun h => hprobe h.2.1⟩, ⟨by decide, fun h => htwice h.2.2.2.1⟩, by decide, fun h => hgone h.2.2.2.2.1⟩

end OpenASD.Adf
