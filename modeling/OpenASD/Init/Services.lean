/-
The service manager (init/svcmgr.c: svc_find, svc_deps_ready, compute_waves, svc_launch, launch_wave).

Services are indices into g_services; a launch may find no binary, fail to spawn, or spawn. `starts` records every service
that was spawned, with the answer of svc_deps_ready in the state in which it was spawned. The source defines
svc_deps_ready and never calls it.

- `computeWaves_sound`: if compute_waves succeeds, every service has a wave, above the waves of its dependencies;
- `waveLoop_settled`: its loop ends within one round for each service and one more;
- `starts_ready_iff`: the waves start every service after its dependencies exactly if no service whose dependency is not
  started is itself started. `start_without_dependency` is a start without.
-/
import Mathlib.Data.Finset.Card

namespace OpenASD.Services

open Function (update update_of_ne update_self)
open List (foldl_cons foldl_nil range)

/-! ## Services -/

abbrev Name := List Char

abbrev maxServices : ℕ := 64

/-- the fields of `service_t` that launching reads, but its state -/
structure Service where
  name : Name
  deps : List Name
deriving DecidableEq, Repr

/-- `g_services`, as far as it is filled -/
structure Table where
  list : List Service
  le : list.length ≤ maxServices

inductive SvcState where
  | new | starting | running | exited | restarting | failed
deriving DecidableEq, Repr

variable (t : Table)

def Table.count : ℕ := t.list.length

def Table.deps (i : ℕ) : List Name := (t.list[i]?.map Service.deps).getD []

def svcFind (name : Name) : Option ℕ := t.list.findIdx? fun s => decide (s.name = name)

def kernelName : Name := ['k', 'e', 'r', 'n', 'e', 'l']

def depsReady (t : Table) (state : ℕ → SvcState) : List Name → Bool
  | [] => true
  | d :: ds =>
    if d = kernelName then depsReady t state ds
    else
      match svcFind t d with
      | some j => if state j ≠ .running then false else depsReady t state ds
      | none => depsReady t state ds

def svcDepsReady (state : ℕ → SvcState) (i : ℕ) : Bool := depsReady t state (t.deps i)

/-- the service that a dependency names, if there is one -/
def depOf (d : Name) : Option ℕ := if d = kernelName then none else svcFind t d

/-- the known dependencies of a service -/
def known (i : ℕ) : List ℕ := (t.deps i).filterMap (depOf t)

variable {t : Table}

theorem svcFind_lt {name : Name} {j : ℕ} (h : svcFind t name = some j) : j < t.count :=
  (List.findIdx?_eq_some_iff_getElem.1 h).1

variable {i : ℕ}

theorem known_lt {j : ℕ} (h : j ∈ known t i) : j < t.count := by
  obtain ⟨d, -, hd⟩ := List.mem_filterMap.1 h
  unfold depOf at hd
  split_ifs at hd
  exact svcFind_lt hd

theorem depsReady_iff (t : Table) (state : ℕ → SvcState) (ds : List Name) :
    depsReady t state ds = true ↔ ∀ j ∈ ds.filterMap (depOf t), state j = .running := by
  induction ds with
  | nil => simp [depsReady]
  | cons d ds ih =>
    rw [depsReady, List.filterMap_cons]
    by_cases hk : d = kernelName
    · rw [if_pos hk, depOf, if_pos hk]
      exact ih
    rw [if_neg hk, depOf, if_neg hk]
    cases svcFind t d with
    | none => exact ih
    | some j =>
      simp only [List.forall_mem_cons, ← ih]
      by_cases hj : state j = .running <;> simp [hj]

/-! ## Waves -/

/-- conversion to int8_t -/
def toInt8 (x : ℤ) : ℤ := (x + 128) % 256 - 128

/-- the loop over the dependencies: the highest wave among them, `none` if one has no wave yet -/
def depWave (t : Table) (wave : ℕ → ℤ) : List Name → ℤ → Option ℤ
  | [], m => some m
  | d :: ds, m =>
    if d = kernelName then depWave t wave ds m
    else
      match svcFind t d with
      | none => depWave t wave ds m
      | some j => if wave j < 0 then none else depWave t wave ds (if m < wave j then wave j else m)

structure WaveSt where
  wave : ℕ → ℤ
  maxWave : ℤ
  changed : Bool

def waveVisit (t : Table) (st : WaveSt) (i : ℕ) : WaveSt :=
  if 0 ≤ st.wave i then st
  else
    match depWave t st.wave (t.deps i) (-1) with
    | none => st
    | some m =>
      { wave := update st.wave i (toInt8 (m + 1))
        maxWave := if st.maxWave < toInt8 (m + 1) then toInt8 (m + 1) else st.maxWave
        changed := true }

def waveRound (t : Table) (st : WaveSt) : WaveSt := (range t.count).foldl (waveVisit t) { st with changed := false }

/-- `while (changed)`, so many rounds at most -/
def waveLoop (t : Table) : ℕ → WaveSt → WaveSt
  | 0, st => st
  | fuel + 1, st => if st.changed then waveLoop t fuel (waveRound t st) else st

def waveStart : WaveSt := ⟨fun _ => -1, 0, true⟩

/-- `g_svc_wave` and the number of waves; `none` for the dependency cycle -/
def computeWaves (t : Table) : Option ((ℕ → ℤ) × ℤ) :=
  let st := waveLoop t (t.count + 1) waveStart
  if ∀ i ∈ range t.count, 0 ≤ st.wave i then some (st.wave, st.maxWave + 1) else none

/-- the services that have a wave -/
def placed (t : Table) (wave : ℕ → ℤ) : Finset ℕ := (Finset.range t.count).filter fun i => 0 ≤ wave i

theorem placed_le (t : Table) (wave : ℕ → ℤ) : (placed t wave).card ≤ t.count := by
  calc (placed t wave).card ≤ (Finset.range t.count).card := Finset.card_filter_le _ _
    _ = t.count := Finset.card_range t.count

variable {wave : ℕ → ℤ}

theorem placed_update (hi : i < t.count) (hw : wave i < 0) {w : ℤ} (h0 : 0 ≤ w) :
    (placed t (update wave i w)).card = (placed t wave).card + 1 := by
  have hins : placed t (update wave i w) = insert i (placed t wave) := by
    ext j
    simp only [placed, Finset.mem_filter, Finset.mem_range, Finset.mem_insert]
    by_cases hj : j = i
    · subst hj
      simp [hi, h0]
    · simp [hj]
  rw [hins, Finset.card_insert_of_notMem]
  simp only [placed, Finset.mem_filter, not_and, not_le]
  exact fun _ => hw

/-- what the loop over the dependencies finds: one without a wave, or the highest wave -/
theorem depWave_cases (t : Table) (wave : ℕ → ℤ) (ds : List Name) (m : ℤ) :
    (depWave t wave ds m = none ∧ ∃ j ∈ ds.filterMap (depOf t), wave j < 0) ∨
    ∃ r, depWave t wave ds m = some r ∧ m ≤ r ∧ (∀ j ∈ ds.filterMap (depOf t), 0 ≤ wave j ∧ wave j ≤ r) ∧
      (r = m ∨ ∃ j ∈ ds.filterMap (depOf t), r = wave j) := by
  induction ds generalizing m with
  | nil => exact .inr ⟨m, rfl, by simp⟩
  | cons d ds ih =>
    rw [depWave, List.filterMap_cons]
    by_cases hk : d = kernelName
    · rw [if_pos hk, depOf, if_pos hk]
      exact ih m
    rw [if_neg hk, depOf, if_neg hk]
    cases svcFind t d with
    | none => exact ih m
    | some j =>
      dsimp only
      by_cases hneg : wave j < 0
      · exact .inl ⟨if_pos hneg, j, List.mem_cons_self, hneg⟩
      rw [if_neg hneg]
      obtain ⟨hn, k, hk, hlt⟩ | ⟨r, hr, h1, h2, h3⟩ := ih (if m < wave j then wave j else m)
      · exact .inl ⟨hn, k, List.mem_cons_of_mem j hk, hlt⟩
      refine .inr ⟨r, hr, ?_, List.forall_mem_cons.2 ⟨⟨by omega, ?_⟩, h2⟩, ?_⟩
      · split_ifs at h1 <;> omega
      · split_ifs at h1 <;> omega
      rcases h3 with rfl | ⟨k, hk, rfl⟩
      · split_ifs
        · exact .inr ⟨j, List.mem_cons_self, rfl⟩
        · exact .inl rfl
      · exact .inr ⟨k, List.mem_cons_of_mem j hk, rfl⟩

structure WaveInv (t : Table) (st : WaveSt) : Prop where
  sound : ∀ i, 0 ≤ st.wave i → ∀ j ∈ known t i, 0 ≤ st.wave j ∧ st.wave j < st.wave i
  /-- fewer waves than services that have one, so int8_t is wide enough -/
  few : ∀ i < t.count, st.wave i < (placed t st.wave).card
  top : ∀ i < t.count, st.wave i ≤ st.maxWave
  pos : 0 ≤ st.maxWave

variable {st : WaveSt}

/-- one service is visited: if it has no wave, a dependency has none either, or it gets the wave after the highest -/
theorem WaveInv.visit_cases (h : WaveInv t st) (i : ℕ) :
    (waveVisit t st i = st ∧ (st.wave i < 0 → ∃ j ∈ known t i, st.wave j < 0)) ∨
    ∃ m : ℤ, st.wave i < 0 ∧ -1 ≤ m ∧ m < (placed t st.wave).card ∧ (∀ j ∈ known t i, 0 ≤ st.wave j ∧ st.wave j ≤ m) ∧
      (m = -1 ∨ ∃ j ∈ known t i, m = st.wave j) ∧
      waveVisit t st i = ⟨update st.wave i (m + 1), if st.maxWave < m + 1 then m + 1 else st.maxWave, true⟩ := by
  unfold waveVisit
  by_cases hdone : 0 ≤ st.wave i
  · exact .inl ⟨if_pos hdone, fun hneg => absurd hdone (not_le.2 hneg)⟩
  rw [if_neg hdone]
  obtain ⟨hd, hdep⟩ | ⟨m, hd, h1, h2, h3⟩ := depWave_cases t st.wave (t.deps i) (-1)
  · rw [hd]
    exact .inl ⟨rfl, fun _ => hdep⟩
  have hcard := placed_le t st.wave
  have hle := t.le
  have hm : m < (placed t st.wave).card := by
    rcases h3 with rfl | ⟨j, hj, rfl⟩
    · omega
    · exact h.few j (known_lt hj)
  have hw : toInt8 (m + 1) = m + 1 := by
    unfold Table.count at hcard
    simp only [toInt8, maxServices] at *
    omega
  rw [hd]
  dsimp only
  rw [hw]
  exact .inr ⟨m, not_le.1 hdone, h1, hm, h2, h3, rfl⟩

theorem WaveInv.visit (h : WaveInv t st) (hi : i < t.count) :
    WaveInv t (waveVisit t st i) ∧ (waveVisit t st i = st ∨
      (placed t st.wave).card < (placed t (waveVisit t st i).wave).card) := by
  obtain ⟨he, -⟩ | ⟨m, hdone, h1, hm, h2, -, he⟩ := h.visit_cases i
  · rw [he]
    exact ⟨h, .inl rfl⟩
  rw [he]
  have hnew := placed_update (w := m + 1) hi hdone (by omega)
  refine ⟨⟨fun k hk j hj => ?_, fun k hk => ?_, fun k hk => ?_, ?_⟩, .inr (by dsimp only; omega)⟩
  · by_cases hki : k = i
    · -- the dependencies of i have waves, so i is none of them
      subst hki
      obtain ⟨hj0, hjm⟩ := h2 j hj
      have hjk : j ≠ k := by
        rintro rfl
        omega
      simp only [update_self, update_of_ne hjk]
      exact ⟨hj0, by omega⟩
    · simp only [update_of_ne hki] at hk ⊢
      obtain ⟨hj0, hjk⟩ := h.sound k hk j hj
      have hji : j ≠ i := by
        rintro rfl
        omega
      simp only [update_of_ne hji]
      exact ⟨hj0, hjk⟩
  · dsimp only
    by_cases hki : k = i
    · subst hki
      rw [update_self]
      omega
    · rw [update_of_ne hki]
      have := h.few k hk
      omega
  · dsimp only
    by_cases hki : k = i
    · subst hki
      rw [update_self]
      split_ifs <;> omega
    · rw [update_of_ne hki]
      have := h.top k hk
      split_ifs <;> omega
  · dsimp only
    split_ifs <;> omega

theorem WaveInv.start (t : Table) : WaveInv t waveStart :=
  ⟨fun i hi => absurd hi (by simp [waveStart]), fun i _ => by simp only [waveStart]; omega,
    fun i _ => by simp [waveStart], le_rfl⟩

/-- a round keeps the invariant; if it changes anything, it places a service -/
theorem WaveInv.round (h : WaveInv t st) : WaveInv t (waveRound t st) ∧
    (placed t st.wave).card ≤ (placed t (waveRound t st).wave).card ∧
    ((waveRound t st).changed = true → (placed t st.wave).card < (placed t (waveRound t st).wave).card) := by
  refine List.foldlRecOn (motive := fun st' : WaveSt => WaveInv t st' ∧ (placed t st.wave).card ≤ (placed t st'.wave).card ∧
    (st'.changed = true → (placed t st.wave).card < (placed t st'.wave).card)) _ _
    ⟨⟨h.sound, h.few, h.top, h.pos⟩, le_rfl, fun hf => (by cases hf)⟩ fun st' hinv i hi => ?_
  obtain ⟨h1, h2, h3⟩ := hinv
  obtain ⟨hv, he | hlt⟩ := h1.visit (List.mem_range.1 hi)
  · rw [he]
    exact ⟨h1, h2, h3⟩
  · exact ⟨hv, by omega, fun _ => by omega⟩

/-- what every round keeps, the loop keeps -/
theorem waveLoop_keeps {P : WaveSt → Prop} (hround : ∀ st, P st → P (waveRound t st)) (h : P st) (fuel : ℕ) :
    P (waveLoop t fuel st) := by
  induction fuel generalizing st with
  | zero => exact h
  | succ fuel ih =>
    rw [waveLoop]
    split_ifs
    · exact ih (hround st h)
    · exact h

/-- **The loop ends**: every round but the last places a service. -/
theorem waveLoop_settled (t : Table) : (waveLoop t (t.count + 1) waveStart).changed = false := by
  have hloop : ∀ (fuel : ℕ) (st : WaveSt), WaveInv t st → t.count < (placed t st.wave).card + fuel →
      (waveLoop t fuel st).changed = false := by
    intro fuel
    induction fuel with
    | zero =>
      intro st _ hlt
      have := placed_le t st.wave
      omega
    | succ fuel ih =>
      intro st h hlt
      rw [waveLoop]
      split_ifs with hc
      · obtain ⟨h1, h2, h3⟩ := h.round
        cases hr : (waveRound t st).changed with
        | true =>
          have := h3 hr
          exact ih _ h1 (by omega)
        | false =>
          cases fuel with
          | zero => exact hr
          | succ fuel => rw [waveLoop, hr, if_neg Bool.false_ne_true, hr]
      · exact Bool.eq_false_of_not_eq_true hc
  exact hloop (t.count + 1) waveStart (WaveInv.start t) (by omega)

/-- **Waves follow the dependencies.** -/
theorem computeWaves_sound {n : ℤ} (h : computeWaves t = some (wave, n)) :
    ∀ i < t.count, 0 ≤ wave i ∧ wave i < n ∧ ∀ j ∈ known t i, wave j < wave i := by
  unfold computeWaves at h
  dsimp only at h
  split_ifs at h with hall
  cases h
  have hinv := waveLoop_keeps (fun _ h => h.round.1) (WaveInv.start t) (t.count + 1)
  intro i hi
  have h0 := hall i (List.mem_range.2 hi)
  have htop := hinv.top i hi
  exact ⟨h0, by omega, fun j hj => (hinv.sound i h0 j hj).2⟩

/-! ## Launching -/

/-- what becomes of a launch -/
inductive Outcome where
  /-- vfs_stat does not find the binary -/
  | missing
  /-- elf_spawn returns 0 -/
  | noSpawn
  | spawned
deriving DecidableEq, Repr

structure LaunchSt where
  state : ℕ → SvcState
  /-- the services spawned so far, each with svc_deps_ready at that moment -/
  starts : List (ℕ × Bool)

def svcLaunch (t : Table) (x : LaunchSt) (i : ℕ) : Outcome → LaunchSt
  | .missing => { x with state := update x.state i .failed }
  | .noSpawn => { x with state := update x.state i .failed }
  | .spawned =>
    { state := update x.state i .running
      starts := x.starts ++ [(i, svcDepsReady t x.state i)] }

def launchWave (t : Table) (wave : ℕ → ℤ) (outcome : ℕ → Outcome) (x : LaunchSt) (w : ℤ) : LaunchSt :=
  (range t.count).foldl
    (fun x i => if wave i = w ∧ x.state i = .new then svcLaunch t x i (outcome i) else x) x

/-- `for (int w = 0; w < nwaves; w++) launch_wave(w)`, from freshly parsed services -/
def launchAll (t : Table) (wave : ℕ → ℤ) (n : ℤ) (outcome : ℕ → Outcome) : LaunchSt :=
  (range n.toNat).foldl (fun x (w : ℕ) => launchWave t wave outcome x w) ⟨fun _ => .new, []⟩

def settled : Outcome → SvcState
  | .spawned => .running
  | _ => .failed

section

variable {t : Table} {outcome : ℕ → Outcome} {x : LaunchSt} {P Q : ℕ → Prop} {wave : ℕ → ℤ}

/-- the services of P have been launched, each after its dependencies -/
structure Launched (t : Table) (outcome : ℕ → Outcome) (P : ℕ → Prop) (x : LaunchSt) : Prop where
  old : ∀ j < t.count, P j → x.state j = settled (outcome j)
  new : ∀ j < t.count, ¬ P j → x.state j = .new
  starts : ∀ e, e ∈ x.starts ↔ ∃ i < t.count, P i ∧ outcome i = .spawned ∧ e.1 = i ∧
    (e.2 = true ↔ ∀ j ∈ known t i, outcome j = .spawned)

theorem settled_running {o : Outcome} : settled o = .running ↔ o = .spawned := by
  cases o <;> simp [settled]

theorem Launched.congr (h : Launched t outcome P x) (hPQ : ∀ i < t.count, P i ↔ Q i) : Launched t outcome Q x := by
  refine ⟨fun j hj hq => h.old j hj ((hPQ j hj).2 hq), fun j hj hq => h.new j hj fun hp => hq ((hPQ j hj).1 hp),
    fun e => (h.starts e).trans ?_⟩
  constructor
  · rintro ⟨i, hi, hp, hrest⟩
    exact ⟨i, hi, (hPQ i hi).1 hp, hrest⟩
  · rintro ⟨i, hi, hq, hrest⟩
    exact ⟨i, hi, (hPQ i hi).2 hq, hrest⟩

/-- one more service is launched -/
theorem Launched.launch (h : Launched t outcome P x) (hi : i < t.count) (hnew : ¬ P i)
    (hdeps : ∀ j ∈ known t i, P j) : Launched t outcome (fun j => P j ∨ j = i) (svcLaunch t x i (outcome i)) := by
  have hready : svcDepsReady t x.state i = true ↔ ∀ j ∈ known t i, outcome j = .spawned := by
    rw [svcDepsReady, depsReady_iff]
    refine forall₂_congr fun j hj => ?_
    rw [h.old j (known_lt hj) (hdeps j hj), settled_running]
  have hstate : (svcLaunch t x i (outcome i)).state = update x.state i (settled (outcome i)) := by
    cases outcome i <;> rfl
  have hstarts : (svcLaunch t x i (outcome i)).starts =
      x.starts ++ if outcome i = .spawned then [(i, svcDepsReady t x.state i)] else [] := by
    cases outcome i <;> simp [svcLaunch]
  refine ⟨fun j hj hp => ?_, fun j hj hp => ?_, fun e => ?_⟩
  · rw [hstate]
    by_cases hji : j = i
    · rw [hji, update_self]
    · rw [update_of_ne hji]
      exact h.old j hj (hp.resolve_right hji)
  · rw [not_or] at hp
    rw [hstate, update_of_ne hp.2]
    exact h.new j hj hp.1
  rw [hstarts, List.mem_append, h.starts e]
  constructor
  · rintro (⟨k, hk, hp, hrest⟩ | he)
    · exact ⟨k, hk, .inl hp, hrest⟩
    split_ifs at he with hs
    · rw [List.mem_singleton.1 he]
      exact ⟨i, hi, .inr rfl, hs, rfl, hready⟩
    · cases he
  rintro ⟨k, hk, hp | rfl, hs, hek, hrest⟩
  · exact .inl ⟨k, hk, hp, hs, hek, hrest⟩
  right
  rw [if_pos hs, List.mem_singleton]
  obtain ⟨a, b⟩ := e
  simp only at hek hrest
  rw [hek, Prod.mk.injEq]
  exact ⟨rfl, Bool.eq_iff_iff.2 (hrest.trans hready.symm)⟩

/-- one wave, the services below k of it -/
theorem Launched.oneWave (hw : ∀ i < t.count, ∀ j ∈ known t i, wave j < wave i) {w : ℤ}
    (h : Launched t outcome (fun j => wave j < w) x) :
    Launched t outcome (fun j => wave j < w + 1) (launchWave t wave outcome x w) := by
  have hloop : ∀ k ≤ t.count, Launched t outcome (fun j => wave j < w ∨ wave j = w ∧ j < k)
      ((range k).foldl (fun x i => if wave i = w ∧ x.state i = .new then svcLaunch t x i (outcome i) else x) x) := by
    intro k
    induction k with
    | zero =>
      intro _
      exact h.congr fun i _ => by simp
    | succ k ih =>
      intro hk
      have hx := ih (by omega)
      rw [List.range_succ, List.foldl_append, foldl_cons, foldl_nil]
      by_cases hwk : wave k = w
      · have hnot : ¬ (wave k < w ∨ wave k = w ∧ k < k) := by omega
        rw [if_pos ⟨hwk, hx.new k (by omega) hnot⟩]
        refine (hx.launch (by omega) hnot fun j hj => .inl (hwk ▸ hw k (by omega) j hj)).congr fun i _ => ?_
        constructor
        · rintro ((h1 | h1) | rfl)
          · exact .inl h1
          · exact .inr ⟨h1.1, by omega⟩
          · exact .inr ⟨hwk, by omega⟩
        rintro (h1 | ⟨h1, h2⟩)
        · exact .inl (.inl h1)
        · by_cases hik : i = k
          · exact .inr hik
          · exact .inl (.inr ⟨h1, by omega⟩)
      · rw [if_neg fun hc => hwk hc.1]
        refine hx.congr fun i _ => ?_
        constructor
        · rintro (h1 | ⟨h1, h2⟩)
          · exact .inl h1
          · exact .inr ⟨h1, by omega⟩
        rintro (h1 | ⟨h1, h2⟩)
        · exact .inl h1
        have hik : i ≠ k := by
          rintro rfl
          exact hwk h1
        exact .inr ⟨h1, by omega⟩
  refine (hloop t.count le_rfl).congr fun i hi => ?_
  constructor
  · rintro (h1 | ⟨h1, -⟩)
    · omega
    · omega
  intro h1
  by_cases hlt : wave i < w
  · exact .inl hlt
  · exact .inr ⟨by omega, hi⟩

/-- all waves -/
theorem Launched.all {n : ℤ} (h : computeWaves t = some (wave, n)) :
    Launched t outcome (fun _ => True) (launchAll t wave n outcome) := by
  have hs := computeWaves_sound h
  have hloop : ∀ k : ℕ, Launched t outcome (fun j => wave j < k)
      ((range k).foldl (fun x (w : ℕ) => launchWave t wave outcome x w) ⟨fun _ => .new, []⟩) := by
    intro k
    induction k with
    | zero =>
      refine ⟨fun j hj hlt => ?_, fun _ _ _ => rfl, fun e => ?_⟩
      · have := (hs j hj).1
        omega
      simp only [List.range_zero, foldl_nil, List.not_mem_nil, false_iff, not_exists, not_and]
      intro i hi hlt
      have := (hs i hi).1
      omega
    | succ k ih =>
      rw [List.range_succ, List.foldl_append, foldl_cons, foldl_nil]
      have hstep := ih.oneWave fun i hi => (hs i hi).2.2
      refine hstep.congr fun i _ => ?_
      rfl
  refine (hloop n.toNat).congr fun i hi => ?_
  obtain ⟨h0, hn, -⟩ := hs i hi
  simp only [iff_true]
  omega

end

/-- **When waves suffice.** Every service is started after its dependencies run, exactly if the dependencies of every
service that can be spawned can be spawned. -/
theorem starts_ready_iff {t : Table} {wave : ℕ → ℤ} {n : ℤ} (h : computeWaves t = some (wave, n)) (outcome : ℕ → Outcome) :
    (∀ e ∈ (launchAll t wave n outcome).starts, e.2 = true) ↔
      ∀ i < t.count, outcome i = .spawned → ∀ j ∈ known t i, outcome j = .spawned := by
  have hl : Launched t outcome (fun _ => True) (launchAll t wave n outcome) := Launched.all h
  constructor
  · intro hall i hi hs
    have hmem : (i, decide (∀ j ∈ known t i, outcome j = .spawned)) ∈ (launchAll t wave n outcome).starts :=
      (hl.starts _).2 ⟨i, hi, trivial, hs, rfl, decide_eq_true_iff⟩
    exact of_decide_eq_true (hall _ hmem)
  · intro hdeps e he
    obtain ⟨i, hi, -, hs, -, hready⟩ := (hl.starts e).1 he
    exact hready.2 (hdeps i hi hs)

/-- the built-in services: netd needs syslog, syslog needs the kernel -/
def builtin : Table :=
  ⟨[⟨['s', 'y', 's', 'l', 'o', 'g'], [kernelName]⟩, ⟨['n', 'e', 't', 'd'], [['s', 'y', 's', 'l', 'o', 'g']]⟩], by decide⟩

/-- both binaries are there: netd starts after syslog -/
theorem starts_ready_builtin : ∃ wave n, computeWaves builtin = some (wave, n) ∧
    (launchAll builtin wave n fun _ => .spawned).starts.map Prod.fst = [0, 1] ∧
    ∀ e ∈ (launchAll builtin wave n fun _ => .spawned).starts, e.2 = true := by
  refine ⟨_, _, rfl, by decide, ?_⟩
  exact (starts_ready_iff rfl fun _ => .spawned).2 fun _ _ _ _ _ => rfl

/-- **A start without the dependency.** With no binary for syslog, netd is started though syslog has failed. -/
theorem start_without_dependency : ∃ wave n, computeWaves builtin = some (wave, n) ∧ known builtin 1 = [0] ∧
    (launchAll builtin wave n fun i => if i = 0 then .missing else .spawned).starts = [(1, false)] ∧
    (launchAll builtin wave n fun i => if i = 0 then .missing else .spawned).state 0 = .failed := by
  refine ⟨_, _, rfl, ?_, ?_, ?_⟩ <;> decide

end OpenASD.Services
