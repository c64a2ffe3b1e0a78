/-
The waves of services are longest chains of dependencies (init/svcmgr.c: compute_waves).

- `visits_quiet`: after a round that changes nothing, every service without a wave has a dependency without one;
- `waves_longest`: compute_waves ends; it fails exactly if there is a cycle of known services; otherwise the wave of a
  service is the length of the longest chain below it, and the result is one more than the largest wave.
-/
import OpenASD.Init.Services
import Mathlib.Data.Fintype.Order

namespace OpenASD.Services

open Function (update_of_ne update_self)
open Relation (ReflTransGen TransGen)

/-- service i depends on service j -/
def Depends (t : Table) (i j : ℕ) : Prop := j ∈ known t i

/-- a service with k known dependencies in a chain below it -/
def HasChain (t : Table) : ℕ → ℕ → Prop
  | 0, _ => True
  | k + 1, i => ∃ j ∈ known t i, HasChain t k j

variable {t : Table} {st : WaveSt} {i : ℕ}

/-- no wave is higher than it has to be -/
structure WaveExact (t : Table) (st : WaveSt) : Prop extends WaveInv t st where
  least : ∀ i, 0 < st.wave i → ∃ j ∈ known t i, st.wave i ≤ st.wave j + 1
  reached : 0 < st.maxWave → ∃ i < t.count, st.wave i = st.maxWave

theorem WaveExact.visit (h : WaveExact t st) (hi : i < t.count) : WaveExact t (waveVisit t st i) := by
  have hinv := (h.toWaveInv.visit hi).1
  obtain ⟨he, -⟩ | ⟨m, hneg, -, -, hdep, hm, he⟩ := h.visit_cases i
  · rwa [he]
  rw [he] at hinv ⊢
  -- whatever has a wave is not i
  have hold : ∀ {j}, 0 ≤ st.wave j → j ≠ i := by
    rintro j hj rfl
    omega
  refine ⟨hinv, fun k hk => ?_, fun hpos => ?_⟩
  · dsimp only at hk ⊢
    by_cases hki : k = i
    · subst hki
      rw [update_self] at hk ⊢
      obtain rfl | ⟨j, hj, rfl⟩ := hm
      · omega
      · exact ⟨j, hj, by rw [update_of_ne (hold (hdep j hj).1)]⟩
    · rw [update_of_ne hki] at hk ⊢
      obtain ⟨j, hj, hle⟩ := h.least k hk
      exact ⟨j, hj, by rwa [update_of_ne (hold (by omega))]⟩
  · dsimp only at hpos ⊢
    split_ifs at hpos ⊢
    · exact ⟨i, hi, update_self _ _ _⟩
    · obtain ⟨k, hk, hmax⟩ := h.reached hpos
      exact ⟨k, hk, by rwa [update_of_ne (hold (by omega))]⟩

theorem visits_quiet {l : List ℕ} (h : WaveInv t st) (hl : ∀ i ∈ l, i < t.count)
    (hq : (l.foldl (waveVisit t) st).changed = false) :
    l.foldl (waveVisit t) st = st ∧ ∀ i ∈ l, st.wave i < 0 → ∃ j ∈ known t i, st.wave j < 0 := by
  induction l generalizing st with
  | nil => exact ⟨rfl, fun i hi => absurd hi List.not_mem_nil⟩
  | cons i l ih =>
    obtain ⟨hi, hl⟩ := List.forall_mem_cons.1 hl
    rw [List.foldl_cons] at hq ⊢
    obtain ⟨hsame, hrest⟩ := ih (h.visit hi).1 hl hq
    obtain ⟨he, hstuck⟩ | ⟨m, -, -, -, -, -, he⟩ := h.visit_cases i
    · rw [he] at hsame hrest ⊢
      exact ⟨hsame, List.forall_mem_cons.2 ⟨hstuck, hrest⟩⟩
    · -- a visit that sets a wave sets `changed`, which stays
      rw [hsame, he] at hq
      cases hq

/-- what holds between the rounds -/
structure WaveRun (t : Table) (st : WaveSt) : Prop where
  exact : WaveExact t st
  quiet : st.changed = false → ∀ i < t.count, st.wave i < 0 → ∃ j ∈ known t i, st.wave j < 0

theorem WaveRun.round (h : WaveRun t st) : WaveRun t (waveRound t st) := by
  have h0 : WaveExact t { st with changed := false } := ⟨⟨h.1.sound, h.1.few, h.1.top, h.1.pos⟩, h.1.least, h.1.reached⟩
  refine ⟨List.foldlRecOn (motive := WaveExact t) _ _ h0 fun _ hs i hi => hs.visit (List.mem_range.1 hi), fun hq => ?_⟩
  obtain ⟨hsame, hstuck⟩ := visits_quiet h0.toWaveInv (fun i hi => List.mem_range.1 hi) hq
  rw [waveRound, hsame]
  exact fun i hi => hstuck i (List.mem_range.2 hi)

theorem WaveRun.start (t : Table) : WaveRun t waveStart :=
  ⟨⟨WaveInv.start t, fun i hi => absurd hi (by simp [waveStart]), fun h => absurd h (by simp [waveStart])⟩, nofun⟩

section

variable {wave : ℕ → ℤ} (hs : ∀ i < t.count, 0 ≤ wave i ∧ ∀ j ∈ known t i, wave j < wave i)
include hs

/-- waves fall along the dependencies -/
theorem falls {j : ℕ} (h : TransGen (Depends t) i j) (hi : i < t.count) : j < t.count ∧ wave j < wave i := by
  induction h with
  | single hj => exact ⟨known_lt hj, (hs i hi).2 _ hj⟩
  | tail _ hk ih => exact ⟨known_lt hk, ((hs _ ih.1).2 _ hk).trans ih.2⟩

theorem hasChain_iff (hleast : ∀ i, 0 < wave i → ∃ j ∈ known t i, wave i ≤ wave j + 1) (hi : i < t.count) (k : ℕ) :
    HasChain t k i ↔ (k : ℤ) ≤ wave i := by
  induction k generalizing i with
  | zero => simpa [HasChain] using (hs i hi).1
  | succ k ih =>
    rw [HasChain]
    constructor
    · rintro ⟨j, hj, hchain⟩
      have hle := (ih (known_lt hj)).1 hchain
      have hlt := (hs i hi).2 j hj
      omega
    · intro hle
      obtain ⟨j, hj, hwave⟩ := hleast i (by omega)
      exact ⟨j, hj, (ih (known_lt hj)).2 (by omega)⟩

end

/-- services without a wave that depend on one another to the end go round in a cycle -/
theorem exists_cycle {U : ℕ → Prop} (hU : ∀ i < t.count, U i → ∃ j ∈ known t i, U j) (hi : i < t.count) (h : U i) :
    ∃ j < t.count, TransGen (Depends t) j j := by
  by_contra hno
  let below (a b : Fin t.count) : Prop := TransGen (Depends t) b a
  have : Std.Irrefl below := ⟨fun a ha => hno ⟨a, a.isLt, ha⟩⟩
  have hall : ∀ a : Fin t.count, ¬ U a := by
    intro a
    induction a using (Finite.wellFounded_of_trans_of_irrefl below).induction with
    | _ a ih =>
      intro ha
      obtain ⟨j, hj, hUj⟩ := hU a a.isLt ha
      exact ih ⟨j, known_lt hj⟩ (.single hj) hUj
  exact hall ⟨i, hi⟩ h

/-- **Waves are longest chains.** For every table of services: the loop of compute_waves ends; there is no result exactly if
a service depends, directly or not, on a cycle; and otherwise a service has the length of the longest chain below it as
its wave, and the result is one more than the largest wave. -/
theorem waves_longest (t : Table) : (waveLoop t (t.count + 1) waveStart).changed = false ∧
    (computeWaves t = none ↔
      ∃ i < t.count, ∃ j, ReflTransGen (Depends t) i j ∧ TransGen (Depends t) j j) ∧
    ∀ wave n, computeWaves t = some (wave, n) → (∀ i < t.count, ∀ k : ℕ, HasChain t k i ↔ k ≤ wave i) ∧
      (0 < t.count → ∃ i < t.count, n = wave i + 1 ∧ ∀ j < t.count, wave j ≤ wave i) := by
  have hq := waveLoop_settled t
  have hrun := waveLoop_keeps (fun _ h => h.round) (WaveRun.start t) (t.count + 1)
  unfold computeWaves
  generalize waveLoop t (t.count + 1) waveStart = st at hq hrun ⊢
  dsimp only
  simp only [List.mem_range]
  have hs : (∀ i < t.count, 0 ≤ st.wave i) → ∀ i < t.count, 0 ≤ st.wave i ∧ ∀ j ∈ known t i, st.wave j < st.wave i :=
    fun hall i hi => ⟨hall i hi, fun j hj => (hrun.exact.sound i (hall i hi) j hj).2⟩
  refine ⟨hq, ⟨fun hnone => ?_, ?_⟩, fun wave n hsome => ?_⟩
  · have hnot : ¬ ∀ i < t.count, 0 ≤ st.wave i := fun hall => by
      rw [if_pos hall] at hnone
      cases hnone
    push Not at hnot
    obtain ⟨i, hi, hneg⟩ := hnot
    obtain ⟨j, hj, hcycle⟩ := exists_cycle (hrun.quiet hq) hi hneg
    exact ⟨j, hj, j, .refl, hcycle⟩
  · rintro ⟨-, -, j, -, hcycle⟩
    obtain ⟨k, -, hk⟩ := TransGen.tail'_iff.1 hcycle
    exact if_neg fun hall => lt_irrefl _ (falls (hs hall) hcycle (known_lt hk)).2
  split_ifs at hsome with hall
  cases hsome
  refine ⟨fun i hi k => hasChain_iff (hs hall) hrun.exact.least hi k, fun hpos => ?_⟩
  by_cases hmax : 0 < st.maxWave
  · obtain ⟨i, hi, hwave⟩ := hrun.exact.reached hmax
    exact ⟨i, hi, by rw [hwave], fun j hj => hwave ▸ hrun.exact.top j hj⟩
  -- all waves are 0
  have htop := hrun.exact.top
  have h0 := hall 0 hpos
  exact ⟨0, hpos, by have := htop 0 hpos; have := hrun.exact.pos; omega, fun j hj => by have := htop j hj; omega⟩

end OpenASD.Services
