/-
Mixing in the entropy pool (kernel/security/security.c: pool_quarter_round, pool_mix, entropy_mix, entropy_get64). The spin
lock is left out.

`poolMix` works on eight columns of four words that never meet.

- `quarterRound_bijective`: a quarter round is two halves, each of which can be taken back;
- `mixing_reversible`: pool_mix is a bijection, and so is entropy_mix in the pool; in the seed it is injective;
- `seed_lost`: five of the eight columns never reach what entropy_get64 returns.
-/
import Mathlib.Algebra.Group.Nat.Defs
import Mathlib.Data.FinEnum
import OpenASD.Core.Machine

namespace OpenASD.Entropy

open Machine
open Function (Bijective Injective LeftInverse)

/-! ## The pool -/

abbrev poolWords : ℕ := 32

abbrev Pool := ℕ → UInt64

def rotl64 (x : UInt64) (n : UInt64) : UInt64 := (x <<< n) ||| (x >>> (64 - n))

def quarterRound (a b c d : UInt64) : UInt64 × UInt64 × UInt64 × UInt64 :=
  let a := a + b
  let d := rotl64 (d ^^^ a) 32
  let c := c + d
  let b := rotl64 (b ^^^ c) 24
  let a := a + b
  let d := rotl64 (d ^^^ a) 16
  let c := c + d
  let b := rotl64 (b ^^^ c) 63
  (a, b, c, d)

/-- pool_quarter_round on four words of the pool -/
def poolQuarterRound (p : Pool) (i j k l : ℕ) : Pool :=
  let r := quarterRound (p i) (p j) (p k) (p l)
  Function.update (Function.update (Function.update (Function.update p i r.1) j r.2.1) k r.2.2.1) l r.2.2.2

def poolMix (p : Pool) : Pool :=
  (List.range 4).foldl (fun p i =>
    poolQuarterRound (poolQuarterRound p (0 + i) (4 + i) (8 + i) (12 + i)) (16 + i) (20 + i) (24 + i) (28 + i)) p

/-- `g_pool` and `g_pool_idx` -/
structure Gen where
  pool : Pool
  idx : ℕ

/-- the word at the index takes a value in -/
def Gen.stir (g : Gen) (x : UInt64) : Pool :=
  Function.update g.pool (g.idx % poolWords) (g.pool (g.idx % poolWords) ^^^ x)

def Gen.next (g : Gen) : ℕ := (g.idx + 1) % 2 ^ 32

def entropyMix (g : Gen) (seed : UInt64) : Gen := ⟨poolMix (g.stir seed), g.next⟩

def entropyGet64 (g : Gen) (tsc : UInt64) : UInt64 × Gen :=
  let p := poolMix (g.stir tsc)
  (p 0 ^^^ p (poolWords / 2), ⟨Function.update p 0 (p 0 + p 1), g.next⟩)

/-! ## Mixing loses nothing -/

/-- the bits that a rotation moves to the other end come back from there -/
theorem rotl_bits (x : BitVec 64) {n : ℕ} (h0 : 0 < n) (hn : n < 64) :
    ((x <<< n ||| x >>> (64 - n)) <<< (64 - n)) ||| ((x <<< n ||| x >>> (64 - n)) >>> n) = x := by
  apply BitVec.eq_of_getLsbD_eq
  intro i hi
  have hover : x.getLsbD (64 - n + (n + i)) = false := BitVec.getLsbD_of_ge x _ (by omega)
  simp only [BitVec.getLsbD_or, BitVec.getLsbD_ushiftRight, BitVec.getLsbD_shiftLeft, hover]
  by_cases h : i < 64 - n
  · have hlow : n + i < 64 := by omega
    simp [h, hlow]
  · have hhigh : ¬ n + i < 64 := by omega
    have hback : 64 - n + (i - (64 - n)) = i := by omega
    have hin : i - (64 - n) < n := by omega
    have hlt : i - (64 - n) < 64 := by omega
    simp [h, hhigh, hback, hin, hlt, hi]

abbrev Words := UInt64 × UInt64 × UInt64 × UInt64

/-- one half of a quarter round -/
def halfRound (n m : UInt64) (w : Words) : Words :=
  let a := w.1 + w.2.1
  let d := rotl64 (w.2.2.2 ^^^ a) n
  let c := w.2.2.1 + d
  (a, rotl64 (w.2.1 ^^^ c) m, c, d)

theorem halfRound_injective {n m : UInt64} (hn : Injective (rotl64 · n)) (hm : Injective (rotl64 · m)) :
    Injective (halfRound n m) := by
  rintro ⟨a, b, c, d⟩ ⟨a', b', c', d'⟩ h
  simp only [halfRound, Prod.mk.injEq] at h
  obtain ⟨ha, hb, hc, hd⟩ := h
  -- from the last word that was changed to the first
  rw [hc] at hb
  rw [hd] at hc
  rw [ha] at hd
  obtain rfl : b = b' := by simpa using hm hb
  obtain rfl : c = c' := by simpa using hc
  obtain rfl : d = d' := by simpa using hn hd
  obtain rfl : a = a' := by simpa using ha
  rfl

theorem quarterRound_bijective : Bijective fun w : Words => quarterRound w.1 w.2.1 w.2.2.1 w.2.2.2 := by
  have h32 : Injective (rotl64 · 32) := LeftInverse.injective (g := (rotl64 · 32)) fun x =>
    UInt64.toBitVec_inj.1 (rotl_bits x.toBitVec (n := 32) (by decide) (by decide))
  have h24 : Injective (rotl64 · 24) := LeftInverse.injective (g := (rotl64 · 40)) fun x =>
    UInt64.toBitVec_inj.1 (rotl_bits x.toBitVec (n := 24) (by decide) (by decide))
  have h16 : Injective (rotl64 · 16) := LeftInverse.injective (g := (rotl64 · 48)) fun x =>
    UInt64.toBitVec_inj.1 (rotl_bits x.toBitVec (n := 16) (by decide) (by decide))
  have h63 : Injective (rotl64 · 63) := LeftInverse.injective (g := (rotl64 · 1)) fun x =>
    UInt64.toBitVec_inj.1 (rotl_bits x.toBitVec (n := 63) (by decide) (by decide))
  exact Finite.injective_iff_bijective.1 ((halfRound_injective h16 h63).comp (halfRound_injective h32 h24))

/-- a function on four words of the pool -/
def onWords (f : Words → Words) (i j k l : ℕ) (p : Pool) : Pool :=
  let r := f (p i, p j, p k, p l)
  Function.update (Function.update (Function.update (Function.update p i r.1) j r.2.1) k r.2.2.1) l r.2.2.2

section

variable {i j k l : ℕ} (h : [i, j, k, l].Nodup)
include h

theorem onWords_inverse {f f' : Words → Words} (hf : LeftInverse f' f) : LeftInverse (onWords f' i j k l) (onWords f i j k l) := by
  intro p
  simp only [List.nodup_cons, List.mem_cons, List.not_mem_nil, or_false, not_or] at h
  obtain ⟨⟨hij, hik, hil⟩, ⟨hjk, hjl⟩, hkl, -⟩ := h
  have hval : (onWords f i j k l p i, onWords f i j k l p j, onWords f i j k l p k, onWords f i j k l p l) =
      f (p i, p j, p k, p l) := by
    simp [onWords, *]
  funext w
  rw [onWords, hval, hf]
  simp only [onWords, Function.update_apply]
  split_ifs <;> simp_all

theorem poolQuarterRound_bijective : Bijective (poolQuarterRound · i j k l) := by
  obtain ⟨f, hl, hr⟩ := Function.bijective_iff_has_inverse.1 quarterRound_bijective
  exact Function.bijective_iff_has_inverse.2 ⟨onWords f i j k l, onWords_inverse h hl, onWords_inverse h hr⟩

end

theorem poolMix_bijective : Bijective poolMix := by
  have hround : ∀ i, Bijective fun p =>
      poolQuarterRound (poolQuarterRound p (0 + i) (4 + i) (8 + i) (12 + i)) (16 + i) (20 + i) (24 + i) (28 + i) :=
    fun i => (poolQuarterRound_bijective (by simp)).comp (poolQuarterRound_bijective (by simp))
  exact (((hround 3).comp (hround 2)).comp (hround 1)).comp (hround 0)

theorem poolQuarterRound_out (p : Pool) {i j k l w : ℕ} (h1 : w ≠ i) (h2 : w ≠ j) (h3 : w ≠ k) (h4 : w ≠ l) :
    poolQuarterRound p i j k l w = p w := by
  rw [poolQuarterRound, Function.update_of_ne h4, Function.update_of_ne h3, Function.update_of_ne h2,
    Function.update_of_ne h1]

/-- only the 32 words of the pool are written -/
theorem poolMix_out (p : Pool) {w : ℕ} (hw : poolWords ≤ w) : poolMix p w = p w := by
  refine List.foldlRecOn (motive := fun q : Pool => q w = p w) _ _ rfl fun q hq i hi => ?_
  have hi4 := List.mem_range.1 hi
  simp only [poolWords] at hw
  rw [poolQuarterRound_out, poolQuarterRound_out, hq] <;> omega

/-- a word takes a value in by xor, which is its own inverse -/
theorem stir_bijective (idx : ℕ) (x : UInt64) : Bijective fun p => (⟨p, idx⟩ : Gen).stir x := by
  refine Function.Involutive.bijective fun p => ?_
  funext w
  simp only [Gen.stir, Function.update_apply]
  split_ifs with hw
  · rw [hw, UInt64.xor_assoc, UInt64.xor_self, UInt64.xor_zero]
  · rfl

/-- **Mixing loses nothing.** pool_mix is a bijection of the 32 words; for every pool and index entropy_mix gives different
pools for different seeds, and for every seed and index it is a bijection of the pools. -/
theorem mixing_reversible (g : Gen) (seed : UInt64) : (Bijective poolMix ∧ ∀ p w, poolWords ≤ w → poolMix p w = p w) ∧
    Injective (fun seed => (entropyMix g seed).pool) ∧ Bijective (fun p => (entropyMix ⟨p, g.idx⟩ seed).pool) := by
  refine ⟨⟨poolMix_bijective, fun p w => poolMix_out p⟩, fun x y h => ?_, poolMix_bijective.comp (stir_bijective g.idx seed)⟩
  have hstir := congrFun (poolMix_bijective.1 h) (g.idx % poolWords)
  simpa [Gen.stir] using hstir

/-! ## Seeds that are lost -/

/-- the calls of the rest of the kernel; sec_rdtsc gives `tsc` -/
inductive Call where
  | mix (seed : UInt64)
  | get (tsc : UInt64)

def step (g : Gen) : Call → Option UInt64 × Gen
  | .mix seed => (none, entropyMix g seed)
  | .get tsc => ((entropyGet64 g tsc).1, (entropyGet64 g tsc).2)

/-- the words of the columns of words 0, 1 and 16 -/
def live (w : ℕ) : Bool := if w < 16 then decide (w % 4 < 2) else decide (w % 4 = 0)

/-- two pools agree on those words -/
def Agree (p q : Pool) : Prop := ∀ w, live w = true → p w = q w

variable {p q : Pool}

theorem Agree.update (h : Agree p q) {w : ℕ} {x y : UInt64} (hxy : live w = true → x = y) :
    Agree (Function.update p w x) (Function.update q w y) := by
  intro v hv
  by_cases hvw : v = w
  · subst hvw
    rw [Function.update_self, Function.update_self, hxy hv]
  · rw [Function.update_of_ne hvw, Function.update_of_ne hvw, h v hv]

/-- four words of one column -/
theorem Agree.poolQuarterRound (h : Agree p q) {i j k l : ℕ} (hi : live i = live l) (hj : live j = live l)
    (hk : live k = live l) : Agree (poolQuarterRound p i j k l) (poolQuarterRound q i j k l) := by
  cases hl : live l with
  | true =>
    have hw : ∀ w, live w = live l → p w = q w := fun w hw => h w (hw.trans hl)
    simp only [Entropy.poolQuarterRound, hw i hi, hw j hj, hw k hk, hw l rfl]
    exact (((h.update fun _ => rfl).update fun _ => rfl).update fun _ => rfl).update fun _ => rfl
  | false =>
    have hdead : ∀ {w : ℕ} {x y : UInt64}, live w = live l → live w = true → x = y := fun h1 h2 =>
      absurd (h1.symm.trans h2) (by rw [hl]; exact Bool.false_ne_true)
    exact (((h.update (hdead hi)).update (hdead hj)).update (hdead hk)).update (hdead rfl)

theorem Agree.poolMix (h : Agree p q) : Agree (poolMix p) (poolMix q) := by
  have hcol : ∀ i < 4, (live (0 + i) = live (12 + i) ∧ live (4 + i) = live (12 + i) ∧ live (8 + i) = live (12 + i)) ∧
      live (16 + i) = live (28 + i) ∧ live (20 + i) = live (28 + i) ∧ live (24 + i) = live (28 + i) := by decide
  apply List.foldl_rel h
  intro i hi p q h
  obtain ⟨⟨h0, h4, h8⟩, h16, h20, h24⟩ := hcol i (List.mem_range.1 hi)
  exact (h.poolQuarterRound h0 h4 h8).poolQuarterRound h16 h20 h24

/-- a call returns the same, and the pools still agree -/
theorem Agree.step (h : Agree p q) (idx : ℕ) (c : Call) : (step ⟨p, idx⟩ c).1 = (step ⟨q, idx⟩ c).1 ∧
    (step ⟨p, idx⟩ c).2.idx = (step ⟨q, idx⟩ c).2.idx ∧ Agree (step ⟨p, idx⟩ c).2.pool (step ⟨q, idx⟩ c).2.pool := by
  have hmix : ∀ x, Agree (Entropy.poolMix (Gen.stir ⟨p, idx⟩ x)) (Entropy.poolMix (Gen.stir ⟨q, idx⟩ x)) := fun x =>
    (h.update fun hw => congrArg (· ^^^ x) (h _ hw)).poolMix
  cases c with
  | mix seed =>
    dsimp only [Entropy.step, entropyMix]
    exact ⟨rfl, rfl, hmix seed⟩
  | get tsc =>
    have hword := hmix tsc
    dsimp only [Entropy.step, entropyGet64]
    rw [hword 0 rfl, hword 1 rfl, hword (poolWords / 2) rfl]
    exact ⟨rfl, rfl, hword.update fun _ => rfl⟩

/-- **Seeds are lost.** Only three of the eight columns reach what entropy_get64 returns: after a seed that goes to a word of
another column, all calls return what they would after any other seed. -/
theorem seed_lost (g : Gen) (hdead : live (g.idx % poolWords) = false) (seed seed' : UInt64) (cs : List Call) :
    trace step (entropyMix g seed) cs = trace step (entropyMix g seed') cs := by
  have hsim : ∀ g g' c, (g.idx = g'.idx ∧ Agree g.pool g'.pool) → True → (step g c).1 = (step g' c).1 ∧
      (step g c).2.idx = (step g' c).2.idx ∧ Agree (step g c).2.pool (step g' c).2.pool := by
    rintro ⟨p, idx⟩ ⟨q, _⟩ c ⟨rfl, h⟩ -
    exact h.step idx c
  have hstart : Agree g.pool g.pool := fun _ _ => rfl
  refine trace_eq hsim ⟨rfl, ((hstart.update fun hw => ?_)).poolMix⟩ (Always.of_forall (fun _ _ => trivial) _ _)
  exact absurd hw (by rw [hdead]; exact Bool.false_ne_true)

/-- when security_init mixes in what RDRAND gave: usr_init has drawn a salt, the pool is cleared, and two seeds are in -/
def atRdrand : Gen :=
  after step ⟨fun _ => 0, (entropyGet64 ⟨fun _ => 0, 0⟩ 0).2.idx⟩ [.mix 5, .mix (5 ^^^ 0xdeadbeefcafe0000)]

theorem seed_lost_rdrand : atRdrand.idx = 3 ∧ trace step (entropyMix atRdrand 0) [.mix 1, .get 2, .get 3] =
    trace step (entropyMix atRdrand 1) [.mix 1, .get 2, .get 3] :=
  ⟨rfl, seed_lost atRdrand rfl 0 1 _⟩

end OpenASD.Entropy
