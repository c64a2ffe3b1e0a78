/-
The limiter of login attempts (kernel/security/security.c: rl_find, rl_alloc, auth_fail, auth_success). Times are PIT ticks of
10 ms, in 64 bits of nanoseconds. The audit log is left out.

A table of 32 entries serves all uids; when it is full, a uid without an entry takes the slot with the oldest window, lockout
or not. `judge` is what auth_fail does to the entry of its uid.

- `step_entry`: what one call does to the entry of a uid: its own calls are those of `ownStep`, others leave it alone unless
  they evict it;
- `lockout_undisturbed`: two histories that agree on the calls for u give u the same answers, while no call evicts the entry
  of u. `lockout_evicted`: 32 other uids end a lockout.
-/
import Mathlib.Algebra.Group.Nat.Defs
import Mathlib.Data.Finset.Card
import OpenASD.Core.Machine

namespace OpenASD.RateLimit

open Machine
open Function (update update_idem update_of_ne update_self)
open List (find?_some mem_range range)

/-! ## The table -/

abbrev maxUsers : ℕ := 32
/-- 60 s -/
def windowNs : ℕ := 60000000000
/-- 30 s -/
def lockoutNs : ℕ := 30000000000
abbrev threshold : ℕ := 5

theorem windowNs_eq : windowNs = 2 * lockoutNs := rfl

structure Entry where
  uid : ℕ
  failCount : ℕ
  firstFail : ℕ
  lockoutUntil : ℕ
deriving DecidableEq, Repr

/-- `g_rl_table` -/
abbrev Table := ℕ → Entry

def blank (uid : ℕ) : Entry := ⟨uid, 0, 0, 0⟩

/-- after security_init -/
def init : Table := fun _ => blank 0

/-- an entry in use -/
def Entry.active (e : Entry) (uid : ℕ) : Prop := e.uid = uid ∧ 0 < e.failCount

instance (e : Entry) (uid : ℕ) : Decidable (e.active uid) := inferInstanceAs (Decidable (_ ∧ _))

variable (t : Table)

def rlFind (uid : ℕ) : Option ℕ := (range maxUsers).find? fun i => decide ((t i).active uid)

/-- the loop for the oldest entry: its time and index so far -/
def oldest : ℕ × ℕ :=
  (range maxUsers).foldl (fun o i => if (t i).firstFail < o.1 then ((t i).firstFail, i) else o) (2 ^ 64 - 1, 0)

def freeSlot : Option ℕ := (range maxUsers).find? fun i => decide ((t i).failCount = 0)

def rlAlloc (uid : ℕ) : ℕ × Table :=
  match freeSlot t with
  | some i => (i, update t i { t i with uid })
  | none => ((oldest t).2, update t (oldest t).2 (blank uid))

/-- `pit_ticks() * 10000000ULL` -/
def nowNs (ticks : ℕ) : ℕ := ticks * 10000000 % 2 ^ 64

/-- an expired window starts anew -/
def restart (e : Entry) (now : ℕ) : Entry :=
  if windowNs < (now + 2 ^ 64 - e.firstFail) % 2 ^ 64 then { e with failCount := 0, firstFail := now } else e

/-- one more failure in the window -/
def count (e : Entry) (now : ℕ) : Entry :=
  { e with
    firstFail := if e.failCount = 0 then now else e.firstFail
    failCount := (e.failCount + 1) % 2 ^ 32 }

/-- a lockout starts at the threshold -/
def lockAt (e : Entry) (now : ℕ) : Bool × Entry :=
  if threshold ≤ e.failCount then (true, { e with lockoutUntil := (now + lockoutNs) % 2 ^ 64 }) else (false, e)

/-- auth_fail on the entry of its uid -/
def judge (e : Entry) (now : ℕ) : Bool × Entry :=
  if now < e.lockoutUntil then (true, e) else lockAt (count (restart e now) now) now

def authFail (ticks uid : ℕ) : Bool × Table :=
  let r := match rlFind t uid with
    | some i => (i, t)
    | none => rlAlloc t uid
  let j := judge (r.2 r.1) (nowNs ticks)
  (j.1, update r.2 r.1 j.2)

def authSuccess (uid : ℕ) : Table :=
  match rlFind t uid with
  | some i => update t i (blank 0)
  | none => t

inductive Call where
  | fail (ticks uid : ℕ)
  | success (uid : ℕ)
deriving DecidableEq, Repr

def Call.uid : Call → ℕ
  | .fail _ uid => uid
  | .success uid => uid

/-- auth_success returns nothing -/
def step : Call → Option Bool × Table
  | .fail ticks uid => (some (authFail t ticks uid).1, (authFail t ticks uid).2)
  | .success uid => (none, authSuccess t uid)

/-! ## The entry of one uid -/

/-- the clock is far from the end of its 64 bits -/
def Call.early : Call → Prop
  | .fail ticks _ => ticks * 10000000 + windowNs < 2 ^ 64
  | .success _ => True

instance : (c : Call) → Decidable c.early
  | .fail _ _ => inferInstanceAs (Decidable (_ < _))
  | .success _ => inferInstanceAs (Decidable True)

/-- a counter that does not wrap: past the threshold every failure that counts comes 30 s after the one before -/
structure Entry.Sane (e : Entry) : Prop where
  few : e.failCount ≤ 7
  locked : threshold ≤ e.failCount → e.firstFail + (e.failCount - 4) * lockoutNs ≤ e.lockoutUntil
  empty : e.failCount = 0 → e.firstFail = 0 ∧ e.lockoutUntil = 0
  early : e.firstFail + windowNs < 2 ^ 64

/-- no uid has two entries -/
structure Clean (t : Table) : Prop where
  sane : ∀ i < maxUsers, (t i).Sane
  unique : ∀ i < maxUsers, ∀ j < maxUsers, 0 < (t i).failCount → 0 < (t j).failCount → (t i).uid = (t j).uid → i = j

def entryOf (uid : ℕ) : Option Entry := (rlFind t uid).map t

theorem Sane.blank (uid : ℕ) : (blank uid).Sane :=
  ⟨Nat.zero_le 7, fun h => absurd h (Nat.not_le.2 (Nat.succ_pos 4)), fun _ => ⟨rfl, rfl⟩, show 0 + windowNs < 2 ^ 64 by decide⟩

theorem Clean.init : Clean init := ⟨fun _ _ => Sane.blank 0, fun _ _ _ _ h => absurd h (Nat.lt_irrefl 0)⟩

variable {i first now l ticks : ℕ} {t : Table} {e : Entry} {b : Bool} {uid : ℕ}

theorem rlFind_some (h : rlFind t uid = some i) : i < maxUsers ∧ (t i).active uid :=
  ⟨mem_range.1 (List.mem_of_find?_eq_some h), by simpa using find?_some h⟩

theorem rlFind_none (h : rlFind t uid = none) (hi : i < maxUsers) : ¬ (t i).active uid := by
  simpa using List.find?_eq_none.1 h i (mem_range.2 hi)

theorem Clean.entryOf_iff (h : Clean t) : entryOf t uid = some e ↔ ∃ i < maxUsers, t i = e ∧ (t i).active uid := by
  unfold entryOf
  constructor
  · intro he
    obtain ⟨i, hi, rfl⟩ := Option.map_eq_some_iff.1 he
    obtain ⟨h1, h2⟩ := rlFind_some hi
    exact ⟨i, h1, rfl, h2⟩
  rintro ⟨i, hi, rfl, hact⟩
  cases hf : rlFind t uid with
  | none => exact absurd hact (rlFind_none hf hi)
  | some j =>
    obtain ⟨hj, hactj⟩ := rlFind_some hf
    have hij := h.unique j hj i hi hactj.2 hact.2 (hactj.1.trans hact.1.symm)
    rw [hij]
    rfl

/-- a slot is written with an entry of uid: the entries of other uids are those before, but that of the slot -/
theorem Clean.write (h : Clean t) (hi : i < maxUsers) (he : e.Sane)
    (huid : 0 < e.failCount → e.uid = uid) (hno : ∀ j < maxUsers, j ≠ i → ¬ (t j).active uid) :
    Clean (update t i e) ∧
    ∀ u, (0 < e.failCount → u ≠ uid) → ¬ (t i).active u → entryOf (update t i e) u = entryOf t u := by
  have hclean : Clean (update t i e) := by
    refine ⟨fun j hj => ?_, fun j hj k hk hjp hkp hjk => ?_⟩
    · by_cases hji : j = i
      · rw [hji, update_self]
        exact he
      · rw [update_of_ne hji]
        exact h.sane j hj
    by_cases hji : j = i <;> by_cases hki : k = i
    · rw [hji, hki]
    · rw [hji, update_self] at hjp hjk
      rw [update_of_ne hki] at hkp hjk
      exact absurd ⟨hjk.symm.trans (huid hjp), hkp⟩ (hno k hk hki)
    · rw [hki, update_self] at hkp hjk
      rw [update_of_ne hji] at hjp hjk
      exact absurd ⟨hjk.trans (huid hkp), hjp⟩ (hno j hj hji)
    · rw [update_of_ne hji] at hjp hjk
      rw [update_of_ne hki] at hkp hjk
      exact h.unique j hj k hk hjp hkp hjk
  refine ⟨hclean, fun u hu hold => ?_⟩
  apply Option.ext
  intro a
  rw [hclean.entryOf_iff, h.entryOf_iff]
  constructor
  · rintro ⟨j, hj, hja, hact⟩
    by_cases hji : j = i
    · rw [hji, update_self] at hact
      exact absurd (hact.1.symm.trans (huid hact.2)) (hu hact.2)
    · rw [update_of_ne hji] at hja hact
      exact ⟨j, hj, hja, hact⟩
  rintro ⟨j, hj, hja, hact⟩
  have hji : j ≠ i := by
    rintro rfl
    exact hold hact
  refine ⟨j, hj, ?_⟩
  rw [update_of_ne hji]
  exact ⟨hja, hact⟩

theorem oldest_lt (t : Table) : (oldest t).2 < maxUsers := by
  refine List.foldlRecOn (motive := fun o : ℕ × ℕ => o.2 < maxUsers) _ _ (by decide) fun o ho i hi => ?_
  split_ifs
  · exact mem_range.1 hi
  · exact ho

/-- a new window starts: there is none, or the old one is over -/
def Entry.Stale (e : Entry) (now : ℕ) : Prop := e.failCount = 0 ∨ now < e.firstFail ∨ e.firstFail + windowNs < now

instance (e : Entry) (now : ℕ) : Decidable (e.Stale now) := inferInstanceAs (Decidable (_ ∨ _ ∨ _))

/-- the age of the window, in 64 bits -/
theorem age_lt {w : ℕ} (h1 : now + w < 2 ^ 64) (h2 : first + w < 2 ^ 64) :
    w < (now + 2 ^ 64 - first) % 2 ^ 64 ↔ now < first ∨ first + w < now := by
  omega

theorem add_lockout {w : ℕ} (h : now + w < 2 ^ 64) (hw : w = 2 * l) : (now + l) % 2 ^ 64 = now + l := by
  omega

section

variable (h : e.Sane) (hnow : now + windowNs < 2 ^ 64)
include h hnow

/-- the window after one more failure, without wrapping -/
theorem Entry.Sane.count_restart : count (restart e now) now =
      if e.Stale now then ⟨e.uid, 1, now, e.lockoutUntil⟩
      else ⟨e.uid, e.failCount + 1, e.firstFail, e.lockoutUntil⟩ := by
  have hage := age_lt hnow h.early
  have hsmall : (e.failCount + 1) % 2 ^ 32 = e.failCount + 1 :=
    Nat.mod_eq_of_lt (Nat.lt_of_le_of_lt (Nat.succ_le_succ h.few) (by decide))
  unfold restart
  by_cases hover : now < e.firstFail ∨ e.firstFail + windowNs < now
  · have hnew : e.Stale now := Or.inr hover
    rw [if_pos (hage.2 hover), if_pos hnew]
    rfl
  rw [if_neg fun hlt => hover (hage.1 hlt)]
  by_cases hzero : e.failCount = 0
  · have hnew : e.Stale now := Or.inl hzero
    have hone : (0 + 1) % 2 ^ 32 = 1 := by decide
    rw [if_pos hnew, count, if_pos hzero, hzero, hone]
  · have hkeep : ¬ e.Stale now := fun hs => hs.elim hzero hover
    rw [if_neg hkeep, count, if_neg hzero, hsmall]

/-- what auth_fail does, without wrapping -/
theorem Entry.Sane.judge_eq : judge e now =
      if now < e.lockoutUntil then (true, e)
      else if e.Stale now then (false, ⟨e.uid, 1, now, e.lockoutUntil⟩)
      else if threshold ≤ e.failCount + 1 then (true, ⟨e.uid, e.failCount + 1, e.firstFail, now + lockoutNs⟩)
      else (false, ⟨e.uid, e.failCount + 1, e.firstFail, e.lockoutUntil⟩) := by
  unfold judge
  rw [h.count_restart hnow]
  congr 1
  by_cases hs : e.Stale now
  · rw [if_pos hs, if_pos hs]
    rfl
  · rw [if_neg hs, if_neg hs, lockAt, add_lockout hnow windowNs_eq]

omit h hnow in
/-- past the threshold the lockout before this one is over, so the window has gone on for 30 s more -/
theorem locked_next {count stop : ℕ} (hl : 5 ≤ count → first + (count - 4) * l ≤ stop)
    (h5 : 5 ≤ count + 1) (hstop : stop ≤ now) (hfirst : first ≤ now) : first + (count + 1 - 4) * l ≤ now + l := by
  by_cases h : 5 ≤ count
  · have hstep : (count + 1 - 4) * l = (count - 4) * l + l := by
      rw [← Nat.succ_mul]
      congr 1
      omega
    omega
  · have h4 : count = 4 := by omega
    rw [h4]
    omega

omit h hnow in
/-- so at most three failures past the threshold count in one window -/
theorem few_next {count stop : ℕ} (hpos : 0 < l) (hfew : count ≤ 7)
    (hl : 5 ≤ count → first + (count - 4) * l ≤ stop) (hstop : stop ≤ now) (hage : now ≤ first + 2 * l) : count + 1 ≤ 7 := by
  by_contra hbig
  have h7 : count = 7 := by omega
  have hlock := hl (by omega)
  rw [h7] at hlock
  omega

/-- the entry after auth_fail -/
theorem Entry.Sane.judge :
    (judge e now).2.Sane ∧ (judge e now).2.uid = e.uid ∧ 0 < (judge e now).2.failCount := by
  rw [h.judge_eq hnow]
  obtain ⟨hfew, hlocked, hempty, hearly⟩ := h
  split_ifs with h1 h2 h3
  · refine ⟨⟨hfew, hlocked, hempty, hearly⟩, rfl, Nat.pos_of_ne_zero fun h0 => ?_⟩
    rw [(hempty h0).2] at h1
    exact absurd h1 (Nat.not_lt_zero now)
  · exact ⟨⟨Nat.succ_le_succ (Nat.zero_le 6), fun h5 => absurd h5 (Nat.not_le.2 (Nat.lt_add_of_pos_right (Nat.succ_pos 3))),
      fun h0 => absurd h0 Nat.one_ne_zero, hnow⟩, rfl, Nat.one_pos⟩
  · simp only [Entry.Stale, not_or, not_lt] at h2
    rw [windowNs_eq] at h2
    exact ⟨⟨few_next (by decide) hfew hlocked (not_lt.1 h1) h2.2.2,
      fun _ => locked_next hlocked h3 (not_lt.1 h1) h2.2.1, fun h0 => absurd h0 (Nat.succ_ne_zero _), hearly⟩, rfl,
      Nat.succ_pos _⟩
  · exact ⟨⟨Nat.le_trans (Nat.le_of_lt (not_le.1 h3)) (by decide), fun h5 => absurd h5 h3,
      fun h0 => absurd h0 (Nat.succ_ne_zero _), hearly⟩, rfl, Nat.succ_pos _⟩

end

/-! ## One uid among others -/

/-- the slot that serves a uid: its own, a free one, or the oldest -/
def slotOf (t : Table) (uid : ℕ) : ℕ :=
  match rlFind t uid with
  | some i => i
  | none => (freeSlot t).getD (oldest t).2

theorem slotOf_lt (t : Table) (uid : ℕ) : slotOf t uid < maxUsers := by
  unfold slotOf
  cases hf : rlFind t uid with
  | some i => exact (rlFind_some hf).1
  | none =>
    cases hs : freeSlot t with
    | some i => exact mem_range.1 (List.mem_of_find?_eq_some hs)
    | none => exact oldest_lt t

/-- auth_fail judges the entry of its uid, or a blank one -/
theorem Clean.authFail_eq (h : Clean t) (hj : judge ((entryOf t uid).getD (blank uid)) (nowNs ticks) = (b, e)) :
    authFail t ticks uid = (b, update t (slotOf t uid) e) := by
  unfold entryOf at hj
  unfold authFail slotOf
  cases hf : rlFind t uid with
  | some i =>
    rw [hf] at hj
    dsimp only
    rw [show judge (t i) (nowNs ticks) = (b, e) from hj]
  | none =>
    rw [hf] at hj
    replace hj : judge (blank uid) (nowNs ticks) = (b, e) := hj
    unfold rlAlloc
    cases hs : freeSlot t with
    | some i =>
      have hi := mem_range.1 (List.mem_of_find?_eq_some hs)
      have h0 : (t i).failCount = 0 := by simpa using find?_some hs
      have hblank : ({ t i with uid } : Entry) = blank uid := by
        obtain ⟨h1, h2⟩ := (h.sane i hi).empty h0
        show (⟨uid, (t i).failCount, (t i).firstFail, (t i).lockoutUntil⟩ : Entry) = _
        rw [h0, h1, h2]
        rfl
      dsimp only
      rw [hblank, update_self, hj, update_idem]
      rfl
    | none =>
      dsimp only
      rw [update_self, hj, update_idem]
      rfl

/-- the entry that auth_fail judges -/
theorem Clean.judged (h : Clean t) (uid : ℕ) :
    ((entryOf t uid).getD (blank uid)).Sane ∧ ((entryOf t uid).getD (blank uid)).uid = uid := by
  cases he : entryOf t uid with
  | none => exact ⟨Sane.blank uid, rfl⟩
  | some e =>
    obtain ⟨i, hi, rfl, hact⟩ := h.entryOf_iff.1 he
    exact ⟨h.sane i hi, hact.1⟩

/-- no slot but the one that serves a uid has its entry -/
theorem Clean.alone (h : Clean t) {uid j : ℕ} (hj : j < maxUsers) (hne : j ≠ slotOf t uid) : ¬ (t j).active uid := by
  intro hact
  unfold slotOf at hne
  cases hf : rlFind t uid with
  | none => exact rlFind_none hf hj hact
  | some i =>
    obtain ⟨hi, hacti⟩ := rlFind_some hf
    rw [hf] at hne
    exact hne (h.unique j hj i hi hact.2 hacti.2 (hact.1.trans hacti.1.symm))

/-- the calls of a uid on its own entry -/
def ownStep (uid : ℕ) (o : Option Entry) : Call → Option Bool × Option Entry
  | .fail ticks _ => (judge (o.getD (blank uid)) (nowNs ticks)).map some some
  | .success _ => (none, none)

theorem ownStep_fail {uid v : ℕ} {o : Option Entry}
    (hj : judge (o.getD (blank uid)) (nowNs ticks) = (b, e)) : ownStep uid o (.fail ticks v) = (some b, some e) := by
  rw [ownStep, hj]
  rfl

/-- a call does not take the slot of u away: it is for u, or there is an entry or a free slot for it, or the oldest entry is
not that of u -/
def Spares (u : ℕ) (t : Table) : Call → Prop
  | .fail _ uid => uid = u ∨ rlFind t uid ≠ none ∨ freeSlot t ≠ none ∨ ¬ (t (oldest t).2).active u
  | .success _ => True

instance (u : ℕ) (t : Table) : (c : Call) → Decidable (Spares u t c)
  | .fail _ _ => inferInstanceAs (Decidable (_ ∨ _ ∨ _ ∨ _))
  | .success _ => inferInstanceAs (Decidable True)

theorem Spares.slot {u uid : ℕ} (h : Spares u t (.fail ticks uid)) (hne : uid ≠ u) : ¬ (t (slotOf t uid)).active u := by
  intro hact
  unfold slotOf at hact
  cases hf : rlFind t uid with
  | some i =>
    rw [hf] at hact
    exact hne ((rlFind_some hf).2.1.symm.trans hact.1)
  | none =>
    rw [hf] at hact
    cases hs : freeSlot t with
    | some i =>
      rw [hs] at hact
      have h0 : (t i).failCount = 0 := by simpa using find?_some hs
      exact absurd h0 (Nat.ne_of_gt hact.2)
    | none =>
      rw [hs] at hact
      rcases h with h | h | h | h
      · exact hne h
      · exact h hf
      · exact h hs
      · exact h hact

theorem nowNs_eq (h : (Call.fail ticks uid).early) : nowNs ticks = ticks * 10000000 :=
  Nat.mod_eq_of_lt (Nat.lt_of_le_of_lt (Nat.le_add_right _ _) h)

theorem nowNs_early (h : (Call.fail ticks uid).early) : nowNs ticks + windowNs < 2 ^ 64 := by
  rw [nowNs_eq h]
  exact h

/-- what auth_fail does to the table -/
theorem Clean.authFail (h : Clean t) (hc : (Call.fail ticks uid).early)
    (hj : judge ((entryOf t uid).getD (blank uid)) (nowNs ticks) = (b, e)) :
    Clean (update t (slotOf t uid) e) ∧ entryOf (update t (slotOf t uid) e) uid = some e ∧
    ∀ u, uid ≠ u → Spares u t (.fail ticks uid) → entryOf (update t (slotOf t uid) e) u = entryOf t u := by
  obtain ⟨hsane, huid⟩ := h.judged uid
  obtain ⟨hsane', huid', hpos⟩ := hsane.judge (nowNs_early hc)
  rw [hj] at hsane' huid' hpos
  have hslot := slotOf_lt t uid
  obtain ⟨hclean, hothers⟩ := h.write hslot hsane' (fun _ => huid'.trans huid) fun j hj hne => h.alone hj hne
  refine ⟨hclean, hclean.entryOf_iff.2 ⟨slotOf t uid, hslot, ?_⟩, fun u hu hs => hothers u (fun _ => hu.symm) (hs.slot hu)⟩
  rw [update_self]
  exact ⟨rfl, huid'.trans huid, hpos⟩

/-- what auth_success does to the table -/
theorem Clean.authSuccess (h : Clean t) (uid : ℕ) : Clean (authSuccess t uid) ∧ entryOf (authSuccess t uid) uid = none ∧
    ∀ u, uid ≠ u → entryOf (authSuccess t uid) u = entryOf t u := by
  unfold RateLimit.authSuccess
  cases hf : rlFind t uid with
  | none => exact ⟨h, by rw [entryOf, hf]; rfl, fun _ _ => rfl⟩
  | some i =>
    obtain ⟨hi, hact⟩ := rlFind_some hf
    have halone : ∀ j < maxUsers, j ≠ i → ¬ (t j).active uid := fun j hj hne =>
      h.alone hj (by rw [slotOf, hf]; exact hne)
    obtain ⟨hclean, hothers⟩ := h.write hi (Sane.blank 0) (fun h0 => absurd h0 (Nat.lt_irrefl 0)) halone
    refine ⟨hclean, ?_, fun u hu => hothers u (fun h0 => absurd h0 (Nat.lt_irrefl 0)) fun ha => hu (hact.1.symm.trans ha.1)⟩
    apply Option.eq_none_iff_forall_ne_some.2
    intro e he
    obtain ⟨j, hj, -, hactj⟩ := hclean.entryOf_iff.1 he
    by_cases hji : j = i
    · rw [hji, update_self] at hactj
      exact absurd hactj.2 (Nat.lt_irrefl 0)
    · rw [update_of_ne hji] at hactj
      exact halone j hj hji hactj

theorem step_fail {t' : Table} (h : authFail t ticks uid = (b, t')) : step t (.fail ticks uid) = (some b, t') := by
  rw [step, h]

/-- **A call and one uid.** A call for u is `ownStep` on its entry; another call that spares u leaves its entry alone. -/
theorem step_entry (h : Clean t) {c : Call} (hc : c.early) (u : ℕ) : Clean (step t c).2 ∧
    (c.uid = u → (step t c).1 = (ownStep u (entryOf t u) c).1 ∧
      entryOf (step t c).2 u = (ownStep u (entryOf t u) c).2) ∧
    (c.uid ≠ u → Spares u t c → entryOf (step t c).2 u = entryOf t u) := by
  cases c with
  | fail ticks uid =>
    rcases hj : judge ((entryOf t uid).getD (blank uid)) (nowNs ticks) with ⟨b, e⟩
    obtain ⟨hclean, hown, hothers⟩ := h.authFail hc hj
    rw [step_fail (h.authFail_eq hj)]
    refine ⟨hclean, fun hu => ?_, hothers u⟩
    replace hu : uid = u := hu
    subst hu
    rw [ownStep_fail hj]
    exact ⟨rfl, hown⟩
  | success uid =>
    obtain ⟨hclean, hown, hothers⟩ := h.authSuccess uid
    refine ⟨hclean, fun hu => ?_, fun hu _ => hothers u hu⟩
    subst hu
    exact ⟨rfl, hown⟩

/-- **The table in every history.** No uid ever has two entries, and no counter passes 7: past the threshold a failure counts
only when the lockout before it is over. -/
theorem table_run_clean (cs : List Call) (h : ∀ c ∈ cs, c.early) : Clean (after step init cs) :=
  after_inv (fun _ c ht hc => (step_entry ht hc.1 c.uid).1) Clean.init
    (Always.and_mem (P := fun _ _ => True) (Always.of_forall (fun _ _ => trivial) init cs) h)

theorem table_run_clean_five : Clean (after step init ((List.range 5).map fun i => Call.fail i 7)) :=
  table_run_clean _ (by decide)

/-! ## Two histories -/

/-- the answers of auth_fail(u) in a history -/
def answers (u : ℕ) (t : Table) : List Call → List Bool
  | [] => []
  | c :: cs => (if c.uid = u then (step t c).1.toList else []) ++ answers u (step t c).2 cs

/-- the calls for u -/
def callsOf (u : ℕ) (cs : List Call) : List Call := cs.filter fun c => decide (c.uid = u)

/-- u alone -/
def ownAnswers (u : ℕ) (o : Option Entry) (cs : List Call) : List Bool := (trace (ownStep u) o cs).flatMap Option.toList

/-- a call before the clock wraps that does not evict u -/
def Harmless (u : ℕ) (t : Table) (c : Call) : Prop := c.early ∧ Spares u t c

instance (u : ℕ) (t : Table) (c : Call) : Decidable (Harmless u t c) := inferInstanceAs (Decidable (_ ∧ _))

/-- what u sees of a history is what it would see alone -/
theorem answers_own {u : ℕ} (h : Clean t) {cs : List Call} (hcs : Always step (Harmless u) t cs) :
    answers u t cs = ownAnswers u (entryOf t u) (callsOf u cs) ∧
    entryOf (after step t cs) u = after (ownStep u) (entryOf t u) (callsOf u cs) := by
  induction cs generalizing t with
  | nil => exact ⟨rfl, rfl⟩
  | cons c cs ih =>
    obtain ⟨hc, hrest⟩ := hcs
    obtain ⟨hclean, hown, hothers⟩ := step_entry h hc.1 u
    obtain ⟨ih1, ih2⟩ := ih hclean hrest
    rw [answers, after, ih1, ih2]
    by_cases hu : c.uid = u
    · have hstep := hown hu
      have hcalls : callsOf u (c :: cs) = c :: callsOf u cs := List.filter_cons_of_pos (decide_eq_true hu)
      rw [if_pos hu, hcalls, ownAnswers, ownAnswers, trace, after, hstep.1, hstep.2]
      exact ⟨rfl, rfl⟩
    · have hcalls : callsOf u (c :: cs) = callsOf u cs := List.filter_cons_of_neg (by simpa using hu)
      rw [if_neg hu, hcalls, hothers hu hc.2]
      exact ⟨rfl, rfl⟩

/-- **Lockouts are undisturbed.** Two histories from boot that agree on the calls for u, none of whose calls evicts the entry
of u, give the same answers of auth_fail(u) and leave u with the same lockout. -/
theorem lockout_undisturbed (u : ℕ) (cs ds : List Call) (hagree : callsOf u cs = callsOf u ds)
    (hcs : Always step (Harmless u) init cs) (hds : Always step (Harmless u) init ds) :
    answers u init cs = answers u init ds ∧ entryOf (after step init cs) u = entryOf (after step init ds) u := by
  obtain ⟨h1, h2⟩ := answers_own Clean.init hcs
  obtain ⟨h3, h4⟩ := answers_own Clean.init hds
  exact ⟨by rw [h1, h3, hagree], by rw [h2, h4, hagree]⟩

/-- five failures of uid 1000 -/
def lockUser : List Call := [.fail 1 1000, .fail 2 1000, .fail 3 1000, .fail 4 1000, .fail 5 1000]

/-- 32 uids that fail once -/
def crowd : List Call := (range 32).map fun i => .fail 6 (2000 + i)

theorem lockout_undisturbed_three :
    answers 1000 init (lockUser ++ [.fail 7 1000]) = answers 1000 init (lockUser ++ crowd.take 3 ++ [.fail 7 1000]) :=
  (lockout_undisturbed 1000 (lockUser ++ [.fail 7 1000]) (lockUser ++ crowd.take 3 ++ [.fail 7 1000]) (by decide)
    (by decide +kernel) (by decide +kernel)).1

/-- 32 failures of other uids end the lockout of uid 1000 -/
theorem lockout_evicted : callsOf 1000 (lockUser ++ [.fail 7 1000]) = callsOf 1000 (lockUser ++ crowd ++ [.fail 7 1000]) ∧
    answers 1000 init (lockUser ++ [.fail 7 1000]) = [false, false, false, false, true, true] ∧
    answers 1000 init (lockUser ++ crowd ++ [.fail 7 1000]) = [false, false, false, false, true, false] := by
  decide +kernel

end OpenASD.RateLimit
