/-
The limiter against a sliding window (kernel/security/security.c: auth_fail). What it should do is said of the log of a uid,
the calls of auth_fail for it since its last auth_success: a call is due for the answer 1 when it is the fifth failure of the
last 60 s, or comes at most 30 s after a call that imposed a lockout.

The entry of the table keeps one fixed window. When it expires, its failures are forgotten, those of the last 60 s too.

- `Few.harmless`: with at most 32 active uids no entry is evicted, so the table acts as one entry for each uid;
- `Tracks.fail`: what the entry of a uid says about its log, kept by auth_fail;
- `sliding_window_sound`: every call that is due is answered 1, if each window that expires does so after 60 s without a
  failure. `sliding_window_broken`: five failures in 12 s that straddle the end of a window.
-/
import OpenASD.Security.RateLimit

namespace OpenASD.SlidingWindow

open Machine RateLimit

/-! ## The log of a uid -/

/-- a call of auth_fail: when, what it returned, and whether it started a lockout -/
structure Seen where
  time : ℕ
  answer : Bool
  imposed : Bool
deriving DecidableEq, Repr

def lockedOut (t : Table) (u now : ℕ) : Bool :=
  match entryOf t u with
  | some e => decide (now < e.lockoutUntil)
  | none => false

/-- the log of u, newest call first -/
def observe (u : ℕ) (t : Table) (log : List Seen) : Call → List Seen
  | .fail ticks v =>
    if v = u then
      ⟨nowNs ticks, (authFail t ticks v).1, (authFail t ticks v).1 && !lockedOut t v (nowNs ticks)⟩ :: log
    else log
  | .success v => if v = u then [] else log

variable (u : ℕ) (s : Table × List Seen)

/-- the table with the log of u beside it -/
def record (c : Call) : Option Bool × Table × List Seen :=
  ((step s.1 c).1, (step s.1 c).2, observe u s.1 s.2 c)

/-- the answer 1 is due: the fifth failure in 60 s, or at most 30 s after a lockout started -/
def Due (log : List Seen) (s : Seen) : Prop :=
  threshold ≤ ((s :: log).filter fun x => decide (s.time ≤ x.time + windowNs)).length ∨
  ∃ x ∈ log, x.imposed = true ∧ s.time ≤ x.time + lockoutNs

instance (log : List Seen) (s : Seen) : Decidable (Due log s) := inferInstanceAs (Decidable (_ ∨ _))

/-- every call that is due has the answer 1 -/
def Limited : List Seen → Prop
  | [] => True
  | s :: log => (Due log s → s.answer = true) ∧ Limited log

instance decidableLimited : (log : List Seen) → Decidable (Limited log)
  | [] => .isTrue trivial
  | s :: log => @instDecidableAnd (Due log s → s.answer = true) _ inferInstance (decidableLimited log)

/-- time does not go back for u -/
def Ordered : Call → Prop
  | .fail ticks v => v = u → ∀ x ∈ s.2, x.time ≤ nowNs ticks
  | .success _ => True

/-- a window that has expired when u fails, outside a lockout, leaves no failure of the last 60 s behind -/
def Quiet (o : Option Entry) (log : List Seen) (now : ℕ) : Prop :=
  ∀ e ∈ o, e.lockoutUntil ≤ now → e.firstFail + windowNs < now → ∀ x ∈ log, x.time + windowNs < now

/-- windows of u expire quietly -/
def Expires : Call → Prop
  | .fail ticks v => v = u → Quiet (entryOf s.1 u) s.2 (nowNs ticks)
  | .success _ => True

/-- the clock does not wrap, and windows of u expire quietly -/
def QuietCall (c : Call) : Prop := c.early ∧ Expires u s c

/-- at most 32 uids are active, those of s before the history -/
def Few (s : Finset ℕ) : List Call → Prop
  | [] => True
  | .fail _ v :: cs => (insert v s).card ≤ maxUsers ∧ Few (insert v s) cs
  | .success v :: cs => Few (s.erase v) cs

section

variable (u : ℕ) (s : Table × List Seen)

instance : (c : Call) → Decidable (Ordered u s c)
  | .fail ticks v => inferInstanceAs (Decidable (v = u → ∀ x ∈ s.2, x.time ≤ nowNs ticks))
  | .success _ => inferInstanceAs (Decidable True)

instance (o : Option Entry) (log : List Seen) (now : ℕ) : Decidable (Quiet o log now) :=
  inferInstanceAs (Decidable (∀ e ∈ o, e.lockoutUntil ≤ now → e.firstFail + windowNs < now →
    ∀ x ∈ log, x.time + windowNs < now))

instance : (c : Call) → Decidable (Expires u s c)
  | .fail ticks v => inferInstanceAs (Decidable (v = u → Quiet (entryOf s.1 u) s.2 (nowNs ticks)))
  | .success _ => inferInstanceAs (Decidable True)

instance (c : Call) : Decidable (QuietCall u s c) := inferInstanceAs (Decidable (_ ∧ _))

end

instance decidableFew : (s : Finset ℕ) → (cs : List Call) → Decidable (Few s cs)
  | _, [] => .isTrue trivial
  | s, .fail _ v :: cs => @instDecidableAnd ((insert v s).card ≤ maxUsers) _ inferInstance (decidableFew (insert v s) cs)
  | s, .success v :: cs => decidableFew (s.erase v) cs

/-! ## No eviction -/

/-- the active uids -/
def Active (t : Table) (s : Finset ℕ) : Prop := ∀ v, v ∈ s ↔ entryOf t v ≠ none

variable {t : Table} {cs : List Call} {cur old log : List Seen} {e : Entry} {now : ℕ} {s : Finset ℕ} {u : ℕ}

section

variable (h : Active t s) (ht : Clean t)
include h ht

/-- a full table has 32 active uids -/
theorem Active.full (hfull : freeSlot t = none) : maxUsers ≤ s.card := by
  have hpos : ∀ i < maxUsers, 0 < (t i).failCount := by
    intro i hi
    have hused := List.find?_eq_none.1 hfull i (List.mem_range.2 hi)
    exact Nat.pos_of_ne_zero (by simpa using hused)
  calc maxUsers = (Finset.range maxUsers).card := (Finset.card_range maxUsers).symm
    _ ≤ s.card := by
      apply Finset.card_le_card_of_injOn fun i => (t i).uid
      · intro i hi
        have hi' := Finset.mem_range.1 hi
        have he : entryOf t (t i).uid = some (t i) := ht.entryOf_iff.2 ⟨i, hi', rfl, rfl, hpos i hi'⟩
        rw [Finset.mem_coe, h, he]
        exact Option.some_ne_none _
      · intro i hi j hj hij
        have hi' := Finset.mem_range.1 hi
        have hj' := Finset.mem_range.1 hj
        exact ht.unique i hi' j hj' (hpos i hi') (hpos j hj') hij

/-- there is an entry or a free slot for one more active uid -/
theorem Active.room {v : ℕ}
    (hfew : (insert v s).card ≤ maxUsers) : rlFind t v ≠ none ∨ freeSlot t ≠ none := by
  by_contra hno
  rw [not_or, not_not, not_not] at hno
  have hv : v ∉ s := by
    rw [h, not_not, entryOf, hno.1]
    rfl
  have hfull := h.full ht hno.2
  rw [Finset.card_insert_of_notMem hv] at hfew
  exact absurd hfew (Nat.not_le.2 (Nat.lt_succ_of_le hfull))

theorem Active.fail {ticks v : ℕ}
    (hc : (Call.fail ticks v).early) (hroom : rlFind t v ≠ none ∨ freeSlot t ≠ none) :
    Active (step t (.fail ticks v)).2 (insert v s) := by
  intro w
  obtain ⟨-, hown, hothers⟩ := step_entry ht hc w
  rw [Finset.mem_insert]
  by_cases hw : v = w
  · rw [(hown hw).2]
    rcases hj : judge ((entryOf t w).getD (blank w)) (nowNs ticks) with ⟨b, e⟩
    rw [ownStep_fail hj]
    exact ⟨fun _ => Option.some_ne_none e, fun _ => .inl hw.symm⟩
  · rw [hothers hw (.inr (hroom.elim .inl fun hs => .inr (.inl hs))), ← h w]
    exact ⟨fun hor => hor.resolve_left (Ne.symm hw), .inr⟩

theorem Active.success (v : ℕ) :
    Active (step t (.success v)).2 (s.erase v) := by
  intro w
  obtain ⟨-, hown, hothers⟩ := step_entry ht (c := .success v) trivial w
  rw [Finset.mem_erase]
  by_cases hw : v = w
  · rw [(hown hw).2]
    exact ⟨fun hmem => absurd hw.symm hmem.1, fun hne => absurd rfl hne⟩
  · rw [hothers hw trivial, ← h w]
    exact ⟨And.right, fun hmem => ⟨Ne.symm hw, hmem⟩⟩

end

/-- **No eviction.** With at most 32 active uids no call takes the slot of u. -/
theorem Few.harmless (hfew : Few s cs) (ht : Clean t) (h : Active t s)
    (hearly : ∀ c ∈ cs, c.early) (u : ℕ) : Always step (Harmless u) t cs := by
  induction cs generalizing t s with
  | nil => trivial
  | cons c cs ih =>
    have hc := hearly c List.mem_cons_self
    have hclean := (step_entry ht hc u).1
    have hrest : ∀ d ∈ cs, d.early := fun d hd => hearly d (List.mem_cons_of_mem c hd)
    cases c with
    | fail ticks v =>
      have hroom := h.room ht hfew.1
      exact ⟨⟨hc, .inr (hroom.elim .inl fun hs => .inr (.inl hs))⟩,
        ih hfew.2 hclean (h.fail ht hc hroom) hrest⟩
    | success v => exact ⟨⟨hc, trivial⟩, ih hfew hclean (h.success ht v) hrest⟩

/-! ## The window and the log -/

/-- the window of an entry: the calls that it has seen, and those before -/
structure Window (e : Entry) (cur old : List Seen) : Prop where
  sane : e.Sane
  pos : 0 < e.failCount
  nonempty : cur ≠ []
  since : ∀ x ∈ cur, e.firstFail ≤ x.time
  before : ∀ x ∈ old, x.time + windowNs < e.firstFail
  counted : threshold ≤ e.failCount ∨ cur.length ≤ e.failCount
  -- a lockout that outlasts the start of the window was imposed in it
  locked : e.lockoutUntil ≤ e.firstFail ∨ threshold ≤ e.failCount
  charged : ∀ x ∈ cur, x.imposed = true → threshold ≤ e.failCount

/-- the log of a uid with that entry -/
inductive Tracks : Option Entry → List Seen → Prop
  | fresh : Tracks none []
  | window {e : Entry} {cur old : List Seen} (h : Window e cur old) : Tracks (some e) (cur ++ old)

theorem Tracks.cons {s : Seen} (h : Window e (s :: cur) old) : Tracks (some e) (s :: (cur ++ old)) := Tracks.window h

/-- few calls in the window, none of them a lockout, and the others are too old: nothing is due -/
theorem not_due {s : Seen} (hold : ∀ x ∈ old, x.time + windowNs < s.time)
    (hfew : cur.length + 1 < threshold) (hfree : ∀ x ∈ cur, x.imposed ≠ true) : ¬ Due (cur ++ old) s := by
  rintro (hmany | ⟨x, hx, himposed, hsoon⟩)
  · have hnone : (old.filter fun x => decide (s.time ≤ x.time + windowNs)) = [] := by
      apply List.filter_eq_nil_iff.2
      intro x hx
      simpa using hold x hx
    have hlen : ((s :: (cur ++ old)).filter fun x => decide (s.time ≤ x.time + windowNs)).length ≤ cur.length + 1 := by
      rw [← List.cons_append, List.filter_append, hnone, List.append_nil]
      exact List.length_filter_le _ _
    exact absurd (hmany.trans hlen) (Nat.not_le.2 hfew)
  · rcases List.mem_append.1 hx with hx | hx
    · exact hfree x hx himposed
    · have hlate := hold x hx
      rw [windowNs_eq] at hlate
      omega

/-- a new window: the log so far is older than 60 s -/
theorem Window.start (hnow : now + windowNs < 2 ^ 64)
    (huntil : e.lockoutUntil ≤ now) (hold : ∀ x ∈ log, x.time + windowNs < now) :
    Window ⟨e.uid, 1, now, e.lockoutUntil⟩ [⟨now, false, false⟩] log := by
  refine ⟨⟨Nat.succ_le_succ (Nat.zero_le 6), fun h5 => ?_, fun h0 => absurd h0 Nat.one_ne_zero, hnow⟩, Nat.one_pos,
    List.cons_ne_nil _ _, ?_, hold, .inr le_rfl, .inl huntil, ?_⟩
  · exact absurd h5 (Nat.not_le.2 (Nat.lt_add_of_pos_right (Nat.succ_pos 3)))
  · intro x hx
    rw [List.mem_singleton.1 hx]
  · intro x hx himposed
    rw [List.mem_singleton.1 hx] at himposed
    exact absurd himposed Bool.false_ne_true

/-- after a call: it was answered as is due, and the entry fits the log -/
def Kept (log : List Seen) (now : ℕ) (locked : Bool) (r : Bool × Entry) : Prop :=
  (Due log ⟨now, r.1, r.1 && !locked⟩ → r.1 = true) ∧ Tracks (some r.2) (⟨now, r.1, r.1 && !locked⟩ :: log)

theorem Kept.start (locked : Bool) (hnow : now + windowNs < 2 ^ 64)
    (huntil : e.lockoutUntil ≤ now) (hold : ∀ x ∈ log, x.time + windowNs < now) :
    Kept log now locked (false, ⟨e.uid, 1, now, e.lockoutUntil⟩) :=
  ⟨fun hdue => absurd hdue (@not_due [] log _ hold (by decide) fun x hx => absurd hx List.not_mem_nil),
    Tracks.window (Window.start hnow huntil hold)⟩

theorem Window.fail (h : Window e cur old) (hnow : now + windowNs < 2 ^ 64)
    (hmono : ∀ x ∈ cur ++ old, x.time ≤ now) (hquiet : Quiet (some e) (cur ++ old) now) :
    Kept (cur ++ old) now (decide (now < e.lockoutUntil)) (judge e now) := by
  obtain ⟨hsane', -, -⟩ := h.sane.judge hnow
  have hfirst : e.firstFail ≤ now := by
    obtain ⟨x, hx⟩ := List.exists_mem_of_ne_nil cur h.nonempty
    exact (h.since x hx).trans (hmono x (List.mem_append_left old hx))
  have hcons : ∀ s : Seen, s.time = now → ∀ x ∈ s :: cur, e.firstFail ≤ x.time := by
    intro s hs x hx
    rcases List.mem_cons.1 hx with rfl | hx
    · rw [hs]
      exact hfirst
    · exact h.since x hx
  rw [h.sane.judge_eq hnow] at hsane' ⊢
  split_ifs at hsane' ⊢ with hlock hstale hfive
  · -- locked out: the window counts five failures already
    have hfive : threshold ≤ e.failCount := h.locked.resolve_left fun hle => absurd (hle.trans hfirst) (Nat.not_le.2 hlock)
    exact ⟨fun _ => rfl, Tracks.cons ⟨h.sane, h.pos, List.cons_ne_nil _ _, hcons _ rfl, h.before, .inl hfive, .inr hfive,
      fun _ _ _ => hfive⟩⟩
  · -- the window has expired, and with it every failure of the log
    have hover : e.firstFail + windowNs < now := by
      rcases hstale with h0 | hback | hover
      · exact absurd h0 h.pos.ne'
      · exact absurd hfirst (Nat.not_le.2 hback)
      · exact hover
    exact Kept.start _ hnow (not_lt.1 hlock) (hquiet e rfl (not_lt.1 hlock) hover)
  · exact ⟨fun _ => rfl, Tracks.cons ⟨hsane', Nat.succ_pos _, List.cons_ne_nil _ _, hcons _ rfl, h.before, .inl hfive,
      .inr hfive, fun _ _ _ => hfive⟩⟩
  -- four failures or fewer, this one included
  have hcur : cur.length ≤ e.failCount := h.counted.resolve_left fun h5 => absurd h5 (by omega)
  have hfree : ∀ x ∈ cur, x.imposed ≠ true := fun x hx hi => absurd (h.charged x hx hi) (by omega)
  have hold : ∀ x ∈ old, x.time + windowNs < now := fun x hx => (h.before x hx).trans_le hfirst
  refine ⟨fun hdue => absurd hdue (not_due hold (by omega) hfree), Tracks.cons ⟨hsane', Nat.succ_pos _,
    List.cons_ne_nil _ _, hcons _ rfl, h.before, .inr (Nat.succ_le_succ hcur), .inl ?_, ?_⟩⟩
  · exact h.locked.resolve_right fun h5 => absurd h5 (by omega)
  intro x hx hi
  rcases List.mem_cons.1 hx with rfl | hx
  · exact absurd hi Bool.false_ne_true
  · exact absurd hi (hfree x hx)

/-- **The entry and the log.** auth_fail keeps what the entry says about the log, and answers 1 where that is due. -/
theorem Tracks.fail {o : Option Entry} (h : Tracks o log) (hnow : now + windowNs < 2 ^ 64)
    (hmono : ∀ x ∈ log, x.time ≤ now) (hquiet : Quiet o log now) :
    Kept log now (o.elim false fun e => decide (now < e.lockoutUntil)) (judge (o.getD (blank u)) now) := by
  cases h with
  | window hw => exact hw.fail hnow hmono hquiet
  | fresh =>
    have hopen : ¬ now < (blank u).lockoutUntil := Nat.not_lt_zero now
    have hstale : (blank u).Stale now := .inl rfl
    rw [Option.getD_none, (Sane.blank u).judge_eq hnow, if_neg hopen, if_pos hstale]
    exact Kept.start _ hnow (Nat.zero_le now) fun x hx => absurd hx List.not_mem_nil

/-! ## Whole histories -/

/-- the table and the log of u after some history -/
structure Good (u : ℕ) (s : Table × List Seen) : Prop where
  clean : Clean s.1
  tracks : Tracks (entryOf s.1 u) s.2
  limited : Limited s.2

theorem entryOf_init (u : ℕ) : entryOf init u = none := by
  apply Option.eq_none_iff_forall_ne_some.2
  intro e he
  obtain ⟨i, -, -, hact⟩ := Clean.init.entryOf_iff.1 he
  exact absurd hact.2 (Nat.lt_irrefl 0)

theorem Good.init (u : ℕ) : Good u (init, []) := by
  refine ⟨Clean.init, ?_, trivial⟩
  rw [entryOf_init]
  exact Tracks.fresh

theorem lockedOut_eq (t : Table) (u now : ℕ) :
    lockedOut t u now = (entryOf t u).elim false fun e => decide (now < e.lockoutUntil) := by
  unfold lockedOut
  cases entryOf t u <;> rfl

theorem observe_fail (h : Clean t) {ticks : ℕ} {b : Bool}
    (hj : judge ((entryOf t u).getD (blank u)) (nowNs ticks) = (b, e)) :
    observe u t log (.fail ticks u) = ⟨nowNs ticks, b, b && !lockedOut t u (nowNs ticks)⟩ :: log := by
  rw [observe, if_pos rfl, h.authFail_eq hj]

/-- one call for u -/
theorem Good.own (h : Good u (t, log)) {c : Call} (hu : c.uid = u)
    (horder : Ordered u (t, log) c) (hquiet : QuietCall u (t, log) c) :
    Tracks (entryOf (step t c).2 u) (observe u t log c) ∧ Limited (observe u t log c) := by
  obtain ⟨-, hown, -⟩ := step_entry h.clean hquiet.1 u
  rw [(hown hu).2]
  cases c with
  | success v =>
    have hcleared : observe u t log (.success v) = [] := if_pos hu
    rw [hcleared]
    exact ⟨Tracks.fresh, trivial⟩
  | fail ticks v =>
    replace hu : v = u := hu
    subst hu
    have hkept := h.tracks.fail (u := v) (nowNs_early hquiet.1) (horder rfl) (hquiet.2 rfl)
    rw [← lockedOut_eq] at hkept
    rcases hj : judge ((entryOf t v).getD (blank v)) (nowNs ticks) with ⟨b, e⟩
    rw [hj] at hkept
    rw [ownStep_fail hj, observe_fail h.clean hj]
    exact ⟨hkept.2, hkept.1, h.limited⟩

/-- one call -/
theorem Good.record {s : Table × List Seen} (h : Good u s) {c : Call} (hspare : Spares u s.1 c)
    (horder : Ordered u s c) (hquiet : QuietCall u s c) : Good u (record u s c).2 := by
  obtain ⟨t, log⟩ := s
  obtain ⟨hclean, -, hothers⟩ := step_entry h.clean hquiet.1 u
  by_cases hu : c.uid = u
  · obtain ⟨htracks, hlimited⟩ := h.own hu horder hquiet
    exact ⟨hclean, htracks, hlimited⟩
  have hlog : observe u t log c = log := by
    cases c with
    | fail ticks v | success v => exact if_neg hu
  have hentry := hothers hu hspare
  refine ⟨hclean, ?_, ?_⟩
  · show Tracks (entryOf (step t c).2 u) (observe u t log c)
    rw [hentry, hlog]
    exact h.tracks
  · show Limited (observe u t log c)
    rw [hlog]
    exact h.limited

/-- all calls -/
theorem Good.run {s : Table × List Seen} (h : Good u s) (hspare : Always step (Harmless u) s.1 cs)
    (horder : Always (SlidingWindow.record u) (Ordered u) s cs)
    (hquiet : Always (SlidingWindow.record u) (QuietCall u) s cs) : Good u (after (SlidingWindow.record u) s cs) := by
  induction cs generalizing s with
  | nil => exact h
  | cons c cs ih => exact ih (h.record hspare.1.2 horder.1 hquiet.1) hspare.2 horder.2 hquiet.2

theorem QuietCall.early {s : Table × List Seen}
    (h : Always (SlidingWindow.record u) (QuietCall u) s cs) : ∀ c ∈ cs, c.early := by
  induction cs generalizing s with
  | nil => exact fun c hc => absurd hc List.not_mem_nil
  | cons d cs ih =>
    intro c hc
    rcases List.mem_cons.1 hc with rfl | hc
    · exact h.1.1
    · exact ih h.2 c hc

/-- **The limiter against the sliding window.** In every history from boot with at most 32 active uids and times of u that do
not go back, in which every window of u that expires does so after 60 s without a failure, each call of auth_fail(u) since
the last auth_success(u) that is due is answered 1. -/
theorem sliding_window_sound (u : ℕ) (cs : List Call) (hfew : Few ∅ cs)
    (horder : Always (SlidingWindow.record u) (Ordered u) (RateLimit.init, []) cs)
    (hquiet : Always (SlidingWindow.record u) (QuietCall u) (RateLimit.init, []) cs) :
    Limited (after (SlidingWindow.record u) (RateLimit.init, []) cs).2 := by
  have hactive : Active RateLimit.init ∅ := by
    intro v
    rw [entryOf_init]
    exact ⟨fun hv => absurd hv (Finset.notMem_empty v), fun hv => absurd rfl hv⟩
  have hspare := hfew.harmless Clean.init hactive (QuietCall.early hquiet) u
  exact ((Good.init u).run hspare horder hquiet).limited

/-- uid 1000 fails at these times, in s -/
def failsAt (secs : List ℕ) : List Call := secs.map fun t => .fail (100 * t) 1000

/-- a lockout at 5 s, a call within it, and a new window after a quiet minute -/
theorem sliding_window_sound_lock :
    Limited (after (SlidingWindow.record 1000) (RateLimit.init, []) (failsAt [1, 2, 3, 4, 5, 20, 100, 101])).2 :=
  sliding_window_sound 1000 (failsAt [1, 2, 3, 4, 5, 20, 100, 101]) (by decide +kernel) (by decide +kernel)
    (by decide +kernel)

/-- the failures at 51, 52, 53, 62 and 63 s are five in 12 s, but the window of the one at 1 s ends between them -/
theorem sliding_window_broken : Few ∅ (failsAt [1, 51, 52, 53, 62, 63]) ∧
    Always (SlidingWindow.record 1000) (Ordered 1000) (RateLimit.init, []) (failsAt [1, 51, 52, 53, 62, 63]) ∧
    ¬ Limited (after (SlidingWindow.record 1000) (RateLimit.init, []) (failsAt [1, 51, 52, 53, 62, 63])).2 := by
  decide +kernel

end OpenASD.SlidingWindow
