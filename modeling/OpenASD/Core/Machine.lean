/-
Machines whose steps may fail: postconditions of a call, runs, conditions on the steps of a run, and the rule that what
one step keeps, a run keeps.
-/
import Mathlib.Tactic.Basic

namespace OpenASD.Machine

/-! ## Calls that may fail -/

section

variable {ε β γ : Type*} {bad : ε → Prop} {Q : β → Prop} {R : γ → Prop}

/-- a call does not fail in a bad way, and what it returns has Q -/
def Ensures (bad : ε → Prop) (Q : β → Prop) : Except ε β → Prop
  | .ok b => Q b
  | .error e => ¬ bad e

variable {x : Except ε β}

theorem Ensures.bind {f : β → Except ε γ} (hx : Ensures bad Q x)
    (hf : ∀ b, Q b → Ensures bad R (f b)) : Ensures bad R (x.bind f) := by
  cases x with
  | error e => exact hx
  | ok b => exact hf b hx

theorem Ensures.mono {Q' : β → Prop} (hx : Ensures bad Q x) (h : ∀ b, Q b → Q' b) : Ensures bad Q' x := by
  cases x with
  | error e => exact hx
  | ok b => exact h b hx

theorem Ensures.ok {b : β} (hx : Ensures bad Q x) (h : x = .ok b) : Q b := by
  subst h
  exact hx

theorem Ensures.not_bad {e : ε} (hx : Ensures bad Q x) (he : bad e) : x ≠ .error e := by
  rintro rfl
  exact hx he

/-- a check of what a call returns, for calls that are evaluated -/
def returns (x : Except ε β) (f : β → Bool) : Bool :=
  match x with
  | .ok b => f b
  | .error _ => false

theorem returns_iff {f : β → Bool} : returns x f = true ↔ ∃ b, x = .ok b ∧ f b = true := by
  cases x with
  | error e => exact ⟨fun h => (nomatch h), fun ⟨_, h, _⟩ => (nomatch h)⟩
  | ok b => exact ⟨fun h => ⟨b, rfl, h⟩, fun ⟨_, h, h'⟩ => Except.ok.inj h ▸ h'⟩

/-- a call that is evaluated returns, and what is checked of the result gives the rest -/
theorem exists_ok {P Q : β → Prop} [DecidablePred P] (h : returns x (fun b => decide (P b)) = true)
    (hQ : ∀ b, x = .ok b → P b → Q b) : ∃ b, x = .ok b ∧ Q b := by
  obtain ⟨b, hb, hP⟩ := returns_iff.1 h
  exact ⟨b, hb, hQ b hb (of_decide_eq_true hP)⟩

end

/-! ## Runs -/

section

variable {σ α ε : Type*} (step : σ → α → Except ε σ)

def run (s : σ) : List α → Except ε σ
  | [] => .ok s
  | a :: as => (step s a).bind fun s' => run s' as

/-- every step of a run meets P in the state in which it is taken -/
def Along (P : σ → α → Prop) (s : σ) : List α → Prop
  | [] => True
  | a :: as => P s a ∧ ∀ s', step s a = .ok s' → Along P s' as

/-- the same, to be evaluated -/
def along (P : σ → α → Bool) (s : σ) : List α → Bool
  | [] => true
  | a :: as => P s a && match step s a with
    | .ok s' => along P s' as
    | .error _ => true

end

section

variable {σ α ε : Type*} {step : σ → α → Except ε σ} {s s' : σ} {a : α} {as bs : List α} {I : σ → Prop}

theorem bind_eq_ok {β γ : Type*} {x : Except ε β} {f : β → Except ε γ} {r : γ} :
    x.bind f = .ok r ↔ ∃ b, x = .ok b ∧ f b = .ok r := by
  cases x with
  | error e => exact ⟨fun h => (nomatch h), fun ⟨_, h, _⟩ => (nomatch h)⟩
  | ok b => exact ⟨fun h => ⟨b, rfl, h⟩, fun ⟨_, h, h'⟩ => Except.ok.inj h ▸ h'⟩

theorem run_cons : run step s (a :: as) = .ok s' ↔ ∃ s1, step s a = .ok s1 ∧ run step s1 as = .ok s' := bind_eq_ok

theorem along_of {P : σ → α → Bool} (h : along step P s as = true) : Along step (fun s a => P s a = true) s as := by
  induction as generalizing s with
  | nil => trivial
  | cons a as ih =>
    obtain ⟨h1, h2⟩ := Bool.and_eq_true_iff.1 h
    refine ⟨h1, fun s' hs => ?_⟩
    rw [hs] at h2
    exact ih h2

/-- what every step under P keeps, every run under P keeps -/
theorem run_inv {P : σ → α → Prop} (hstep : ∀ s a s', I s → P s a → step s a = .ok s' → I s') (h : I s)
    (hP : Along step P s as) (hr : run step s as = .ok s') : I s' := by
  induction as generalizing s with
  | nil => exact Except.ok.inj hr ▸ h
  | cons a as ih =>
    obtain ⟨s1, h1, h2⟩ := run_cons.1 hr
    exact ih (hstep s a s1 h hP.1 h1) (hP.2 s1 h1) h2

/-- the same without a condition on the steps -/
theorem run_inv_all (hstep : ∀ s a s', I s → step s a = .ok s' → I s') (h : I s) (hr : run step s as = .ok s') : I s' := by
  induction as generalizing s with
  | nil => exact Except.ok.inj hr ▸ h
  | cons a as ih =>
    obtain ⟨s1, h1, h2⟩ := run_cons.1 hr
    exact ih (hstep s a s1 h h1) h2

end

/-! ## Calls that return a result -/

section

variable {σ τ α β : Type*}

/-- the results of a run -/
def trace (step : σ → α → β × σ) (s : σ) : List α → List β
  | [] => []
  | a :: as => (step s a).1 :: trace step (step s a).2 as

/-- the state after a run -/
def after (step : σ → α → β × σ) (s : σ) : List α → σ
  | [] => s
  | a :: as => after step (step s a).2 as

theorem after_append (step : σ → α → β × σ) (s : σ) (as bs : List α) :
    after step s (as ++ bs) = after step (after step s as) bs := by
  induction as generalizing s with
  | nil => rfl
  | cons a as ih => exact ih (step s a).2

/-- every call of a run meets P in the state in which it is made -/
def Always (step : σ → α → β × σ) (P : σ → α → Prop) (s : σ) : List α → Prop
  | [] => True
  | a :: as => P s a ∧ Always step P (step s a).2 as

instance decidableAlways (step : σ → α → β × σ) (P : σ → α → Prop) [h : ∀ s a, Decidable (P s a)] :
    (s : σ) → (as : List α) → Decidable (Always step P s as)
  | _, [] => .isTrue trivial
  | s, a :: as => @instDecidableAnd _ _ (h s a) (decidableAlways step P (step s a).2 as)

variable {P : σ → α → Prop} {s : σ} {as : List α} {step : σ → α → β × σ} {I : σ → Prop}

/-- **Simulation.** Two machines whose calls return the same and stay related have the same results. -/
theorem trace_eq {f : σ → α → β × σ} {g : τ → α → β × τ} {R : σ → τ → Prop}
    (hsim : ∀ s t a, R s t → P s a → (f s a).1 = (g t a).1 ∧ R (f s a).2 (g t a).2) {t : τ}
    (h : R s t) (hP : Always f P s as) : trace f s as = trace g t as := by
  induction as generalizing s t with
  | nil => rfl
  | cons a as ih =>
    obtain ⟨h1, h2⟩ := hsim s t a h hP.1
    rw [trace, trace, h1, ih h2 hP.2]

theorem Always.of_forall (h : ∀ s a, P s a) (s : σ) (as : List α) : Always step P s as := by
  induction as generalizing s with
  | nil => trivial
  | cons a as ih => exact ⟨h s a, ih (step s a).2⟩

/-- a condition on the calls alone -/
theorem Always.and_mem {Q : α → Prop}
    (h : Always step P s as) (hQ : ∀ a ∈ as, Q a) : Always step (fun s a => Q a ∧ P s a) s as := by
  induction as generalizing s with
  | nil => trivial
  | cons a as ih =>
    exact ⟨⟨hQ a List.mem_cons_self, h.1⟩, ih h.2 fun b hb => hQ b (List.mem_cons_of_mem a hb)⟩

/-- what a call under P does in states of I, all calls of a run under P do -/
theorem Always.mono {Q : σ → α → Prop}
    (hstep : ∀ s a, I s → P s a → Q s a ∧ I (step s a).2) (h : I s) (hP : Always step P s as) :
    Always step Q s as := by
  induction as generalizing s with
  | nil => trivial
  | cons a as ih =>
    obtain ⟨hQ, hI⟩ := hstep s a h hP.1
    exact ⟨hQ, ih hI hP.2⟩

/-- what every call under P keeps, every run under P keeps -/
theorem after_inv (hstep : ∀ s a, I s → P s a → I (step s a).2) (h : I s) (hP : Always step P s as) :
    I (after step s as) := by
  induction as generalizing s with
  | nil => exact h
  | cons a as ih => exact ih (hstep s a h hP.1) hP.2

end

end OpenASD.Machine
