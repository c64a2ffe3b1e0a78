/-
The command line of the kernel (kernel/entry.c: kernel_cmdline_has).

The loops advance one 32-bit index over a text that may hold any bytes. A round of the outer loop starts at the first byte of
a token, compares the key with it and goes on behind the next space (`round_eq`).

`cmdline_has_iff`: the function returns 1 exactly if the key is a token; it returns 0 for every other key, unless the text
has 2^32 - 1 bytes: then the index wraps, and the search may start anew for ever.
-/
import Mathlib.Algebra.Group.Nat.Defs
import Mathlib.Data.List.TakeWhile

namespace OpenASD.Boot

/-- `g_cmdline`, with `g_cmdline_len` bytes -/
structure Cmdline where
  text : List UInt8
  len_lt : text.length < 2 ^ 32

/-- a C string that can be a token -/
structure Key where
  text : List UInt8
  nonempty : text ≠ []
  nul : 0 ∉ text
  space : 32 ∉ text

/-- the loop that compares, from the index i: what is left of the key, and the index -/
def matchKey (cmd : List UInt8) : List UInt8 → ℕ → List UInt8 × ℕ
  | [], i => ([], i)
  | c :: k, i => if cmd[i]? = some c then matchKey cmd k (i + 1) else (c :: k, i)

/-- the loop that goes on to the next space -/
def skipToken (cmd : List UInt8) (i : ℕ) : ℕ := i + ((cmd.drop i).takeWhile (· ≠ 32)).length

/-- the outer loop from the index i; none if it takes more rounds -/
def search (cmd key : List UInt8) : ℕ → ℕ → Option Bool
  | 0, _ => none
  | rounds + 1, i =>
    if i < cmd.length then
      let (k, i) := matchKey cmd key i
      if k = [] ∧ (cmd.length ≤ i ∨ cmd[i]? = some 32) then some true
      else search cmd key rounds ((skipToken cmd i + 1) % 2 ^ 32)
    else some false

/-- without a command line the answer is 0 -/
def kernelCmdlineHas (cmd : Option Cmdline) (key : Key) (rounds : ℕ) : Option Bool :=
  match cmd with
  | none => some false
  | some cmd => search cmd.text key.text rounds 0

def tokens (text : List UInt8) : List (List UInt8) := text.splitOn 32

/-! ## A round -/

section

variable {cmd key : List UInt8} {i : ℕ}

/-- a part of the key is compared, that of the text is the same -/
theorem matchKey_eq (cmd key : List UInt8) (i : ℕ) : ∃ m k, key = m ++ k ∧ m <+: cmd.drop i ∧
    matchKey cmd key i = (k, i + m.length) ∧ ∀ c, k.head? = some c → cmd[i + m.length]? ≠ some c := by
  induction key generalizing i with
  | nil => exact ⟨[], [], rfl, List.nil_prefix, rfl, nofun⟩
  | cons c key ih =>
    rw [matchKey]
    by_cases hc : cmd[i]? = some c
    · obtain ⟨m, k, rfl, ⟨r, hr⟩, he, hk⟩ := ih (i + 1)
      obtain ⟨hi, hget⟩ := List.getElem?_eq_some_iff.1 hc
      have hlen : i + 1 + m.length = i + (c :: m).length := by
        rw [List.length_cons]
        omega
      rw [hlen] at he hk
      refine ⟨c :: m, k, rfl, ⟨r, ?_⟩, by rw [if_pos hc, he], hk⟩
      rw [List.cons_append, hr, List.drop_eq_getElem_cons hi, hget]
    · refine ⟨[], c :: key, rfl, List.nil_prefix, if_neg hc, fun d hd => ?_⟩
      obtain rfl := Option.some.inj hd
      exact hc

theorem skipToken_le (hi : i < cmd.length) : skipToken cmd i ≤ cmd.length := by
  have h := (List.takeWhile_prefix (p := fun c : UInt8 => decide (c ≠ 32)) (l := cmd.drop i)).length_le
  rw [List.length_drop] at h
  unfold skipToken
  omega

/-- **A round.** It compares the key with the token at i, and goes on behind that. -/
theorem round_eq (hkey : 32 ∉ key) (hi : i < cmd.length) (rounds : ℕ) : search cmd key (rounds + 1) i =
    if (cmd.drop i).takeWhile (· ≠ 32) = key then some true else search cmd key rounds ((skipToken cmd i + 1) % 2 ^ 32) := by
  obtain ⟨m, k, rfl, ⟨r, hr⟩, he, hk⟩ := matchKey_eq cmd key i
  have hm : ∀ c ∈ m, decide (c ≠ 32) = true := fun c hc =>
    decide_eq_true fun e => hkey (List.mem_append_left k (e ▸ hc))
  have hdrop : cmd.drop (i + m.length) = r := by rw [← List.drop_drop, ← hr, List.drop_left]
  have hget : cmd[i + m.length]? = r.head? := by rw [← hdrop, List.head?_drop]
  have hend : cmd.length ≤ i + m.length ↔ r = [] := by rw [← hdrop, List.drop_eq_nil_iff]
  have hskip : skipToken cmd (i + m.length) = skipToken cmd i := by
    rw [skipToken, skipToken, hdrop, ← hr, List.takeWhile_append_of_pos hm, List.length_append, Nat.add_assoc]
  -- the rest of the token is the rest of the key exactly if both are at their end
  have hiff : k = [] ∧ (cmd.length ≤ i + m.length ∨ cmd[i + m.length]? = some 32) ↔
      (cmd.drop i).takeWhile (· ≠ 32) = m ++ k := by
    rw [← hr, List.takeWhile_append_of_pos hm, List.append_cancel_left_eq, hend, hget]
    rw [hget] at hk
    cases r with
    | nil => simp
    | cons d r =>
      by_cases hd : d = 32
      · simp [hd]
      · cases k with
        | nil => simp [hd]
        | cons c k =>
          have hne : d ≠ c := fun e => hk c rfl (congrArg some e)
          simp [hd, hne]
  rw [search, if_pos hi, he]
  dsimp only
  rw [hskip]
  exact if_congr hiff rfl rfl

/-- the tokens from i on: the first of them, and behind a space those that follow -/
theorem tokens_drop (cmd : List UInt8) (i : ℕ) :
    (cmd.length ≤ skipToken cmd i ∧ tokens (cmd.drop i) = [(cmd.drop i).takeWhile (· ≠ 32)]) ∨
      skipToken cmd i < cmd.length ∧
        tokens (cmd.drop i) = (cmd.drop i).takeWhile (· ≠ 32) :: tokens (cmd.drop (skipToken cmd i + 1)) := by
  have hsplit : (cmd.drop i).takeWhile (· ≠ 32) ++ (cmd.drop i).dropWhile (· ≠ 32) = cmd.drop i :=
    List.takeWhile_append_dropWhile
  have hfree : 32 ∉ (cmd.drop i).takeWhile (· ≠ 32) := fun hm => by simpa using List.mem_takeWhile_imp hm
  have hhead := List.head?_dropWhile_not (fun c : UInt8 => decide (c ≠ 32)) (cmd.drop i)
  have hlen := congrArg List.length hsplit
  rw [List.length_append, List.length_drop] at hlen
  unfold skipToken tokens
  generalize (cmd.drop i).takeWhile (· ≠ 32) = w at *
  cases hd : (cmd.drop i).dropWhile (· ≠ 32) with
  | nil =>
    rw [hd, List.append_nil] at hsplit
    rw [hd, List.length_nil] at hlen
    refine .inl ⟨by omega, ?_⟩
    rw [← hsplit, List.splitOn_eq_singleton hfree]
  | cons c r =>
    rw [hd] at hsplit hhead
    rw [hd, List.length_cons] at hlen
    obtain rfl : c = 32 := by simpa using hhead
    have hrest : cmd.drop (i + w.length + 1) = r := by
      rw [← List.drop_drop, ← List.drop_drop, ← hsplit, List.drop_left, List.drop_one, List.tail_cons]
    refine .inr ⟨by omega, ?_⟩
    rw [hrest, ← hsplit, List.splitOn_append_cons_self_of_not_mem hfree]

theorem first_token (cmd : List UInt8) (i : ℕ) : (cmd.drop i).takeWhile (· ≠ 32) ∈ tokens (cmd.drop i) := by
  obtain ⟨-, he⟩ | ⟨-, he⟩ := tokens_drop cmd i
  all_goals
    rw [he]
    exact List.mem_cons_self

end

/-! ## The search -/

section

variable {cmd key : List UInt8} (hkey : 32 ∉ key) (h0 : key ≠ []) {i : ℕ}

section

include h0

/-- a key that is not the token at i is looked for behind that -/
theorem next_tokens (htok : (cmd.drop i).takeWhile (· ≠ 32) ≠ key) :
    key ∈ tokens (cmd.drop (skipToken cmd i + 1)) ↔ key ∈ tokens (cmd.drop i) := by
  obtain ⟨hend, he⟩ | ⟨-, he⟩ := tokens_drop cmd i
  · rw [he, List.drop_eq_nil_of_le (Nat.le_succ_of_le hend), List.mem_singleton]
    exact iff_of_false (fun e => h0 (List.mem_singleton.1 e)) htok.symm
  · rw [he, List.mem_cons, or_iff_right htok.symm]

end

include hkey h0

/-- what is found is a token, also after the index has wrapped -/
theorem search_sound (hlen : cmd.length < 2 ^ 32) {rounds i : ℕ} (hi : key ∈ tokens (cmd.drop i) → key ∈ tokens cmd)
    (h : search cmd key rounds i = some true) : key ∈ tokens cmd := by
  induction rounds generalizing i with
  | zero => cases h
  | succ rounds ih =>
    by_cases hlt : i < cmd.length
    · rw [round_eq hkey hlt] at h
      split_ifs at h with htok
      · exact hi (htok ▸ first_token cmd i)
      refine ih (fun hmem => ?_) h
      have hskip := skipToken_le hlt
      by_cases hwrap : skipToken cmd i + 1 = 2 ^ 32
      · rwa [hwrap, Nat.mod_self] at hmem
      · rw [Nat.mod_eq_of_lt (by omega)] at hmem
        exact hi ((next_tokens h0 htok).1 hmem)
    · rw [search, if_neg hlt] at h
      cases h

/-- **The search ends** with the right answer if the index does not wrap before it -/
theorem search_ends (h : cmd.length + 1 < 2 ^ 32 ∨ cmd.length < 2 ^ 32 ∧ key ∈ tokens (cmd.drop i)) :
    ∃ rounds, search cmd key rounds i = some (decide (key ∈ tokens (cmd.drop i))) := by
  induction hn : cmd.length - i using Nat.strong_induction_on generalizing i with
  | _ n ih =>
    subst hn
    have hempty : ∀ j, cmd.length ≤ j → key ∉ tokens (cmd.drop j) := fun j hj hmem => by
      rw [List.drop_eq_nil_of_le hj] at hmem
      exact h0 (List.mem_singleton.1 hmem)
    by_cases hlt : i < cmd.length
    · by_cases htok : (cmd.drop i).takeWhile (· ≠ 32) = key
      · have hmem : key ∈ tokens (cmd.drop i) := htok ▸ first_token cmd i
        exact ⟨1, by rw [round_eq hkey hlt, if_pos htok, decide_eq_true hmem]⟩
      have hnext := next_tokens h0 htok
      have hle : i ≤ skipToken cmd i := Nat.le_add_right _ _
      have hskip := skipToken_le hlt
      have hbound : skipToken cmd i + 1 < 2 ^ 32 := by
        rcases h with h | ⟨h, hmem⟩
        · omega
        · have hin := Nat.lt_of_not_le fun hge => hempty (skipToken cmd i + 1) hge (hnext.2 hmem)
          omega
      obtain ⟨rounds, hr⟩ := ih _ (by omega) (h.imp_right (And.imp_right hnext.2)) rfl
      refine ⟨rounds + 1, ?_⟩
      rw [round_eq hkey hlt, if_neg htok, Nat.mod_eq_of_lt hbound, hr, decide_eq_decide.2 hnext]
    · exact ⟨1, by rw [search, if_neg hlt, decide_eq_false (hempty i (Nat.le_of_not_lt hlt))]⟩

end

/-- **Tokens of the command line.** For every command line and every key the function returns 1 exactly if the key is one of
the tokens; and it returns, with 0 for the other keys, if the command line has fewer than 2^32 - 1 bytes. -/
theorem cmdline_has_iff (cmd : Cmdline) (key : Key) :
    ((∃ n, kernelCmdlineHas (some cmd) key n = some true) ↔ key.text ∈ tokens cmd.text) ∧
      (cmd.text.length + 1 < 2 ^ 32 → ∃ n, kernelCmdlineHas (some cmd) key n = some (decide (key.text ∈ tokens cmd.text))) := by
  refine ⟨⟨fun ⟨n, h⟩ => search_sound key.space key.nonempty cmd.len_lt (i := 0) id h, fun h => ?_⟩, fun hlen => ?_⟩
  · obtain ⟨n, hn⟩ := search_ends key.space key.nonempty (i := 0) (.inr ⟨cmd.len_lt, h⟩)
    exact ⟨n, hn.trans (congrArg some (decide_eq_true h))⟩
  · exact search_ends key.space key.nonempty (i := 0) (.inl hlen)

end OpenASD.Boot
