/-
The passwd text line by line (kernel/usr/usr.c): how far `usr_write_passwd` goes in its buffer, and whose password a line
changes in `usr_load_passwd`.

The writer stops copying a field two bytes before the end of the buffer, but the blanks behind the first seven fields of an
account have no guard. Once the text has reached the end, each of them goes a byte further.

The reader finds the account by the uid alone, which it takes from the digits at the start of the second token modulo 2^16.
The name of the line plays no part in it.

Results:
- `write_bound_iff`: the text and its NUL stay in the buffer exactly if there is room up to the shell of the last account;
- `load_line_iff`: a line changes the password of the account that it names and of no other exactly if no other account has
  the uid that the reader makes of the line.
-/
import OpenASD.Usr.Passwd

namespace OpenASD.Usr

open List (flatMap_cons foldl_cons foldl_nil length_append length_singleton)

/-! ## The end of the buffer -/

/-- the positions that are stored to: the characters one after another, and the NUL behind them -/
def stores (text : Text) : List ℕ := List.range (text.length + 1)

/-- a field and its blank, which is written in any case -/
def copyBlank (n : ℕ) (out s : Text) : Text := copyField n out s ++ [' ']

/-- fields with a blank behind each -/
def blanked (fs : List Text) : Text := fs.flatMap (· ++ [' '])

/-- the text up to the shell of the last account, with its blank, leaves two bytes -/
def Fits (db : Accounts) (n : ℕ) : Prop :=
  ∀ u, db.users.getLast? = some u →
    (passwdText db.users.dropLast).length + (blanked ((fields u).take 6)).length + 2 ≤ n

section Writer

variable (n : ℕ) (out : Text)

theorem length_copyField (s : Text) : (copyField n out s).length = out.length + min (n - 2 - out.length) s.length := by
  simp [copyField]

theorem length_copyBlank (s : Text) :
    (copyBlank n out s).length = out.length + min (n - 2 - out.length) s.length + 1 := by
  simp [copyBlank, length_copyField]

/-- fields that fit are copied whole, and others go to the end of the buffer at least -/
theorem length_copyBlanks (fs : List Text) :
    min (n - 1) (out.length + (blanked fs).length) ≤ (fs.foldl (copyBlank n) out).length ∧
    (out.length + (blanked fs).length ≤ n - 1 →
      (fs.foldl (copyBlank n) out).length = out.length + (blanked fs).length) := by
  induction fs generalizing out with
  | nil => simp [blanked]
  | cons s fs ih =>
    have hs := length_copyBlank n out s
    have hrest := ih (copyBlank n out s)
    simp only [blanked, flatMap_cons, length_append, length_singleton, foldl_cons] at hrest ⊢
    omega

/-- a line is its first six fields, the salt and the hash, with the blanks, and a newline if there is room -/
theorem length_writeUser (u : User) : ∃ x y, x = (((fields u).take 6).foldl (copyBlank n) out).length ∧
    y = x + min (n - 2 - x) 16 + 1 ∧ (writeUser n out u).length =
      if y + min (n - 2 - y) 16 < n - 1 then y + min (n - 2 - y) 16 + 1 else y + min (n - 2 - y) 16 := by
  refine ⟨_, _, rfl, rfl, ?_⟩
  have hcopy : copyFields n out (fields u) = copyField n (copyBlank n (((fields u).take 6).foldl (copyBlank n) out)
      (fmtHex64 u.pwSalt)) (fmtHex64 u.pwHash) := rfl
  simp only [writeUser, hcopy, apply_ite List.length, length_append, length_singleton, length_copyField,
    length_copyBlank, length_fmtHex64]

theorem length_line (u : User) : (line u).length = (blanked ((fields u).take 6)).length + 34 := by
  simp [line, fields, joinFields, blanked, length_fmtHex64]
  omega

/-- lines that do not fit go to the end of the buffer at least -/
theorem le_writeUsers (us : List User) :
    min (n - 1) (out.length + (us.flatMap line).length) ≤ (us.foldl (writeUser n) out).length := by
  induction us generalizing out with
  | nil => simp
  | cons u us ih =>
    obtain ⟨hfront, -⟩ := length_copyBlanks n out ((fields u).take 6)
    obtain ⟨x, y, hx, hy, hu⟩ := length_writeUser n out u
    have hl := length_line u
    have hrest := ih (writeUser n out u)
    simp only [flatMap_cons, length_append, foldl_cons] at hrest ⊢
    split_ifs at hu <;> omega

end Writer

/-- **The writer and its buffer.** For every database and every buffer of 8 bytes or more, all stores are inside the buffer
and the length is smaller than it, exactly if `Fits`. -/
theorem write_bound_iff (db : Accounts) {n : ℕ} (hn : 8 ≤ n) :
    ∃ text, usrWritePasswd db n = some text ∧ ((∀ p ∈ stores text, p < n) ∧ text.length < n ↔ Fits db n) := by
  refine ⟨_, if_neg (Nat.not_lt.2 hn), ?_⟩
  have hstores : ∀ text : Text, (∀ p ∈ stores text, p < n) ∧ text.length < n ↔ text.length < n := by
    intro text
    simp only [stores, List.mem_range, and_iff_right_iff_imp]
    intro h p hp
    omega
  have hhead : (passwdHeader.take (n - 1)).length = min (n - 1) 8 := List.length_take
  rw [hstores, Fits]
  obtain hnil | ⟨us, u, hus⟩ := List.eq_nil_or_concat db.users
  · simp only [hnil, foldl_nil, hhead, List.getLast?_nil]
    simp
    omega
  have hlen : (passwdText us).length = 8 + (us.flatMap line).length := by
    rw [passwdText, length_append]
    rfl
  rw [hus, List.concat_eq_append, List.foldl_append, foldl_cons, foldl_nil]
  simp only [List.getLast?_append_of_ne_nil _ (List.cons_ne_nil u []), List.getLast?_singleton, Option.some.injEq,
    forall_eq', List.dropLast_concat, hlen]
  have hle := le_writeUsers n (passwdHeader.take (n - 1)) us
  -- nothing is cut where there is room
  have hroom : 8 + (us.flatMap line).length ≤ n - 1 →
      (us.foldl (writeUser n) (passwdHeader.take (n - 1))).length = 8 + (us.flatMap line).length := by
    intro h
    rw [writeUsers_fit (by omega), length_append]
    omega
  rw [hhead] at hle
  generalize us.foldl (writeUser n) (passwdHeader.take (n - 1)) = out at hle hroom ⊢
  obtain ⟨x, y, hx, hy, hu⟩ := length_writeUser n out u
  obtain ⟨hfront, hfits⟩ := length_copyBlanks n out ((fields u).take 6)
  constructor
  · intro hlt
    split_ifs at hu <;> omega
  · intro hfit
    split_ifs at hu <;> omega

theorem write_bound_iff_root : ∃ text, usrWritePasswd (usrInit 0) 4096 = some text ∧ text.length < 4096 := by
  obtain ⟨text, h, hiff⟩ := write_bound_iff (usrInit 0) (n := 4096) (by decide)
  have hfits : Fits (usrInit 0) 4096 := by
    intro u hu
    obtain rfl := Option.some.inj hu
    decide +kernel
  exact ⟨text, h, (hiff.2 hfits).2⟩

/-- **Past the end.** In a buffer of 8 bytes the line of root makes seven blanks behind the end. -/
theorem write_past_end : ∃ text, usrWritePasswd (usrInit 0) 8 = some text ∧ 8 ∈ stores text ∧ text.length = 14 :=
  ⟨_, rfl, by decide +kernel, by decide +kernel⟩

/-! ## The account of a line -/

/-- the tokens of a line; none for one that is skipped -/
def lineTokens (p : Text) : Option Tokens :=
  let p := skipWs p
  if p.head? = some '#' ∨ p.head? = some '\n' ∨ p = [] then none
  else
    let t := (readTokens p).1
    if t.name = [] ∨ t.uid = [] ∨ t.gid = [] then none else some t

/-- what the loop does with the line at p -/
def loadLine (ent : UInt64) (db : Accounts) (p : Text) : Accounts :=
  match lineTokens p with
  | none => db
  | some t => applyLine db ent t

/-- the words of the line at p -/
def words (p : Text) : List Text := ((p.takeWhile (· ≠ '\n')).splitOnP isSpace).filter (· ≠ [])

/-- a decimal number; none for another word -/
def decimal (s : Text) : Option ℕ :=
  if s ≠ [] ∧ s.all isDigit then some (s.foldl (fun v c => v * 10 + (c.toNat - '0'.toNat)) 0) else none

/-- the name and the uid that are written on the line are those of the account -/
def Names (p : Text) (u : User) : Prop :=
  (words p)[0]? = some u.name ∧ (words p)[1]?.bind decimal = some u.uid.toNat

/-- the reader takes this account for that of the line, which has another salt or hash for it -/
def Overwrites (t : Tokens) (u : User) : Prop :=
  u.uid = UInt16.ofNat (uAtou t.uid) ∧
    (isHex64 t.salt = true ∧ parseHex64 t.salt ≠ u.pwSalt ∨ isHex64 t.hash = true ∧ parseHex64 t.hash ≠ u.pwHash)

section Reader

variable {db : Accounts} {u : User} {ent : UInt64}

/-- every round of the loop is one line -/
theorem loadLoop_loadLine {ent : ℕ → UInt64} {stop f loaded : ℕ} {p : Text}
    (h : stop < p.length ∧ p ≠ [] ∧ loaded < usrMaxUsers) :
    ∃ p' loaded', loadLoop ent stop (f + 1) db p loaded = loadLoop ent stop f (loadLine (ent loaded) db p) p' loaded' := by
  simp only [loadLoop, if_pos h, loadLine, lineTokens]
  split_ifs <;> exact ⟨_, _, rfl⟩

/-- an account stays when another is added -/
theorem mem_addUser (ent : UInt64) (hu : u ∈ db.users) (uid gid : UInt16) (t : Tokens) : u ∈ (addUser db uid gid t ent).users := by
  unfold addUser
  split_ifs
  · cases h : usrAdd db uid gid t.name [] (flagsOf t.flags) (orNull t.home) (orNull t.shell) ent with
    | none => exact hu
    | some db' =>
      obtain ⟨-, -, -, -, husers⟩ := usrAdd_users h
      rw [Option.getD_some, husers]
      exact List.mem_append_left _ hu
  · exact hu

/-- an account after a line -/
theorem applyLine_find (hu : u ∈ db.users) (t : Tokens) : usrFindByUid (applyLine db ent t) u.uid =
    some (if u.uid = UInt16.ofNat (uAtou t.uid) then
      { u with
        pwSalt := if isHex64 t.salt then parseHex64 t.salt else u.pwSalt
        pwHash := if isHex64 t.hash then parseHex64 t.hash else u.pwHash }
      else u) := by
  rw [← addGroup_users db (UInt16.ofNat (uAtou t.gid))] at hu
  have hmem := mem_addUser ent hu (UInt16.ofNat (uAtou t.uid)) (UInt16.ofNat (uAtou t.gid)) t
  unfold applyLine
  dsimp only
  generalize addUser _ _ _ t ent = db' at hmem ⊢
  by_cases huid : u.uid = UInt16.ofNat (uAtou t.uid)
  · rw [applyHash, ← huid, find_mem db' hmem, if_pos rfl]
    exact setCredentials_find hmem
  rw [if_neg huid]
  unfold applyHash
  split
  · exact find_mem db' hmem
  · apply find_mem
    exact List.mem_map.2 ⟨u, hmem, if_neg huid⟩

/-- **One line.** For every database and every text: the line at p changes the salt or the hash of no account but that whose
name and uid are written on it, exactly if the account that the reader finds by its number, if it gets another salt or hash, is
that one. -/
theorem load_line_iff (db : Accounts) (ent : UInt64) (p : Text) :
    (∀ u ∈ db.users, ∀ v, usrFindByUid (loadLine ent db p) u.uid = some v →
      v.pwSalt ≠ u.pwSalt ∨ v.pwHash ≠ u.pwHash → Names p u) ↔
    ∀ u ∈ db.users, ∀ t, lineTokens p = some t → Overwrites t u → Names p u := by
  apply forall₂_congr
  intro u hu
  unfold loadLine
  cases lineTokens p with
  | none => simp [find_mem db hu]
  | some t =>
    simp only [applyLine_find hu, Option.some.injEq, forall_eq', Overwrites]
    split_ifs <;> simp_all

end Reader

/-- a line of another name with the uid of root, and one of root with a number that is 0 modulo 2^16 -/
def strayLines : List Text :=
  ["mallory 0 0 - / / 0000000000000001 0000000000000001".toList,
    "root 65536 0 - / / 0000000000000001 0000000000000001".toList]

/-- **Root's password.** Each of the lines gives root another hash, and none names the account. -/
theorem root_overwritten : rootUser ∈ (usrInit 0).users ∧ ∀ p ∈ strayLines, ¬ Names p rootUser ∧
    ∃ v, usrFindByUid (loadLine 0 (usrInit 0) p) rootUser.uid = some v ∧ v.pwHash ≠ rootUser.pwHash := by
  have hall : ∀ p ∈ strayLines, ¬ Names p rootUser ∧
      ((usrFindByUid (loadLine 0 (usrInit 0) p) rootUser.uid).map User.pwHash = some 1) := by
    unfold Names
    decide +kernel
  refine ⟨List.mem_singleton_self rootUser, fun p hp => ?_⟩
  obtain ⟨hno, hv⟩ := hall p hp
  obtain ⟨v, hv, h1⟩ := Option.map_eq_some_iff.1 hv
  exact ⟨hno, v, hv, by rw [h1]; decide⟩

end OpenASD.Usr
