/-
The passwd text (kernel/usr/usr.c: `usr_write_passwd`, `usr_load_passwd`), and the databases that there are, with those that
the installer makes (init/installer.c: `apply_install_credentials`). One line for each account: name, uid, gid, flags,
home, shell, salt and hash, with one blank between them. Strings are lists of characters up to their NUL.

The writer stops copying a field at the end of the buffer, but blanks between fields are written in any case. The reader
takes tokens of bounded length, skips lines that start with `#`, and applies salt and hash to the account with the uid of the
line, whether the line has made it or not.

One word stands for the flags, so of two flags one is lost. A line whose name starts with `#` is a comment, an empty home or
shell shifts the fields after it, and of two accounts with the same name only the first is loaded.

Results:
- `loaded_clean`: a database that is loaded, from whatever text, has one flag at most for each account, no name that starts
  with `#`, no empty home or shell, and no name twice;
- `round_trip_iff`: a database comes back as it was exactly if it is such a database;
- `two_flags_lost`: a locked account of the wheel group is loaded without its lock.
-/
import Mathlib.Data.List.TakeWhile
import OpenASD.Core.Numeral
import OpenASD.Usr.Accounts

namespace OpenASD.Usr

open Numeral
open List (cons_ne_nil flatMap_cons length_append length_cons length_map length_take_le map_append map_map mem_append
  mem_cons mem_cons_self mem_map mem_map_of_mem mem_singleton not_mem_nil take_of_length_le)

/-! ## Characters -/

def isSpace (c : Char) : Bool := c == ' ' || c == '\t' || c == '\n' || c == '\r'

def isDigit (c : Char) : Bool := decide ('0' ≤ c ∧ c ≤ '9')

/-- the digits of both bases -/
def digit (d : ℕ) : Char := if d < 10 then Char.ofNat ('0'.toNat + d) else Char.ofNat ('a'.toNat + (d - 10))

/-- the value of a hexadecimal digit; none for another character -/
def hexValue (c : Char) : Option ℕ :=
  if '0' ≤ c ∧ c ≤ '9' then some (c.toNat - '0'.toNat)
  else if 'a' ≤ c ∧ c ≤ 'f' then some (c.toNat - 'a'.toNat + 10)
  else if 'A' ≤ c ∧ c ≤ 'F' then some (c.toNat - 'A'.toNat + 10)
  else none

/-! ## Writing -/

/-- the loop over `tmp`, for numbers of 32 bits -/
def decText (v : ℕ) : Text := if v = 0 then ['0'] else digits 10 digit 10 v []

/-- `fmt_hex64` -/
def fmtHex64 (v : UInt64) : Text := digitsN 16 digit 16 v.toNat []

/-- the first flag that is set -/
def flagWord (u : User) : Text :=
  if u.wheel then ['w', 'h', 'e', 'e', 'l']
  else if u.nologin then ['n', 'o', 'l', 'o', 'g', 'i', 'n']
  else if u.locked then ['l', 'o', 'c', 'k', 'e', 'd']
  else ['-']

/-- the fields of an account's line -/
def fields (u : User) : List Text :=
  [u.name, decText u.uid.toNat, decText u.gid.toNat, flagWord u, u.home, u.shell, fmtHex64 u.pwSalt, fmtHex64 u.pwHash]

/-- copy a field into a buffer of n bytes that has out in it already -/
def copyField (n : ℕ) (out s : Text) : Text := out ++ s.take (n - 2 - out.length)

/-- fields with blanks between them; no blank after the last -/
def copyFields (n : ℕ) : Text → List Text → Text
  | out, [] => out
  | out, [s] => copyField n out s
  | out, s :: t :: r => copyFields n (copyField n out s ++ [' ']) (t :: r)

def writeUser (n : ℕ) (out : Text) (u : User) : Text :=
  let out := copyFields n out (fields u)
  if out.length < n - 1 then out ++ ['\n'] else out

/-- "#ASDPW1" and a newline -/
def passwdHeader : Text := ['#', 'A', 'S', 'D', 'P', 'W', '1', '\n']

variable (db : Accounts)

/-- the text that is in the buffer; none for -1. The result of the source is its length. -/
def usrWritePasswd (n : ℕ) : Option Text :=
  if n < 8 then none else some (db.users.foldl (writeUser n) (passwdHeader.take (n - 1)))

/-! ## Reading -/

/-- a C string ends at its first NUL -/
def cstr (buf : Text) : Text := buf.takeWhile (· ≠ Char.ofNat 0)

def skipWs (p : Text) : Text := p.dropWhile fun c => isSpace c && c != '\n'

/-- a token into a field of n bytes, and where it ends -/
def readTok (n : ℕ) (p : Text) : Text × Text :=
  let p := skipWs p
  let tok := (p.takeWhile fun c => !isSpace c).take (n - 1)
  (tok, p.drop tok.length)

def nextLine (p : Text) : Text := (p.dropWhile (· ≠ '\n')).tail

/-- `u_atou`, on 32 bits -/
def uAtou (s : Text) : ℕ :=
  (s.takeWhile isDigit).foldl (fun v c => (v * 10 + (c.toNat - '0'.toNat)) % 2 ^ 32) 0

/-- the first 16 characters are hexadecimal digits -/
def isHex64 (s : Text) : Bool := decide ((s.take 16).length = 16) && (s.take 16).all fun c => (hexValue c).isSome

/-- of at most 16 digits -/
def parseHex64 (s : Text) : UInt64 :=
  UInt64.ofNat (((s.take 16).takeWhile fun c => (hexValue c).isSome).foldl (fun v c => v * 16 + (hexValue c).getD 0) 0)

structure Tokens where
  name : Text
  uid : Text
  gid : Text
  flags : Text
  home : Text
  shell : Text
  salt : Text
  hash : Text
deriving DecidableEq

def readTokens (p : Text) : Tokens × Text :=
  let (name, p) := readTok usrNameLen p
  let (uid, p) := readTok 16 p
  let (gid, p) := readTok 16 p
  let (flags, p) := readTok 32 p
  let (home, p) := readTok usrHomeLen p
  let (shell, p) := readTok usrShellLen p
  let (salt, p) := readTok 20 p
  let (hash, p) := readTok 20 p
  (⟨name, uid, gid, flags, home, shell, salt, hash⟩, p)

def flagsOf (w : Text) : UInt32 :=
  (if w = ['w', 'h', 'e', 'e', 'l'] then 1 else 0) ||| (if w = ['n', 'o', 'l', 'o', 'g', 'i', 'n'] then 2 else 0) |||
    (if w = ['l', 'o', 'c', 'k', 'e', 'd'] then 4 else 0)

/-- an empty field is passed as NULL -/
def orNull (s : Text) : Option Text := if s = [] then none else some s

def addGroup (gid : UInt16) : Accounts :=
  if (grpFindByGid db gid).isSome then db
  else (grpAdd db gid ['u', 'n', 'k', 'n', 'o', 'w', 'n']).getD db

def addUser (uid gid : UInt16) (t : Tokens) (ent : UInt64) : Accounts :=
  if (usrFindByUid db uid).isNone && (usrFindByName db t.name).isNone then
    (usrAdd db uid gid t.name [] (flagsOf t.flags) (orNull t.home) (orNull t.shell) ent).getD db
  else db

/-- salt and hash, each if it is one -/
def applyHash (uid : UInt16) (t : Tokens) : Accounts :=
  match usrFindByUid db uid with
  | none => db
  | some u =>
    setCredentials db uid (if isHex64 t.salt then parseHex64 t.salt else u.pwSalt)
      (if isHex64 t.hash then parseHex64 t.hash else u.pwHash)

/-- a line with a name, a uid and a gid; `ent` is what the entropy source gives for a new account -/
def applyLine (ent : UInt64) (t : Tokens) : Accounts :=
  let uid := UInt16.ofNat (uAtou t.uid)
  let gid := UInt16.ofNat (uAtou t.gid)
  applyHash (addUser (addGroup db gid) uid gid t ent) uid t

/-- the loop: from p on, with the number of lines loaded so far; `stop` is the length of the rest at the end of the buffer -/
def loadLoop (ent : ℕ → UInt64) (stop : ℕ) : ℕ → Accounts → Text → ℕ → Accounts × ℕ
  | 0, db, _, loaded => (db, loaded)
  | f + 1, db, p, loaded =>
    if stop < p.length ∧ p ≠ [] ∧ loaded < usrMaxUsers then
      let p := skipWs p
      if p.head? = some '#' ∨ p.head? = some '\n' ∨ p = [] then loadLoop ent stop f db (nextLine p) loaded
      else
        let (t, p) := readTokens p
        if t.name = [] ∨ t.uid = [] ∨ t.gid = [] then loadLoop ent stop f db (nextLine p) loaded
        else loadLoop ent stop f (applyLine db (ent loaded) t) (nextLine p) (loaded + 1)
    else (db, loaded)

/-- the number of lines loaded, or -1; every round moves on by a character at least, so the rounds are enough -/
def usrLoadPasswd (ent : ℕ → UInt64) (db : Accounts) (buf : Text) (len : ℕ) : Accounts × ℤ :=
  if len = 0 then (db, -1)
  else
    let p := cstr buf
    let r := loadLoop ent (p.length - len) (p.length + 1) db p 0
    (r.1, r.2)

/-! ## The text -/

/-- fields with blanks between them -/
def joinFields : List Text → Text
  | [] => []
  | [s] => s
  | s :: t :: r => s ++ ' ' :: joinFields (t :: r)

def line (u : User) : Text := joinFields (fields u) ++ ['\n']

/-- what the writer puts into a buffer that is large enough -/
def passwdText (us : List User) : Text := passwdHeader ++ us.flatMap line

variable {s : Text} {u : User} {us : List User} {db : Accounts}

section Writer

variable {n : ℕ} {out : Text}

theorem copyField_fits (h : out.length + s.length ≤ n - 2) : copyField n out s = out ++ s := by
  rw [copyField, take_of_length_le]
  omega

theorem copyFields_fits {fs : List Text} (h : out.length + (joinFields fs).length ≤ n - 2) :
    copyFields n out fs = out ++ joinFields fs := by
  fun_induction copyFields n out fs with
  | case1 => simp [joinFields]
  | case2 out s => exact copyField_fits h
  | case3 out s t r ih =>
    rw [joinFields, length_append, length_cons] at h
    have hs : copyField n out s = out ++ s := copyField_fits (by omega)
    rw [hs] at ih ⊢
    rw [ih, joinFields]
    · simp
    · rw [length_append, length_append, List.length_singleton]
      omega

theorem writeUser_fits (h : out.length + (line u).length ≤ n - 1) : writeUser n out u = out ++ line u := by
  have hl : (line u).length = (joinFields (fields u)).length + 1 := by simp [line]
  have hc : copyFields n out (fields u) = out ++ joinFields (fields u) := copyFields_fits (by omega)
  have hlt : (out ++ joinFields (fields u)).length < n - 1 := by
    rw [length_append]
    omega
  rw [writeUser]
  simp only [hc, if_pos hlt, line, List.append_assoc]

theorem writeUsers_fit (h : out.length + (us.flatMap line).length ≤ n - 1) :
    us.foldl (writeUser n) out = out ++ us.flatMap line := by
  induction us generalizing out with
  | nil => simp
  | cons u us ih =>
    rw [flatMap_cons, length_append] at h
    have hu : writeUser n out u = out ++ line u := writeUser_fits (by omega)
    rw [List.foldl_cons, hu, ih, flatMap_cons, List.append_assoc]
    rw [length_append]
    omega

/-- in a buffer that is large enough the writer puts the whole text -/
theorem write_fits (h : (passwdText db.users).length < n) :
    usrWritePasswd db n = some (passwdText db.users) := by
  rw [passwdText, length_append] at h
  have h8 : passwdHeader.length = 8 := rfl
  have hhdr : passwdHeader.take (n - 1) = passwdHeader := take_of_length_le (by omega)
  have hfold : db.users.foldl (writeUser n) passwdHeader = passwdHeader ++ db.users.flatMap line :=
    writeUsers_fit (by omega)
  rw [usrWritePasswd, if_neg (by omega), hhdr, hfold, passwdText]

end Writer

/-! ## Tokens -/

/-- a fact about every character of a text, to be evaluated along the text -/
theorem forall_mem_of_all {p : Char → Prop} [DecidablePred p] (h : (s.all fun c => decide (p c)) = true) :
    ∀ c ∈ s, p c :=
  fun c hc => of_decide_eq_true (List.all_eq_true.1 h c hc)

/-- a field that is read back: not empty, no white space, not longer than the reader's buffer of n bytes -/
structure Token (n : ℕ) (s : Text) : Prop where
  ne : s ≠ []
  solid : ∀ c ∈ s, isSpace c = false
  len : s.length ≤ n - 1

section Reader

variable {n : ℕ} {s rest : Text} {c : Char}

theorem Token.skipWs (h : Token n s) : skipWs (s ++ rest) = s ++ rest := by
  cases s with
  | nil => exact absurd rfl h.ne
  | cons a s =>
    have ha : isSpace a = false := h.solid a mem_cons_self
    simp [Usr.skipWs, ha]

section

variable (h : Token n s) (hc : isSpace c = true)
include h hc

theorem Token.takeWhile : (s ++ c :: rest).takeWhile (fun x => !isSpace x) = s := by
  rw [List.takeWhile_append_of_pos fun x hx => by rw [h.solid x hx]; rfl]
  simp [hc]

/-- a token in front of white space is read as it is -/
theorem Token.read : readTok n (s ++ c :: rest) = (s, c :: rest) := by
  have hlen : s.take (n - 1) = s := take_of_length_le h.len
  simp only [readTok, h.skipWs, h.takeWhile hc, hlen, List.drop_left]

/-- the same after the blank that separates fields -/
theorem Token.read_blank : readTok n (' ' :: (s ++ c :: rest)) = (s, c :: rest) := by
  exact h.read hc

end

end Reader

/-! ## Numbers -/

theorem hexValue_digit : ∀ d < 16, hexValue (digit d) = some d := by decide

theorem isSpace_digit : ∀ d < 16, isSpace (digit d) = false := by decide

theorem isDigit_digit : ∀ d < 10, isDigit (digit d) = true := by decide

theorem decValue_digit : ∀ d < 10, (digit d).toNat - '0'.toNat = d := by decide

variable {c : Char}

theorem decText_eq (v : ℕ) : ∃ n, 0 < n ∧ n ≤ 10 ∧ decText v = digitsN 10 digit n v [] ∧ (v < 10 ^ 10 → v < 10 ^ n) := by
  rw [decText]
  split_ifs with h0
  · exact ⟨1, by decide, by decide, by rw [h0]; rfl, fun _ => by rw [h0]; decide⟩
  · obtain ⟨n, hn, he, hlt, hpos⟩ : ∃ n ≤ 10, digits 10 digit 10 v [] = _ ∧ _ := digits_eq (by decide) 10 v []
    exact ⟨n, hpos h0 (by decide), hn, he, hlt⟩

theorem mem_decText {v : ℕ} (h : c ∈ decText v) : ∃ d < 10, c = digit d := by
  obtain ⟨n, -, -, he, -⟩ := decText_eq v
  rw [he] at h
  exact (mem_digitsN (by decide) h).resolve_left (not_mem_nil)

theorem length_decText (v : ℕ) : 0 < (decText v).length ∧ (decText v).length ≤ 10 := by
  obtain ⟨n, h0, hn, he, -⟩ := decText_eq v
  rw [he, length_digitsN]
  exact ⟨h0, hn⟩

theorem mem_fmtHex64 {v : UInt64} (h : c ∈ fmtHex64 v) : ∃ d < 16, c = digit d :=
  (mem_digitsN (by decide) h).resolve_left (not_mem_nil)

theorem decText_token (v : ℕ) : Token 16 (decText v) where
  ne := List.length_pos_iff.1 (length_decText v).1
  solid c hc := by
    obtain ⟨d, hd, rfl⟩ := mem_decText hc
    exact isSpace_digit d (by omega)
  len := (length_decText v).2.trans (by decide)

theorem length_fmtHex64 (v : UInt64) : (fmtHex64 v).length = 16 := length_digitsN 16 v.toNat []

theorem fmtHex64_token (v : UInt64) : Token 20 (fmtHex64 v) where
  ne h := by
    have hlen := length_fmtHex64 v
    rw [h] at hlen
    cases hlen
  solid c hc := by
    obtain ⟨d, hd, rfl⟩ := mem_fmtHex64 hc
    exact isSpace_digit d hd
  len := by
    rw [length_fmtHex64]
    decide

/-- arithmetic on 32 bits gives the value modulo 2^32 -/
theorem atou_value (l : Text) (x y : ℕ) (h : x % 2 ^ 32 = y % 2 ^ 32) :
    l.foldl (fun v c => (v * 10 + (c.toNat - '0'.toNat)) % 2 ^ 32) x % 2 ^ 32 =
      value 10 (fun c : Char => c.toNat - '0'.toNat) y l % 2 ^ 32 := by
  induction l generalizing x y with
  | nil => exact h
  | cons c l ih =>
    apply ih
    rw [Nat.mod_mod]
    exact Nat.ModEq.add_right _ (Nat.ModEq.mul_right 10 h)

theorem uAtou_lt (s : Text) : uAtou s < 2 ^ 32 := by
  rw [uAtou]
  induction s.takeWhile isDigit using List.reverseRecOn with
  | nil => decide
  | append_singleton l c _ =>
    rw [List.foldl_append]
    exact Nat.mod_lt _ (by decide)

theorem uAtou_decText {v : ℕ} (h : v < 2 ^ 32) : uAtou (decText v) = v := by
  have hall : (decText v).takeWhile isDigit = decText v := by
    rw [List.takeWhile_eq_self_iff]
    intro c hc
    obtain ⟨d, hd, rfl⟩ := mem_decText hc
    exact isDigit_digit d hd
  have hval : value 10 (fun c : Char => c.toNat - '0'.toNat) 0 (decText v) = v := by
    obtain ⟨n, -, -, he, hlt⟩ := decText_eq v
    rw [he]
    exact value_digitsN (by decide) decValue_digit (hlt (by omega)) []
  have hmod := atou_value (decText v) 0 0 rfl
  rw [hval, Nat.mod_eq_of_lt h] at hmod
  have hlt := uAtou_lt (decText v)
  rw [uAtou, hall] at hlt ⊢
  rwa [Nat.mod_eq_of_lt hlt] at hmod

theorem fmtHex64_hex (v : UInt64) : (fmtHex64 v).take 16 = fmtHex64 v ∧ ∀ c ∈ fmtHex64 v, (hexValue c).isSome = true := by
  refine ⟨take_of_length_le (length_fmtHex64 v).le, fun c hc => ?_⟩
  obtain ⟨d, hd, rfl⟩ := mem_fmtHex64 hc
  rw [hexValue_digit d hd]
  rfl

theorem isHex64_fmtHex64 (v : UInt64) : isHex64 (fmtHex64 v) = true := by
  obtain ⟨htake, hall⟩ := fmtHex64_hex v
  simp only [isHex64, htake, length_fmtHex64, decide_true, Bool.true_and, List.all_eq_true]
  exact hall

theorem parseHex64_fmtHex64 (v : UInt64) : parseHex64 (fmtHex64 v) = v := by
  obtain ⟨htake, hall⟩ := fmtHex64_hex v
  have hval : value 16 (fun c => (hexValue c).getD 0) 0 (fmtHex64 v) = v.toNat := by
    apply value_digitsN (by decide) _ _ []
    · intro d hd
      rw [hexValue_digit d hd]
      rfl
    · exact v.toNat_lt
  rw [parseHex64, htake, List.takeWhile_eq_self_iff.2 hall]
  rw [value] at hval
  rw [hval, UInt64.ofNat_toNat]

/-! ## Lines -/

/-- what `usr_add` sees to -/
structure Stored (u : User) : Prop where
  name : u.name ≠ []
  nameLen : u.name.length ≤ usrNameLen - 1
  homeLen : u.home.length ≤ usrHomeLen - 1
  shellLen : u.shell.length ≤ usrShellLen - 1

/-- no white space in the strings of an account, and no NUL inside of them -/
def Solid (u : User) : Prop := ∀ c ∈ u.name ++ u.home ++ u.shell, isSpace c = false ∧ c ≠ Char.ofNat 0

instance (u : User) : Decidable (Solid u) :=
  List.decidableBAll (fun c => isSpace c = false ∧ c ≠ Char.ofNat 0) (u.name ++ u.home ++ u.shell)

/-- an account whose line says all of it -/
structure Plain (u : User) : Prop where
  flags : u.flags = 0 ∨ u.flags = 1 ∨ u.flags = 2 ∨ u.flags = 4
  name : u.name.head? ≠ some '#'
  home : u.home ≠ []
  shell : u.shell ≠ []

def tokensOf (u : User) : Tokens where
  name := u.name
  uid := decText u.uid.toNat
  gid := decText u.gid.toNat
  flags := flagWord u
  home := u.home
  shell := u.shell
  salt := fmtHex64 u.pwSalt
  hash := fmtHex64 u.pwHash

/-- the lines of a text that the loop applies, whatever the database is -/
def readLines : ℕ → Text → List Tokens
  | 0, _ => []
  | f + 1, p =>
    if p = [] then []
    else
      let p := skipWs p
      if p.head? = some '#' ∨ p.head? = some '\n' ∨ p = [] then readLines f (nextLine p)
      else
        let (t, p) := readTokens p
        if t.name = [] ∨ t.uid = [] ∨ t.gid = [] then readLines f (nextLine p) else t :: readLines f (nextLine p)

/-- lines one after another, after k others -/
def applyLines (ent : ℕ → UInt64) : Accounts → ℕ → List Tokens → Accounts
  | db, _, [] => db
  | db, k, t :: ts => applyLines ent (applyLine db (ent k) t) (k + 1) ts

/-- **The loop by its lines**, for a text that ends in the buffer and has not too many -/
theorem loadLoop_eq (ent : ℕ → UInt64) (f : ℕ) (db : Accounts) (p : Text) (k : ℕ)
    (h : k + (readLines f p).length ≤ usrMaxUsers) :
    loadLoop ent 0 f db p k = (applyLines ent db k (readLines f p), k + (readLines f p).length) := by
  induction f generalizing db p k with
  | zero => rfl
  | succ f ih =>
    by_cases hgo : 0 < p.length ∧ p ≠ [] ∧ k < usrMaxUsers
    · rw [readLines, if_neg hgo.2.1] at h ⊢
      rw [loadLoop, if_pos hgo]
      dsimp only at h ⊢
      split_ifs at h ⊢
      · exact ih _ _ _ h
      · exact ih _ _ _ h
      · rw [length_cons] at h ⊢
        rw [ih _ _ _ (by omega), applyLines]
        exact Prod.ext rfl (by dsimp only; omega)
    · -- the text is at its end, or no line is left that could be too many
      have hnil : readLines (f + 1) p = [] := by
        by_cases hp : p = []
        · rw [readLines, if_pos hp]
        · have hk : usrMaxUsers ≤ k := not_lt.1 fun hk => hgo ⟨List.length_pos_of_ne_nil hp, hp, hk⟩
          exact List.length_eq_zero_iff.1 (by omega)
      rw [loadLoop, if_neg hgo, hnil]
      rfl

theorem flagWord_token (u : User) : Token 32 (flagWord u) := by
  rw [flagWord]
  split_ifs
  all_goals exact ⟨by decide, forall_mem_of_all (by decide), by decide⟩

theorem flagsOf_flagWord (h : Plain u) : flagsOf (flagWord u) = u.flags := by
  rw [flagWord, User.wheel, User.nologin, User.locked]
  rcases h.flags with h | h | h | h <;> rw [h] <;> decide

section Line

variable {u : User} {rest : Text}

theorem Solid.name (h : Solid u) : ∀ c ∈ u.name, isSpace c = false := fun c hc => (h c (by simp [hc])).1

theorem Solid.home (h : Solid u) : ∀ c ∈ u.home, isSpace c = false := fun c hc => (h c (by simp [hc])).1

theorem Solid.shell (h : Solid u) : ∀ c ∈ u.shell, isSpace c = false := fun c hc => (h c (by simp [hc])).1

theorem name_token (hs : Stored u) (hw : Solid u) : Token usrNameLen u.name := ⟨hs.name, hw.name, hs.nameLen⟩

theorem line_append (u : User) (rest : Text) : line u ++ rest =
    u.name ++ ' ' :: (decText u.uid.toNat ++ ' ' :: (decText u.gid.toNat ++ ' ' :: (flagWord u ++ ' ' ::
      (u.home ++ ' ' :: (u.shell ++ ' ' :: (fmtHex64 u.pwSalt ++ ' ' :: (fmtHex64 u.pwHash ++ '\n' :: rest))))))) := by
  simp [line, fields, joinFields]

/-- the line of an account is read as its fields -/
theorem readTokens_line (hs : Stored u) (hp : Plain u) (hw : Solid u) :
    readTokens (line u ++ rest) = (tokensOf u, '\n' :: rest) := by
  have hblank : isSpace ' ' = true := rfl
  have hend : isSpace '\n' = true := rfl
  have hhome : Token usrHomeLen u.home := ⟨hp.home, hw.home, hs.homeLen⟩
  have hshell : Token usrShellLen u.shell := ⟨hp.shell, hw.shell, hs.shellLen⟩
  rw [line_append]
  simp only [readTokens, (name_token hs hw).read hblank, (decText_token _).read_blank hblank,
    (flagWord_token u).read_blank hblank, hhome.read_blank hblank, hshell.read_blank hblank,
    (fmtHex64_token _).read_blank hblank, (fmtHex64_token _).read_blank hend, tokensOf]

theorem line_head (hs : Stored u) : (line u ++ rest).head? = u.name.head? := by
  rw [line_append]
  cases hn : u.name with
  | nil => exact absurd hn hs.name
  | cons c r => rfl

theorem line_skipWs (hs : Stored u) (hw : Solid u) : skipWs (line u ++ rest) = line u ++ rest := by
  rw [line_append]
  exact (name_token hs hw).skipWs

theorem nextLine_cons (rest : Text) : nextLine ('\n' :: rest) = rest := by simp [nextLine]

/-- **One line.** The line of an account is read as its fields, and the reader goes to the next line. -/
theorem readLines_line (f : ℕ) (hs : Stored u) (hp : Plain u) (hw : Solid u) :
    readLines (f + 1) (line u ++ rest) = tokensOf u :: readLines f rest := by
  obtain ⟨c, r, hn⟩ := List.exists_cons_of_ne_nil hs.name
  have hhead : (line u ++ rest).head? = some c := by rw [line_head hs, hn, List.head?_cons]
  have hne : line u ++ rest ≠ [] := fun e => by
    rw [e] at hhead
    cases hhead
  have hc : c ≠ '#' := fun e => hp.name (by rw [hn, e, List.head?_cons])
  have hnl : c ≠ '\n' := fun e => by
    have hsp := hw.name c (by rw [hn]; exact mem_cons_self)
    rw [e] at hsp
    cases hsp
  have htok : ¬ ((tokensOf u).name = [] ∨ (tokensOf u).uid = [] ∨ (tokensOf u).gid = []) := by
    rintro (h | h | h)
    · exact hs.name h
    · exact (decText_token _).ne h
    · exact (decText_token _).ne h
  rw [readLines, if_neg hne]
  simp only [line_skipWs hs hw, hhead, Option.some.injEq, hc, hnl, hne, or_self, if_false, readTokens_line hs hp hw, htok,
    nextLine_cons]

end Line

/-! ## Applying lines -/

/-- the fields of an account that a line has -/
def User.saved (u : User) : User := { u with groups := 0 }

def Accounts.saved (db : Accounts) : List User := db.users.map User.saved

/-- the same accounts, group masks aside -/
def SameUsers (db db' : Accounts) : Prop := ∀ u, u ∈ db.saved ↔ u ∈ db'.saved

variable {gid uid : UInt16} {salt : UInt64} {name : Text}

theorem grpAdd_users {db' : Accounts} (h : grpAdd db gid name = some db') : db'.users = db.users := by
  unfold grpAdd at h
  split_ifs at h
  cases h
  rfl

theorem addGroup_users (db : Accounts) (gid : UInt16) : (addGroup db gid).users = db.users := by
  rw [addGroup]
  split_ifs
  · rfl
  · cases hg : grpAdd db gid ['u', 'n', 'k', 'n', 'o', 'w', 'n'] with
    | none => rfl
    | some db' => exact grpAdd_users hg

theorem find_name {l : List User} : (l.find? fun u => u.name == name) = none ↔ name ∉ l.map User.name := by
  simp only [List.find?_eq_none, mem_map, beq_iff_eq, not_exists, not_and]

variable {home shell : Option Text} {flags : UInt32}

theorem usrAdd_users {db' : Accounts} {pw : Text} (h : usrAdd db uid gid name pw flags home shell salt = some db') :
    db.users.length < usrMaxUsers ∧ uid ∉ db.users.map User.uid ∧ name ∉ db.users.map User.name ∧ name ≠ [] ∧
      db'.users = db.users ++ [newUser uid gid name pw flags home shell salt] := by
  unfold usrAdd at h
  split_ifs at h with hlen huid hname hne
  cases h
  refine ⟨not_le.1 hlen, find_uid.1 huid, ?_, hne, rfl⟩
  rw [Bool.not_eq_true, Option.isSome_eq_false_iff, Option.isNone_iff_eq_none] at hname
  exact find_name.1 hname

/-- an account that may be added is -/
theorem usrAdd_ok {pw : Text} (hlen : db.users.length < usrMaxUsers) (huid : uid ∉ db.users.map User.uid)
    (hname : name ∉ db.users.map User.name) (hne : name ≠ []) :
    ∃ db', usrAdd db uid gid name pw flags home shell salt = some db' ∧
      db'.users = db.users ++ [newUser uid gid name pw flags home shell salt] := by
  have hn : ¬ (usrFindByName db name).isSome = true := by
    rw [usrFindByName, find_name.2 hname]
    exact Bool.false_ne_true
  have hu : usrFindByUid db uid = none := find_uid.2 huid
  unfold usrAdd
  rw [if_neg (not_le.2 hlen), dif_pos hu, if_neg hn, if_neg hne]
  exact ⟨_, rfl, rfl⟩

/-- accounts with other uids keep what they have -/
theorem credentials_other {l : List User} {hash : UInt64} (h : uid ∉ l.map User.uid) :
    l.map (fun u => if u.uid = uid then { u with pwSalt := salt, pwHash := hash } else u) = l := by
  rw [List.map_congr_left (g := id), List.map_id]
  intro u hu
  apply if_neg
  intro e
  exact h (mem_map.2 ⟨u, hu, e⟩)

theorem uid_decText (x : UInt16) : UInt16.ofNat (uAtou (decText x.toNat)) = x := by
  rw [uAtou_decText (lt_trans x.toNat_lt (by decide)), UInt16.ofNat_toNat]

/-- salt and hash are both there -/
def Tokens.Hashed (t : Tokens) : Prop := isHex64 t.salt = true ∧ isHex64 t.hash = true

instance (t : Tokens) : Decidable t.Hashed := inferInstanceAs (Decidable (_ ∧ _))

/-- the account of a line, but for its groups -/
def Tokens.account (t : Tokens) : User :=
  { newUser (UInt16.ofNat (uAtou t.uid)) (UInt16.ofNat (uAtou t.gid)) t.name [] (flagsOf t.flags) (orNull t.home)
      (orNull t.shell) 0 with pwSalt := parseHex64 t.salt, pwHash := parseHex64 t.hash, groups := 0 }

theorem uStrncpy_of_le {n : ℕ} (h : s.length ≤ n - 1) : uStrncpy n s = s := take_of_length_le h

theorem account_tokensOf (hs : Stored u) (hp : Plain u) : (tokensOf u).account = u.saved := by
  have hhome : orNull u.home = some u.home := if_neg hp.home
  have hshell : orNull u.shell = some u.shell := if_neg hp.shell
  simp only [Tokens.account, tokensOf, newUser, User.saved, uid_decText, flagsOf_flagWord hp, hhome, hshell,
    Option.getD_some, uStrncpy_of_le hs.nameLen, uStrncpy_of_le hs.homeLen, uStrncpy_of_le hs.shellLen,
    parseHex64_fmtHex64]

section Apply

variable {db : Accounts} {t : Tokens} {ent : UInt64} (ht : t.Hashed)
include ht

theorem applyHash_known {v : User} (hv : v ∈ db.users) :
    applyHash db v.uid t = setCredentials db v.uid (parseHex64 t.salt) (parseHex64 t.hash) := by
  rw [applyHash, find_mem db hv]
  simp only [ht.1, ht.2, if_true]

/-- the line of an account that is there already gives it salt and hash -/
theorem applyLine_known {v : User} (hv : v ∈ db.users) (huid : t.account.uid = v.uid) :
    (applyLine db ent t).users = (setCredentials db v.uid (parseHex64 t.salt) (parseHex64 t.hash)).users := by
  have hg : v ∈ (addGroup db (UInt16.ofNat (uAtou t.gid))).users := by
    rw [addGroup_users]
    exact hv
  have he : UInt16.ofNat (uAtou t.uid) = v.uid := huid
  rw [applyLine, he, addUser, find_mem _ hg, Option.isNone_some, Bool.false_and, if_neg Bool.false_ne_true,
    applyHash_known ht hg]
  simp only [setCredentials, addGroup_users]

/-- the line of a new account adds it -/
theorem applyLine_new (hne : t.name ≠ []) (hlen : db.users.length < usrMaxUsers)
    (huid : t.account.uid ∉ db.users.map User.uid) (hname : t.name ∉ db.users.map User.name) :
    (applyLine db ent t).saved = db.saved ++ [t.account] := by
  let uid := UInt16.ofNat (uAtou t.uid)
  let gid := UInt16.ofNat (uAtou t.gid)
  let u := newUser uid gid t.name [] (flagsOf t.flags) (orNull t.home) (orNull t.shell) ent
  rw [← addGroup_users db gid] at hlen huid hname
  obtain ⟨db', hadd, husers⟩ : ∃ db', usrAdd (addGroup db gid) uid gid t.name [] (flagsOf t.flags) (orNull t.home)
      (orNull t.shell) ent = some db' ∧ db'.users = (addGroup db gid).users ++ [u] := usrAdd_ok hlen huid hname hne
  have hu : usrFindByUid (addGroup db gid) uid = none := find_uid.2 huid
  have hn : usrFindByName (addGroup db gid) t.name = none := find_name.2 hname
  have hmake : addUser (addGroup db gid) uid gid t ent = db' := by
    rw [addUser, hu, hn, hadd]
    rfl
  have hmem : u ∈ db'.users := husers ▸ List.mem_append_right _ (List.mem_singleton_self u)
  have he : applyLine db ent t = setCredentials db' uid (parseHex64 t.salt) (parseHex64 t.hash) := by
    rw [applyLine, hmake]
    exact applyHash_known ht hmem
  rw [he, Accounts.saved, setCredentials]
  simp only [husers, map_append, List.map_singleton]
  have hself : u.uid = uid := rfl
  rw [credentials_other (show uid ∉ _ from huid), if_pos hself, addGroup_users, Accounts.saved]
  rfl

end Apply

/-! ## Loading a whole text -/

/-- what is known about the tokens of a line that is applied -/
structure Named (t : Tokens) : Prop where
  ne : t.name ≠ []
  head : t.name.head? ≠ some '#'
  len : t.name.length ≤ usrNameLen - 1

theorem skipWs_skipWs (p : Text) : skipWs (skipWs p) = skipWs p :=
  List.dropWhile_eq_self_iff.2 fun hl => List.dropWhile_get_zero_not _ p hl

theorem readTok_isPrefix (n : ℕ) (p : Text) : (readTok n p).1 <+: skipWs p :=
  (List.take_prefix _ _).trans (List.takeWhile_prefix _)

/-- the name is the start of the line, and the line did not start with a # -/
theorem readTokens_named {p : Text} (hp : (skipWs p).head? ≠ some '#') (hne : (readTokens (skipWs p)).1.name ≠ []) :
    Named (readTokens (skipWs p)).1 where
  ne := hne
  head h := by
    obtain ⟨r, hr⟩ := readTok_isPrefix usrNameLen (skipWs p)
    rw [skipWs_skipWs] at hr
    apply hp
    rw [← hr]
    exact (List.head?_append_of_ne_nil _ hne).trans h
  len := length_take_le _ _

theorem readLines_named {f : ℕ} {p : Text} : ∀ t ∈ readLines f p, Named t := by
  induction f generalizing p with
  | zero => nofun
  | succ f ih =>
    rw [readLines]
    dsimp only
    split_ifs with hp hskip hshort
    · nofun
    · exact ih
    · exact ih
    · exact List.forall_mem_cons.2 ⟨readTokens_named (fun e => hskip (.inl e)) (fun e => hshort (.inl e)), ih⟩

theorem saved_map {β : Type} {f : User → β} (hf : ∀ u, f u.saved = f u) (db : Accounts) :
    db.saved.map f = db.users.map f := by
  simp [Accounts.saved, hf]

/-- **All lines.** A database gets the accounts of the lines, one after another, if no uid and no name is there twice. -/
theorem applyLines_new (ent : ℕ → UInt64) {ts : List Tokens} {all : List User} {k : ℕ}
    (hall : db.saved ++ ts.map Tokens.account = all) (hts : ∀ t ∈ ts, Named t ∧ t.Hashed) (huids : (all.map User.uid).Nodup)
    (hnames : (all.map User.name).Nodup) (hlen : all.length ≤ usrMaxUsers) : (applyLines ent db k ts).saved = all := by
  induction ts generalizing db k with
  | nil => rw [← hall, List.map_nil, List.append_nil, applyLines]
  | cons t ts ih =>
    obtain ⟨hn, ht⟩ := hts t mem_cons_self
    have hfresh : ∀ {β : Type} {f : User → β}, (∀ u, f u.saved = f u) → (all.map f).Nodup →
        f t.account ∉ db.users.map f := by
      intro β f hf hnd hmem
      rw [← hall, map_append, List.nodup_append, saved_map hf] at hnd
      exact hnd.2.2 _ hmem _ (mem_map_of_mem (by simp)) rfl
    have hname : t.account.name = t.name := uStrncpy_of_le hn.len
    have hroom : db.users.length < usrMaxUsers := by
      rw [← hall, length_append, Accounts.saved, length_map, length_map, length_cons] at hlen
      omega
    have hnew : (applyLine db (ent k) t).saved = db.saved ++ [t.account] :=
      applyLine_new ht hn.ne hroom (hfresh (fun _ => rfl) huids) (hname ▸ hfresh (fun _ => rfl) hnames)
    refine ih (k := k + 1) ?_ fun v hv => hts v (List.mem_cons_of_mem _ hv)
    rw [hnew, ← hall, List.append_assoc, List.map_cons, List.singleton_append]

/-- the header is a comment -/
theorem readLines_header (f : ℕ) (rest : Text) : readLines (f + 1) (passwdHeader ++ rest) = readLines f rest := by
  have hskip : skipWs (passwdHeader ++ rest) = passwdHeader ++ rest := by simp [skipWs, passwdHeader, isSpace]
  have hnext : nextLine (passwdHeader ++ rest) = rest := by simp [nextLine, passwdHeader]
  have hhead : (passwdHeader ++ rest).head? = some '#' := rfl
  rw [readLines, if_neg (by simp [passwdHeader])]
  simp only [hskip, hhead, true_or, if_true, hnext]

theorem readLines_lines {f : ℕ} (hgood : ∀ u ∈ us, Stored u ∧ Plain u ∧ Solid u) (hf : us.length < f) :
    readLines f (us.flatMap line) = us.map tokensOf := by
  induction us generalizing f with
  | nil =>
    cases f with
    | zero | succ f => rfl
  | cons u us ih =>
    obtain ⟨f, rfl⟩ : ∃ g, f = g + 1 := ⟨f - 1, by omega⟩
    obtain ⟨hs, hp, hw⟩ := hgood u mem_cons_self
    rw [length_cons] at hf
    rw [flatMap_cons, readLines_line f hs hp hw, ih (fun v hv => hgood v (List.mem_cons_of_mem _ hv)) (by omega),
      List.map_cons]

/-! ## Databases -/

/-- what the installer asked for -/
structure Credentials where
  rootPw : Text
  hasUser : Bool
  user : Text
  userPw : Text
  wheel : Bool

def uidUserMin : UInt16 := 1000
def gidUsers : UInt16 := 100

def installHome (user : Text) : Text := uStrncpy usrHomeLen (['/', 'h', 'o', 'm', 'e', '/'] ++ user)

def installShell : Text := ['/', 'b', 'i', 'n', '/', 'a', 's', 'd', 's', 'h']

/-- the first user gets another name and its fields anew -/
def renameUser (db : Accounts) (user : Text) (flags : UInt32) : Accounts where
  users := db.users.map fun u =>
    if u.uid = uidUserMin then
      { u with name := uStrncpy usrNameLen user, gid := gidUsers, flags := flags, home := installHome user, shell := installShell }
    else u
  groups := db.groups
  uids := by
    rw [map_uid fun u => by split <;> rfl]
    exact db.uids

/-- `ent` gives the salts -/
def applyInstallCredentials (db : Accounts) (c : Credentials) (ent : ℕ → UInt64) : Accounts :=
  let db :=
    if c.rootPw ≠ [] then (usrSetPassword db 0 c.rootPw (ent 0)).getD db
    -- no password for root
    else setCredentials db 0 0 0
  if c.hasUser = false ∨ c.user = [] then db
  else
    let flags : UInt32 := if c.wheel then 1 else 0
    match usrFindByUid db uidUserMin with
    | none => (usrAdd db uidUserMin gidUsers c.user c.userPw flags (some (installHome c.user)) (some installShell) (ent 1)).getD db
    | some _ =>
      let db := renameUser db c.user flags
      (usrSetPassword db uidUserMin c.userPw (ent 1)).getD db

/-- the databases that the kernel, the loader and the installer make -/
inductive Made : Accounts → Prop
  | init (salt : UInt64) : Made (usrInit salt)
  | add {db db' : Accounts} {uid gid : UInt16} {name pw : Text} {flags : UInt32} {home shell : Option Text} {salt : UInt64} :
    Made db → usrAdd db uid gid name pw flags home shell salt = some db' → Made db'
  | setPassword {db db' : Accounts} {uid : UInt16} {pw : Text} {salt : UInt64} :
    Made db → usrSetPassword db uid pw salt = some db' → Made db'
  | load {db : Accounts} (ent : ℕ → UInt64) (buf : Text) (len : ℕ) : Made db → Made (usrLoadPasswd ent db buf len).1
  | install {db : Accounts} (c : Credentials) (ent : ℕ → UInt64) : Made db → Made (applyInstallCredentials db c ent)

def rootWith (salt hash : UInt64) : User where
  uid := 0
  gid := 0
  flags := 0
  pwHash := hash
  pwSalt := salt
  name := rootName
  home := '/' :: rootName
  shell := installShell
  groups := 0

/-- root comes first, strings fit into their fields, and there are not too many accounts -/
structure Formed (db : Accounts) : Prop where
  root : ∃ r rest, db.users = r :: rest ∧ r.saved = rootWith r.pwSalt r.pwHash
  stored : ∀ u ∈ db.users, Stored u
  count : db.users.length ≤ usrMaxUsers

theorem usrInit_users (salt : UInt64) : (usrInit salt).users = [{ rootWith 0 0 with groups := 1 }] := rfl

variable {pw : Text} {salt : UInt64} {uid : UInt16} {db' : Accounts}

theorem newUser_stored (h : name ≠ []) : Stored (newUser uid gid name pw flags home shell salt) where
  name := by
    obtain ⟨c, r, rfl⟩ := List.exists_cons_of_ne_nil h
    exact cons_ne_nil _ _
  nameLen := length_take_le _ _
  homeLen := length_take_le _ _
  shellLen := length_take_le _ _

theorem setCredentials_users (db : Accounts) (uid : UInt16) (salt hash : UInt64) : (setCredentials db uid salt hash).users =
      db.users.map fun u => if u.uid = uid then { u with pwSalt := salt, pwHash := hash } else u := rfl

theorem setCredentials_mem {hash : UInt64} (h : u ∈ (setCredentials db uid salt hash).users) :
    ∃ v ∈ db.users, u = v ∨ u = { v with pwSalt := salt, pwHash := hash } := by
  obtain ⟨v, hv, rfl⟩ := mem_map.1 h
  refine ⟨v, hv, ?_⟩
  split_ifs
  · exact .inr rfl
  · exact .inl rfl

theorem Formed.setCredentials (h : Formed db) (uid : UInt16) (salt hash : UInt64) :
    Formed (setCredentials db uid salt hash) where
  root := by
    obtain ⟨r, rest, hr, hroot⟩ := h.root
    refine ⟨_, _, by rw [setCredentials_users, hr, List.map_cons], ?_⟩
    split_ifs
    · rw [User.saved] at hroot ⊢
      simp only [rootWith, User.mk.injEq] at hroot ⊢
      simp [hroot]
    · exact hroot
  stored u hu := by
    obtain ⟨v, hv, e | e⟩ := setCredentials_mem hu
    · rw [e]
      exact h.stored v hv
    · rw [e]
      exact ⟨(h.stored v hv).name, (h.stored v hv).nameLen, (h.stored v hv).homeLen, (h.stored v hv).shellLen⟩
  count := by
    rw [Usr.setCredentials, length_map]
    exact h.count

theorem Formed.usrAdd (h : Formed db) (hadd : usrAdd db uid gid name pw flags home shell salt = some db') : Formed db' := by
  obtain ⟨hlen, -, -, hne, husers⟩ := usrAdd_users hadd
  obtain ⟨r, rest, hr, hroot⟩ := h.root
  refine ⟨⟨r, _, by rw [husers, hr, List.cons_append], hroot⟩, ?_, ?_⟩
  · intro u hu
    rw [husers, mem_append, mem_singleton] at hu
    rcases hu with hu | rfl
    · exact h.stored u hu
    · exact newUser_stored hne
  · rw [husers, length_append, List.length_singleton]
    exact hlen

theorem Formed.setPassword (h : Formed db) (hset : usrSetPassword db uid pw salt = some db') : Formed db' := by
  unfold usrSetPassword at hset
  split at hset
  · cases hset
  · cases hset
    exact h.setCredentials _ _ _

theorem usrInit_formed (salt : UInt64) : Formed (usrInit salt) := by
  refine ⟨⟨_, [], usrInit_users salt, rfl⟩, ?_, ?_⟩
  · intro u hu
    rw [usrInit_users, mem_singleton] at hu
    subst hu
    exact ⟨by decide, by decide, by decide, by decide⟩
  · rw [usrInit_users]
    decide

/-- accounts whose lines say all of them, and no name twice -/
structure Clean (db : Accounts) : Prop where
  plain : ∀ u ∈ db.users, Plain u
  names : ∀ u ∈ db.users, ∀ v ∈ db.users, u.name = v.name → u.uid = v.uid

theorem Clean.nodup (h : Clean db) : (db.users.map User.name).Nodup := by
  apply List.Nodup.map_on _ (List.Nodup.of_map _ db.uids)
  intro u hu v hv e
  exact List.inj_on_of_nodup_map db.uids hu hv (h.names u hu v hv e)

/-! ## A text that comes back -/

/-- the lines that are read from the text of a database -/
def linesOf (db : Accounts) : List Tokens := readLines ((passwdText db.users).length + 1) (passwdText db.users)

/-- root keeps all but salt and hash -/
theorem saved_root {t : Tokens} {e ent : UInt64} (ht : t.Hashed) (huid : t.account.uid = 0) :
    (applyLine (usrInit e) ent t).saved = [rootWith (parseHex64 t.salt) (parseHex64 t.hash)] := by
  have hmem : { rootWith 0 0 with groups := 1 } ∈ (usrInit e).users := by
    exact List.mem_singleton_self _
  rw [Accounts.saved, applyLine_known ht hmem huid, setCredentials_users, usrInit_users]
  rfl

/-- **Loading lines** of which the first is root's, from any buffer that starts with their text -/
theorem load_lines {t : Tokens} {ts : List Tokens} (hlines : linesOf db = t :: ts) (hhash : ∀ t ∈ linesOf db, t.Hashed)
    (huid : t.account.uid = 0) {all : List User}
    (hall : rootWith (parseHex64 t.salt) (parseHex64 t.hash) :: ts.map Tokens.account = all)
    (huids : (all.map User.uid).Nodup) (hnames : (all.map User.name).Nodup) (hcount : all.length ≤ usrMaxUsers)
    (ent : ℕ → UInt64) (e : UInt64) {buf : Text} (hbuf : cstr buf = passwdText db.users) {len : ℕ}
    (hlen : (passwdText db.users).length ≤ len) : (usrLoadPasswd ent (usrInit e) buf len).1.saved = all ∧
      (usrLoadPasswd ent (usrInit e) buf len).2 = all.length := by
  have h8 : 8 ≤ (passwdText db.users).length := by
    rw [passwdText, length_append]
    exact Nat.le_add_right 8 _
  have hstop : (cstr buf).length - len = 0 := by
    rw [hbuf]
    omega
  have hn : (linesOf db).length = all.length := by rw [hlines, ← hall, length_cons, length_cons, length_map]
  have hrun : loadLoop ent 0 ((cstr buf).length + 1) (usrInit e) (cstr buf) 0 = (applyLines ent (usrInit e) 0 (t :: ts), all.length) := by
    rw [hbuf, ← hlines, ← hn]
    exact (loadLoop_eq ent _ _ _ 0 (by rw [Nat.zero_add]; exact hn.trans_le hcount)).trans (by rw [Nat.zero_add]; rfl)
  have hts : ∀ v ∈ ts, Named v ∧ v.Hashed := fun v hv => by
    have hmem : v ∈ linesOf db := hlines ▸ List.mem_cons_of_mem t hv
    exact ⟨readLines_named v hmem, hhash v hmem⟩
  rw [usrLoadPasswd, if_neg (by omega)]
  dsimp only
  rw [hstop, hrun, applyLines]
  refine ⟨applyLines_new ent ?_ hts huids hnames hcount, rfl⟩
  rw [saved_root (hhash t (hlines ▸ mem_cons_self)) huid]
  exact hall

section

variable (hform : Formed db) (hclean : Clean db) (hsolid : ∀ u ∈ db.users, Solid u)
include hform hclean hsolid

/-- the lines of a clean database -/
theorem linesOf_clean :
    linesOf db = db.users.map tokensOf := by
  have hline : ∀ k ∈ db.users.map fun u => (line u).length, 1 ≤ k := fun k hk => by
    obtain ⟨u, -, rfl⟩ := mem_map.1 hk
    simp [line]
  have hrest : db.users.length ≤ (db.users.flatMap line).length := by
    rw [List.length_flatMap, ← length_map (f := fun u => (line u).length)]
    exact List.length_le_sum_of_one_le _ hline
  rw [linesOf, passwdText, readLines_header]
  refine readLines_lines (fun u hu => ⟨hform.stored u hu, hclean.plain u hu, hsolid u hu⟩) ?_
  rw [length_append, show passwdHeader.length = 8 from rfl]
  omega

/-- **A clean database is loaded as it was written.** -/
theorem load_text
    (ent : ℕ → UInt64) (e : UInt64) {buf : Text} (hbuf : cstr buf = passwdText db.users) {len : ℕ}
    (hlen : (passwdText db.users).length ≤ len) : (usrLoadPasswd ent (usrInit e) buf len).1.saved = db.saved := by
  obtain ⟨r, rest, hr, hroot⟩ := hform.root
  have hlines := linesOf_clean hform hclean hsolid
  have hacc : ∀ u ∈ db.users, (tokensOf u).account = u.saved := fun u hu =>
    account_tokensOf (hform.stored u hu) (hclean.plain u hu)
  have hall : rootWith (parseHex64 (tokensOf r).salt) (parseHex64 (tokensOf r).hash) ::
      (rest.map tokensOf).map Tokens.account = db.saved := by
    rw [Accounts.saved, hr, List.map_cons, hroot, map_map, tokensOf, parseHex64_fmtHex64, parseHex64_fmtHex64]
    exact congrArg _ (List.map_congr_left fun u hu => hacc u (hr ▸ List.mem_cons_of_mem r hu))
  have huid : (tokensOf r).account.uid = 0 := by
    rw [hacc r (hr ▸ mem_cons_self), hroot]
    rfl
  refine (load_lines (by rw [hlines, hr, List.map_cons]) ?_ huid hall ?_ ?_ ?_ ent e hbuf hlen).1
  · rw [hlines]
    intro t ht
    obtain ⟨u, -, rfl⟩ := mem_map.1 ht
    exact ⟨isHex64_fmtHex64 _, isHex64_fmtHex64 _⟩
  · rw [saved_map fun _ => rfl]
    exact db.uids
  · rw [saved_map fun _ => rfl]
    exact hclean.nodup
  · rw [Accounts.saved, length_map]
    exact hform.count

end

/-! ## Whatever is loaded is clean -/

theorem flagsOf_cases (w : Text) : flagsOf w = 0 ∨ flagsOf w = 1 ∨ flagsOf w = 2 ∨ flagsOf w = 4 := by
  by_cases h1 : w = ['w', 'h', 'e', 'e', 'l']
  · rw [h1]
    decide
  by_cases h2 : w = ['n', 'o', 'l', 'o', 'g', 'i', 'n']
  · rw [h2]
    decide
  · rw [flagsOf, if_neg h1, if_neg h2]
    split_ifs <;> decide

theorem orNull_ne {d : Text} (n : ℕ) (hd : d ≠ []) : uStrncpy (n + 2) ((orNull s).getD d) ≠ [] := by
  have hne : (orNull s).getD d ≠ [] := by
    rw [orNull]
    split_ifs with h
    · exact hd
    · exact h
  obtain ⟨c, r, h⟩ := List.exists_cons_of_ne_nil hne
  rw [h]
  exact cons_ne_nil _ _

/-- what groups, new accounts and credentials keep, a line keeps -/
theorem applyLine_keeps {P : Accounts → Prop} (t : Tokens) (ent : UInt64) (hgroup : ∀ gid, P (addGroup db gid))
    (hadd : ∀ {db db' : Accounts} {uid gid : UInt16}, P db → usrAdd db uid gid t.name [] (flagsOf t.flags) (orNull t.home)
      (orNull t.shell) ent = some db' → P db')
    (hset : ∀ {db : Accounts} (uid : UInt16) (salt hash : UInt64), P db → P (setCredentials db uid salt hash)) :
    P (applyLine db ent t) := by
  have huser : ∀ uid gid, P (addUser (addGroup db gid) uid gid t ent) := by
    intro uid gid
    rw [addUser]
    split_ifs
    · cases hu : usrAdd (addGroup db gid) uid gid t.name [] (flagsOf t.flags) (orNull t.home) (orNull t.shell) ent with
      | none => exact hgroup gid
      | some db' => exact hadd (hgroup gid) hu
    · exact hgroup gid
  rw [applyLine, applyHash]
  split
  · exact huser _ _
  · exact hset _ _ _ (huser _ _)

/-- accounts with the uids, names and plain lines of a clean database are one -/
theorem Clean.of_mem (h : Clean db)
    (hmem : ∀ u ∈ db'.users, ∃ v ∈ db.users, u.uid = v.uid ∧ u.name = v.name ∧ (Plain v → Plain u)) : Clean db' := by
  constructor
  · intro u hu
    obtain ⟨v, hv, -, -, hp⟩ := hmem u hu
    exact hp (h.plain v hv)
  intro u hu v hv e
  obtain ⟨u', hu', hui, hun, -⟩ := hmem u hu
  obtain ⟨v', hv', hvi, hvn, -⟩ := hmem v hv
  rw [hui, hvi]
  apply h.names u' hu' v' hv'
  rw [← hun, ← hvn, e]

theorem Clean.usrAdd (h : Clean db) {t : Tokens} (ht : Named t) {uid gid : UInt16} {ent : UInt64}
    (hadd : usrAdd db uid gid t.name [] (flagsOf t.flags) (orNull t.home) (orNull t.shell) ent = some db') : Clean db' := by
  obtain ⟨-, -, hname, hne, husers⟩ := usrAdd_users hadd
  have hkeep : uStrncpy usrNameLen t.name = t.name := uStrncpy_of_le ht.len
  constructor
  · intro u hu
    rw [husers, mem_append, mem_singleton] at hu
    rcases hu with hu | rfl
    · exact h.plain u hu
    · refine ⟨flagsOf_cases _, ?_, orNull_ne 62 (by decide), orNull_ne 62 (by decide)⟩
      rw [newUser, hkeep]
      exact ht.head
  -- the name of the new account is no other account's
  have hnew : ∀ v ∈ db.users, v.name ≠ t.name := fun v hv e => hname (mem_map.2 ⟨v, hv, e⟩)
  intro u hu v hv e
  rw [husers, mem_append, mem_singleton] at hu hv
  rcases hu with hu | rfl <;> rcases hv with hv | rfl
  · exact h.names u hu v hv e
  · exact absurd (e.trans hkeep) (hnew u hu)
  · exact absurd (e.symm.trans hkeep) (hnew v hv)
  · rfl

theorem Clean.setCredentials (h : Clean db) (uid : UInt16) (salt hash : UInt64) :
    Clean (setCredentials db uid salt hash) := by
  apply h.of_mem
  intro u hu
  obtain ⟨v, hv, rfl | rfl⟩ := setCredentials_mem hu
  · exact ⟨u, hv, rfl, rfl, id⟩
  · exact ⟨v, hv, rfl, rfl, fun p => ⟨p.flags, p.name, p.home, p.shell⟩⟩

theorem Clean.applyLine (h : Clean db) {t : Tokens} (ht : Named t) (ent : UInt64) : Clean (applyLine db ent t) :=
  applyLine_keeps t ent (fun gid => h.of_mem fun u hu => ⟨u, addGroup_users db gid ▸ hu, rfl, rfl, id⟩)
    (fun h hadd => h.usrAdd ht hadd) fun _ _ _ h => h.setCredentials _ _ _

/-- what a line keeps, the loop keeps -/
theorem loadLoop_keeps {P : Accounts → Prop} (hline : ∀ {db : Accounts} {t : Tokens} (ent : UInt64), Named t → P db →
      P (Usr.applyLine db ent t)) (ent : ℕ → UInt64) (stop f : ℕ) (h : P db) (p : Text) (k : ℕ) :
    P (loadLoop ent stop f db p k).1 := by
  induction f generalizing db p k with
  | zero => exact h
  | succ f ih =>
    rw [loadLoop]
    dsimp only
    split_ifs with hgo hskip hshort
    · exact ih h _ _
    · exact ih h _ _
    · apply ih
      exact hline _ (readTokens_named (fun e => hskip (.inl e)) (fun e => hshort (.inl e))) h
    · exact h

section

variable (h : Formed db)
include h

theorem Formed.addGroup (gid : UInt16) : Formed (addGroup db gid) := by
  have e := addGroup_users db gid
  exact ⟨by rw [e]; exact h.root, by rw [e]; exact h.stored, by rw [e]; exact h.count⟩

theorem Formed.applyLine (ent : UInt64) (t : Tokens) : Formed (applyLine db ent t) :=
  applyLine_keeps t ent h.addGroup (fun h hadd => h.usrAdd hadd) fun _ _ _ h => h.setCredentials _ _ _

theorem getD_formed {o : Option Accounts} (ho : ∀ db', o = some db' → Formed db') : Formed (o.getD db) := by
  cases o with
  | none => exact h
  | some db' => exact ho db' rfl

theorem Formed.renameUser {user : Text} (hu : user ≠ []) (flags : UInt32) : Formed (renameUser db user flags) where
  root := by
    obtain ⟨r, rest, hr, hroot⟩ := h.root
    have huid : r.saved.uid = 0 := congrArg User.uid hroot
    have hne : r.uid ≠ uidUserMin := fun e => absurd (e.symm.trans huid) (by decide)
    refine ⟨r, (Usr.renameUser db user flags).users.tail, ?_, hroot⟩
    simp [Usr.renameUser, hr, hne]
  stored u hmem := by
    obtain ⟨v, hv, rfl⟩ := mem_map.1 hmem
    split_ifs
    · have hname : uStrncpy usrNameLen user ≠ [] := by
        obtain ⟨c, s, rfl⟩ := List.exists_cons_of_ne_nil hu
        exact cons_ne_nil _ _
      have hshell : installShell.length ≤ usrShellLen - 1 := by decide
      exact ⟨hname, length_take_le _ _, length_take_le _ _, hshell⟩
    · exact h.stored v hv
  count := by
    rw [Usr.renameUser, length_map]
    exact h.count

theorem Formed.install (c : Credentials) (ent : ℕ → UInt64) : Formed (applyInstallCredentials db c ent) := by
  have hset : ∀ {db : Accounts}, Formed db → ∀ (uid : UInt16) (pw : Text) (salt : UInt64),
      Formed ((usrSetPassword db uid pw salt).getD db) :=
    fun hdb _ _ _ => getD_formed hdb fun _ e => hdb.setPassword e
  have hroot : Formed (if c.rootPw ≠ [] then (usrSetPassword db 0 c.rootPw (ent 0)).getD db else Usr.setCredentials db 0 0 0) := by
    split_ifs
    · exact hset h _ _ _
    · exact h.setCredentials _ _ _
  rw [applyInstallCredentials]
  dsimp only
  split
  · exact hroot
  rename_i huser
  split
  · exact getD_formed hroot fun _ e => hroot.usrAdd e
  · exact hset (hroot.renameUser (not_or.1 huser).2 _) _ _ _

end

/-- **Every database has root first, and strings that fit**, by induction over what made it. -/
theorem Made.formed (h : Made db) : Formed db := by
  induction h with
  | init salt => exact usrInit_formed salt
  | add _ hadd ih => exact ih.usrAdd hadd
  | setPassword _ hset ih => exact ih.setPassword hset
  | load ent buf len _ ih =>
    rw [usrLoadPasswd]
    split_ifs
    · exact ih
    · exact loadLoop_keeps (P := Formed) (fun ent _ h => h.applyLine ent _) ent _ _ ih _ _
  | install c ent _ ih => exact ih.install c ent

theorem usrInit_clean (salt : UInt64) : Clean (usrInit salt) := by
  constructor
  · intro u hu
    rw [usrInit_users, mem_singleton] at hu
    subst hu
    exact ⟨.inl rfl, by decide, by decide, by decide⟩
  · intro u hu v hv _
    rw [usrInit_users, mem_singleton] at hu hv
    rw [hu, hv]

/-- **Loading makes clean databases only**, whatever the text. -/
theorem loaded_clean (ent : ℕ → UInt64) (e : UInt64) (buf : Text) (len : ℕ) :
    Clean (usrLoadPasswd ent (usrInit e) buf len).1 := by
  rw [usrLoadPasswd]
  split_ifs
  · exact usrInit_clean e
  · exact loadLoop_keeps (fun ent ht h => h.applyLine ht ent) ent _ _ (usrInit_clean e) _ _

theorem SameUsers.clean (h : SameUsers db db') (hc : Clean db') : Clean db := by
  apply hc.of_mem
  intro u hu
  obtain ⟨v, hv, e⟩ := mem_map.1 ((h _).1 (List.mem_map_of_mem hu))
  simp only [User.saved, User.mk.injEq] at e
  obtain ⟨huid, -, hflags, -, -, hname, hhome, hshell, -⟩ := e
  exact ⟨v, hv, huid.symm, hname.symm,
    fun p => ⟨hflags ▸ p.flags, hname ▸ p.name, hhome ▸ p.home, hshell ▸ p.shell⟩⟩

/-! ## The round trip -/

/-- the characters of a line that are not from the strings of the account -/
def otherChars : Text :=
  [' ', '\n', '-', '0', '1', '2', '3', '4', '5', '6', '7', '8', '9', 'a', 'b', 'c', 'd', 'e', 'f',
    'w', 'h', 'l', 'n', 'o', 'g', 'i', 'k']

theorem digit_other : ∀ d < 16, digit d ∈ otherChars := by decide

theorem flagWord_other (u : User) : ∀ c ∈ flagWord u, c ∈ otherChars := by
  rw [flagWord]
  split_ifs
  all_goals exact forall_mem_of_all (by decide)

theorem mem_line (h : c ∈ line u) : c ∈ u.name ++ u.home ++ u.shell ∨ c ∈ otherChars := by
  have hdec : ∀ v, c ∈ decText v → c ∈ otherChars := fun v hv => by
    obtain ⟨d, hd, rfl⟩ := mem_decText hv
    exact digit_other d (by omega)
  have hhex : ∀ v, c ∈ fmtHex64 v → c ∈ otherChars := fun v hv => by
    obtain ⟨d, hd, rfl⟩ := mem_fmtHex64 hv
    exact digit_other d hd
  have hline := line_append u []
  rw [List.append_nil] at hline
  rw [hline] at h
  simp only [mem_append, mem_cons, not_mem_nil, or_false] at h ⊢
  rcases h with h | rfl | h | rfl | h | rfl | h | rfl | h | rfl | h | rfl | h | rfl | h | rfl
  -- the characters between the fields
  all_goals try exact .inr (by decide)
  · exact .inl (.inl (.inl h))
  · exact .inr (hdec _ h)
  · exact .inr (hdec _ h)
  · exact .inr (flagWord_other u c h)
  · exact .inl (.inl (.inr h))
  · exact .inl (.inr h)
  · exact .inr (hhex _ h)
  · exact .inr (hhex _ h)

/-- what holds for the strings of the accounts and for the other characters holds for the text -/
theorem passwdText_all {p : Char → Prop} (hu : ∀ u ∈ us, ∀ c ∈ u.name ++ u.home ++ u.shell, p c)
    (hh : ∀ c ∈ passwdHeader, p c) (ho : ∀ c ∈ otherChars, p c) : ∀ c ∈ passwdText us, p c := by
  intro c hc
  rw [passwdText, mem_append, List.mem_flatMap] at hc
  rcases hc with hc | ⟨u, hmem, hc⟩
  · exact hh c hc
  · rcases mem_line hc with hc | hc
    · exact hu u hmem c hc
    · exact ho c hc

theorem passwdText_noNul (h : ∀ u ∈ us, Solid u) : ∀ c ∈ passwdText us, c ≠ Char.ofNat 0 :=
  passwdText_all (fun u hu c hc => (h u hu c hc).2) (forall_mem_of_all (by decide)) (forall_mem_of_all (by decide))

/-- **Round trip.** Written to a buffer that is large enough and loaded into a fresh database, the accounts come back with all
their fields exactly if no account has two flags or a flag of no word, no name starts with a #, no home and no shell is empty,
and no stored name is there twice. -/
theorem round_trip_iff {db : Accounts} (hr : Made db) (hw : ∀ u ∈ db.users, Solid u) {n : ℕ}
    (hn : (passwdText db.users).length < n) (ent : ℕ → UInt64) (e : UInt64) : ∃ text, usrWritePasswd db n = some text ∧
      (SameUsers db (usrLoadPasswd ent (usrInit e) text text.length).1 ↔ Clean db) := by
  refine ⟨passwdText db.users, write_fits hn, ?_, ?_⟩
  · intro hsame
    exact hsame.clean (loaded_clean ent e _ _)
  intro hclean u
  have hcstr : cstr (passwdText db.users) = passwdText db.users := by
    rw [cstr, List.takeWhile_eq_self_iff]
    intro c hc
    exact decide_eq_true (passwdText_noNul hw c hc)
  rw [load_text hr.formed hclean hw ent e hcstr le_rfl]

def alice : Text := ['a', 'l', 'i', 'c', 'e']
def secret : Text := ['s', 'e', 'c', 'r', 'e', 't']

/-- root, and an account with these flags -/
def withAlice (flags : UInt32) : Accounts :=
  (usrAdd (usrInit 1) 1000 100 alice secret flags none none 5).getD (usrInit 1)

theorem withAlice_made (flags : UInt32) : Made (withAlice flags) := by
  have hadd : usrAdd (usrInit 1) 1000 100 alice secret flags none none 5 = some (withAlice flags) := rfl
  exact Made.add (Made.init 1) hadd

theorem withAlice_solid : ∀ flags, ∀ u ∈ (withAlice flags).users, Solid u := by
  intro flags u hu
  rcases mem_cons.1 hu with rfl | hu
  · decide
  rw [mem_singleton.1 hu]
  -- the strings do not depend on the flags
  have hsolid : Solid (newUser 1000 100 alice secret 0 none none 5) := by decide
  exact hsolid

theorem withAlice_clean : Clean (withAlice 1) := by
  constructor
  · intro u hu
    rcases mem_cons.1 hu with rfl | hu
    · exact ⟨.inl rfl, by decide, by decide, by decide⟩
    · rw [mem_singleton.1 hu]
      exact ⟨.inr (.inl rfl), nofun, nofun, nofun⟩
  intro u hu v hv e
  rcases mem_cons.1 hu with rfl | hu <;> rcases mem_cons.1 hv with rfl | hv
  · rfl
  · rw [mem_singleton.1 hv] at e
    cases e
  · rw [mem_singleton.1 hu] at e
    cases e
  · rw [mem_singleton.1 hu, mem_singleton.1 hv]

theorem round_trip_iff_wheel : ∃ text, usrWritePasswd (withAlice 1) 4096 = some text ∧
    SameUsers (withAlice 1) (usrLoadPasswd (fun _ => 7) (usrInit 1) text text.length).1 := by
  have hlen : (passwdText (withAlice 1).users).length < 4096 := by decide +kernel
  obtain ⟨text, hwrite, hiff⟩ := round_trip_iff (withAlice_made 1) (withAlice_solid 1) hlen (fun _ => 7) 1
  exact ⟨text, hwrite, hiff.2 withAlice_clean⟩

/-- **A lock is lost.** An account of the wheel group that is locked refuses its password; written and loaded, it accepts it. -/
theorem two_flags_lost : Made (withAlice 5) ∧ (∀ u ∈ (withAlice 5).users, Solid u) ∧
    (passwdText (withAlice 5).users).length < 4096 ∧ ∃ text, usrWritePasswd (withAlice 5) 4096 = some text ∧
      ¬ SameUsers (withAlice 5) (usrLoadPasswd (fun _ => 7) (usrInit 1) text text.length).1 ∧
      usrCheckPassword (withAlice 5) 1000 secret = false ∧
      usrCheckPassword (usrLoadPasswd (fun _ => 7) (usrInit 1) text text.length).1 1000 secret = true := by
  have hlen : (passwdText (withAlice 5).users).length < 4096 := by decide +kernel
  refine ⟨withAlice_made 5, withAlice_solid 5, hlen, _, write_fits hlen, ?_, rfl, ?_⟩
  · intro hsame
    have hplain := (hsame.clean (loaded_clean _ _ _ _)).plain _ (List.mem_cons_of_mem _ mem_cons_self)
    exact absurd hplain.flags (by decide)
  · decide +kernel

end OpenASD.Usr
