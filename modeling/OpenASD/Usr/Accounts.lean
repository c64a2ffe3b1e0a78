/-
The user database (kernel/usr/usr.c): accounts, groups and passwords. Strings are lists of characters without the final NUL,
one character a byte. `entropy_get64` is an argument, the salt.

A database is a list of accounts with different uids: `usr_add` refuses a uid that is taken, and nothing else adds an
account or changes a uid. Names are not kept apart in the same way, since `usr_add` compares the whole name and stores 31
characters of it.

Results:
- `check_set`: the password that was set last is accepted, if its hash is not the value that stands for none;
- `set_password_iff`: else only if it is empty, `password_refused`.
-/
import Mathlib.Data.List.Nodup
import Mathlib.Logic.Function.Iterate

namespace OpenASD.Usr

/-! ## Types -/

abbrev Text := List Char

structure User where
  uid : UInt16
  gid : UInt16
  flags : UInt32
  pwHash : UInt64
  pwSalt : UInt64
  name : Text
  home : Text
  shell : Text
  /-- bit n for gid n -/
  groups : UInt32
deriving DecidableEq

structure Group where
  gid : UInt16
  name : Text
  /-- bit n for uid n -/
  memberMask : UInt32
deriving DecidableEq

structure Accounts where
  users : List User
  groups : List Group
  uids : (users.map User.uid).Nodup

def usrMaxUsers : ℕ := 64
def usrMaxGroups : ℕ := 32
def usrNameLen : ℕ := 32
def usrHomeLen : ℕ := 64
def usrShellLen : ℕ := 64

def User.wheel (u : User) : Bool := decide (u.flags &&& 1 ≠ 0)
def User.nologin (u : User) : Bool := decide (u.flags &&& 2 ≠ 0)
def User.locked (u : User) : Bool := decide (u.flags &&& 4 ≠ 0)

/-- `u_strncpy` into a field of n bytes -/
def uStrncpy (n : ℕ) (s : Text) : Text := s.take (n - 1)

/-! ## Passwords -/

def fnvOffset : UInt64 := 14695981039346656037
def fnvPrime : UInt64 := 1099511628211

def byte (c : Char) : UInt64 := UInt64.ofNat (c.toNat % 256)

/-- a round of the finalisation -/
def mixRound (h : UInt64) : UInt64 :=
  let h := h ^^^ (h >>> 33)
  let h := h * 0xff51afd7ed558ccd
  let h := h ^^^ (h >>> 33)
  let h := h * 0xc4ceb9fe1a85ec53
  h ^^^ (h >>> 33)

@[irreducible] def pwHashSalted (pw : Text) (salt : UInt64) : UInt64 :=
  let h := (fnvOffset ^^^ salt) * fnvPrime
  let h := pw.foldl (fun h c => (h ^^^ byte c) * fnvPrime) h
  mixRound^[1024] h

/-! ## Groups -/

variable (db : Accounts)

def grpFindByGid (gid : UInt16) : Option Group := db.groups.find? fun g => g.gid == gid

def grpFindByName (name : Text) : Option Group := db.groups.find? fun g => g.name == name

/-- none for -1 -/
def grpAdd (gid : UInt16) (name : Text) : Option Accounts :=
  if usrMaxGroups ≤ db.groups.length then none
  else if (grpFindByGid db gid).isSome || (grpFindByName db name).isSome then none
  else some { db with groups := db.groups ++ [⟨gid, uStrncpy usrNameLen name, 0⟩] }

/-- the uid becomes a member of the first group with this gid -/
def enrol (uid gid : UInt16) : List Group → List Group
  | [] => []
  | g :: gs =>
    if g.gid = gid then { g with memberMask := g.memberMask ||| ((1 : UInt32) <<< uid.toUInt32) } :: gs else g :: enrol uid gid gs

/-! ## Accounts -/

def usrFindByUid (uid : UInt16) : Option User := db.users.find? fun u => u.uid == uid

def usrFindByName (name : Text) : Option User := db.users.find? fun u => u.name == name

/-- the record that `usr_add` fills; a NULL home or shell has a default -/
def newUser (uid gid : UInt16) (name password : Text) (flags : UInt32) (home shell : Option Text) (salt : UInt64) : User where
  uid := uid
  gid := gid
  flags := flags
  pwHash := pwHashSalted password salt
  pwSalt := salt
  name := uStrncpy usrNameLen name
  home := uStrncpy usrHomeLen (home.getD ['/'])
  shell := uStrncpy usrShellLen (shell.getD ['/', 'b', 'i', 'n', '/', 'a', 's', 'd', 's', 'h'])
  groups := (if gid < 32 then (1 : UInt32) <<< gid.toUInt32 else 0) ||| (if flags &&& 1 ≠ 0 then (1 : UInt32) <<< 1 else 0)

/-- the groups after `usr_add`: only uids below 32 have a bit -/
def enrolNew (uid gid : UInt16) (flags : UInt32) (gs : List Group) : List Group :=
  if uid < 32 then
    let gs := enrol uid gid gs
    if flags &&& 1 ≠ 0 then enrol uid 1 gs else gs
  else gs

variable {l : List User} {u : User} {salt : UInt64}

theorem find_uid {uid : UInt16} : (l.find? fun u => u.uid == uid) = none ↔ uid ∉ l.map User.uid := by
  simp only [List.find?_eq_none, List.mem_map, beq_iff_eq, not_exists, not_and]

theorem nodup_snoc (h : (l.map User.uid).Nodup) (hu : u.uid ∉ l.map User.uid) : ((l ++ [u]).map User.uid).Nodup := by
  rw [List.map_append, List.map_singleton]
  exact List.nodup_append.2 ⟨h, List.nodup_singleton _, fun a ha b hb => by
    rw [List.mem_singleton.1 hb]
    exact fun e => hu (e ▸ ha)⟩

/-- none for -1 -/
def usrAdd (uid gid : UInt16) (name password : Text) (flags : UInt32) (home shell : Option Text)
    (salt : UInt64) : Option Accounts :=
  if usrMaxUsers ≤ db.users.length then none
  else if h : usrFindByUid db uid = none then
    if (usrFindByName db name).isSome then none
    else if name = [] then none
    else some
      { users := db.users ++ [newUser uid gid name password flags home shell salt]
        groups := enrolNew uid gid flags db.groups
        uids := nodup_snoc db.uids (find_uid.1 h) }
  else none

theorem map_uid {f : User → User} (hf : ∀ u, (f u).uid = u.uid) : (l.map f).map User.uid = l.map User.uid := by
  rw [List.map_map]
  exact List.map_congr_left fun u _ => hf u

/-- the account with this uid gets this salt and hash -/
def setCredentials (uid : UInt16) (salt hash : UInt64) : Accounts where
  users := db.users.map fun u => if u.uid = uid then { u with pwSalt := salt, pwHash := hash } else u
  groups := db.groups
  uids := by
    rw [map_uid fun u => by split <;> rfl]
    exact db.uids

/-- none for -1 -/
def usrSetPassword (uid : UInt16) (password : Text) (salt : UInt64) : Option Accounts :=
  match usrFindByUid db uid with
  | none => none
  | some _ => some (setCredentials db uid salt (pwHashSalted password salt))

/-- an account is checked against a password -/
def User.check (u : User) (password : Text) : Bool :=
  if u.locked then false
  else if u.nologin then false
  -- no hash: only the empty password
  else if u.pwHash = 0 then decide (password = [])
  else decide (u.pwHash = pwHashSalted password u.pwSalt)

def usrCheckPassword (uid : UInt16) (password : Text) : Bool :=
  match usrFindByUid db uid with
  | none => false
  | some u => u.check password

def Accounts.empty : Accounts := ⟨[], [], List.nodup_nil⟩

def rootName : Text := ['r', 'o', 'o', 't']

/-- the built-in groups and the root account, which has no password -/
def usrInit (salt : UInt64) : Accounts :=
  let db := Accounts.empty
  let db := (grpAdd db 0 rootName).getD db
  let db := (grpAdd db 1 ['w', 'h', 'e', 'e', 'l']).getD db
  let db := (grpAdd db 100 ['u', 's', 'e', 'r', 's']).getD db
  let db := (usrAdd db 0 0 rootName [] 0 (some ('/' :: rootName))
    (some ['/', 'b', 'i', 'n', '/', 'a', 's', 'd', 's', 'h']) salt).getD db
  setCredentials db 0 0 0

/-! ## Checks -/

/-- an account is what its uid finds -/
theorem find_mem (db : Accounts) (hu : u ∈ db.users) : usrFindByUid db u.uid = some u := by
  obtain ⟨v, hv⟩ : ∃ v, usrFindByUid db u.uid = some v := by
    rw [← Option.isSome_iff_exists, Option.isSome_iff_ne_none]
    intro hn
    exact find_uid.1 hn (List.mem_map_of_mem hu)
  have huid : v.uid = u.uid := by simpa using List.find?_some hv
  have hmem : v ∈ db.users := List.mem_of_find?_eq_some hv
  rw [hv, List.inj_on_of_nodup_map db.uids hmem hu huid]

theorem setCredentials_find {db : Accounts} {hash : UInt64} (h : u ∈ db.users) :
    usrFindByUid (setCredentials db u.uid salt hash) u.uid = some { u with pwSalt := salt, pwHash := hash } := by
  have hm : { u with pwSalt := salt, pwHash := hash } ∈ (setCredentials db u.uid salt hash).users := by
    apply List.mem_map.2
    exact ⟨u, h, if_pos rfl⟩
  exact find_mem _ hm

/-- an account that may log in and has a hash goes by its hash -/
theorem check_hash (hl : u.locked = false) (hn : u.nologin = false) (h0 : u.pwHash ≠ 0) (x : Text) :
    u.check x = true ↔ pwHashSalted x u.pwSalt = u.pwHash := by
  simp only [User.check, hl, hn, h0, if_false, Bool.false_eq_true, decide_eq_true_eq]
  exact eq_comm

/-- the same with a salt and a hash of its own -/
theorem check_with (hl : u.locked = false) (hn : u.nologin = false) (hash : UInt64) (x : Text) :
    ({ u with pwSalt := salt, pwHash := hash } : User).check x = true ↔
      if hash = 0 then x = [] else pwHashSalted x salt = hash := by
  have hl' : ({ u with pwSalt := salt, pwHash := hash } : User).locked = false := hl
  have hn' : ({ u with pwSalt := salt, pwHash := hash } : User).nologin = false := hn
  by_cases h0 : hash = 0
  · subst h0
    simp [User.check, hl', hn']
  · rw [check_hash hl' hn' h0, if_neg h0]

section Set

variable {db db' : Accounts} {pw : Text}

/-- after `usr_set_password` an account is checked against the new salt and hash -/
theorem check_after (hu : u ∈ db.users) (h : usrSetPassword db u.uid pw salt = some db') (x : Text) :
    usrCheckPassword db' u.uid x = ({ u with pwSalt := salt, pwHash := pwHashSalted pw salt } : User).check x := by
  unfold usrSetPassword at h
  rw [find_mem db hu] at h
  cases h
  unfold usrCheckPassword
  rw [setCredentials_find hu]

variable (hu : u ∈ db.users) (h : usrSetPassword db u.uid pw salt = some db') (hl : u.locked = false)
  (hn : u.nologin = false)
include hu h hl hn

/-- **The last password counts.** After `usr_set_password` an account that may log in accepts the password, unless its salted
hash is 0. -/
theorem check_set (h0 : pwHashSalted pw salt ≠ 0) (x : Text) :
    usrCheckPassword db' u.uid x = true ↔ pwHashSalted x salt = pwHashSalted pw salt := by
  rw [check_after hu h, check_with hl hn, if_neg h0]

/-- a hash of 0 stands for no password -/
theorem check_unset (h0 : pwHashSalted pw salt = 0) (x : Text) : usrCheckPassword db' u.uid x = true ↔ x = [] := by
  rw [check_after hu h, check_with hl hn, if_pos h0]

/-- **Setting a password.** For every account that may log in, every password and every salt: after `usr_set_password` the
password is accepted, and another string only if it has the same hash, exactly if the password is empty or its hash is not
0. -/
theorem set_password_iff : (usrCheckPassword db' u.uid pw = true ∧
      ∀ x, usrCheckPassword db' u.uid x = true → pwHashSalted x salt = pwHashSalted pw salt) ↔
    (pw = [] ∨ pwHashSalted pw salt ≠ 0) := by
  by_cases h0 : pwHashSalted pw salt = 0
  · simp only [check_unset hu h hl hn h0, h0, ne_eq, not_true, or_false, and_iff_left_iff_imp]
    intro hpw x hx
    rw [hx, ← hpw, h0]
  · simp [check_set hu h hl hn h0, h0]

end Set

/-- the account of root after `usr_init` -/
def rootUser : User := ⟨0, 0, 0, 0, 0, rootName, '/' :: rootName, ['/', 'b', 'i', 'n', '/', 'a', 's', 'd', 's', 'h'], 1⟩

theorem set_password_iff_root : ∃ db', usrSetPassword (usrInit 0) rootUser.uid ['a'] 7 = some db' ∧
    usrCheckPassword (usrInit 0) 0 ['a'] = false ∧ usrCheckPassword db' 0 ['a'] = true ∧ usrCheckPassword db' 0 [] = false := by
  have hu : rootUser ∈ (usrInit 0).users := List.mem_singleton_self rootUser
  have h0 : pwHashSalted ['a'] 7 ≠ 0 := by decide +kernel
  have hne : pwHashSalted [] 7 ≠ pwHashSalted ['a'] 7 := by decide +kernel
  obtain ⟨hset, honly⟩ := (set_password_iff hu rfl rfl rfl).2 (Or.inr h0)
  exact ⟨_, rfl, rfl, hset, Bool.eq_false_iff.2 fun h => hne (honly [] h)⟩

/-- **A lost password.** With this salt the hash of "a" is 0: the password that was set is refused, and none is needed. -/
theorem password_refused : ∃ salt db', usrSetPassword (usrInit 0) 0 ['a'] salt = some db' ∧
    rootUser ∈ (usrInit 0).users ∧ rootUser.locked = false ∧ rootUser.nologin = false ∧
    usrCheckPassword db' 0 ['a'] = false ∧ usrCheckPassword db' 0 [] = true := by
  have hu : rootUser ∈ (usrInit 0).users := List.mem_singleton_self rootUser
  have hmix : ∀ n, mixRound^[n] 0 = 0 := Function.iterate_fixed (by decide)
  have h0 : pwHashSalted ['a'] 10162071143327760574 = 0 := by
    have hfold : (['a'] : Text).foldl (fun h c => (h ^^^ byte c) * fnvPrime)
        ((fnvOffset ^^^ 10162071143327760574) * fnvPrime) = 0 := by decide +kernel
    unfold pwHashSalted
    dsimp only
    rw [hfold]
    apply hmix
  have hset := check_unset hu rfl rfl rfl h0
  exact ⟨10162071143327760574, _, rfl, hu, rfl, rfl, Bool.eq_false_iff.2 fun h => (nomatch (hset _).1 h), (hset _).2 rfl⟩

end OpenASD.Usr
