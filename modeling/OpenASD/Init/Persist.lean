/-
The user database on disk (init/installer.c: `persist_users`, `passwd_load_slot`, `boot_try_load_passwd_from_dev`). A slot
has eight sectors of 512 bytes: the passwd text from its start, and the host name in its last 64 bytes. It is written at LBA
34, read back, and written again at the end of the disk.

The writer is given the whole slot. A text that leaves no room for the host name, or that ends in the middle of an account,
is written with a warning on the console and the result is 0.

Results:
- `persist_boot`: on a disk of 512-byte sectors, a database of which the text says what passwords are checked against
  (`Kept`) and that ends before the host name's place is back after a boot, with a host name that starts with a letter or a
  digit;
- `unlocked_by_boot`: a locked account of the wheel group accepts its password after a boot;
- `persist_gpt_iff`: on a disk that was just partitioned, both copies of the partition table survive exactly if one of the
  three accesses fails, since the copy at the end of the disk is written over the backup table.
-/
import OpenASD.Block.Gpt
import OpenASD.Usr.Passwd

namespace OpenASD.Init

open ByteMem Block Usr
open List (append_assoc append_nil length_append length_map map_append map_replicate mem_map replicate take_append
  take_of_length_le)

def passwdLba : ℕ := 34
def passwdSecs : ℕ := 8
def slotLen : ℕ := passwdSecs * 512
def hostnameOffset : ℕ := passwdSecs * 512 - 64

def byteOf (c : Char) : UInt8 := UInt8.ofNat c.toNat
def charOf (b : UInt8) : Char := Char.ofNat b.toNat

/-! ## Writing the slot -/

/-- the buffer that is written; the host name only if the text leaves it its place -/
def passwdSlot (db : Accounts) (host : Text) : Option Bytes :=
  match usrWritePasswd db slotLen with
  | none => none
  | some text =>
    let buf := (text.map byteOf ++ replicate slotLen 0).take slotLen
    if hostnameOffset ≤ text.length then some buf
    else
      let h := (host.take 63).map byteOf
      some (buf.take hostnameOffset ++ h ++ 0 :: buf.drop (hostnameOffset + h.length + 1))

def magic : Bytes := ['#', 'A', 'S', 'D', 'P', 'W', '1'].map byteOf

def passwdDbMagicOk (buf : Bytes) : Bool := decide (buf.take 7 = magic)

/-- "root 0 0" -/
def rootMark : Bytes := ['r', 'o', 'o', 't', ' ', '0', ' ', '0'].map byteOf

def passwdBufHasRootAccount (buf : Bytes) : Bool :=
  decide (16 ≤ buf.length) && passwdDbMagicOk buf &&
    (List.range (buf.length - 7)).any fun i => decide ((buf.drop i).take 8 = rootMark)

/-- the copy at the end of the disk, on disks that are large enough; a failure is not reported -/
def writeTail (d : Dev) (buf : Bytes) : Dev :=
  if passwdLba + passwdSecs + 64 ≤ d.sectorCount then (d.write (d.sectorCount - passwdSecs) passwdSecs buf).2 else d

def persistUsers (db : Accounts) (host : Text) (d : Dev) : ℤ × Dev :=
  match passwdSlot db host with
  | none => (-1, d)
  | some buf =>
    match d.write passwdLba passwdSecs buf with
    | (false, d) => (-1, d)
    | (true, d) =>
      match d.read passwdLba passwdSecs with
      | (none, d) => (-1, d)
      | (some verify, d) => if passwdBufHasRootAccount verify then (0, writeTail d buf) else (-1, d)

/-! ## Boot -/

def isAlnum (c : Char) : Bool :=
  decide ('a' ≤ c ∧ c ≤ 'z') || decide ('A' ≤ c ∧ c ≤ 'Z') || decide ('0' ≤ c ∧ c ≤ '9')

/-- the host name after a slot was loaded -/
def passwdApplyHostname (host : Text) (raw : Bytes) : Text :=
  if passwdDbMagicOk raw then
    let h := cstr (((raw.drop hostnameOffset).take 63).map charOf)
    match h with
    | [] => host
    | c :: _ => if isAlnum c then h else host
  else host

structure Booted where
  /-- the number of lines, or -1; of the whole load, 1 or 0 -/
  result : ℤ
  db : Accounts
  host : Text
  dev : Dev

def passwdLoadSlot (ent : ℕ → UInt64) (db : Accounts) (host : Text) (d : Dev) (lba : ℕ) : Booted :=
  match d.read lba passwdSecs with
  | (none, d) => ⟨-1, db, host, d⟩
  | (some raw, d) =>
    if passwdBufHasRootAccount raw then
      let raw := raw.set (slotLen - 1) 0
      let r := usrLoadPasswd ent db (raw.map charOf) (slotLen - 1)
      ⟨r.2, r.1, if 0 < r.2 then passwdApplyHostname host raw else host, d⟩
    else ⟨-1, db, host, d⟩

/-- first the slot behind the partition entries, then the one at the end of the disk -/
def bootTryLoadPasswdFromDev (ent : ℕ → UInt64) (db : Accounts) (host : Text) (d : Dev) : Booted :=
  let b := passwdLoadSlot ent db host d passwdLba
  if 0 < b.result then { b with result := 1 }
  else if passwdLba + passwdSecs + 64 ≤ b.dev.sectorCount then
    let t := passwdLoadSlot (fun n => ent (n + usrMaxUsers)) b.db b.host b.dev (b.dev.sectorCount - passwdSecs)
    if 0 < t.result then { t with result := 1 } else { t with result := 0 }
  else { b with result := 0 }

/-! ## The slot -/

variable {db : Accounts}

/-- a text only grows -/
theorem copyFields_append (n : ℕ) (out : Text) (fs : List Text) : out <+: copyFields n out fs := by
  fun_induction copyFields n out fs with
  | case1 out => exact List.prefix_rfl
  | case2 out s => exact List.prefix_append _ _
  | case3 out s t r ih => exact ((List.prefix_append _ _).trans (List.prefix_append _ _)).trans ih

theorem writeUser_append (n : ℕ) (out : Text) (u : User) : out <+: writeUser n out u := by
  have h := copyFields_append n out (fields u)
  rw [writeUser]
  split_ifs
  · exact h.trans (List.prefix_append _ _)
  · exact h

theorem writeUsers_append (n : ℕ) (out : Text) (us : List User) : out <+: us.foldl (writeUser n) out := by
  induction us generalizing out with
  | nil => exact List.prefix_rfl
  | cons u us ih => exact (writeUser_append n out u).trans (ih _)

/-- the text starts with the header and with root's line, as far as its gid -/
def startText : Text := passwdHeader ++ ['r', 'o', 'o', 't', ' ', '0', ' ', '0']

theorem line_root (salt hash : UInt64) : ∃ s, line (rootWith salt hash) = ['r', 'o', 'o', 't', ' ', '0', ' ', '0'] ++ s ∧
    s.length ≤ 100 := by
  refine ⟨_, rfl, ?_⟩
  simp [joinFields, rootWith, rootName, installShell, length_fmtHex64, flagWord, User.wheel, User.nologin, User.locked]

theorem write_start (h : Formed db) : ∃ text, usrWritePasswd db slotLen = some text ∧ startText <+: text := by
  obtain ⟨r, rest, hr, hroot⟩ := h.root
  obtain ⟨s, hline, hlen⟩ := line_root r.pwSalt r.pwHash
  have hl : line r = line (rootWith r.pwSalt r.pwHash) := by
    rw [← hroot]
    rfl
  have hfit : writeUser slotLen passwdHeader r = passwdHeader ++ line r := by
    apply writeUser_fits
    rw [hl, hline, length_append]
    have h8 : passwdHeader.length = 8 := rfl
    have h8' : (['r', 'o', 'o', 't', ' ', '0', ' ', '0'] : Text).length = 8 := rfl
    have hn : slotLen - 1 = 4095 := rfl
    omega
  have hhdr : passwdHeader.take (slotLen - 1) = passwdHeader := rfl
  refine ⟨_, by rw [usrWritePasswd, if_neg (by decide), hhdr, hr, List.foldl_cons, hfit], ?_⟩
  refine List.IsPrefix.trans ?_ (writeUsers_append slotLen (passwdHeader ++ line r) rest)
  rw [hl, hline, ← append_assoc]
  exact List.prefix_append _ _

/-- the slot of a database: it starts with the header and with root -/
structure Slot (db : Accounts) (host : Text) (buf : Bytes) : Prop where
  eq : passwdSlot db host = some buf
  len : buf.length = slotLen
  start : startText.map byteOf <+: buf

/-- every database gives a slot -/
theorem slot_start (h : Formed db) (host : Text) : ∃ buf, Slot db host buf := by
  obtain ⟨text, htext, hstart⟩ := write_start h
  have hlen : ((text.map byteOf ++ replicate slotLen 0).take slotLen).length = slotLen := by
    rw [List.length_take, length_append, List.length_replicate]
    omega
  have hpre : startText.map byteOf <+: (text.map byteOf ++ replicate slotLen 0).take slotLen := by
    rw [List.prefix_take_iff]
    exact ⟨(hstart.map byteOf).trans (List.prefix_append _ _), by decide⟩
  by_cases hbig : hostnameOffset ≤ text.length
  · exact ⟨_, by rw [passwdSlot, htext]; exact if_pos hbig, hlen, hpre⟩
  have hhost : ((host.take 63).map byteOf).length ≤ 63 := by
    rw [length_map]
    exact List.length_take_le _ _
  have hoff : hostnameOffset + 64 = slotLen := rfl
  refine ⟨_, by rw [passwdSlot, htext]; exact if_neg hbig, ?_, ?_⟩
  · simp only [length_append, List.length_take, List.length_cons, List.length_drop, hlen] at *
    omega
  rw [append_assoc]
  have hsub : startText.map byteOf <+: ((text.map byteOf ++ replicate slotLen 0).take slotLen).take hostnameOffset := by
    rw [List.prefix_take_iff]
    exact ⟨hpre, by decide⟩
  exact hsub.trans (List.prefix_append _ _)

variable {buf : Bytes} {host : Text}

section

variable (h : Slot db host buf)
include h

theorem Slot.magic : passwdDbMagicOk buf = true := by
  obtain ⟨s, rfl⟩ := h.start
  exact decide_eq_true rfl

theorem Slot.root : passwdBufHasRootAccount buf = true := by
  obtain ⟨s, rfl⟩ := h.start
  have hlen : 16 ≤ (startText.map byteOf ++ s).length := by
    rw [length_append]
    exact Nat.le_add_right 16 _
  simp only [passwdBufHasRootAccount, Bool.and_eq_true, decide_eq_true_eq, List.any_eq_true, List.mem_range]
  refine ⟨⟨hlen, decide_eq_true rfl⟩, 8, by omega, rfl⟩

/-- a slot is read as it was written -/
theorem Slot.get_put (m : Mem) : get (put m (512 * passwdLba) buf) (512 * passwdLba) (512 * passwdSecs) = buf := by
  have hget := ByteMem.get_put m (512 * passwdLba) buf
  rwa [h.len] at hget

end

/-! ## The accesses -/

/-- the device after a slot was written at LBA 34 -/
def afterWrite (d : Dev) (buf : Bytes) : Dev := { d.tick with disk := put d.disk (512 * passwdLba) buf }

theorem refuses_afterWrite {d : Dev} (h : d.refuses passwdLba passwdSecs = false) (buf : Bytes) :
    (afterWrite d buf).refuses passwdLba passwdSecs = d.fault (d.clock + 1) := by
  simp only [Dev.refuses, Bool.or_eq_false_iff] at h
  rw [Dev.refuses, show (afterWrite d buf).sectorCount = d.sectorCount from rfl, h.2, Bool.or_false]
  rfl

/-- **What `persist_users` does to a device.** -/
theorem persist_eq {d : Dev} (hsec : d.sectorSize = 512) (hbuf : Slot db host buf) :
    persistUsers db host d = if d.refuses passwdLba passwdSecs then (-1, d.tick)
      else if d.fault (d.clock + 1) then (-1, (afterWrite d buf).tick) else (0, writeTail (afterWrite d buf).tick buf) := by
  rw [persistUsers, hbuf.eq]
  cases hr : d.refuses passwdLba passwdSecs with
  | true => simp only [Dev.write_refused hr, if_true]
  | false =>
    have hw : d.write passwdLba passwdSecs buf = (true, afterWrite d buf) := by
      rw [Dev.write_ok hr, hsec]
      rfl
    have hsec' : (afterWrite d buf).sectorSize = 512 := hsec
    have hrefuse := refuses_afterWrite hr buf
    simp only [hw, Bool.false_eq_true, if_false]
    cases hf : d.fault (d.clock + 1) with
    | true => simp only [Dev.read_refused (hrefuse.trans hf), if_true]
    | false =>
      -- the read is of the sectors that were written
      have hread : get (afterWrite d buf).disk (512 * passwdLba) (512 * passwdSecs) = buf := hbuf.get_put d.disk
      simp only [Dev.read_ok (hrefuse.trans hf), hsec', hread, hbuf.root, Bool.false_eq_true, if_false, if_true]

/-! ## The partition table -/

/-- the sectors of the protective MBR, the two headers and the two arrays of entries -/
def GptSector (total lba : ℕ) : Prop := lba ≤ 33 ∨ total - 33 ≤ lba ∧ lba < total

/-- the same contents in these sectors -/
def SameGpt (total : ℕ) (m m' : Mem) : Prop := ∀ lba, GptSector total lba → get m' (512 * lba) 512 = get m (512 * lba) 512

section Table

variable {m m' : Mem} {total : ℕ}

theorem SameGpt.refl (total : ℕ) (m : Mem) : SameGpt total m m := fun _ _ => rfl

theorem SameGpt.byte (h : SameGpt total m m') {lba i : ℕ} (hl : GptSector total lba) (hi : i < 512) :
    m' (512 * lba + i) = m (512 * lba + i) := by
  have hget := congrArg (fun l => l[i]?) (h lba hl)
  simpa only [get_getElem? hi, Option.some.injEq] using hget

/-- whole runs of such sectors -/
theorem SameGpt.sectors (h : SameGpt total m m') {a k : ℕ} (hl : ∀ lba, a ≤ lba → lba < a + k → GptSector total lba) :
    get m' (512 * a) (512 * k) = get m (512 * a) (512 * k) := by
  apply get_congr
  intro x h1 h2
  have hbyte := h.byte (hl (x / 512) (by omega) (by omega)) (Nat.mod_lt x (show 0 < 512 by decide))
  rwa [Nat.div_add_mod] at hbyte

theorem SameGpt.written (h : SameGpt total m m') (hw : Written m total) (hpos : 68 < total) : Written m' total where
  primary := (h 1 (.inl (by decide))).trans hw.primary
  backup := (h (total - 1) (.inr (by omega))).trans hw.backup
  entries := (h.sectors fun lba h1 h2 => .inl (by omega)).trans hw.entries
  copies := (h.sectors fun lba h1 h2 => .inr (by omega)).trans hw.copies

theorem SameGpt.slot (hc : 106 ≤ total) (hlen : buf.length = slotLen) : SameGpt total m (put m (512 * passwdLba) buf) := by
  intro lba hl
  apply get_put_of_disjoint
  have hp : passwdLba = 34 := rfl
  have hs : slotLen = 4096 := rfl
  rcases hl with hl | hl <;> omega

/-- the entries after the second are empty, so sector 25 of their copy starts with 0 -/
theorem copy_zero (h : Written m total) (hpos : 68 < total) : m (512 * (total - 8)) = 0 := by
  have hparts : partsBytes total = pack (espPart.fields ++ (rootPart total).fields) ++ leBytes (126 * 128) 0 := by
    rw [partsBytes, partsFields, pack_append]
    simp [pack]
  have hlen : (pack (espPart.fields ++ (rootPart total).fields)).length = 256 := by
    simp [packLen, Part.fields]
  have haddr : 512 * (total - 33) + 12800 = 512 * (total - 8) := by omega
  have hget := congrArg (fun l => l[12800]?) h.copies
  simp only [hparts, List.getElem?_append_right (hlen.trans_le (show 256 ≤ 12800 by decide)), hlen, leBytes_zero,
    get_getElem? (show 12800 < 512 * 32 by decide), haddr] at hget
  rw [List.getElem?_replicate_of_lt (by decide)] at hget
  exact Option.some.inj hget

/-- a slot at the end of the disk has a # where the copy of the entries has a 0 -/
theorem tail_changes (h : Written m total) (hpos : 68 < total) (hstart : startText.map byteOf <+: buf) :
    ¬ SameGpt total m (put m' (512 * (total - 8)) buf) := by
  intro hsame
  obtain ⟨s, rfl⟩ := hstart
  have hsec : GptSector total (total - 8) := .inr (by omega)
  have hlen : 0 < (startText.map byteOf ++ s).length := by
    rw [length_append]
    exact Nat.lt_of_lt_of_le (show 0 < 16 by decide) (Nat.le_add_right 16 _)
  have hbyte := hsame.byte hsec (show 0 < 512 by decide)
  rw [put_in hlen, Nat.add_zero, copy_zero h hpos] at hbyte
  have hmark : (35 : UInt8) = 0 := hbyte
  exact absurd hmark (by decide)

end Table

variable {d : Dev} {db : Accounts}

/-- the disk after `persist_users`, by the accesses that fail -/
theorem persist_disk (hsec : d.sectorSize = 512) (hcount : 106 ≤ d.sectorCount) (hbuf : Slot db host buf) :
    (persistUsers db host d).2.disk = if d.fault d.clock = true then d.disk
      else if d.fault (d.clock + 1) = true ∨ d.fault (d.clock + 2) = true then put d.disk (512 * passwdLba) buf
      else put (put d.disk (512 * passwdLba) buf) (512 * (d.sectorCount - 8)) buf := by
  have hfirst : d.refuses passwdLba passwdSecs = d.fault d.clock := refuses_inside (le_trans (by decide) hcount)
  have htail : (afterWrite d buf).tick.refuses (d.sectorCount - passwdSecs) passwdSecs = d.fault (d.clock + 2) :=
    refuses_inside (Nat.sub_add_cancel (le_trans (by decide) hcount)).le
  rw [persist_eq hsec hbuf, hfirst]
  by_cases h0 : d.fault d.clock = true
  · rw [if_pos h0, if_pos h0]
    rfl
  rw [if_neg h0, if_neg h0]
  by_cases h1 : d.fault (d.clock + 1) = true
  · rw [if_pos h1, if_pos (.inl h1)]
    rfl
  have hbig : passwdLba + passwdSecs + 64 ≤ (afterWrite d buf).tick.sectorCount := hcount
  rw [if_neg h1, writeTail, if_pos hbig, show (afterWrite d buf).tick.sectorCount = d.sectorCount from rfl]
  by_cases h2 : d.fault (d.clock + 2) = true
  · rw [if_pos (.inr h2), Dev.write_refused (htail.trans h2)]
    rfl
  · rw [if_neg (not_or.2 ⟨h1, h2⟩), Dev.write_ok (htail.trans (Bool.eq_false_iff.2 h2)),
      show (afterWrite d buf).tick.sectorSize = 512 from hsec]
    rfl

/-- **Partition tables and the user database.** On a disk that was just partitioned, `persist_users` leaves every sector of
the protective MBR and of both tables as it was, with both headers and their entries verifying, if and only if one of its
accesses fails: the write of LBA 34, the read of it, or the write at the end of the disk. -/
theorem persist_gpt_iff {d d1 : Dev} (hs : recognised d = false) (hg : gptInitSingleDisk d = (0, d1)) {db : Accounts}
    (hm : Made db) (host : Text) :
    (SameGpt d.sectorCount d1.disk (persistUsers db host d1).2.disk ∧ HeaderSound (persistUsers db host d1).2.disk 1 ∧
      HeaderSound (persistUsers db host d1).2.disk (d.sectorCount - 1)) ↔
    (d1.fault d1.clock = true ∨ d1.fault (d1.clock + 1) = true ∨ d1.fault (d1.clock + 2) = true) := by
  obtain ⟨hmin, hdisk, hsize, hcount, -, -⟩ := init_written hs hg
  have hpos : 1049634 ≤ d.sectorCount := hmin
  have hwritten := putAll_written d.disk (show 68 < d.sectorCount by omega)
  rw [← hdisk] at hwritten
  obtain ⟨buf, hbuf⟩ := slot_start hm.formed host
  have hslot : SameGpt d.sectorCount d1.disk (put d1.disk (512 * passwdLba) buf) := SameGpt.slot (by omega) hbuf.len
  have hsound : ∀ {m' : Mem}, SameGpt d.sectorCount d1.disk m' → HeaderSound m' 1 ∧ HeaderSound m' (d.sectorCount - 1) :=
    fun h => (h.written hwritten (by omega)).headers d.count_lt (by omega)
  rw [persist_disk hsize (by omega) hbuf, hcount]
  split_ifs with h0 h12
  · exact ⟨fun _ => .inl h0, fun _ => ⟨SameGpt.refl _ _, hsound (SameGpt.refl _ _)⟩⟩
  · exact ⟨fun _ => .inr h12, fun _ => ⟨hslot, hsound hslot⟩⟩
  · exact ⟨fun h => absurd h.1 (tail_changes hwritten (by omega) hbuf.start), fun h => absurd h (not_or.2 ⟨h0, h12⟩)⟩

theorem worn_lt : 2097152 < 2 ^ 64 := by decide

/-- a blank disk whose accesses fail from number 69 on -/
def wornDev : Dev := ⟨512, 2097152, worn_lt, fun _ => 0, fun n => decide (69 ≤ n), 0⟩

def defaultHost : Text := ['a', 's', 'd']

theorem persist_gpt_iff_worn : ∃ d1, gptInitSingleDisk wornDev = (0, d1) ∧
    SameGpt 2097152 d1.disk (persistUsers (usrInit 1) defaultHost d1).2.disk ∧
    HeaderSound (persistUsers (usrInit 1) defaultHost d1).2.disk (2097152 - 1) := by
  have hz : recognised wornDev = false := blank_recognised fun _ => rfl
  have hf : ∀ n < wornDev.clock + 69, wornDev.fault n = false := fun n hn => decide_eq_false (by
    rw [show wornDev.clock = 0 from rfl] at hn
    omega)
  obtain ⟨d1, hg⟩ := init_total hf rfl (by decide) hz
  obtain ⟨-, -, -, -, hfault, hclock⟩ := init_written hz hg
  have htail : d1.fault (d1.clock + 2) = true := by
    rw [hfault]
    exact decide_eq_true (by rw [show wornDev.clock = 0 from rfl] at hclock; omega)
  obtain ⟨hsame, -, hsound⟩ := (persist_gpt_iff hz hg (Made.init 1) defaultHost).2 (.inr (.inr htail))
  exact ⟨d1, hg, hsame, hsound⟩

/-- **The backup table is lost.** On a blank disk of 1 GiB without faults, partitioned and given a user database, the last
sector no longer has the signature of a partition table. -/
theorem backup_overwritten : ∃ d1, gptInitSingleDisk (blankDev 2097152 (by decide)) = (0, d1) ∧
    (persistUsers (usrInit 1) defaultHost d1).1 = 0 ∧
    ¬ SameGpt 2097152 d1.disk (persistUsers (usrInit 1) defaultHost d1).2.disk ∧
    ¬ HeaderSound (persistUsers (usrInit 1) defaultHost d1).2.disk (2097152 - 1) := by
  obtain ⟨d1, hg⟩ := init_total (d := blankDev 2097152 (by decide)) (fun _ _ => rfl) rfl (by decide)
    (blank_recognised fun _ => rfl)
  obtain ⟨-, hdisk, hsize, hcount, hfault, -⟩ := init_written (blank_recognised fun _ => rfl) hg
  have hnone : ∀ n, d1.fault n = false := fun n => by
    rw [hfault]
    rfl
  have htotal : d1.sectorCount = 2097152 := hcount
  obtain ⟨buf, hbuf⟩ := slot_start (Made.init 1).formed defaultHost
  have hm : (persistUsers (usrInit 1) defaultHost d1).2.disk =
      put (put d1.disk (512 * passwdLba) buf) (512 * (2097152 - 8)) buf := by
    rw [persist_disk hsize (by rw [htotal]; decide) hbuf, htotal]
    simp only [hnone, Bool.false_eq_true, or_self, if_false]
  refine ⟨d1, hg, ?_, ?_, ?_⟩
  · rw [persist_eq hsize hbuf, refuses_inside (by rw [htotal]; decide)]
    simp only [hnone, Bool.false_eq_true, if_false]
  · rw [hm]
    have hpos : 68 < 2097152 := by decide
    have hwritten := putAll_written (blankDev 2097152 (by decide)).disk hpos
    exact tail_changes (hdisk ▸ hwritten) hpos hbuf.start
  intro hsound
  have hsig := congrArg (fun l => l[0]?) hsound.signature
  have hzero : buf[3584]? = some 0 := by
    have hslot : (passwdSlot (usrInit 1) defaultHost).bind (fun b => b[3584]?) = some 0 := by decide +kernel
    rwa [hbuf.eq] at hslot
  obtain ⟨hlt, hval⟩ := List.getElem?_eq_some_iff.1 hzero
  have haddr : 512 * (2097152 - 1) = 512 * (2097152 - 8) + 3584 := rfl
  simp only [get_getElem? (show 0 < 8 by decide), Nat.add_zero] at hsig
  rw [hm, haddr, put_in hlt, hval] at hsig
  exact absurd hsig (by decide)

/-! ## What a boot finds -/

/-- the characters of a C string are bytes -/
def Narrow (s : Text) : Prop := ∀ c ∈ s, c.toNat < 256

instance (s : Text) : Decidable (Narrow s) := List.decidableBAll (fun c : Char => c.toNat < 256) s

theorem charOf_byteOf {c : Char} (h : c.toNat < 256) : charOf (byteOf c) = c := by
  have hb : (UInt8.ofNat c.toNat).toNat = c.toNat := by simp [Nat.mod_eq_of_lt h]
  rw [charOf, byteOf, hb, Char.ofNat_toNat]

theorem map_charOf {s : Text} (h : Narrow s) : (s.map byteOf).map charOf = s := by
  rw [List.map_map]
  conv_rhs => rw [← List.map_id s]
  exact List.map_congr_left fun c hc => charOf_byteOf (h c hc)

theorem charOf_zero : charOf 0 = Char.ofNat 0 := rfl

/-- a string in a buffer ends where the zeros start -/
theorem cstr_append {s : Text} (hs : ∀ c ∈ s, c ≠ Char.ofNat 0) (rest : Text) : cstr (s ++ rest) = s ++ cstr rest := by
  rw [cstr, List.takeWhile_append_of_pos]
  · rfl
  · exact fun c hc => decide_eq_true (hs c hc)

theorem cstr_zeros (n : ℕ) (rest : Text) : cstr (replicate (n + 1) (Char.ofNat 0) ++ rest) = [] := by
  rw [List.replicate_succ, List.cons_append, cstr, List.takeWhile_cons_of_neg]
  simp

/-- a text and the zeros behind it, cut off -/
theorem take_zeros {s : Text} {n k : ℕ} (h1 : s.length ≤ k) (h2 : k - s.length ≤ n) :
    (s.map byteOf ++ replicate n 0).take k = s.map byteOf ++ replicate (k - s.length) 0 := by
  rw [take_append, length_map, take_of_length_le (by rwa [length_map]), List.take_replicate, Nat.min_eq_left h2]

/-- a slot with a text and a host name -/
def slotBytes (text host : Text) : Bytes :=
  text.map byteOf ++ (replicate (hostnameOffset - text.length) 0 ++ (host.map byteOf ++ replicate (64 - host.length) 0))

/-- the slot of a text that leaves the host name its place -/
theorem slot_fits {text : Text} (htext : usrWritePasswd db slotLen = some text) (hfit : text.length < hostnameOffset)
    (hhost : host.length ≤ 63) : passwdSlot db host = some (slotBytes text host) := by
  have hoff : hostnameOffset = 4032 := rfl
  have hslot : slotLen = 4096 := rfl
  have hpad := take_zeros (s := text) (n := slotLen) (k := slotLen) (by omega) (Nat.sub_le _ _)
  have htake := take_zeros (s := text) (n := slotLen - text.length) (k := hostnameOffset) (by omega) (by omega)
  have hdrop : (text.map byteOf ++ replicate (slotLen - text.length) (0 : UInt8)).drop
      (hostnameOffset + host.length + 1) = replicate (63 - host.length) 0 := by
    rw [List.drop_append, length_map, List.drop_eq_nil_of_le (by rw [length_map]; omega), List.nil_append,
      List.drop_replicate]
    congr 1
    omega
  unfold passwdSlot
  rw [htext]
  dsimp only
  rw [if_neg (Nat.not_le.2 hfit), hpad, htake, take_of_length_le hhost, length_map, hdrop]
  have hlast : (0 : UInt8) :: replicate (63 - host.length) 0 = replicate (64 - host.length) 0 := by
    rw [← List.replicate_succ]
    congr 1
    omega
  rw [hlast, append_assoc, append_assoc, slotBytes]

/-- the device after a restart: the same disk, and no access fails -/
structure Restarted (d b : Dev) : Prop where
  disk : b.disk = d.disk
  size : b.sectorSize = d.sectorSize
  count : b.sectorCount = d.sectorCount
  fault : ∀ n, b.fault n = false

/-- after a result of 0 the first slot holds what was written -/
theorem persist_slot {d' : Dev} (hsec : d.sectorSize = 512) (hbuf : Slot db host buf) (h : persistUsers db host d = (0, d')) :
    get d'.disk (512 * passwdLba) (512 * passwdSecs) = buf ∧ d'.sectorSize = 512 ∧ passwdLba + passwdSecs ≤ d'.sectorCount := by
  have hneg : ∀ x : Dev, (-1, x) ≠ ((0 : ℤ), d') := by
    intro x hx
    have h0 : (-1 : ℤ) = 0 := congrArg Prod.fst hx
    exact absurd h0 (by decide)
  have hslot := hbuf.get_put d.disk
  rw [persist_eq hsec hbuf] at h
  split_ifs at h with h0 h1
  · exact absurd h (hneg _)
  · exact absurd h (hneg _)
  have hin : passwdLba + passwdSecs ≤ d.sectorCount := by
    by_contra hout
    exact h0 (by rw [Dev.refuses, decide_eq_true (Nat.not_le.1 hout), Bool.or_true])
  have hd' : d' = writeTail (afterWrite d buf).tick buf := (congrArg Prod.snd h).symm
  rw [hd', writeTail]
  split_ifs with hbig
  · cases hr : (afterWrite d buf).tick.refuses ((afterWrite d buf).tick.sectorCount - passwdSecs) passwdSecs with
    | true =>
      rw [Dev.write_refused hr]
      exact ⟨hslot, hsec, hin⟩
    | false =>
      rw [Dev.write_ok hr]
      refine ⟨?_, hsec, hin⟩
      -- the copy is behind the first slot
      rw [show (afterWrite d buf).tick.sectorSize = 512 from hsec]
      have hs : passwdSecs = 8 := rfl
      exact (get_put_of_disjoint (.inl (by omega))).trans hslot
  · exact ⟨hslot, hsec, hin⟩

/-- so that a boot reads it -/
theorem persist_read {d' b : Dev} (hsec : d.sectorSize = 512) (hbuf : Slot db host buf)
    (h : persistUsers db host d = (0, d')) (hb : Restarted d' b) : b.read passwdLba passwdSecs = (some buf, b.tick) := by
  obtain ⟨hget, hsize, hin⟩ := persist_slot hsec hbuf h
  rw [Dev.read_ok (by rw [refuses_inside (hb.count ▸ hin), hb.fault]), hb.disk, hb.size, hsize, hget]

section Boot

variable {text host : Text}

section

variable (hfit : text.length < hostnameOffset)
include hfit

/-- its last byte is 0 already -/
theorem slotBytes_set (hhost : host.length ≤ 63) : (slotBytes text host).set (slotLen - 1) 0 = slotBytes text host := by
  have hoff : hostnameOffset = 4032 := rfl
  have hslot : slotLen = 4096 := rfl
  have hlast : (slotBytes text host)[slotLen - 1]? = some 0 := by
    rw [slotBytes, ← append_assoc, ← append_assoc, List.getElem?_append_right, List.getElem?_replicate_of_lt]
    all_goals
      simp only [length_append, length_map, List.length_replicate]
      omega
  obtain ⟨hlt, hval⟩ := List.getElem?_eq_some_iff.1 hlast
  have hset := List.set_getElem_self hlt
  rwa [hval] at hset

theorem slotBytes_text (htext : Narrow text) (hnul : ∀ c ∈ text, c ≠ Char.ofNat 0) (host : Text) :
    cstr ((slotBytes text host).map charOf) = text := by
  obtain ⟨k, hk⟩ : ∃ k, hostnameOffset - text.length = k + 1 := ⟨hostnameOffset - text.length - 1, by omega⟩
  rw [slotBytes, map_append, map_append, map_charOf htext, map_replicate, charOf_zero, cstr_append hnul, hk, cstr_zeros,
    append_nil]

theorem slotBytes_host (hlen : host.length ≤ 63) (hhost : Narrow host) (hnul : ∀ c ∈ host, c ≠ Char.ofNat 0) :
    cstr ((((slotBytes text host).drop hostnameOffset).take 63).map charOf) = host := by
  have hdrop : (slotBytes text host).drop hostnameOffset = host.map byteOf ++ replicate (64 - host.length) 0 := by
    rw [slotBytes, ← append_assoc]
    apply List.drop_left'
    rw [length_append, length_map, List.length_replicate]
    omega
  rw [hdrop, take_zeros hlen (by omega), map_append, map_charOf hhost, map_replicate, charOf_zero, cstr_append hnul]
  cases 63 - host.length with
  | zero => exact append_nil host
  | succ n =>
    have hz := cstr_zeros n []
    rw [append_nil] at hz
    rw [hz, append_nil]

end

end Boot

/-- what a password is checked against -/
def cred (u : User) : UInt16 × Bool × Bool × UInt64 × UInt64 := (u.uid, u.locked, u.nologin, u.pwSalt, u.pwHash)

/-- the check sees no more of a database than this -/
theorem check_cred {db db' : Accounts} (h : db'.users.map cred = db.users.map cred) (uid : UInt16) (pw : Text) :
    usrCheckPassword db' uid pw = usrCheckPassword db uid pw := by
  have hfind : ∀ l : List User, (l.find? fun u => u.uid == uid).map cred = (l.map cred).find? fun c => c.1 == uid :=
    fun l => by rw [List.find?_map]; rfl
  have hsame : (usrFindByUid db' uid).map cred = (usrFindByUid db uid).map cred := by
    rw [usrFindByUid, usrFindByUid, hfind, hfind, h]
  rw [usrCheckPassword, usrCheckPassword]
  cases hv : usrFindByUid db' uid <;> cases hu : usrFindByUid db uid <;> rw [hv, hu] at hsame
  · cases hsame
  · cases hsame
  · simp only [Option.map_some, Option.some.injEq, cred, Prod.mk.injEq] at hsame
    obtain ⟨-, hl, hn, hs, hh⟩ := hsame
    simp only [User.check, hl, hn, hs, hh]

/-- the lines that are read back from the text have the salts and hashes, locks and uids of the accounts, and make an account
each: no name is there twice -/
structure Kept (db : Accounts) : Prop where
  hashed : ∀ t ∈ linesOf db, t.Hashed
  same : (linesOf db).map (fun t => cred t.account) = db.users.map cred
  names : (rootName :: (linesOf db).tail.map Tokens.name).Nodup

/-- **What is read back is loaded**, from any buffer that starts with the text. -/
theorem Kept.load (h : Kept db) (hform : Formed db) (ent : ℕ → UInt64) (e : UInt64) {raw : Text}
    (hraw : cstr raw = passwdText db.users) {len : ℕ} (hlen : (passwdText db.users).length ≤ len) :
    (usrLoadPasswd ent (usrInit e) raw len).1.users.map cred = db.users.map cred ∧
      0 < (usrLoadPasswd ent (usrInit e) raw len).2 := by
  obtain ⟨r, rest, hr, hroot⟩ := hform.root
  have hsame := h.same
  have hnames := h.names
  obtain ⟨t, ts, hlines⟩ : ∃ t ts, linesOf db = t :: ts := by
    refine List.exists_cons_of_ne_nil fun hnil => ?_
    rw [hnil, hr] at hsame
    cases hsame
  rw [hlines, hr, List.map_cons, List.map_cons, List.cons.injEq] at hsame
  rw [hlines, List.tail_cons] at hnames
  have huid : t.account.uid = 0 := (congrArg Prod.fst hsame.1).trans (congrArg User.uid hroot)
  have hsalt : parseHex64 t.salt = r.pwSalt := congrArg (fun c => c.2.2.2.1) hsame.1
  have hhash : parseHex64 t.hash = r.pwHash := congrArg (fun c => c.2.2.2.2) hsame.1
  -- root was there before, and has taken salt and hash from its line
  have hall : (rootWith (parseHex64 t.salt) (parseHex64 t.hash) :: ts.map Tokens.account).map cred = db.users.map cred := by
    rw [hr, List.map_cons, List.map_cons, List.map_map, ← hsame.2, hsalt, hhash, ← hroot]
    rfl
  have hcount : (rootWith (parseHex64 t.salt) (parseHex64 t.hash) :: ts.map Tokens.account).length = db.users.length := by
    simpa using congrArg List.length hall
  have huids := congrArg (List.map Prod.fst) hall
  rw [List.map_map, List.map_map] at huids
  have hname : ts.map (User.name ∘ Tokens.account) = ts.map Tokens.name := List.map_congr_left fun v hv =>
    uStrncpy_of_le (readLines_named v (hlines ▸ List.mem_cons_of_mem t hv : v ∈ linesOf db)).len
  obtain ⟨hsaved, hn⟩ := load_lines hlines h.hashed huid rfl (huids ▸ db.uids)
    (by rw [List.map_cons, List.map_map, hname]; exact hnames) (hcount.trans_le hform.count) ent e hraw hlen
  rw [← saved_map (fun _ => rfl), hsaved, hn]
  exact ⟨hall, by simp⟩

/-- a host name: a C string of at most 63 bytes -/
structure HostName where
  text : Text
  len : text.length ≤ 63
  narrow : Narrow text
  noNul : ∀ c ∈ text, c ≠ Char.ofNat 0

theorem applyHostname_eq {raw : Bytes} (hmagic : passwdDbMagicOk raw = true) {host0 : Text}
    (hraw : cstr (((raw.drop hostnameOffset).take 63).map charOf) = host) (halnum : host.head?.any isAlnum = true) :
    passwdApplyHostname host0 raw = host := by
  rw [passwdApplyHostname, if_pos hmagic, hraw]
  cases host with
  | nil => cases halnum
  | cons c s =>
    have hc : isAlnum c = true := halnum
    exact if_pos hc

/-- a first slot that loads is the end of it -/
theorem boot_first {ent : ℕ → UInt64} {db0 db1 : Accounts} {host0 : Text} {b b' : Dev} {raw : Bytes} {n : ℤ}
    (hread : b.read passwdLba passwdSecs = (some buf, b')) (hroot : passwdBufHasRootAccount buf = true)
    (hset : buf.set (slotLen - 1) 0 = raw) (hload : usrLoadPasswd ent db0 (raw.map charOf) (slotLen - 1) = (db1, n))
    (hn : 0 < n) (hhost : passwdApplyHostname host0 raw = host) :
    bootTryLoadPasswdFromDev ent db0 host0 b = ⟨1, db1, host, b'⟩ := by
  simp only [bootTryLoadPasswdFromDev, passwdLoadSlot, hread, hroot, if_true, hset, hload, hn, hhost]

/-- **Persistence.** A database of which the text says what passwords are checked against, with a text that ends before the
place of the host name, and a host name that starts with a letter or a digit: after `persist_users` returned 0 on a disk of
512-byte sectors, a boot from that disk accepts the same passwords for every uid, has every locked account locked, and has the
host name. -/
theorem persist_boot {db : Accounts} (hm : Made db)
    (hstr : ∀ u ∈ db.users, ∀ c ∈ u.name ++ u.home ++ u.shell, c.toNat < 256 ∧ c ≠ Char.ofNat 0) (hkept : Kept db)
    (hfit : (passwdText db.users).length < hostnameOffset)
    (host : HostName) (halnum : host.text.head?.any isAlnum = true) {d d' b : Dev} (hsec : d.sectorSize = 512)
    (hp : persistUsers db host.text d = (0, d')) (hb : Restarted d' b) (ent : ℕ → UInt64) (e : UInt64) (host0 : Text) :
    (bootTryLoadPasswdFromDev ent (usrInit e) host0 b).result = 1 ∧
    (∀ uid pw, usrCheckPassword (bootTryLoadPasswdFromDev ent (usrInit e) host0 b).db uid pw = usrCheckPassword db uid pw) ∧
    (∀ u ∈ db.users, u.locked = true → ∃ v ∈ (bootTryLoadPasswdFromDev ent (usrInit e) host0 b).db.users,
      v.uid = u.uid ∧ v.locked = true) ∧
    (bootTryLoadPasswdFromDev ent (usrInit e) host0 b).host = host.text := by
  have hoff : hostnameOffset = 4032 := rfl
  have hslot : slotLen = 4096 := rfl
  have hwrite : usrWritePasswd db slotLen = some (passwdText db.users) := write_fits (by omega)
  have hbuf : passwdSlot db host.text = some (slotBytes (passwdText db.users) host.text) :=
    slot_fits hwrite hfit host.len
  obtain ⟨buf, hs⟩ := slot_start hm.formed host.text
  obtain rfl : slotBytes (passwdText db.users) host.text = buf := Option.some.inj (hbuf.symm.trans hs.eq)
  have htext := passwdText_all hstr (forall_mem_of_all (by decide)) (forall_mem_of_all (by decide))
  have hcstr := slotBytes_text hfit (fun c hc => (htext c hc).1) (fun c hc => (htext c hc).2) host.text
  have hload := hkept.load hm.formed ent e hcstr (show (passwdText db.users).length ≤ slotLen - 1 by omega)
  have hhost : passwdApplyHostname host0 (slotBytes (passwdText db.users) host.text) = host.text :=
    applyHostname_eq hs.magic (slotBytes_host hfit host.len host.narrow host.noNul) halnum
  obtain ⟨db1, n, hr⟩ : ∃ db1 n, usrLoadPasswd ent (usrInit e)
      ((slotBytes (passwdText db.users) host.text).map charOf) (slotLen - 1) = (db1, n) := ⟨_, _, rfl⟩
  rw [hr] at hload
  obtain ⟨hcred, hn0⟩ := hload
  have hboot : bootTryLoadPasswdFromDev ent (usrInit e) host0 b = ⟨1, db1, host.text, b.tick⟩ :=
    boot_first (persist_read hsec hs hp hb) hs.root (slotBytes_set hfit host.len) hr hn0 hhost
  rw [hboot]
  refine ⟨rfl, check_cred hcred, fun u hu hlocked => ?_, rfl⟩
  have hmem : cred u ∈ db1.users.map cred := hcred ▸ List.mem_map_of_mem hu
  obtain ⟨v, hv, hsame⟩ := mem_map.1 hmem
  simp only [cred, Prod.mk.injEq] at hsame
  exact ⟨v, hv, hsame.1, hsame.2.1.trans hlocked⟩

/-- without a fault the result is 0, for every database, whether its text fits or not -/
theorem persist_total (hm : Made db) (host : Text) (hsec : d.sectorSize = 512)
    (hcount : passwdLba + passwdSecs ≤ d.sectorCount) (hf : ∀ n, d.fault n = false) :
    ∃ d', persistUsers db host d = (0, d') := by
  obtain ⟨buf, hbuf⟩ := slot_start hm.formed host
  refine ⟨writeTail (afterWrite d buf).tick buf, ?_⟩
  rw [persist_eq hsec hbuf, refuses_inside hcount, hf, hf]
  rfl

/-- the device after a restart -/
def restart (d : Dev) : Dev := { d with fault := fun _ => false, clock := 0 }

theorem restarted (d : Dev) : Restarted d (restart d) := ⟨rfl, rfl, rfl, fun _ => rfl⟩

/-- the host name "asd" -/
def asdHost : HostName := ⟨defaultHost, by decide, by decide, forall_mem_of_all (by decide)⟩

/-- an account of the wheel group with a flag that has no word -/
theorem persist_boot_wheel : ∃ d', persistUsers (withAlice 9) defaultHost (blankDev 2097152 (by decide)) = (0, d') ∧
    (∀ uid pw, usrCheckPassword (bootTryLoadPasswdFromDev (fun _ => 7) (usrInit 1) [] (restart d')).db uid pw =
      usrCheckPassword (withAlice 9) uid pw) ∧
    (bootTryLoadPasswdFromDev (fun _ => 7) (usrInit 1) [] (restart d')).host = defaultHost := by
  have hm : Made (withAlice 9) := withAlice_made 9
  obtain ⟨d', hp⟩ := persist_total hm asdHost.text (d := blankDev 2097152 (by decide)) rfl (by decide) fun _ => rfl
  have hkept : Kept (withAlice 9) := ⟨by decide +kernel, by decide +kernel, by decide +kernel⟩
  have hfit : (passwdText (withAlice 9).users).length < hostnameOffset := by decide +kernel
  have hstr : ((withAlice 9).users.all fun u => (u.name ++ u.home ++ u.shell).all fun c =>
    decide (c.toNat < 256 ∧ c ≠ Char.ofNat 0)) = true := by decide +kernel
  have hboot := persist_boot hm (fun u hu => forall_mem_of_all (List.all_eq_true.1 hstr u hu)) hkept hfit asdHost (by decide)
    rfl hp (restarted d') (fun _ => 7) 1 []
  exact ⟨d', hp, hboot.2.1, hboot.2.2.2⟩

/-- **A locked account is open after a boot.** The lock of an account of the wheel group is not in the text. -/
theorem unlocked_by_boot : ∃ d', persistUsers (withAlice 5) defaultHost (blankDev 2097152 (by decide)) = (0, d') ∧
    usrCheckPassword (withAlice 5) 1000 secret = false ∧
    usrCheckPassword (bootTryLoadPasswdFromDev (fun _ => 7) (usrInit 1) [] (restart d')).db 1000 secret = true := by
  have hm : Made (withAlice 5) := withAlice_made 5
  obtain ⟨d', hp⟩ := persist_total hm defaultHost (d := blankDev 2097152 (by decide)) rfl (by decide) fun _ => rfl
  obtain ⟨buf, hbuf⟩ := slot_start hm.formed defaultHost
  -- the slot itself, loaded
  have heval : (passwdSlot (withAlice 5) defaultHost).map (fun raw =>
      let r := usrLoadPasswd (fun _ => 7) (usrInit 1) ((raw.set (slotLen - 1) 0).map charOf) (slotLen - 1)
      (decide (0 < r.2), usrCheckPassword r.1 1000 secret)) = some (true, true) := by decide +kernel
  rw [hbuf.eq, Option.map_some, Option.some.injEq, Prod.mk.injEq, decide_eq_true_eq] at heval
  obtain ⟨db1, n, hload⟩ : ∃ db1 n, usrLoadPasswd (fun _ => 7) (usrInit 1) ((buf.set (slotLen - 1) 0).map charOf)
      (slotLen - 1) = (db1, n) := ⟨_, _, rfl⟩
  rw [hload] at heval
  refine ⟨d', hp, rfl, ?_⟩
  rw [boot_first (persist_read rfl hbuf hp (restarted d')) hbuf.root rfl hload heval.1 rfl]
  exact heval.2

end OpenASD.Init
