/-
The partition table that the installer writes (kernel/block/gpt.c). Sector 0 has a protective MBR, sector 1 the header,
sectors 2 to 33 the entries, and the last 33 sectors their copies. There are two partitions, the ESP of 512 MiB from sector
2048 on, and the root partition up to the copies.

`gpt_init_single_disk` wants 34 + 1048576 + 1024 sectors, but the ESP ends at sector 2048 + 1048576: on a disk with fewer
than 1050658 sectors there is no room for the root partition, and its entry ends before it starts. On the smallest disks the
ESP itself runs over the copies and past the end.

`GptSound` is the reader's side: what the two headers and the entries on the disk say, and whether checksums, references and
ranges fit together.

Results:
- `init_sound_iff`: on a disk without a known signature, a call that returns 0 leaves a sound table exactly if the disk has
  1050658 sectors or more;
- `small_disk`: a disk of 1049634 sectors is accepted.
-/
import OpenASD.Block.Disk

namespace OpenASD.Block

open ByteMem
open List (mem_append mem_cons mem_map not_mem_nil range)
open Nat (le_succ mod_eq_of_lt)

/-! ## Checksums -/

def crcStep (c : UInt32) : UInt32 := if c &&& 1 ≠ 0 then (c >>> 1) ^^^ 0xEDB88320 else c >>> 1

/-- `crc32_table`, as `crc32_init` fills it before every use -/
def crc32Table (i : UInt32) : UInt32 := crcStep^[8] i

@[irreducible] def crc32Compute (buf : Bytes) : UInt32 :=
  (buf.foldl (fun c b => crc32Table ((c ^^^ b.toUInt32) &&& 0xFF) ^^^ (c >>> 8)) 0xFFFFFFFF) ^^^ 0xFFFFFFFF

/-! ## Records -/

/-- ESP_SIZE_SECTORS, 512 MiB -/
def espSizeSectors : ℕ := 512 * 1024 * 1024 / 512

variable (total : ℕ)

/-- `mbr_t` with one partition of type 0xEE -/
def pmbrFields : List (ℕ × ℕ) :=
  [(440, 0), (4, 0), (2, 0), (1, 0), (3, 0), (1, 0xEE), (3, 0), (4, 1),
    (4, if 0xFFFFFFFF < total then 0xFFFFFFFF else total), (48, 0), (2, 0xAA55)]

/-- "EFI PART" -/
def gptSignature : Bytes := [0x45, 0x46, 0x49, 0x20, 0x50, 0x41, 0x52, 0x54]

structure Header where
  headerCrc32 : ℕ
  currentLba : ℕ
  backupLba : ℕ
  firstUsableLba : ℕ
  lastUsableLba : ℕ
  partEntryLba : ℕ
  partArrayCrc32 : ℕ

/-- `gpt_header_t` -/
def Header.fields (h : Header) : List (ℕ × ℕ) :=
  [(8, leNat gptSignature), (4, 0x00010000), (4, 92), (4, h.headerCrc32), (4, 0), (8, h.currentLba), (8, h.backupLba),
    (8, h.firstUsableLba), (8, h.lastUsableLba), (16, leNat (List.replicate 16 0x11)), (8, h.partEntryLba), (4, 128),
    (4, 128), (4, h.partArrayCrc32), (420, 0)]

def Header.bytes (h : Header) : Bytes := pack h.fields

/-- the header with the checksum of its first 92 bytes, taken with 0 in the place of the checksum -/
def Header.sealed (h : Header) : Header :=
  { h with headerCrc32 := (crc32Compute (({ h with headerCrc32 := 0 } : Header).bytes.take 92)).toNat }

/-- the first word comes first, each word with its high byte first -/
def guidFromBytes (d1 d2 d3 : ℕ) (rest : Bytes) : Bytes :=
  [UInt8.ofNat (d1 / 2 ^ 24), UInt8.ofNat (d1 / 2 ^ 16), UInt8.ofNat (d1 / 2 ^ 8), UInt8.ofNat d1,
    UInt8.ofNat (d2 / 2 ^ 8), UInt8.ofNat d2, UInt8.ofNat (d3 / 2 ^ 8), UInt8.ofNat d3] ++ rest

structure Part where
  typeGuid : Bytes
  firstLba : ℕ
  lastLba : ℕ
  name : List Char

/-- `gpt_part_t`; the type also stands for the partition, and the name has 36 characters of 16 bits -/
def Part.fields (p : Part) : List (ℕ × ℕ) :=
  [(16, leNat p.typeGuid), (16, leNat p.typeGuid), (8, p.firstLba), (8, p.lastLba), (8, 0),
    (72, leNat (p.name.flatMap fun c => leBytes 2 (c.toNat % 256)))]

def espType : Bytes := guidFromBytes 0xC12A7328 0xF81F 0x11D2 [0xBA, 0x4B, 0x00, 0xA0, 0xC9, 0x3E, 0xC9, 0x3B]

def rootType : Bytes := guidFromBytes 0x0FC63DAF 0x8483 0x4772 [0x8E, 0x79, 0x3D, 0x69, 0xD8, 0x47, 0x7D, 0xE4]

def espPart : Part := ⟨espType, 2048, 2048 + espSizeSectors - 1, ['E', 'S', 'P']⟩

/-- up to the copies of the entries -/
def rootPart : Part :=
  ⟨rootType, 2048 + espSizeSectors - 1 + 1, total - 34, ['A', 'S', 'D', ' ', 'r', 'o', 'o', 't']⟩

/-- the 128 entries -/
def partsFields : List (ℕ × ℕ) := espPart.fields ++ (rootPart total).fields ++ [(126 * 128, 0)]

def partsBytes : Bytes := pack (partsFields total)

def primaryHeader : Header :=
  Header.sealed ⟨0, 1, total - 1, 2048, total - 34, 2, (crc32Compute (partsBytes total)).toNat⟩

def backupHeader : Header :=
  Header.sealed { primaryHeader total with currentLba := total - 1, backupLba := 1, partEntryLba := total - 33 }

/-! ## The table is written -/

/-- sector i of a buffer -/
def chunk (buf : Bytes) (i : ℕ) : Bytes := (buf.drop (i * 512)).take 512

/-- the 32 sectors of the entries, from lba on -/
def entryWrites (total lba : ℕ) : List (ℕ × Bytes) := (range 32).map fun i => (lba + i, chunk (partsBytes total) i)

/-- all writes in their order -/
def gptWrites : List (ℕ × Bytes) :=
  (0, pack (pmbrFields total)) :: (entryWrites total 2 ++ (1, (primaryHeader total).bytes) ::
    (entryWrites total (total - 33) ++ [(total - 1, (backupHeader total).bytes)]))

def diskSector0IsFat (sec : Bytes) : Bool :=
  decide (sec.getD 510 0 = 0x55 ∧ sec.getD 511 0 = 0xAA) &&
    (decide ((sec.drop 82).take 3 = [0x46, 0x41, 0x54]) || decide ((sec.drop 54).take 3 = [0x46, 0x41, 0x54]))

/-- the least number of sectors that is accepted -/
def minSectors : ℕ := 34 + espSizeSectors + 1024

/-- sector 0 has a signature and is FAT, or the next sector is a GPT header; with the device after the look -/
def hasSignature (d : Dev) (sec : Bytes) : Bool × Dev :=
  if sec.getD 510 0 = 0x55 ∧ sec.getD 511 0 = 0xAA then
    if diskSector0IsFat sec then (true, d)
    else
      match d.read 1 1 with
      | (none, d) => (false, d)
      | (some hdr, d) => (decide (hdr.take 8 = gptSignature ∧ minSectors ≤ d.sectorCount), d)
  else (false, d)

def gptInitSingleDisk (d : Dev) : ℤ × Dev :=
  if d.sectorSize ≠ 512 then (-1, d)
  else if d.sectorCount < minSectors then (-1, d)
  else
    match d.read 0 1 with
    | (none, d) => (-1, d)
    | (some sec, d) =>
      match hasSignature d sec with
      | (true, d) => (0, d)
      | (false, d) =>
        match writeAll d (gptWrites d.sectorCount) with
        | (true, d) => (0, d)
        | (false, d) => (-1, d)

/-- the disk has a signature that the call knows, and is left as it is -/
def recognised (d : Dev) : Bool :=
  match d.read 0 1 with
  | (none, _) => false
  | (some sec, d) => (hasSignature d sec).1

/-- the access with which the writes of a call start -/
def firstWrite (d : Dev) : ℕ :=
  match d.read 0 1 with
  | (none, d) => d.clock
  | (some sec, d) => (hasSignature d sec).2.clock

/-! ## The reader's side -/

/-- the field of n bytes at offset off of sector lba -/
def field (m : Mem) (lba off n : ℕ) : ℕ := read m (512 * lba + off) n

/-- the checksum of a header, over as many bytes as it says, with 0 in the place of the checksum -/
def headerSum (m : Mem) (lba : ℕ) : ℕ :=
  (crc32Compute (get (write m (512 * lba + 16) 4 0) (512 * lba) (field m lba 12 4))).toNat

/-- the checksum of the entries that a header refers to -/
def arraySum (m : Mem) (lba : ℕ) : ℕ :=
  (crc32Compute (get m (512 * field m lba 72 8) (field m lba 80 4 * field m lba 84 4))).toNat

/-- sectors of the entries -/
def arraySectors (m : Mem) (lba : ℕ) : ℕ := field m lba 80 4 * field m lba 84 4 / 512

/-- the header at lba is whole and says where it is -/
structure HeaderSound (m : Mem) (lba : ℕ) : Prop where
  signature : get m (512 * lba) 8 = gptSignature
  current : field m lba 24 8 = lba
  header : field m lba 16 4 = headerSum m lba
  array : field m lba 88 4 = arraySum m lba

/-- first sector of partition i in the entries of the header at lba -/
def partFirst (m : Mem) (lba i : ℕ) : ℕ := read m (512 * field m lba 72 8 + i * field m lba 84 4 + 32) 8

def partLast (m : Mem) (lba i : ℕ) : ℕ := read m (512 * field m lba 72 8 + i * field m lba 84 4 + 40) 8

/-- what the header at lba and its entries say about a disk with this many sectors, whose other header is at other -/
structure LayoutSound (m : Mem) (lba other total : ℕ) : Prop where
  backup : field m lba 32 8 = other
  espNonempty : partFirst m lba 0 ≤ partLast m lba 0
  rootNonempty : partFirst m lba 1 ≤ partLast m lba 1
  disjoint : partLast m lba 0 < partFirst m lba 1 ∨ partLast m lba 1 < partFirst m lba 0
  inside : ∀ i < 2, field m lba 40 8 ≤ partFirst m lba i ∧ partLast m lba i ≤ field m lba 48 8
  /-- usable sectors are on the disk, and none belongs to a header or to entries -/
  usable : ∀ x, field m lba 40 8 ≤ x → x ≤ field m lba 48 8 →
    x < total ∧ x ≠ lba ∧ x ≠ other ∧
    ¬ (field m lba 72 8 ≤ x ∧ x < field m lba 72 8 + arraySectors m lba) ∧
    ¬ (field m other 72 8 ≤ x ∧ x < field m other 72 8 + arraySectors m other)

structure GptSound (m : Mem) (total : ℕ) : Prop where
  primary : HeaderSound m 1
  backup : HeaderSound m (total - 1)
  primaryLayout : LayoutSound m 1 (total - 1) total
  backupLayout : LayoutSound m (total - 1) 1 total

/-! ## What is on the disk -/

section OnDisk

variable {m : Mem} {lba total : ℕ} {h : Header}

theorem header_len (h : Header) : packLen h.fields = 512 := by simp [packLen, Header.fields]

variable {gs : List (ℕ × ℕ)}

/-- a field of a packed structure in memory, at the length of the fields before it -/
theorem packed_field {fields : List (ℕ × ℕ)} {len a n v off : ℕ} (hlen : packLen fields = len)
    (hg : get m a len = pack fields) (fs : List (ℕ × ℕ)) (hf : fields = fs ++ (n, v) :: gs) (ho : packLen fs = off) :
    read m (a + off) n = v % 256 ^ n := by
  subst hlen ho hf
  exact read_pack hg

theorem header_field (hg : get m (512 * lba) 512 = h.bytes) (fs : List (ℕ × ℕ)) {n v off : ℕ}
    (hf : h.fields = fs ++ (n, v) :: gs) (ho : packLen fs = off) : field m lba off n = v % 256 ^ n :=
  packed_field (header_len h) hg fs hf ho

/-- what a header on the disk says, if its numbers fit -/
structure Says (m : Mem) (lba : ℕ) (h : Header) : Prop where
  size : field m lba 12 4 = 92
  crc : field m lba 16 4 = h.headerCrc32 % 2 ^ 32
  current : field m lba 24 8 = h.currentLba % 2 ^ 64
  backup : field m lba 32 8 = h.backupLba % 2 ^ 64
  first : field m lba 40 8 = h.firstUsableLba % 2 ^ 64
  last : field m lba 48 8 = h.lastUsableLba % 2 ^ 64
  entries : field m lba 72 8 = h.partEntryLba % 2 ^ 64
  count : field m lba 80 4 = 128
  entry : field m lba 84 4 = 128
  array : field m lba 88 4 = h.partArrayCrc32 % 2 ^ 32

theorem header_says (hg : get m (512 * lba) 512 = h.bytes) : Says m lba h := by
  refine ⟨header_field hg (h.fields.take 2) rfl ?_, header_field hg (h.fields.take 3) rfl ?_,
    header_field hg (h.fields.take 5) rfl ?_, header_field hg (h.fields.take 6) rfl ?_,
    header_field hg (h.fields.take 7) rfl ?_, header_field hg (h.fields.take 8) rfl ?_,
    header_field hg (h.fields.take 10) rfl ?_, header_field hg (h.fields.take 11) rfl ?_,
    header_field hg (h.fields.take 12) rfl ?_, header_field hg (h.fields.take 13) rfl ?_⟩
  all_goals simp [packLen, Header.fields]

/-- a sealed header on the disk has the checksum that a reader computes -/
theorem headerSum_sealed (hg : get m (512 * lba) 512 = h.sealed.bytes) : field m lba 16 4 = headerSum m lba := by
  have hdr := header_says hg
  have hf : h.sealed.fields = h.sealed.fields.take 3 ++ (4, h.sealed.headerCrc32) :: h.sealed.fields.drop 4 := rfl
  have hoff : packLen (h.sealed.fields.take 3) = 16 := by simp [packLen, Header.fields]
  have hlen := header_len h.sealed
  rw [hf] at hlen
  -- with 0 in the place of the checksum the bytes are those that were summed
  have hzero := write_pack 0 (hlen.symm ▸ hg)
  rw [hlen, hoff] at hzero
  rw [hdr.crc, headerSum, hdr.size, get_take _ _ (show 92 ≤ 512 by decide), hzero]
  exact mod_eq_of_lt (UInt32.toNat_lt _)

theorem parts_len (total : ℕ) : packLen (partsFields total) = 512 * 32 := by
  simp [packLen, partsFields, Part.fields]

/-- first and last sectors of the two partitions -/
theorem parts_say (hg : get m (512 * lba) (512 * 32) = partsBytes total) :
    read m (512 * lba + 32) 8 = 2048 ∧ read m (512 * lba + 40) 8 = 1050623 ∧
    read m (512 * lba + 160) 8 = 1050624 ∧ read m (512 * lba + 168) 8 = (total - 34) % 2 ^ 64 := by
  let fs := partsFields total
  have hlen := parts_len total
  refine ⟨packed_field hlen hg (fs.take 2) rfl ?_, packed_field hlen hg (fs.take 3) rfl ?_,
    packed_field hlen hg (fs.take 8) rfl ?_, packed_field hlen hg (fs.take 9) rfl ?_⟩
  all_goals simp [fs, packLen, partsFields, Part.fields]

/-- sectors that hold the chunks of a buffer hold the buffer -/
theorem get_chunks {buf : Bytes} {k : ℕ} (hc : ∀ i < k, get m (512 * (lba + i)) 512 = chunk buf i) :
    get m (512 * lba) (512 * k) = buf.take (512 * k) := by
  induction k with
  | zero => rfl
  | succ k ih =>
    have hlast := hc k (Nat.lt_succ_self k)
    rw [Nat.mul_add] at hlast
    rw [Nat.mul_succ, get_append, ih fun i hi => hc i (Nat.lt_succ_of_lt hi), hlast, List.take_add, chunk,
      Nat.mul_comm k 512]

end OnDisk

/-! ## The writes -/

theorem length_chunk {buf : Bytes} {i : ℕ} (h : (i + 1) * 512 ≤ buf.length) : (chunk buf i).length = 512 := by
  rw [chunk, List.length_take, List.length_drop]
  omega

theorem pmbr_len (total : ℕ) : (pack (pmbrFields total)).length = 512 := by simp [packLen, pmbrFields]

theorem parts_length (total : ℕ) : (partsBytes total).length = 512 * 32 := by
  rw [partsBytes, length_pack, parts_len]

theorem header_length (h : Header) : h.bytes.length = 512 := by
  rw [Header.bytes, length_pack, header_len]

variable {total lba : ℕ}

theorem mem_entryWrites {w : ℕ × Bytes} :
    w ∈ entryWrites total lba ↔ ∃ i < 32, w = (lba + i, chunk (partsBytes total) i) := by
  simp only [entryWrites, mem_map, List.mem_range, eq_comm]

/-- every write is of one sector -/
theorem gptWrites_len (total : ℕ) : ∀ w ∈ gptWrites total, w.2.length = 512 := by
  have hent : ∀ lba, ∀ w ∈ entryWrites total lba, w.2.length = 512 := by
    intro lba w hw
    obtain ⟨i, hi, rfl⟩ := mem_entryWrites.1 hw
    apply length_chunk
    rw [parts_length]
    omega
  intro w hw
  simp only [gptWrites, mem_cons, mem_append, not_mem_nil, or_false] at hw
  rcases hw with rfl | hw | rfl | hw | rfl
  · exact pmbr_len total
  · exact hent 2 w hw
  · exact header_length _
  · exact hent _ w hw
  · exact header_length _

theorem entryWrites_fst (total lba : ℕ) : (entryWrites total lba).map Prod.fst = (range 32).map (lba + ·) := by
  rfl

theorem range_nodup (lba : ℕ) : ((range 32).map (lba + ·)).Nodup :=
  List.nodup_range.map fun _ _ h => Nat.add_left_cancel h

theorem gptWrites_length (total : ℕ) : (gptWrites total).length = 67 := by
  simp [gptWrites, entryWrites]

/-- all writes are inside the disk -/
theorem gptWrites_lt (h : 68 < total) : ∀ w ∈ gptWrites total, w.1 < total := by
  intro w hw
  simp only [gptWrites, mem_cons, mem_append, not_mem_nil, or_false, mem_entryWrites] at hw
  rcases hw with rfl | ⟨i, hi, rfl⟩ | rfl | ⟨i, hi, rfl⟩ | rfl <;> dsimp only <;> omega

/-- no sector is written twice -/
theorem gptWrites_nodup (h : 68 < total) : ((gptWrites total).map Prod.fst).Nodup := by
  simp only [gptWrites, List.map_cons, List.map_append, List.map_nil, entryWrites_fst]
  simp only [List.nodup_cons, List.nodup_append, mem_append, mem_cons, mem_map, List.mem_range,
    not_mem_nil, or_false, range_nodup, List.nodup_nil, not_false_eq_true, true_and, and_true]
  refine ⟨?_, ?_, ?_⟩
  · rintro (⟨i, hi, he⟩ | he | ⟨i, hi, he⟩ | he) <;> omega
  · refine ⟨?_, ?_⟩
    · rintro (⟨i, hi, he⟩ | he) <;> omega
    · rintro a ⟨i, hi, rfl⟩ b hb
      omega
  · rintro a ⟨i, hi, rfl⟩ b (rfl | ⟨j, hj, rfl⟩ | rfl) <;> omega

/-- the same device, at most one access later -/
structure SameDev (d d' : Dev) : Prop where
  size : d'.sectorSize = d.sectorSize
  count : d'.sectorCount = d.sectorCount
  disk : d'.disk = d.disk
  fault : d'.fault = d.fault
  clock : d.clock ≤ d'.clock ∧ d'.clock ≤ d.clock + 1

variable {d d' : Dev}

theorem read_same {count : ℕ} {r : Option Bytes} (h : d.read lba count = (r, d')) : SameDev d d' := by
  unfold Dev.read at h
  split_ifs at h with hr
  · cases h
    exact ⟨rfl, rfl, rfl, rfl, le_succ _, le_rfl⟩
  · cases h
    exact ⟨rfl, rfl, rfl, rfl, le_succ _, le_rfl⟩

theorem hasSignature_same {sec : Bytes} {b : Bool} (h : hasSignature d sec = (b, d')) : SameDev d d' := by
  unfold hasSignature at h
  split_ifs at h with h1 h2
  · cases h
    exact ⟨rfl, rfl, rfl, rfl, le_rfl, le_succ _⟩
  · split at h
    · rename_i hr
      cases h
      exact read_same hr
    · rename_i hr
      cases h
      exact read_same hr
  · cases h
    exact ⟨rfl, rfl, rfl, rfl, le_rfl, le_succ _⟩

/-- **A call** makes the first k writes: none if it stops early or knows a signature, all, or those before the one that
fails. -/
theorem init_upTo {r : ℤ} (h : gptInitSingleDisk d = (r, d')) :
    ∃ k, d'.disk = putAll d.sectorSize d.disk ((gptWrites d.sectorCount).take k) ∧ d'.sectorSize = d.sectorSize ∧
      d'.sectorCount = d.sectorCount ∧ d'.fault = d.fault ∧ d.clock + k ≤ d'.clock ∧
      (r = -1 ∧ k = 0 ∨ d.sectorSize = 512 ∧ minSectors ≤ d.sectorCount ∧
        (r = 0 ∧ recognised d = true ∧ k = 0 ∨ r = 0 ∧ recognised d = false ∧ k = 67 ∨
          r = -1 ∧ k < 67 ∧ d.fault (firstWrite d + k) = true)) := by
  unfold gptInitSingleDisk at h
  split_ifs at h with hsize hcount
  · cases h
    exact ⟨0, rfl, rfl, rfl, rfl, le_rfl, .inl ⟨rfl, rfl⟩⟩
  · cases h
    exact ⟨0, rfl, rfl, rfl, rfl, le_rfl, .inl ⟨rfl, rfl⟩⟩
  rw [Nat.not_lt] at hcount
  rcases hr : d.read 0 1 with ⟨_ | sec, d1⟩ <;> rw [hr] at h <;> have h1 := read_same hr
  · cases h
    exact ⟨0, h1.disk, h1.size, h1.count, h1.fault, h1.clock.1, .inl ⟨rfl, rfl⟩⟩
  dsimp only at h
  rcases hg : hasSignature d1 sec with ⟨b, d2⟩
  have h2 := hasSignature_same hg
  have hc1 := h1.clock.1
  have hc2 := h2.clock.1
  have hknown : recognised d = b := by simp only [recognised, hr, hg]
  rw [hg] at h
  cases b with
  | true =>
    cases h
    exact ⟨0, h2.disk.trans h1.disk, h2.size.trans h1.size, h2.count.trans h1.count, h2.fault.trans h1.fault, by omega,
      .inr ⟨not_ne_iff.1 hsize, hcount, .inl ⟨rfl, hknown, rfl⟩⟩⟩
  | false =>
    rcases hw : writeAll d2 (gptWrites d2.sectorCount) with ⟨ok, d3⟩
    obtain ⟨k, hdisk, hsize', hcount', hfault, hclock, hend⟩ := writeAll_upTo hw
    obtain rfl : d3 = d' := by cases ok <;> simp_all
    have hpos : 68 < d2.sectorCount := lt_of_lt_of_le (by decide) (hcount.trans_eq (h2.count.trans h1.count).symm)
    have hfirst : firstWrite d = d2.clock := by simp only [firstWrite, hr, hg]
    rw [h2.size, h1.size, h2.disk, h1.disk, h2.count, h1.count] at hdisk
    refine ⟨k, hdisk, hsize'.trans (h2.size.trans h1.size), hcount'.trans (h2.count.trans h1.count),
      hfault.trans (h2.fault.trans h1.fault), by omega, .inr ⟨not_ne_iff.1 hsize, hcount, .inr ?_⟩⟩
    rcases hend with ⟨rfl, rfl⟩ | ⟨rfl, w, hwk, hbad⟩ <;> simp only [hw] at h <;> cases h
    · exact .inl ⟨rfl, hknown, gptWrites_length _⟩
    have hin := gptWrites_lt hpos w (List.mem_of_getElem? hwk)
    have hlen := (List.getElem?_eq_some_iff.1 hwk).1
    rw [gptWrites_length] at hlen
    rw [hfirst, ← h1.fault, ← h2.fault]
    exact .inr ⟨rfl, hlen, hbad.resolve_right (Nat.not_le.2 hin)⟩

/-- a call that returns 0 on a disk without a signature has made all writes -/
theorem init_written (hs : recognised d = false) (h : gptInitSingleDisk d = (0, d')) :
    minSectors ≤ d.sectorCount ∧ d'.disk = putAll 512 d.disk (gptWrites d.sectorCount) ∧ d'.sectorSize = 512 ∧
      d'.sectorCount = d.sectorCount ∧ d'.fault = d.fault ∧ d.clock + 67 ≤ d'.clock := by
  obtain ⟨k, hdisk, hsize', hcount', hfault, hclock, ⟨h0, -⟩ | ⟨hsize, hcount, hend⟩⟩ := init_upTo h
  · exact absurd h0 (by decide)
  obtain rfl : k = 67 := by simpa [hs] using hend
  rw [hsize, ← gptWrites_length d.sectorCount, List.take_length] at hdisk
  exact ⟨hcount, hdisk, hsize'.trans hsize, hcount', hfault, hclock⟩

/-- a device without faults during the call and with enough sectors takes the table -/
theorem init_total (hf : ∀ n < d.clock + 69, d.fault n = false) (hsize : d.sectorSize = 512)
    (hcount : minSectors ≤ d.sectorCount) (hs : recognised d = false) : ∃ d', gptInitSingleDisk d = (0, d') := by
  have hpos : 68 < d.sectorCount := lt_of_lt_of_le (by decide) hcount
  have hread : ∃ sec d1, d.read 0 1 = (some sec, d1) :=
    ⟨_, _, Dev.read_ok ((refuses_inside (by omega)).trans (hf d.clock (by omega)))⟩
  obtain ⟨sec, d1, hr⟩ := hread
  unfold gptInitSingleDisk
  unfold recognised at hs
  simp only [hsize, ne_eq, not_true, if_false, Nat.not_lt.2 hcount, hr] at hs ⊢
  rcases hg : hasSignature d1 sec with ⟨b, d2⟩
  have h1 := read_same hr
  have h2 := hasSignature_same hg
  rw [hg] at hs
  have hb : b = false := hs
  subst hb
  have hcnt : d2.sectorCount = d.sectorCount := h2.count.trans h1.count
  have hf2 : ∀ n < d2.clock + (gptWrites d2.sectorCount).length, d2.fault n = false := by
    rw [h2.fault, h1.fault, gptWrites_length]
    have hc1 := h1.clock.2
    have hc2 := h2.clock.2
    exact fun n hn => hf n (by omega)
  obtain ⟨d3, hw⟩ := writeAll_total hf2 (gptWrites_lt (hcnt.symm ▸ hpos))
  exact ⟨d3, by simp only [hw]⟩

/-! ## Soundness -/

section Sound

variable {m : Mem} {total : ℕ}

/-- the disk after all writes, seen by a reader -/
structure Written (m : Mem) (total : ℕ) : Prop where
  primary : get m (512 * 1) 512 = (primaryHeader total).bytes
  backup : get m (512 * (total - 1)) 512 = (backupHeader total).bytes
  entries : get m (512 * 2) (512 * 32) = partsBytes total
  copies : get m (512 * (total - 33)) (512 * 32) = partsBytes total

/-- all that is written is on the disk -/
theorem Written.of_get (hget : ∀ w ∈ gptWrites total, get m (512 * w.1) 512 = w.2) : Written m total := by
  have hent : ∀ lba, (∀ w ∈ entryWrites total lba, w ∈ gptWrites total) →
      get m (512 * lba) (512 * 32) = partsBytes total := by
    intro lba hsub
    have hchunk : ∀ i < 32, get m (512 * (lba + i)) 512 = chunk (partsBytes total) i :=
      fun i hi => hget (lba + i, chunk (partsBytes total) i) (hsub _ (mem_entryWrites.2 ⟨i, hi, rfl⟩))
    rw [get_chunks hchunk, ← parts_length total, List.take_length]
  have h1 : (1, (primaryHeader total).bytes) ∈ gptWrites total := by simp [gptWrites]
  have h2 : (total - 1, (backupHeader total).bytes) ∈ gptWrites total := by simp [gptWrites]
  have e1 := hget _ h1
  have e2 := hget _ h2
  refine ⟨e1, e2, hent 2 ?_, hent (total - 33) ?_⟩
  · intro w hw
    simp [gptWrites, hw]
  · intro w hw
    simp [gptWrites, hw]

theorem putAll_written (m : Mem) (h : 68 < total) : Written (putAll 512 m (gptWrites total)) total :=
  .of_get fun _ hw => putAll_get (gptWrites_len total) (gptWrites_nodup h) hw

theorem Written.primarySays (h : Written m total) : Says m 1 (primaryHeader total) := header_says h.primary

theorem Written.backupSays (h : Written m total) : Says m (total - 1) (backupHeader total) := header_says h.backup

/-- both headers are whole -/
theorem Written.headers (h : Written m total) (ht : total < 2 ^ 64) (hpos : 68 < total) :
    HeaderSound m 1 ∧ HeaderSound m (total - 1) := by
  have hp := h.primarySays
  have hb := h.backupSays
  have hsig : ∀ {lba : ℕ} {x : Header}, get m (512 * lba) 512 = x.bytes → get m (512 * lba) 8 = gptSignature := by
    intro lba x hx
    rw [get_take _ _ (show 8 ≤ 512 by decide), hx]
    rfl
  refine ⟨⟨hsig h.primary, hp.current, headerSum_sealed h.primary, ?_⟩,
    ⟨hsig h.backup, ?_, headerSum_sealed h.backup, ?_⟩⟩
  · have hent : field m 1 72 8 = 2 := hp.entries
    rw [hp.array, arraySum, hent, hp.count, hp.entry, h.entries]
    exact mod_eq_of_lt (UInt32.toNat_lt _)
  · rw [hb.current]
    exact mod_eq_of_lt (show total - 1 < 2 ^ 64 by omega)
  have hent : field m (total - 1) 72 8 = total - 33 := by
    rw [hb.entries]
    exact mod_eq_of_lt (show total - 33 < 2 ^ 64 by omega)
  rw [hb.array, arraySum, hent, hb.count, hb.entry, h.copies]
  exact mod_eq_of_lt (UInt32.toNat_lt _)

/-- the numbers in a header and its entries, wherever the header is -/
structure Numbers (m : Mem) (lba other entries total : ℕ) : Prop where
  backup : field m lba 32 8 = other
  first : field m lba 40 8 = 2048
  last : field m lba 48 8 = total - 34
  entries : field m lba 72 8 = entries
  sectors : arraySectors m lba = 32
  espFirst : partFirst m lba 0 = 2048
  espLast : partLast m lba 0 = 1050623
  rootFirst : partFirst m lba 1 = 1050624
  rootLast : partLast m lba 1 = total - 34

theorem numbers {other entries : ℕ} {x : Header} (hx : Says m lba x) (ht : total < 2 ^ 64)
    (hparts : get m (512 * entries) (512 * 32) = partsBytes total) (h1 : x.backupLba = other) (h2 : x.firstUsableLba = 2048)
    (h3 : x.lastUsableLba = total - 34) (h4 : x.partEntryLba = entries) (ho : other < 2 ^ 64) (he : entries < 2 ^ 64) :
    Numbers m lba other entries total := by
  have hlt : total - 34 < 2 ^ 64 := by omega
  have hent : field m lba 72 8 = entries := by rw [hx.entries, h4, mod_eq_of_lt he]
  obtain ⟨p1, p2, p3, p4⟩ := parts_say hparts
  refine ⟨?_, ?_, ?_, hent, ?_, ?_, ?_, ?_, ?_⟩
  · rw [hx.backup, h1, mod_eq_of_lt ho]
  · rw [hx.first, h2]
    rfl
  · rw [hx.last, h3, mod_eq_of_lt hlt]
  · rw [arraySectors, hx.count, hx.entry]
  · rw [partFirst, hent, hx.entry]
    exact p1
  · rw [partLast, hent, hx.entry]
    exact p2
  · rw [partFirst, hent, hx.entry]
    exact p3
  · rw [partLast, hent, hx.entry]
    exact p4.trans (mod_eq_of_lt hlt)

/-- the ranges fit together if there is room for the root partition, and only then -/
theorem layout_iff {other e1 e2 : ℕ} (hn : Numbers m lba other e1 total) (hn' : Numbers m other lba e2 total)
    (hpos : 68 < total) (hl : lba = 1 ∧ other = total - 1 ∧ e1 = 2 ∧ e2 = total - 33 ∨
      lba = total - 1 ∧ other = 1 ∧ e1 = total - 33 ∧ e2 = 2) :
    LayoutSound m lba other total ↔ 1050658 ≤ total := by
  constructor
  · intro h
    have hr := h.rootNonempty
    rw [hn.rootFirst, hn.rootLast] at hr
    omega
  intro h
  refine ⟨hn.backup, ?_, ?_, .inl ?_, ?_, ?_⟩
  · rw [hn.espFirst, hn.espLast]
    decide
  · rw [hn.rootFirst, hn.rootLast]
    omega
  · rw [hn.espLast, hn.rootFirst]
    decide
  · intro i hi
    rw [hn.first, hn.last]
    interval_cases i
    · rw [hn.espFirst, hn.espLast]
      omega
    · rw [hn.rootFirst, hn.rootLast]
      omega
  · intro x h1 h2
    rw [hn.first] at h1
    rw [hn.last] at h2
    rw [hn.entries, hn.sectors, hn'.entries, hn'.sectors]
    omega

theorem Written.sound_iff (h : Written m total) (ht : total < 2 ^ 64) (hpos : 68 < total) :
    GptSound m total ↔ 1050658 ≤ total := by
  have hp : Numbers m 1 (total - 1) 2 total :=
    numbers h.primarySays ht h.entries rfl rfl rfl rfl (by omega) (by decide)
  have hb : Numbers m (total - 1) 1 (total - 33) total :=
    numbers h.backupSays ht h.copies rfl rfl rfl rfl (by decide) (by omega)
  obtain ⟨h1, h2⟩ := h.headers ht hpos
  constructor
  · intro hs
    exact (layout_iff hp hb hpos (.inl ⟨rfl, rfl, rfl, rfl⟩)).1 hs.primaryLayout
  · intro hle
    exact ⟨h1, h2, (layout_iff hp hb hpos (.inl ⟨rfl, rfl, rfl, rfl⟩)).2 hle,
      (layout_iff hb hp hpos (.inr ⟨rfl, rfl, rfl, rfl⟩)).2 hle⟩

end Sound

/-- **The partition table.** On every device that has no known signature, a call that returns 0 leaves two headers that refer
to each other, checksums that verify, and partitions and a usable range in their places, if and only if the device has 1050658
sectors or more. -/
theorem init_sound_iff {d d' : Dev} (hs : recognised d = false) (h : gptInitSingleDisk d = (0, d')) :
    GptSound d'.disk d.sectorCount ↔ 1050658 ≤ d.sectorCount := by
  obtain ⟨hmin, hdisk, -⟩ := init_written hs h
  have hpos : 68 < d.sectorCount := lt_of_lt_of_le (by decide) hmin
  have hw := putAll_written d.disk hpos
  rw [← hdisk] at hw
  exact hw.sound_iff d.count_lt hpos

/-- a disk of zeros has no signature -/
theorem blank_recognised (hz : ∀ x, d.disk x = 0) : recognised d = false := by
  unfold recognised
  cases hr : d.refuses 0 1 with
  | true => rw [Dev.read_refused hr]
  | false =>
    rw [Dev.read_ok hr]
    have hsec : (get d.disk (d.sectorSize * 0) (d.sectorSize * 1)).getD 510 0 = 0 := by
      rw [List.getD_eq_getElem?_getD, ByteMem.get, List.getElem?_map]
      simp only [hz]
      cases (range (d.sectorSize * 1))[510]? <;> rfl
    simp only [hasSignature, hsec]
    rfl

def blankDev (total : ℕ) (h : total < 2 ^ 64) : Dev := ⟨512, total, h, fun _ => 0, fun _ => false, 0⟩

theorem init_sound_iff_large : ∃ d', gptInitSingleDisk (blankDev 2097152 (by decide)) = (0, d') ∧
    GptSound d'.disk 2097152 := by
  obtain ⟨d', h⟩ := init_total (d := blankDev 2097152 (by decide)) (fun _ _ => rfl) rfl (by decide)
    (blank_recognised fun _ => rfl)
  exact ⟨d', h, (init_sound_iff (blank_recognised fun _ => rfl) h).2 (by decide)⟩

/-- **No room for root.** A blank disk of 1049634 sectors is accepted, and the table on it is not sound: the root partition
ends before it starts, and the ESP ends past the last sector of the disk. -/
theorem small_disk : ∃ d', gptInitSingleDisk (blankDev 1049634 (by decide)) = (0, d') ∧ ¬ GptSound d'.disk 1049634 ∧
    partLast d'.disk 1 1 < partFirst d'.disk 1 1 ∧ 1049634 ≤ partLast d'.disk 1 0 := by
  obtain ⟨d', h⟩ := init_total (d := blankDev 1049634 (by decide)) (fun _ _ => rfl) rfl (by decide)
    (blank_recognised fun _ => rfl)
  obtain ⟨-, hdisk, -⟩ := init_written (blank_recognised fun _ => rfl) h
  have hpos : 68 < 1049634 := by decide
  have hd : Written d'.disk 1049634 := by
    rw [hdisk]
    exact putAll_written (blankDev 1049634 (by decide)).disk hpos
  have hn : Numbers d'.disk 1 1049633 2 1049634 :=
    numbers hd.primarySays (by decide) hd.entries rfl rfl rfl rfl (by decide) (by decide)
  refine ⟨d', h, ?_, ?_, ?_⟩
  · intro hs
    exact absurd ((hd.sound_iff (by decide) (by decide)).1 hs) (by decide)
  · rw [hn.rootLast, hn.rootFirst]
    decide
  · rw [hn.espLast]
    decide

end OpenASD.Block
