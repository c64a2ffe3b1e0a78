/-
The installer looks for the ESP that it has just made (init/installer.c: `read_esp_range`). The reader has its own offsets of
the header and of the entries and its own table of the type, apart from the records that kernel/block/gpt.c writes.

Result:
- `esp_range_found`: after a call of `gpt_init_single_disk` that wrote the table, the range is that of the ESP entry.
-/
import OpenASD.Block.Gpt

namespace OpenASD.Init

open ByteMem Block

def espGuid : Bytes :=
  [0xC1, 0x2A, 0x73, 0x28, 0xF8, 0x1F, 0x11, 0xD2, 0xBA, 0x4B, 0x00, 0xA0, 0xC9, 0x3E, 0xC9, 0x3B]

/-- `rd32le` and `rd64le` -/
def rdLe (buf : Bytes) (off n : ℕ) : ℕ := leNat ((buf.drop off).take n)

/-- the range of the entry at offset off, if it is an ESP -/
def espEntry (sec : Bytes) (off : ℕ) : Option (ℕ × ℕ) :=
  if (sec.drop off).take 16 ≠ espGuid then none
  else if rdLe sec (off + 32) 8 = 0 ∨ rdLe sec (off + 40) 8 < rdLe sec (off + 32) 8 then none
  else some (rdLe sec (off + 32) 8, rdLe sec (off + 40) 8)

/-- n sectors of entries from lba on -/
def scanEntries (entrySize : ℕ) : ℕ → ℕ → Dev → Option (ℕ × ℕ) × Dev
  | 0, _, d => (none, d)
  | n + 1, lba, d =>
    match d.read lba 1 with
    | (none, d) => (none, d)
    | (some sec, d) =>
      match (List.range (512 / entrySize)).findSome? fun i => espEntry sec (i * entrySize) with
      | some range => (some range, d)
      | none => scanEntries entrySize n ((lba + 1) % 2 ^ 64) d

/-- the entries that a header refers to; an entry has 128 bytes or more -/
def scanTable (d : Dev) (entriesLba numParts entrySize : ℕ) : Option (ℕ × ℕ) × Dev :=
  if entrySize < 128 ∨ numParts = 0 ∨ 128 < numParts then (none, d)
  else if 512 / entrySize = 0 then (none, d)
  else scanEntries entrySize ((numParts + 512 / entrySize - 1) / (512 / entrySize)) entriesLba d

/-- first and last sector, or none for an error -/
def readEspRange (d : Dev) : Option (ℕ × ℕ) × Dev :=
  match d.read 1 1 with
  | (none, d) => (none, d)
  | (some hdr, d) =>
    if hdr.take 8 ≠ gptSignature then (none, d)
    else scanTable d (rdLe hdr 72 8) (rdLe hdr 80 4) (rdLe hdr 84 4)

variable {m : Mem} {a n off k : ℕ}

/-- a part of what was read -/
theorem get_drop_take (h : off + k ≤ n) : ((get m a n).drop off).take k = get m (a + off) k := by
  obtain ⟨r, rfl⟩ := Nat.exists_eq_add_of_le h
  rw [Nat.add_assoc, get_append, List.drop_left' (length_get m a off), get_append, List.take_left' (length_get m _ k)]

theorem rdLe_get (h : off + k ≤ n) : rdLe (get m a n) off k = read m (a + off) k := by
  rw [rdLe, get_drop_take h, ByteMem.read]

/-- the first entry of a table on the disk -/
theorem espEntry_first {total : ℕ} (h : get m (512 * 2) (512 * 32) = partsBytes total) :
    espEntry (get m (512 * 2) 512) 0 = some (espPart.firstLba, espPart.lastLba) := by
  have htype : get m (512 * 2) 16 = espGuid := by
    rw [get_take _ _ (show 16 ≤ 512 * 32 by decide), h]
    rfl
  obtain ⟨hfirst, hlast, -⟩ := parts_say h
  rw [espEntry, get_drop_take (by decide), rdLe_get (by decide), rdLe_get (by decide)]
  simp [htype, hfirst, hlast, espPart, espSizeSectors]

/-- **The range of the ESP.** On every device without a known signature, after a call that returns 0 the installer, if its
two reads do not fail, finds the first and the last sector of the ESP that was written, which is not the root partition. -/
theorem esp_range_found {d d' : Dev} (hs : recognised d = false) (h : gptInitSingleDisk d = (0, d'))
    (hr : d'.fault d'.clock = false) (hr' : d'.fault (d'.clock + 1) = false) :
    (readEspRange d').1 = some (espPart.firstLba, espPart.lastLba) ∧
    (readEspRange d').1 ≠ some ((rootPart d.sectorCount).firstLba, (rootPart d.sectorCount).lastLba) := by
  obtain ⟨hmin, hdisk, hsize, hcount, -, -⟩ := init_written hs h
  have hpos : 68 < d'.sectorCount := hcount ▸ lt_of_lt_of_le (by decide) hmin
  have hw := putAll_written d.disk (hcount ▸ hpos)
  rw [← hdisk] at hw
  have hdr := hw.primarySays
  have hsig := (hw.headers d.count_lt (hcount ▸ hpos)).1.signature
  have hread : d'.read 1 1 = (some (get d'.disk (512 * 1) 512), d'.tick) := by
    rw [Dev.read_ok ((refuses_inside (by omega)).trans hr), hsize]
  have hread' : d'.tick.read 2 1 = (some (get d'.disk (512 * 2) 512), d'.tick.tick) := by
    have hin : 2 + 1 ≤ d'.tick.sectorCount := le_trans (by decide) hpos
    rw [Dev.read_ok ((refuses_inside hin).trans hr')]
    simp [Dev.tick, hsize]
  have hentries : rdLe (get d'.disk (512 * 1) 512) 72 8 = 2 := (rdLe_get (by decide)).trans hdr.entries
  have hnum : rdLe (get d'.disk (512 * 1) 512) 80 4 = 128 := (rdLe_get (by decide)).trans hdr.count
  have hentry : rdLe (get d'.disk (512 * 1) 512) 84 4 = 128 := (rdLe_get (by decide)).trans hdr.entry
  have hfound : (readEspRange d').1 = some (espPart.firstLba, espPart.lastLba) := by
    rw [get_take _ _ (show 8 ≤ 512 by decide)] at hsig
    simp [readEspRange, hread, hsig, hentries, hnum, hentry, scanTable, scanEntries, hread', List.range_succ_eq_map,
      espEntry_first hw.entries]
  refine ⟨hfound, ?_⟩
  rw [hfound]
  simp [espPart, rootPart, espSizeSectors]

theorem esp_range_found_blank : ∃ d d', recognised d = false ∧ gptInitSingleDisk d = (0, d') ∧
    (readEspRange d').1 = some (2048, 1050623) := by
  have hs := blank_recognised (d := blankDev 2097152 (by decide)) fun _ => rfl
  obtain ⟨d', h⟩ := init_total (fun _ _ => rfl) rfl (by decide) hs
  have hfault : d'.fault = fun _ => false := (init_written hs h).2.2.2.2.1
  exact ⟨_, d', hs, h, (esp_range_found hs h (by rw [hfault]) (by rw [hfault])).1⟩

end OpenASD.Init
