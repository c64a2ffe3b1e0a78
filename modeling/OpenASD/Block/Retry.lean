/-
Calls of `gpt_init_single_disk` one after another (kernel/block/gpt.c), on a disk whose accesses may fail. A call takes a
disk for done by the signature of the first header, and it writes that header before the copies at the end of the disk. If a
call fails in between, the next one returns 0 and the copies are never written.

Results:
- `retries_sound`: from a blank disk, if no call fails behind the first header, every call that returns 0 leaves two whole headers;
- `retry_without_backup`: one failed write of a copy, and the second call returns 0 on a disk whose last sector is blank.
-/
import OpenASD.Block.Gpt

namespace OpenASD.Block

open ByteMem

/-- the disk after n calls -/
def retry (d : Dev) (n : ℕ) : Dev := (fun d => (gptInitSingleDisk d).2)^[n] d

/-- in this call no write fails behind that of the first header, which is number 33 of 67 -/
def Steady (d : Dev) : Prop := ∀ i, 34 ≤ i → i < 67 → d.fault (firstWrite d + i) = false

/-- all that a call writes is there -/
def Whole (m : Mem) (total : ℕ) : Prop := ∀ w ∈ gptWrites total, get m (512 * w.1) 512 = w.2

/-- a disk that was blank: sector 0 is the MBR of the table or has no signature, and the first header comes last -/
structure Begun (m : Mem) (total : ℕ) : Prop where
  mbr : m 510 = 0x55 → get m (512 * 0) 512 = pack (pmbrFields total)
  whole : get m (512 * 1) 8 = gptSignature → Whole m total

theorem pmbr_not_fat (total : ℕ) : diskSector0IsFat (pack (pmbrFields total)) = false := by
  have hzero : ∀ k, k + 3 ≤ 440 → ((pack (pmbrFields total)).drop k).take 3 = ((leBytes 440 0).drop k).take 3 := by
    intro k hk
    have hcode : pack (pmbrFields total) = leBytes 440 0 ++ pack (pmbrFields total).tail := rfl
    rw [hcode, List.drop_append_of_le_length (by simp; omega), List.take_append_of_le_length (by simp; omega)]
  have hcode : ∀ k ∈ [82, 54], decide (((leBytes 440 0).drop k).take 3 = [0x46, 0x41, 0x54]) = false := by decide +kernel
  rw [diskSector0IsFat, hzero 82 (by decide), hzero 54 (by decide), hcode 82 (by decide), hcode 54 (by decide)]
  exact Bool.and_false _

section Step

variable {d d' : Dev} {r : ℤ}

/-- a signature on a disk that was blank is that of the first header, so everything is there -/
theorem Begun.recognised (hb : Begun d.disk d.sectorCount) (hsize : d.sectorSize = 512) (h : recognised d = true) :
    Whole d.disk d.sectorCount := by
  unfold Block.recognised at h
  rcases hr : d.read 0 1 with ⟨_ | sec, d1⟩ <;> rw [hr] at h
  · cases h
  have h1 := read_same hr
  have hsec := Dev.read_some hr
  rw [hsize] at hsec
  simp only [hasSignature] at h
  split_ifs at h with hsig hfat
  · rw [hsec, List.getD_eq_getElem?_getD, ByteMem.get_getElem? (by decide)] at hsig
    rw [hsec, hb.mbr hsig.1, pmbr_not_fat] at hfat
    cases hfat
  rcases hr1 : d1.read 1 1 with ⟨_ | hdr, d2⟩ <;> rw [hr1] at h
  · cases h
  have hhdr := (of_decide_eq_true h).1
  rw [Dev.read_some hr1, h1.size, h1.disk, hsize, ← get_take _ _ (by decide)] at hhdr
  exact hb.whole hhdr

/-- one call -/
theorem init_begun (hb : Begun d.disk d.sectorCount) (hs : Steady d) (h : gptInitSingleDisk d = (r, d')) :
    Begun d'.disk d.sectorCount ∧ d'.sectorCount = d.sectorCount ∧
      (r = 0 → 68 < d.sectorCount ∧ Whole d'.disk d.sectorCount) := by
  obtain ⟨k, hdisk, -, hcount', -, -, ⟨rfl, rfl⟩ | ⟨hsize, hcount, hend⟩⟩ := init_upTo h
  · rw [hdisk]
    exact ⟨hb, hcount', fun h0 => absurd h0 (by decide)⟩
  have hpos : 68 < d.sectorCount := lt_of_lt_of_le (by decide) hcount
  have hnd := gptWrites_nodup hpos
  rw [hsize] at hdisk
  obtain ⟨-, hknown, rfl⟩ | ⟨-, -, rfl⟩ | ⟨rfl, hk, hfault⟩ := hend
  · rw [hdisk]
    exact ⟨hb, hcount', fun _ => ⟨hpos, hb.recognised hsize hknown⟩⟩
  · rw [← gptWrites_length d.sectorCount, List.take_length] at hdisk
    have hall : Whole d'.disk d.sectorCount := fun w hw => hdisk ▸ putAll_get (gptWrites_len _) hnd hw
    exact ⟨⟨fun _ => hall (0, pack (pmbrFields d.sectorCount)) List.mem_cons_self, fun _ => hall⟩, hcount', fun _ => ⟨hpos, hall⟩⟩
  refine ⟨?_, hcount', fun h0 => absurd h0 (by decide)⟩
  rw [hdisk]
  by_cases hsig : get d.disk (512 * 1) 8 = gptSignature
  · rw [putAll_same fun w hm => hb.whole hsig w (List.mem_of_mem_take hm)]
    exact hb
  -- the write that failed is not behind the first header, so that sector is as it was
  have hle : k ≤ 33 := by
    by_contra hgt
    rw [hs k (by omega) hk] at hfault
    cases hfault
  refine ⟨fun h510 => ?_, fun hnow => absurd ?_ hsig⟩
  · cases k with
    | zero => exact hb.mbr h510
    | succ k =>
      exact putAll_get (w := (0, pack (pmbrFields d.sectorCount))) (fun w hm => gptWrites_len _ w (List.mem_of_mem_take hm))
        (hnd.sublist ((List.take_sublist _ _).map _)) List.mem_cons_self
  · have hlater : (1, (primaryHeader d.sectorCount).bytes) ∈ (gptWrites d.sectorCount).drop k :=
      List.drop_subset_drop_left _ hle (by simp [gptWrites, entryWrites])
    rw [← hnow]
    exact (putAll_take (gptWrites_len _) hnd hlater (by decide)).symm

end Step

theorem blank_begun {d : Dev} (hz : ∀ x, d.disk x = 0) : Begun d.disk d.sectorCount := by
  refine ⟨fun h => ?_, fun h => ?_⟩
  · rw [hz] at h
    exact absurd h (by decide)
  · simp only [ByteMem.get, hz] at h
    exact absurd h (by decide)

theorem retry_succ (d : Dev) (n : ℕ) : retry d (n + 1) = (gptInitSingleDisk (retry d n)).2 :=
  Function.iterate_succ_apply' _ n d

theorem retry_fault (d : Dev) (n : ℕ) : (retry d n).fault = d.fault := by
  induction n with
  | zero => rfl
  | succ n ih =>
    obtain ⟨k, -, -, -, hf, -⟩ := init_upTo (Prod.eta (gptInitSingleDisk (retry d n))).symm
    rw [retry_succ, hf, ih]

/-- any number of calls -/
theorem retry_begun {d : Dev} (hz : ∀ x, d.disk x = 0) {n : ℕ} (hs : ∀ i < n, Steady (retry d i)) :
    Begun (retry d n).disk d.sectorCount ∧ (retry d n).sectorCount = d.sectorCount := by
  induction n with
  | zero => exact ⟨blank_begun hz, rfl⟩
  | succ n ih =>
    obtain ⟨hb, hc⟩ := ih fun i hi => hs i (Nat.lt_succ_of_lt hi)
    rw [← hc] at hb
    obtain ⟨hb', hc', -⟩ := init_begun hb (hs n (Nat.lt_succ_self n)) (Prod.eta _).symm
    rw [retry_succ]
    exact ⟨hc ▸ hb', hc'.trans hc⟩

/-- **Retries.** On every blank disk, whatever accesses fail, if in none of the calls a write fails behind that of the first
header, then after each call that returns 0 both headers are whole and their checksums verify. -/
theorem retries_sound {d : Dev} (hz : ∀ x, d.disk x = 0) {n : ℕ} (hs : ∀ i ≤ n, Steady (retry d i))
    (h0 : (gptInitSingleDisk (retry d n)).1 = 0) :
    HeaderSound (retry d (n + 1)).disk 1 ∧ HeaderSound (retry d (n + 1)).disk (d.sectorCount - 1) := by
  obtain ⟨hb, hc⟩ := retry_begun hz fun i hi => hs i (Nat.le_of_lt hi)
  rw [← hc] at hb
  obtain ⟨-, -, hw⟩ := init_begun hb (hs n le_rfl) (Prod.eta _).symm
  obtain ⟨hpos, hwhole⟩ := hw h0
  rw [hc] at hpos hwhole
  rw [retry_succ]
  exact (Written.of_get hwhole).headers d.count_lt hpos

/-- a blank disk on which this access fails -/
def faultAt (k : ℕ) : Dev := { blankDev 2097152 (by decide) with fault := fun n => decide (n = k) }

/-- the fifth access fails, among the writes of the entries, and the second call goes through -/
theorem retries_sound_second : (gptInitSingleDisk (faultAt 4)).1 = -1 ∧ (gptInitSingleDisk (retry (faultAt 4) 1)).1 = 0 ∧
    HeaderSound (retry (faultAt 4) 2).disk 1 ∧ HeaderSound (retry (faultAt 4) 2).disk 2097151 := by
  have hs : ∀ i ≤ 1, Steady (retry (faultAt 4) i) := by
    intro i _ j h34 _
    rw [retry_fault]
    exact decide_eq_false (by omega)
  have h0 : (gptInitSingleDisk (retry (faultAt 4) 1)).1 = 0 := by decide +kernel
  exact ⟨by decide +kernel, h0, retries_sound (fun _ => rfl) hs h0⟩

/-- access 35 is the first write behind the first header -/
abbrev oneFault : Dev := faultAt 35

/-- **No backup.** One write fails, the second call returns 0, and the last sector of the disk is still blank. -/
theorem retry_without_backup : (∀ x, oneFault.disk x = 0) ∧ (gptInitSingleDisk oneFault).1 = -1 ∧
    (gptInitSingleDisk (retry oneFault 1)).1 = 0 ∧ ¬ HeaderSound (retry oneFault 2).disk (oneFault.sectorCount - 1) := by
  have hfail : (gptInitSingleDisk oneFault).1 = -1 := by decide +kernel
  have hknown : recognised (retry oneFault 1) = true := by decide +kernel
  have hzero : (gptInitSingleDisk (retry oneFault 1)).1 = 0 := by decide +kernel
  refine ⟨fun _ => rfl, hfail, hzero, fun h => ?_⟩
  -- the backup header is the last write, which the first call does not reach, and the second writes nothing
  obtain ⟨k, hdisk, -, -, -, -, hend⟩ := init_upTo (Prod.eta (gptInitSingleDisk oneFault)).symm
  obtain ⟨j, hdisk', -, -, -, -, hend'⟩ := init_upTo (Prod.eta (gptInitSingleDisk (retry oneFault 1))).symm
  rw [hfail] at hend
  rw [hzero, hknown] at hend'
  obtain ⟨-, -, rfl⟩ : _ ∧ _ ∧ j = 0 := by simpa using hend'
  have hk : k ≤ 66 := by
    simp at hend
    omega
  have hlater : (2097151, (backupHeader 2097152).bytes) ∈ (gptWrites 2097152).drop k :=
    List.drop_subset_drop_left _ hk (by simp [gptWrites, entryWrites, List.drop_append])
  have hblank : get (retry oneFault 2).disk (512 * 2097151) 8 = get (fun _ => 0) (512 * 2097151) 8 := by
    rw [retry_succ, hdisk', List.take_zero, putAll, List.foldl_nil, retry_succ, retry, Function.iterate_zero, id, hdisk]
    exact putAll_take (gptWrites_len _) (gptWrites_nodup (by decide)) hlater (by decide)
  exact absurd (hblank.symm.trans h.signature) (by decide)

end OpenASD.Block
