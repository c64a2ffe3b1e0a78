/-
Block devices (kernel/block/block.h: `block_dev_t`). A device stores bytes; sector n is at byte n * sector_size. An access
fails if it leaves the disk, or if the environment makes it fail: `fault` says which accesses, by their number. An access
that fails changes nothing.

Results:
- `writeAll_upTo`: writes leave the disk with each of them up to the first that fails;
- `putAll_get`: and if they are of different sectors, every sector holds what was written to it.
-/
import OpenASD.Core.ByteMem

namespace OpenASD.Block

open ByteMem

abbrev Bytes := List UInt8

structure Dev where
  sectorSize : ℕ
  sectorCount : ℕ
  count_lt : sectorCount < 2 ^ 64
  disk : Mem
  fault : ℕ → Bool
  /-- the accesses so far -/
  clock : ℕ

def Dev.tick (d : Dev) : Dev := { d with clock := d.clock + 1 }

/-- the next access, to count sectors from lba on, fails -/
def Dev.refuses (d : Dev) (lba count : ℕ) : Bool := d.fault d.clock || decide (d.sectorCount < lba + count)

/-- none for an error -/
def Dev.read (d : Dev) (lba count : ℕ) : Option Bytes × Dev :=
  if d.refuses lba count then (none, d.tick)
  else (some (get d.disk (d.sectorSize * lba) (d.sectorSize * count)), d.tick)

/-- false for an error -/
def Dev.write (d : Dev) (lba count : ℕ) (buf : Bytes) : Bool × Dev :=
  if d.refuses lba count then (false, d.tick) else (true, { d.tick with disk := put d.disk (d.sectorSize * lba) buf })

variable {count lba : ℕ} {d : Dev}

/-- inside the disk only the device itself refuses -/
theorem refuses_inside (h : lba + count ≤ d.sectorCount) : d.refuses lba count = d.fault d.clock := by
  rw [Dev.refuses, decide_eq_false (Nat.not_lt.2 h), Bool.or_false]

theorem Dev.write_ok (h : d.refuses lba count = false) (buf : Bytes) :
    d.write lba count buf = (true, { d.tick with disk := put d.disk (d.sectorSize * lba) buf }) := by
  rw [Dev.write, h]
  rfl

theorem Dev.write_refused (h : d.refuses lba count = true) (buf : Bytes) : d.write lba count buf = (false, d.tick) := by
  rw [Dev.write, if_pos h]

theorem Dev.read_ok (h : d.refuses lba count = false) :
    d.read lba count = (some (get d.disk (d.sectorSize * lba) (d.sectorSize * count)), d.tick) := by
  rw [Dev.read, h]
  rfl

theorem Dev.read_some {d' : Dev} {bs : Bytes} (h : d.read lba count = (some bs, d')) :
    bs = get d.disk (d.sectorSize * lba) (d.sectorSize * count) := by
  unfold Dev.read at h
  split_ifs at h
  · cases h
  · cases h
    rfl

theorem Dev.read_refused (h : d.refuses lba count = true) : d.read lba count = (none, d.tick) := by
  rw [Dev.read, if_pos h]

/-- writes of one sector each, up to the first that fails -/
def writeAll (d : Dev) : List (ℕ × Bytes) → Bool × Dev
  | [] => (true, d)
  | w :: ws =>
    match d.write w.1 1 w.2 with
    | (false, d) => (false, d)
    | (true, d) => writeAll d ws

/-! ## What writes do -/

/-- the disk after writes of sectors of n bytes -/
def putAll (n : ℕ) (m : Mem) (ws : List (ℕ × Bytes)) : Mem := ws.foldl (fun m w => put m (n * w.1) w.2) m

/-- writes inside the disk succeed on a device that has no fault during them -/
theorem writeAll_total {ws : List (ℕ × Bytes)} (hf : ∀ n < d.clock + ws.length, d.fault n = false)
    (hw : ∀ w ∈ ws, w.1 < d.sectorCount) : ∃ d', writeAll d ws = (true, d') := by
  induction ws generalizing d with
  | nil => exact ⟨d, rfl⟩
  | cons w ws ih =>
    have hlt : w.1 < d.sectorCount := hw w List.mem_cons_self
    rw [List.length_cons] at hf
    rw [writeAll, Dev.write_ok ((refuses_inside hlt).trans (hf d.clock (by omega)))]
    apply ih
    · intro n hn
      apply hf
      rw [Nat.add_comm ws.length, ← Nat.add_assoc]
      exact hn
    · exact fun v hv => hw v (List.mem_cons_of_mem w hv)

/-- **Writes up to the first that fails**, which is number k. -/
theorem writeAll_upTo {d d' : Dev} {ws : List (ℕ × Bytes)} {b : Bool} (h : writeAll d ws = (b, d')) :
    ∃ k, d'.disk = putAll d.sectorSize d.disk (ws.take k) ∧ d'.sectorSize = d.sectorSize ∧ d'.sectorCount = d.sectorCount ∧
      d'.fault = d.fault ∧ d.clock + k ≤ d'.clock ∧
      (b = true ∧ k = ws.length ∨ b = false ∧
        ∃ w, ws[k]? = some w ∧ (d.fault (d.clock + k) = true ∨ d.sectorCount ≤ w.1)) := by
  induction ws generalizing d with
  | nil =>
    cases h
    exact ⟨0, by simp [putAll]⟩
  | cons w ws ih =>
    rw [writeAll] at h
    cases hr : d.refuses w.1 1 with
    | true =>
      rw [Dev.write_refused hr] at h
      cases h
      simp only [Dev.refuses, Bool.or_eq_true, decide_eq_true_eq, Nat.lt_succ_iff] at hr
      exact ⟨0, by simpa [putAll, Dev.tick] using hr⟩
    | false =>
      rw [Dev.write_ok hr] at h
      obtain ⟨k, hdisk, hsize, hcount, hfault, hclock, hend⟩ := ih h
      dsimp only [Dev.tick] at hclock hend
      refine ⟨k + 1, hdisk, hsize, hcount, hfault, by omega, ?_⟩
      simpa [Nat.add_assoc, Nat.add_comm 1] using hend

section Sectors

variable {n : ℕ} {m : Mem} {ws : List (ℕ × Bytes)}

theorem sector_eq {n k x : ℕ} (h1 : n * k ≤ x) (h2 : x < n * k + n) : x / n = k := by
  apply Nat.div_eq_of_lt_le
  · rw [Nat.mul_comm]
    exact h1
  · rw [Nat.mul_comm, Nat.mul_succ]
    exact h2

section

variable (hlen : ∀ w ∈ ws, w.2.length = n)
include hlen

/-- sectors that are not written stay -/
theorem putAll_out {x : ℕ} (hx : ∀ w ∈ ws, x / n ≠ w.1) : putAll n m ws x = m x := by
  induction ws generalizing m with
  | nil => rfl
  | cons w ws ih =>
    have hout : x < n * w.1 ∨ n * w.1 + w.2.length ≤ x := by
      by_contra hin
      simp only [not_or, Nat.not_lt, Nat.not_le, hlen w List.mem_cons_self] at hin
      exact hx w List.mem_cons_self (sector_eq hin.1 hin.2)
    calc putAll n m (w :: ws) x = putAll n (put m (n * w.1) w.2) ws x := rfl
      _ = put m (n * w.1) w.2 x :=
        ih (fun v hv => hlen v (List.mem_cons_of_mem w hv)) fun v hv => hx v (List.mem_cons_of_mem w hv)
      _ = m x := put_out hout

/-- **Every sector holds what was written to it.** -/
theorem putAll_get (hd : (ws.map Prod.fst).Nodup) {w : ℕ × Bytes} (hw : w ∈ ws) :
    get (putAll n m ws) (n * w.1) n = w.2 := by
  induction ws generalizing m with
  | nil => cases hw
  | cons v ws ih =>
    obtain ⟨hv, hnd⟩ := List.nodup_cons.1 hd
    have hlen' : ∀ u ∈ ws, u.2.length = n := fun u hu => hlen u (List.mem_cons_of_mem v hu)
    rcases List.mem_cons.1 hw with rfl | hmem
    · -- the later writes are of other sectors
      have hlast := get_put m (n * w.1) w.2
      rw [hlen w List.mem_cons_self] at hlast
      rw [← hlast]
      apply get_congr
      intro x h1 h2
      apply putAll_out (m := put m (n * w.1) w.2) hlen'
      intro u hu he
      exact hv (List.mem_map.2 ⟨u, hu, he ▸ sector_eq h1 h2⟩)
    · exact ih hlen' hnd hmem

/-- a sector whose write is still to come is as it was -/
theorem putAll_take {k j : ℕ} (hd : (ws.map Prod.fst).Nodup) {w : ℕ × Bytes}
    (hw : w ∈ ws.drop k) (hj : j ≤ n) : get (putAll n m (ws.take k)) (n * w.1) j = get m (n * w.1) j := by
  rw [← List.take_append_drop k ws, List.map_append, List.nodup_append] at hd
  apply get_congr
  intro x h1 h2
  apply putAll_out fun v hv => hlen v (List.mem_of_mem_take hv)
  intro v hv
  rw [sector_eq h1 (by omega)]
  exact (hd.2.2 v.1 (List.mem_map_of_mem hv) w.1 (List.mem_map_of_mem hw)).symm

end

/-- writing what is there changes nothing -/
theorem putAll_same (h : ∀ w ∈ ws, get m (n * w.1) n = w.2) : putAll n m ws = m := by
  induction ws with
  | nil => rfl
  | cons w ws ih =>
    obtain ⟨hw, hws⟩ := List.forall_mem_cons.1 h
    have hput : put m (n * w.1) w.2 = m := by
      funext x
      rw [← hw, put]
      by_cases hx : x - n * w.1 < n <;> simp [ByteMem.get, hx]
      intro hle
      rw [Nat.add_sub_cancel' hle]
    rw [putAll, List.foldl_cons, hput]
    exact ih hws

end Sectors

end OpenASD.Block
