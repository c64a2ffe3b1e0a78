/-
The checksum of the partition table (kernel/block/gpt.c: crc32_init, crc32_compute). The table of 256 words and the flag
`crc32_init_done` are static variables: the first call fills the table, later calls find it filled.

`crc32_is_reference`: whatever was summed before, crc32_compute gives the reflected CRC-32 of its bytes, bit by bit.
-/
import OpenASD.Block.Gpt
import OpenASD.Core.Crc

namespace OpenASD.Block

/-! ## The static variables -/

structure CrcState where
  /-- `crc32_table` -/
  table : ℕ → UInt32
  /-- `crc32_init_done` -/
  initDone : Bool

/-- static variables start as 0 -/
def CrcState.start : CrcState := ⟨fun _ => 0, false⟩

/-- the loop of `crc32_init` -/
def crc32Fill (t : ℕ → UInt32) : ℕ → UInt32 :=
  (List.range 256).foldl (fun t i => Function.update t i (crcStep^[8] (UInt32.ofNat i))) t

def crc32Init (st : CrcState) : CrcState := if st.initDone then st else ⟨crc32Fill st.table, true⟩

/-- the sum of a buffer, and the variables after the call -/
def crc32Sum (st : CrcState) (buf : Bytes) : UInt32 × CrcState :=
  let st := crc32Init st
  (buf.foldl (fun (c : UInt32) b => st.table ((c ^^^ b.toUInt32) &&& 0xFF).toNat ^^^ (c >>> 8)) 0xFFFFFFFF ^^^ 0xFFFFFFFF, st)

/-- the variables after calls for these buffers, from the start of the kernel -/
def crcAfter (earlier : List Bytes) : CrcState := earlier.foldl (fun st buf => (crc32Sum st buf).2) CrcState.start

/-! ## The table -/

/-- a table that counts as filled is filled -/
def CrcState.Ready (st : CrcState) : Prop := st.initDone = true → ∀ i < 256, st.table i = crc32Table (UInt32.ofNat i)

theorem fill_table (f : ℕ → UInt32) (t : ℕ → UInt32) (n i : ℕ) :
    (List.range n).foldl (fun t i => Function.update t i (f i)) t i = if i < n then f i else t i := by
  induction n with
  | zero => rfl
  | succ n ih =>
    rw [List.range_succ, List.foldl_append, List.foldl_cons, List.foldl_nil]
    by_cases hi : i = n
    · subst hi
      rw [Function.update_self, if_pos (Nat.lt_succ_self i)]
    · rw [Function.update_of_ne hi, ih]
      congr 1
      exact propext (by omega)

theorem crc32Fill_get (t : ℕ → UInt32) {i : ℕ} (hi : i < 256) : crc32Fill t i = crc32Table (UInt32.ofNat i) :=
  (fill_table (fun i => crcStep^[8] (UInt32.ofNat i)) t 256 i).trans (if_pos hi)

theorem crc32Init_get {st : CrcState} (h : st.Ready) {i : ℕ} (hi : i < 256) :
    (crc32Init st).table i = crc32Table (UInt32.ofNat i) := by
  unfold crc32Init
  split_ifs with hd
  · exact h hd i hi
  · dsimp only
    rw [crc32Fill_get st.table hi]

/-- one call -/
theorem crc32Sum_spec {st : CrcState} (h : st.Ready) (buf : Bytes) :
    (crc32Sum st buf).1 = crc32Compute buf ∧ (crc32Sum st buf).2.Ready := by
  refine ⟨?_, fun _ i hi => crc32Init_get h hi⟩
  have hidx : ∀ c : UInt32, (c &&& 0xFF).toNat < 256 := by
    intro c
    exact Nat.lt_of_le_of_lt Nat.and_le_right (by decide)
  simp only [crc32Sum, crc32Compute, crc32Init_get h (hidx _), UInt32.ofNat_toNat]

/-- all calls -/
theorem crcAfter_ready (earlier : List Bytes) : (crcAfter earlier).Ready := by
  refine List.foldlRecOn (motive := CrcState.Ready) _ _ ?_ fun _ h b _ => (crc32Sum_spec h b).2
  intro h
  cases h

/-! ## The reference -/

/-- the polynomial -/
def crcPoly : BitVec 32 := 0xEDB88320#32

/-- the reflected CRC-32, one bit of the message after the other -/
def crc32Reference (buf : Bytes) : BitVec 32 :=
  Crc.register crcPoly 0xFFFFFFFF#32 (buf.map UInt8.toBitVec) ^^^ 0xFFFFFFFF#32

theorem crcStep_toBitVec (c : UInt32) : (crcStep c).toBitVec = Crc.shift crcPoly c.toBitVec := by
  have hlow : (c &&& 1).toBitVec = BitVec.setWidth 32 (BitVec.ofBool (c.toBitVec.getLsbD 0)) := by
    exact BitVec.and_one_eq_setWidth_ofBool_getLsbD
  unfold crcStep Crc.shift
  cases hb : c.toBitVec.getLsbD 0 with
  | false =>
    have hzero : c &&& 1 = 0 := by
      apply UInt32.toBitVec_inj.1
      rw [hlow, hb]
      rfl
    rw [if_neg (not_not.2 hzero), if_neg Bool.false_ne_true, BitVec.xor_zero]
    rfl
  | true =>
    have hone : c &&& 1 = 1 := by
      apply UInt32.toBitVec_inj.1
      rw [hlow, hb]
      rfl
    rw [if_pos (by rw [hone]; decide), if_pos rfl]
    rfl

theorem crc32Table_toBitVec (i : UInt32) : (crc32Table i).toBitVec = (Crc.shift crcPoly)^[8] i.toBitVec := by
  have hiter : ∀ (n : ℕ) (c : UInt32), (crcStep^[n] c).toBitVec = (Crc.shift crcPoly)^[n] c.toBitVec := by
    intro n
    induction n with
    | zero => exact fun c => rfl
    | succ n ih =>
      intro c
      rw [Function.iterate_succ_apply, Function.iterate_succ_apply, ih, crcStep_toBitVec]
  exact hiter 8 i

theorem crc32Compute_toBitVec (buf : Bytes) : (crc32Compute buf).toBitVec = crc32Reference buf := by
  have hfold : ∀ (buf : Bytes) (c : UInt32),
      (buf.foldl (fun c b => crc32Table ((c ^^^ b.toUInt32) &&& 0xFF) ^^^ (c >>> 8)) c).toBitVec =
        Crc.register crcPoly c.toBitVec (buf.map UInt8.toBitVec) := by
    intro buf
    induction buf with
    | nil => exact fun c => rfl
    | cons b buf ih =>
      intro c
      have hbyte : (crc32Table ((c ^^^ b.toUInt32) &&& 0xFF) ^^^ (c >>> 8)).toBitVec =
          (Crc.shift crcPoly)^[8] ((c.toBitVec ^^^ b.toBitVec.setWidth 32) &&& 255#32) ^^^ (c.toBitVec >>> 8) := by
        rw [UInt32.toBitVec_xor, crc32Table_toBitVec]
        rfl
      rw [List.foldl_cons, ih, hbyte, List.map_cons, Crc.register_table,
        Crc.register_table, List.foldl_cons]
  rw [crc32Compute, UInt32.toBitVec_xor, hfold]
  rfl

/-- **The checksum.** After calls for any buffers, crc32_compute of any bytes is their CRC-32. -/
theorem crc32_is_reference (earlier : List Bytes) (buf : Bytes) :
    (crc32Sum (crcAfter earlier) buf).1.toBitVec = crc32Reference buf :=
  calc (crc32Sum (crcAfter earlier) buf).1.toBitVec = (crc32Compute buf).toBitVec := by
        rw [(crc32Sum_spec (crcAfter_ready earlier) buf).1]
    _ = crc32Reference buf := crc32Compute_toBitVec buf

end OpenASD.Block
