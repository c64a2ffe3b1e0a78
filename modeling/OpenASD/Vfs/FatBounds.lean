/-
What `fat32_parse_header` guarantees (kernel/vfs/fat32.c). The sectors of the volume are cut to those of the image, and the
clusters to the sectors behind `data_start`, even when the sum that gives `data_start` has wrapped.

Results:
- `reads_inside`: on an accepted image, whatever its fields say, lookup, listing, reading and the FAT accesses read inside
  the image, and the range checks on cluster data always pass.
- `volume_layout_iff`: the areas of the volume are disjoint and every cluster has an entry in the first FAT exactly if the volume is
  FAT32, the end of the FATs does not wrap and the FAT is long enough; or there is no valid cluster at all.
- `root_dir_on_data`: on FAT12 and FAT16 the root directory and the first cluster start at the same byte.
-/
import OpenASD.Vfs.Fat

namespace OpenASD.Vfs.Fat

open ByteMem

/-! ## Accepted headers -/

/-- what an accepted image has told the driver -/
structure Accepted (im : Image) (fs : Fs) : Prop where
  bps : 0 < fs.bytesPerSector ∧ fs.bytesPerSector < 2 ^ 16
  spc : 0 < fs.sectorsPerCluster ∧ fs.sectorsPerCluster < 2 ^ 8
  reserved : 0 < fs.reservedSectors ∧ fs.reservedSectors < 2 ^ 16
  fats : 0 < fs.fats ∧ fs.fats < 2 ^ 8
  fatSize : 0 < fs.fatSizeSectors ∧ fs.fatSizeSectors < 2 ^ 32
  dataStart : fs.dataStartSector = u32 (fs.reservedSectors + fs.fats * fs.fatSizeSectors)
  start_lt : fs.dataStartSector < fs.totalSectors
  total : fs.totalSectors ≤ im.size / fs.bytesPerSector ∧ fs.totalSectors < 2 ^ 32
  clusters : fs.clusterCount = (fs.totalSectors - fs.dataStartSector) / fs.sectorsPerCluster
  two : 2 ≤ fs.clusterCount
  kind : (fs.fat16 = false ∧ 2 ≤ fs.rootCluster) ∨
    (fs.fat16 = true ∧ fs.fatSizeSectors < 2 ^ 16 ∧ fs.rootDirSector = fs.dataStartSector ∧ 0 < fs.rootDirBytes)

theorem u32_le (n : ℕ) : u32 n ≤ n := Nat.mod_le _ _

theorem u32_lt (n : ℕ) : u32 n < 2 ^ 32 := Nat.mod_lt _ (by decide)

theorem bpb_bounds (im : Image) : (bpb im).bps < 2 ^ 16 ∧ (bpb im).spc < 2 ^ 8 ∧ (bpb im).reserved < 2 ^ 16 ∧
    (bpb im).fats < 2 ^ 8 ∧ (bpb im).fatSz16 < 2 ^ 16 ∧ (bpb im).fatSz32 < 2 ^ 32 :=
  ⟨read_lt _ _ 2, read_lt _ _ 1, read_lt _ _ 2, read_lt _ _ 1, read_lt _ _ 2, read_lt _ _ 4⟩

variable {fs : Fs} {im : Image} {c : ℕ} {α σ ρ : Type} {more : σ → Bool} {step : σ → Bytes → σ ⊕ ρ}

theorem finish_cases {b : Bpb} {total clusters : ℕ} (hsz : b.fatSz ≠ 0) (h : b.finish total clusters = some fs) :
    (2 ≤ b.rootCluster ∧ fs = { b.common total clusters with rootCluster := b.rootCluster }) ∨
      (b.fatSz = b.fatSz16 ∧ ∃ n, 0 < n ∧
        fs = { b.common total clusters with fat16 := true, rootDirSector := b.dataStart, rootDirBytes := n }) := by
  unfold Bpb.finish at h
  simp only at h
  split_ifs at h with h1 h2 h3
  · exact .inl ⟨h1.2, (Option.some.inj h).symm⟩
  all_goals
    have h16 : b.fatSz16 ≠ 0 := by
      intro h0
      exact h2 ⟨h0, fun h0' => hsz (by rw [Bpb.fatSz, if_pos h0, h0'])⟩
    refine .inr ⟨if_neg h16, _, ?_, (Option.some.inj h).symm⟩
  · decide
  · exact Nat.mul_pos (Nat.pos_of_ne_zero h3) (by decide)

/-- **The header.** -/
theorem parseHeader_accepted (h : parseHeader im = some fs) : Accepted im fs := by
  obtain ⟨hbps, hspc, hres, hfats, h16, h32⟩ := bpb_bounds im
  unfold parseHeader at h
  simp only at h
  generalize bpb im = b at *
  have hsz : b.fatSz < 2 ^ 32 := by
    unfold Bpb.fatSz
    split_ifs
    · exact h32
    · exact Nat.lt_trans h16 (by decide)
  have htotal : (if u32 (im.size / b.bps) < b.totalSectors then u32 (im.size / b.bps) else b.totalSectors) ≤
      u32 (im.size / b.bps) := by
    split_ifs <;> omega
  generalize (if u32 (im.size / b.bps) < b.totalSectors then u32 (im.size / b.bps) else b.totalSectors) = total at h htotal
  split_ifs at h with h1 h2 h3 h4 h5 h6
  simp only [not_or] at h3
  obtain ⟨z1, z2, z3, z4, z5, -⟩ := h3
  have hin : total ≤ im.size / b.bps := Nat.le_trans htotal (u32_le _)
  have hlt : total < 2 ^ 32 := Nat.lt_of_le_of_lt htotal (u32_lt _)
  have p1 : 0 < b.bps ∧ b.bps < 2 ^ 16 := ⟨Nat.pos_of_ne_zero z1, hbps⟩
  have p2 : 0 < b.spc ∧ b.spc < 2 ^ 8 := ⟨Nat.pos_of_ne_zero z2, hspc⟩
  have p3 : 0 < b.reserved ∧ b.reserved < 2 ^ 16 := ⟨Nat.pos_of_ne_zero z3, hres⟩
  have p4 : 0 < b.fats ∧ b.fats < 2 ^ 8 := ⟨Nat.pos_of_ne_zero z4, hfats⟩
  have p5 : 0 < b.fatSz ∧ b.fatSz < 2 ^ 32 := ⟨Nat.pos_of_ne_zero z5, hsz⟩
  have hstart : b.dataStart < total := Nat.lt_of_not_le h5
  have htwo : 2 ≤ (total - b.dataStart) / b.spc := Nat.le_of_not_lt h6
  rcases finish_cases z5 h with ⟨hroot, rfl⟩ | ⟨he, n, hn, rfl⟩
  · exact ⟨p1, p2, p3, p4, p5, rfl, hstart, ⟨hin, hlt⟩, rfl, htwo, .inl ⟨rfl, hroot⟩⟩
  have hshort : b.fatSz < 2 ^ 16 := by
    rw [he]
    exact h16
  exact ⟨p1, p2, p3, p4, p5, rfl, hstart, ⟨hin, hlt⟩, rfl, htwo, .inr ⟨rfl, hshort, rfl, hn⟩⟩

/-! ## Clusters -/

theorem Accepted.clusterBytes_eq (h : Accepted im fs) :
    clusterBytes fs = fs.bytesPerSector * fs.sectorsPerCluster ∧ 0 < clusterBytes fs := by
  have hlt : fs.bytesPerSector * fs.sectorsPerCluster < 2 ^ 32 :=
    calc fs.bytesPerSector * fs.sectorsPerCluster < 2 ^ 16 * 2 ^ 8 := Nat.mul_lt_mul'' h.bps.2 h.spc.2
      _ < 2 ^ 32 := by decide
  have he : clusterBytes fs = fs.bytesPerSector * fs.sectorsPerCluster := Nat.mod_eq_of_lt hlt
  exact ⟨he, he ▸ Nat.mul_pos h.bps.1 h.spc.1⟩

theorem valid_bounds (hc : clusterIsValid fs c = true) : 2 ≤ c ∧ c - 2 < fs.clusterCount := by
  rw [clusterIsValid, Bool.and_eq_true, decide_eq_true_eq, decide_eq_true_eq] at hc
  have hle := u32_le (fs.clusterCount + 2)
  omega

/-- the sectors of a valid cluster are sectors of the volume -/
theorem Accepted.cluster_sectors (h : Accepted im fs) (hc : clusterIsValid fs c = true) :
    fs.dataStartSector + (c - 2) * fs.sectorsPerCluster + fs.sectorsPerCluster ≤ fs.totalSectors := by
  obtain ⟨-, hlt⟩ := valid_bounds hc
  have hstart := h.start_lt
  have hmul : (c - 2 + 1) * fs.sectorsPerCluster ≤ fs.totalSectors - fs.dataStartSector :=
    calc (c - 2 + 1) * fs.sectorsPerCluster ≤ fs.clusterCount * fs.sectorsPerCluster := Nat.mul_le_mul_right _ hlt
      _ ≤ fs.totalSectors - fs.dataStartSector := by
        rw [h.clusters]
        exact Nat.div_mul_le_self _ _
  rw [Nat.succ_mul] at hmul
  omega

theorem Accepted.cluster_end (h : Accepted im fs) (c : ℕ) : clusterOffsetBytes fs c + clusterBytes fs =
    (fs.dataStartSector + (c - 2) * fs.sectorsPerCluster + fs.sectorsPerCluster) * fs.bytesPerSector := by
  rw [h.clusterBytes_eq.1, clusterOffsetBytes, Nat.add_mul _ fs.sectorsPerCluster, Nat.mul_comm fs.bytesPerSector]

/-- **A valid cluster lies inside the image.** -/
theorem Accepted.cluster_inside (h : Accepted im fs) (hc : clusterIsValid fs c = true) :
    clusterOffsetBytes fs c + clusterBytes fs ≤ im.size := by
  have hsec := Nat.le_trans (h.cluster_sectors hc) h.total.1
  calc clusterOffsetBytes fs c + clusterBytes fs = _ := h.cluster_end c
    _ ≤ im.size / fs.bytesPerSector * fs.bytesPerSector := Nat.mul_le_mul_right _ hsec
    _ ≤ im.size := Nat.div_mul_le_self _ _

/-! ## Runs that stay inside -/

/-- no read of the run leaves the image -/
def Inside {α : Type} (x : Except Stop α) : Prop := x ≠ .error .outside

theorem Inside.ok (a : α) : Inside (.ok a : Except Stop α) := fun h => by cases h

theorem Inside.bind {β : Type} {x : Except Stop α} {f : α → Except Stop β} (hx : Inside x)
    (hf : ∀ a, x = .ok a → Inside (f a)) : Inside (x >>= f) := by
  cases x with
  | error e =>
    intro h
    apply hx
    cases h
    rfl
  | ok a => exact hf a rfl

theorem Inside.map {β : Type} {x : Except Stop α} (hx : Inside x) (f : α → β) : Inside (x.map f) := by
  cases x with
  | error e =>
    intro h
    apply hx
    cases h
    rfl
  | ok a => exact Inside.ok _

theorem Inside.fetch {off n : ℕ} (h : off + n ≤ im.size) : Inside (fetch im off n) := by
  rw [Fat.fetch, if_pos h]
  exact Inside.ok _

theorem fatEntry_inside (c : ℕ) : Inside (fatEntry im fs c) := by
  unfold fatEntry
  by_cases h : im.size < fatOffset fs c + fatWidth fs
  · rw [if_pos h]
    exact Inside.ok _
  · rw [if_neg h]
    exact (Inside.fetch (Nat.le_of_not_lt h)).bind fun _ _ => Inside.ok _

theorem fatNextCluster_inside (c : ℕ) : Inside (fatNextCluster im fs c) := by
  refine (fatEntry_inside c).bind fun v _ => ?_
  cases v with
  | none | some v => exact Inside.ok _

theorem chainNext_inside (c : ℕ) : Inside (chainNext im fs c) :=
  (fatNextCluster_inside c).bind fun _ _ => Inside.ok _

theorem freeLoop_inside (n c : ℕ) : Inside (freeLoop im fs n c) := by
  induction n generalizing c with
  | zero => exact Inside.ok _
  | succ n ih =>
    refine (fatEntry_inside c).bind fun v _ => ?_
    cases v with
    | none => exact Inside.ok _
    | some v =>
      simp only
      split_ifs
      · exact Inside.ok _
      · exact ih _

/-- a loop over entries reads what its fetches read, up to its last round -/
theorem entriesLoop_inside {fetchAt : ℕ → Except Stop (Bytes ⊕ ρ)}
    {n off : ℕ} (hf : ∀ k, off ≤ k → k + dirEntrySize ≤ off + n * dirEntrySize → Inside (fetchAt k))
    (s : σ) : Inside (entriesLoop fetchAt more step n off s) := by
  induction n generalizing off s with
  | zero => exact Inside.ok _
  | succ n ih =>
    rw [Nat.succ_mul] at hf
    rw [entriesLoop]
    split_ifs
    · refine (hf off (Nat.le_refl _) (by omega)).bind fun e _ => ?_
      cases e with
      | inr r => exact Inside.ok _
      | inl e =>
        simp only
        cases step s e with
        | inr r => exact Inside.ok _
        | inl s' =>
          apply ih
          intro k hk hk'
          exact hf k (Nat.le_of_add_right_le hk) (by omega)
    · exact Inside.ok _

theorem clusterEntries_inside
    (hc : clusterOffsetBytes fs c + clusterBytes fs ≤ im.size) (s : σ) : Inside (clusterEntries im fs more step c s) := by
  apply entriesLoop_inside
  intro k _ hk
  apply Inside.map
  apply Inside.fetch
  have := Nat.div_mul_le_self (clusterBytes fs) dirEntrySize
  omega

theorem clusterLoop_inside (n c : ℕ) (s : σ) :
    Inside (clusterLoop im fs more step n c s) := by
  induction n generalizing c s with
  | zero => exact fun h => by cases h
  | succ n ih =>
    rw [clusterLoop]
    split_ifs with hv hr
    · exact Inside.ok _
    · refine (clusterEntries_inside (Nat.le_of_not_lt hr) s).bind fun r _ => ?_
      cases r with
      | inr r => exact Inside.ok _
      | inl s' =>
        refine (chainNext_inside c).bind fun next _ => ?_
        cases next with
        | none => exact Inside.ok _
        | some next => exact ih next s'
    · exact Inside.ok _

theorem iterRootDirFind_inside (want : Option Str) : Inside (iterRootDirFind im fs want) := by
  apply Inside.map
  apply entriesLoop_inside
  intro k _ _
  simp only
  split_ifs with h
  · exact Inside.ok _
  · exact (Inside.fetch (Nat.le_of_not_lt h)).map _

theorem iterDirFind_inside (rounds c : ℕ) (want : Option Str) :
    Inside (iterDirFind im fs rounds c want) := by
  unfold iterDirFind
  split_ifs
  · exact iterRootDirFind_inside want
  · exact Inside.ok _
  · exact (clusterLoop_inside _ _ _).map _

theorem resolveLoop_inside (rounds n : ℕ) (path : Str) (cur : FatNode) :
    Inside (resolveLoop im fs rounds n path cur) := by
  induction n generalizing path cur with
  | zero => exact Inside.ok _
  | succ n ih =>
    rw [resolveLoop]
    split_ifs
    · exact Inside.ok _
    · exact Inside.ok _
    refine (iterDirFind_inside rounds _ _).bind fun next _ => ?_
    cases next with
    | none => exact Inside.ok _
    | some next => exact ih _ next

theorem readLoop_inside (n c inC left : ℕ) (out : Bytes) (hin : inC ≤ clusterBytes fs) :
    Inside (readLoop im fs n c inC left out) := by
  induction n generalizing c inC left out with
  | zero => exact Inside.ok _
  | succ n ih =>
    rw [readLoop]
    split_ifs with h1 h2
    · exact Inside.ok _
    · exact Inside.ok _
    have hchunk : clusterOffsetBytes fs c + inC + min (clusterBytes fs - inC) left ≤ im.size := by omega
    refine (Inside.fetch hchunk).bind fun bytes _ => ?_
    split_ifs
    · exact Inside.ok _
    refine (chainNext_inside c).bind fun next _ => ?_
    cases next with
    | none => exact Inside.ok _
    | some next => exact ih next 0 _ _ (Nat.zero_le _)

theorem skipLoop_inside (n c : ℕ) : Inside (skipLoop im fs n c) := by
  induction n generalizing c with
  | zero => exact Inside.ok _
  | succ n ih =>
    refine (chainNext_inside c).bind fun next _ => ?_
    cases next with
    | none => exact Inside.ok _
    | some next => exact ih next

theorem readBytes_inside (hpos : 0 < clusterBytes fs) (f : File) (n : ℕ) : Inside (readBytes im fs f n) := by
  unfold readBytes
  split_ifs
  · exact Inside.ok _
  · exact Inside.ok _
  · exact Inside.ok _
  refine (skipLoop_inside _ _).bind fun c _ => ?_
  cases c with
  | none => exact Inside.ok _
  | some c => exact readLoop_inside _ c _ _ _ (Nat.le_of_lt (Nat.mod_lt _ hpos))

/-- **Reads stay inside the image.** On every accepted image: the data of a valid cluster lies inside, so that no range check
on it fails, and no lookup, listing, read or access to the FAT reads outside, for all names, nodes, offsets and sizes. -/
theorem reads_inside (im : Image) (fs : Fs) (h : parseHeader im = some fs) :
    (∀ c, clusterIsValid fs c = true → clusterOffsetBytes fs c + clusterBytes fs ≤ im.size) ∧
      (∀ rounds c want, Inside (iterDirFind im fs rounds c want)) ∧
      (∀ rounds path, Inside (resolvePath im fs rounds path)) ∧
      (∀ rounds node cap, Inside (fat32Readdir im fs rounds node cap)) ∧
      (∀ f n, Inside (fat32Read im fs f n)) ∧
      (∀ c, Inside (fatNextCluster im fs c)) ∧ Inside (fatFindFreeCluster im fs) := by
  have ha := parseHeader_accepted h
  refine ⟨fun c hc => ha.cluster_inside hc, iterDirFind_inside, fun rounds path => resolveLoop_inside rounds _ _ _,
    fun rounds node cap => ?_, fun f n => ?_, fatNextCluster_inside, freeLoop_inside _ _⟩
  · unfold fat32Readdir
    split_ifs
    · exact Inside.ok _
    · exact (clusterLoop_inside _ _ _).map _
  · refine (readBytes_inside ha.clusterBytes_eq.2 f n).bind fun r _ => ?_
    cases r with
    | error e | ok out => exact Inside.ok _

/-- a header: the bytes of some fields, the others 0 -/
def headerByte (fields : List (ℕ × UInt8)) (a : ℕ) : UInt8 := ((fields.find? fun f => f.1 = a).map Prod.snd).getD 0

/-- 64 sectors of 512 bytes, one reserved, two FATs of one sector, 16 root entries -/
def fat16Image : Image where
  byte := headerByte [(12, 2), (13, 1), (14, 1), (16, 2), (17, 16), (19, 64), (22, 1), (510, 0x55), (511, 0xAA)]
  size := 32768

/-- the same volume as FAT32, with the root directory in cluster 2 -/
def fat32Image : Image where
  byte := headerByte [(12, 2), (13, 1), (14, 1), (16, 2), (19, 64), (36, 1), (44, 2), (510, 0x55), (511, 0xAA)]
  size := 32768

def fat16Fs : Fs := ⟨512, 1, 1, 2, 1, 64, 0, 3, 61, true, 3, 512⟩
def fat32Fs : Fs := ⟨512, 1, 1, 2, 1, 64, 2, 3, 61, false, 0, 0⟩

theorem reads_inside_fat16 : parseHeader fat16Image = some fat16Fs ∧
      (∀ c, clusterIsValid fat16Fs c = true → clusterOffsetBytes fat16Fs c + clusterBytes fat16Fs ≤ fat16Image.size) ∧
      (∀ rounds c want, Inside (iterDirFind fat16Image fat16Fs rounds c want)) ∧
      (∀ rounds path, Inside (resolvePath fat16Image fat16Fs rounds path)) ∧
      (∀ rounds node cap, Inside (fat32Readdir fat16Image fat16Fs rounds node cap)) ∧
      (∀ f n, Inside (fat32Read fat16Image fat16Fs f n)) ∧
      (∀ c, Inside (fatNextCluster fat16Image fat16Fs c)) ∧ Inside (fatFindFreeCluster fat16Image fat16Fs) :=
  ⟨by decide, reads_inside fat16Image fat16Fs (by decide)⟩

/-! ## The areas of a volume -/

inductive Area where
  | reserved
  | fat (i : ℕ)
  | rootDir
  | cluster (c : ℕ)
deriving DecidableEq

namespace Area

/-- the areas that a volume has -/
def Present (fs : Fs) : Area → Prop
  | .reserved => True
  | .fat i => i < fs.fats
  | .rootDir => fs.fat16 = true
  | .cluster c => clusterIsValid fs c = true

/-- its first byte -/
def start (fs : Fs) : Area → ℕ
  | .reserved => 0
  | .fat i => (fs.reservedSectors + i * fs.fatSizeSectors) * fs.bytesPerSector
  | .rootDir => fs.rootDirSector * fs.bytesPerSector
  | .cluster c => clusterOffsetBytes fs c

/-- the byte behind it -/
def stop (fs : Fs) : Area → ℕ
  | .reserved => fs.reservedSectors * fs.bytesPerSector
  | .fat i => (fs.reservedSectors + (i + 1) * fs.fatSizeSectors) * fs.bytesPerSector
  | .rootDir => fs.rootDirSector * fs.bytesPerSector + fs.rootDirBytes
  | .cluster c => clusterOffsetBytes fs c + clusterBytes fs

/-- a byte of the area -/
def Has (fs : Fs) (a : Area) (x : ℕ) : Prop := a.start fs ≤ x ∧ x < a.stop fs

end Area

/-- no byte belongs to two areas, and the FAT entry of a valid cluster is in the first FAT -/
structure Layout (fs : Fs) : Prop where
  disjoint : ∀ a b : Area, a.Present fs → b.Present fs → a ≠ b → ∀ x, ¬ (a.Has fs x ∧ b.Has fs x)
  entry : ∀ c, clusterIsValid fs c = true →
    (Area.fat 0).start fs ≤ fatOffset fs c ∧ fatOffset fs c + fatWidth fs ≤ (Area.fat 0).stop fs

/-- FAT32 with FATs that end below 2 ^ 32 sectors and have an entry for every cluster -/
structure Sane (fs : Fs) : Prop where
  fat32 : fs.fat16 = false
  noWrap : fs.reservedSectors + fs.fats * fs.fatSizeSectors < 2 ^ 32
  entries : (fs.clusterCount + 2) * 4 ≤ fs.fatSizeSectors * fs.bytesPerSector

variable {fs : Fs} {im : Image}

/-- without a root directory of its own, and with clusters only behind the FATs, the areas stand one behind the other -/
theorem apart (h : Accepted im fs) (h32 : fs.fat16 = false)
    (hstart : ∀ c, clusterIsValid fs c = true → fs.dataStartSector = fs.reservedSectors + fs.fats * fs.fatSizeSectors)
    {a b : Area} (ha : a.Present fs) (hb : b.Present fs) (hne : a ≠ b) : a.stop fs ≤ b.start fs ∨ b.stop fs ≤ a.start fs := by
  have hroot : ¬ Area.rootDir.Present fs := by
    intro hp
    rw [Area.Present, h32] at hp
    cases hp
  have hfat : ∀ i, i < fs.fats → ∀ c, clusterIsValid fs c = true → (Area.fat i).stop fs ≤ (Area.cluster c).start fs := by
    intro i hi c hc
    have hmul : (i + 1) * fs.fatSizeSectors ≤ fs.fats * fs.fatSizeSectors := Nat.mul_le_mul_right _ hi
    have hs := hstart c hc
    apply Nat.mul_le_mul_right
    omega
  have hres : ∀ c, clusterIsValid fs c = true → Area.reserved.stop fs ≤ (Area.cluster c).start fs := by
    intro c hc
    have hs := hstart c hc
    apply Nat.mul_le_mul_right
    omega
  have hfats : ∀ i j, i < j → (Area.fat i).stop fs ≤ (Area.fat j).start fs := by
    intro i j hij
    have hmul : (i + 1) * fs.fatSizeSectors ≤ j * fs.fatSizeSectors := Nat.mul_le_mul_right _ hij
    apply Nat.mul_le_mul_right
    omega
  have hresfat : ∀ i, Area.reserved.stop fs ≤ (Area.fat i).start fs := by
    intro i
    apply Nat.mul_le_mul_right
    omega
  have hclusters : ∀ c d, 2 ≤ c → c < d → (Area.cluster c).stop fs ≤ (Area.cluster d).start fs := by
    intro c d hc hcd
    have hmul : (c - 2 + 1) * fs.sectorsPerCluster ≤ (d - 2) * fs.sectorsPerCluster :=
      Nat.mul_le_mul_right _ (by omega)
    rw [Nat.succ_mul] at hmul
    calc clusterOffsetBytes fs c + clusterBytes fs = _ := h.cluster_end c
      _ ≤ clusterOffsetBytes fs d := Nat.mul_le_mul_right _ (by omega)
  cases a with
  | rootDir => exact absurd ha hroot
  | reserved =>
    cases b with
    | reserved => exact absurd rfl hne
    | fat j => exact .inl (hresfat j)
    | rootDir => exact absurd hb hroot
    | cluster d => exact .inl (hres d hb)
  | fat i =>
    cases b with
    | reserved => exact .inr (hresfat i)
    | fat j =>
      rcases Nat.lt_or_gt_of_ne fun e => hne (congrArg _ e) with hij | hij
      · exact .inl (hfats i j hij)
      · exact .inr (hfats j i hij)
    | rootDir => exact absurd hb hroot
    | cluster d => exact .inl (hfat i ha d hb)
  | cluster c =>
    cases b with
    | reserved => exact .inr (hres c ha)
    | fat j => exact .inr (hfat j hb c ha)
    | rootDir => exact absurd hb hroot
    | cluster d =>
      rcases Nat.lt_or_gt_of_ne fun e => hne (congrArg _ e) with hcd | hcd
      · exact .inl (hclusters c d (valid_bounds ha).1 hcd)
      · exact .inr (hclusters d c (valid_bounds hb).1 hcd)

theorem disjoint_of_apart {a b : Area} (h : a.stop fs ≤ b.start fs ∨ b.stop fs ≤ a.start fs) (x : ℕ) :
    ¬ (a.Has fs x ∧ b.Has fs x) := by
  rintro ⟨⟨ha, ha'⟩, hb, hb'⟩
  omega

theorem clusterCount_lt (h : Accepted im fs) : fs.clusterCount < 2 ^ 32 := by
  rw [h.clusters]
  calc (fs.totalSectors - fs.dataStartSector) / fs.sectorsPerCluster ≤ fs.totalSectors - fs.dataStartSector :=
        Nat.div_le_self _ _
    _ ≤ fs.totalSectors := Nat.sub_le _ _
    _ < 2 ^ 32 := h.total.2

/-- the valid clusters, if `cluster_count + 2` does not wrap -/
theorem valid_iff (hlt : fs.clusterCount + 2 < 2 ^ 32) (c : ℕ) :
    clusterIsValid fs c = true ↔ 2 ≤ c ∧ c < fs.clusterCount + 2 := by
  have hmod : u32 (fs.clusterCount + 2) = fs.clusterCount + 2 := Nat.mod_eq_of_lt hlt
  rw [clusterIsValid, hmod, Bool.and_eq_true, decide_eq_true_eq, decide_eq_true_eq]

section

variable (h : Accepted im fs)
include h

/-- if it wraps, no cluster is valid -/
theorem not_valid_of_wrap (hw : 2 ^ 32 ≤ fs.clusterCount + 2) (c : ℕ) : clusterIsValid fs c ≠ true := by
  have hlt := clusterCount_lt h
  have hmod : u32 (fs.clusterCount + 2) = fs.clusterCount + 2 - 2 ^ 32 := by
    unfold u32
    omega
  intro hc
  rw [clusterIsValid, hmod, Bool.and_eq_true, decide_eq_true_eq, decide_eq_true_eq] at hc
  omega

/-- on FAT12 and FAT16 nothing wraps -/
theorem Accepted.fat16_bounds (h16 : fs.fat16 = true) :
    fs.clusterCount + 2 < 2 ^ 32 ∧ fs.rootDirSector = fs.dataStartSector ∧ 0 < fs.rootDirBytes := by
  rcases h.kind with ⟨h32, -⟩ | ⟨-, hsz, hroot, hbytes⟩
  · rw [h16] at h32
    cases h32
  have hmul : fs.fats * fs.fatSizeSectors < 2 ^ 8 * 2 ^ 16 := Nat.mul_lt_mul'' h.fats.2 hsz
  have hpos : 0 < fs.fats * fs.fatSizeSectors := Nat.mul_pos h.fats.1 h.fatSize.1
  have hstart : fs.dataStartSector = fs.reservedSectors + fs.fats * fs.fatSizeSectors := by
    rw [h.dataStart]
    apply Nat.mod_eq_of_lt
    have := h.reserved.2
    omega
  have hcount : fs.clusterCount ≤ fs.totalSectors - fs.dataStartSector := by
    rw [h.clusters]
    exact Nat.div_le_self _ _
  have := h.reserved.1
  have := h.total.2
  exact ⟨by omega, hroot, hbytes⟩

/-- a sector below the end of the FATs belongs to the reserved sectors or to a FAT -/
theorem covered {k : ℕ} (hk : k < fs.reservedSectors + fs.fats * fs.fatSizeSectors) :
    ∃ a : Area, a.Present fs ∧ (∀ c, a ≠ .cluster c) ∧ a.Has fs (k * fs.bytesPerSector) := by
  by_cases hres : k < fs.reservedSectors
  · exact ⟨.reserved, trivial, fun c => by simp, Nat.zero_le _, Nat.mul_lt_mul_of_pos_right hres h.bps.1⟩
  have hdiv := Nat.div_add_mod (k - fs.reservedSectors) fs.fatSizeSectors
  have hmod := Nat.mod_lt (k - fs.reservedSectors) h.fatSize.1
  have hi : (k - fs.reservedSectors) / fs.fatSizeSectors < fs.fats :=
    (Nat.div_lt_iff_lt_mul h.fatSize.1).2 (by omega)
  generalize (k - fs.reservedSectors) / fs.fatSizeSectors = i at *
  rw [Nat.mul_comm] at hdiv
  refine ⟨.fat i, hi, fun c => by simp, Nat.mul_le_mul_right _ (by omega), Nat.mul_lt_mul_of_pos_right ?_ h.bps.1⟩
  rw [Nat.succ_mul]
  omega

theorem cluster_two_has : (Area.cluster 2).Has fs (fs.dataStartSector * fs.bytesPerSector) := by
  have hpos := h.clusterBytes_eq.2
  simp only [Area.Has, Area.start, Area.stop, clusterOffsetBytes, Nat.sub_self, Nat.zero_mul, Nat.add_zero]
  omega

end

/-- **The layout of a volume.** On an accepted image the reserved sectors, the FATs, the root directory and the clusters are
disjoint, and every valid cluster has its entry in the first FAT, exactly if the volume is sane or has no valid cluster. -/
theorem volume_layout_iff (im : Image) (fs : Fs) (h : parseHeader im = some fs) :
    Layout fs ↔ Sane fs ∨ 2 ^ 32 ≤ fs.clusterCount + 2 := by
  have ha := parseHeader_accepted h
  constructor
  · intro hl
    by_cases hw : 2 ^ 32 ≤ fs.clusterCount + 2
    · exact .inr hw
    have hvalid := valid_iff (Nat.lt_of_not_le hw)
    have htwo := ha.two
    have h2 : clusterIsValid fs 2 = true := (hvalid 2).2 (by omega)
    have h32 : fs.fat16 = false := by
      -- the root directory starts where cluster 2 starts
      by_contra h16
      rw [Bool.not_eq_false] at h16
      obtain ⟨-, hroot, hbytes⟩ := ha.fat16_bounds h16
      apply hl.disjoint .rootDir (.cluster 2) h16 h2 (by simp) (fs.dataStartSector * fs.bytesPerSector)
      refine ⟨?_, cluster_two_has ha⟩
      simp only [Area.Has, Area.start, Area.stop, hroot]
      omega
    have hwrap : fs.reservedSectors + fs.fats * fs.fatSizeSectors < 2 ^ 32 := by
      -- if the sum wraps, cluster 2 starts below the end of the FATs
      by_contra hge
      have hlt : fs.dataStartSector < fs.reservedSectors + fs.fats * fs.fatSizeSectors := by
        have := u32_lt (fs.reservedSectors + fs.fats * fs.fatSizeSectors)
        rw [← ha.dataStart] at this
        omega
      obtain ⟨a, hpres, hne, hhas⟩ := covered ha hlt
      exact hl.disjoint a (.cluster 2) hpres h2 (hne 2) _ ⟨hhas, cluster_two_has ha⟩
    refine .inl ⟨h32, hwrap, ?_⟩
    have hlast := (hl.entry (fs.clusterCount + 1) ((hvalid _).2 (by omega))).2
    simp only [fatOffset, fatWidth, h32, Area.stop, Bool.false_eq_true, if_false, Nat.zero_add, Nat.one_mul,
      Nat.add_mul] at hlast ⊢
    omega
  · rintro (hs | hw)
    · have hstart := ha.dataStart.trans (Nat.mod_eq_of_lt hs.noWrap)
      refine ⟨fun a b hpa hpb hne => disjoint_of_apart (apart ha hs.fat32 (fun _ _ => hstart) hpa hpb hne), fun c hc => ?_⟩
      have hlt := (valid_bounds hc).2
      have hent := hs.entries
      simp only [fatOffset, fatWidth, hs.fat32, Area.start, Area.stop, Bool.false_eq_true, if_false, Nat.zero_add, Nat.one_mul,
        Nat.zero_mul, Nat.add_zero, Nat.add_mul] at hent ⊢
      omega
    have hno := not_valid_of_wrap ha hw
    have h32 : fs.fat16 = false := by
      by_contra h16
      rw [Bool.not_eq_false] at h16
      have := (ha.fat16_bounds h16).1
      omega
    exact ⟨fun a b hpa hpb hne => disjoint_of_apart (apart ha h32 (fun c hc => absurd hc (hno c)) hpa hpb hne),
      fun c hc => absurd hc (hno c)⟩

theorem volume_layout_iff_fat32 :
    parseHeader fat32Image = some fat32Fs ∧ Sane fat32Fs ∧ (Layout fat32Fs ↔ Sane fat32Fs ∨ 2 ^ 32 ≤ fat32Fs.clusterCount + 2) :=
  ⟨by decide, ⟨rfl, by decide, by decide⟩, volume_layout_iff fat32Image fat32Fs (by decide)⟩

/-- on a FAT16 volume of 64 sectors, byte 1536 belongs to the root directory and to cluster 2 -/
theorem root_dir_on_data :
    parseHeader fat16Image = some fat16Fs ∧ Area.rootDir.Present fat16Fs ∧ (Area.cluster 2).Present fat16Fs ∧
      Area.rootDir.Has fat16Fs 1536 ∧ (Area.cluster 2).Has fat16Fs 1536 ∧ ¬ Layout fat16Fs := by
  have hroot : Area.rootDir.Has fat16Fs 1536 := ⟨by decide, by decide⟩
  have hdata : (Area.cluster 2).Has fat16Fs 1536 := ⟨by decide, by decide⟩
  refine ⟨by decide, rfl, rfl, hroot, hdata, fun hl => ?_⟩
  exact hl.disjoint .rootDir (.cluster 2) rfl rfl (by simp) 1536 ⟨hroot, hdata⟩

end OpenASD.Vfs.Fat
