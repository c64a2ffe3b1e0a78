/-
The FAT driver (kernel/vfs/fat32.c): header, cluster chains, directory entries, lookup, listing and reading. This module is
the model only.

A volume is an image in memory, of which every header field may be anything. All reads of the image behind the header go
through `fetch`; one that leaves the image is `Stop.outside`. A directory entry is fetched whole, while the source looks at
some of its 32 bytes. The loops along a cluster chain have a number of rounds: a chain may be a cycle.

Numbers are naturals; `u32` stands where 32 bits can overflow. The scans of directory entries are one loop with parameters,
and so are the walks along the chain of a directory. A C string is the list of its characters.
-/
import OpenASD.Core.ByteMem
import OpenASD.Vfs.Ramfs

namespace OpenASD.Vfs.Fat

open ByteMem

/-! ## The image -/

structure Image where
  byte : Mem
  size : ℕ

/-- why a run has no result: a read outside the image, or no rounds left -/
inductive Stop where
  | outside
  | rounds
deriving DecidableEq

def fetch (im : Image) (off n : ℕ) : Except Stop Bytes :=
  if off + n ≤ im.size then .ok (get im.byte off n) else .error .outside

def u32 (n : ℕ) : ℕ := n % 4294967296

/-! ## The header -/

/-- the fields that `fat32_parse_header` reads -/
structure Bpb where
  bps : ℕ
  spc : ℕ
  reserved : ℕ
  fats : ℕ
  rootEntries : ℕ
  totalSectors : ℕ
  fatSz16 : ℕ
  fatSz32 : ℕ
  rootCluster : ℕ

def bpb (im : Image) : Bpb where
  bps := read im.byte 11 2
  spc := read im.byte 13 1
  reserved := read im.byte 14 2
  fats := read im.byte 16 1
  rootEntries := read im.byte 17 2
  totalSectors := if read im.byte 19 2 = 0 then read im.byte 32 4 else read im.byte 19 2
  fatSz16 := read im.byte 22 2
  fatSz32 := read im.byte 36 4
  rootCluster := read im.byte 44 4

/-- `fat_sz` -/
def Bpb.fatSz (b : Bpb) : ℕ := if b.fatSz16 = 0 then b.fatSz32 else b.fatSz16

/-- `data_start` -/
def Bpb.dataStart (b : Bpb) : ℕ := u32 (b.reserved + b.fats * b.fatSz)

/-- `fat32_fs_t`, without the image -/
structure Fs where
  bytesPerSector : ℕ
  sectorsPerCluster : ℕ
  reservedSectors : ℕ
  fats : ℕ
  fatSizeSectors : ℕ
  totalSectors : ℕ
  rootCluster : ℕ
  dataStartSector : ℕ
  clusterCount : ℕ
  fat16 : Bool
  rootDirSector : ℕ
  rootDirBytes : ℕ
deriving DecidableEq

/-- FAT32_DIR_ENTRY_SIZE -/
def dirEntrySize : ℕ := 32

/-- the fields that both kinds have in common -/
def Bpb.common (b : Bpb) (total clusters : ℕ) : Fs :=
  ⟨b.bps, b.spc, b.reserved, b.fats, b.fatSz, total, 0, b.dataStart, clusters, false, 0, 0⟩

/-- the last part: FAT32, or FAT12 and FAT16 with a root directory of its own -/
def Bpb.finish (b : Bpb) (total clusters : ℕ) : Option Fs :=
  let isFat32 := b.fatSz16 = 0 ∧ b.fatSz32 ≠ 0
  if isFat32 ∧ 2 ≤ b.rootCluster then some { b.common total clusters with rootCluster := b.rootCluster }
  else if isFat32 then none
  else
    some { b.common total clusters with
      fat16 := true
      rootDirSector := b.dataStart
      rootDirBytes := (if b.rootEntries = 0 then 512 else b.rootEntries) * dirEntrySize }

/-- `fat32_parse_header`; none for -1 -/
def parseHeader (im : Image) : Option Fs :=
  if im.size < 512 then none
  else if im.byte 510 ≠ 0x55 ∨ im.byte 511 ≠ 0xAA then none
  else
    let b := bpb im
    if b.bps = 0 ∨ b.spc = 0 ∨ b.reserved = 0 ∨ b.fats = 0 ∨ b.fatSz = 0 ∨ b.totalSectors = 0 then none
    else
      let imageSectors := u32 (im.size / b.bps)
      if imageSectors < u32 (b.reserved + b.fats * b.fatSz + b.spc) then none
      else
        let total := if imageSectors < b.totalSectors then imageSectors else b.totalSectors
        if total ≤ b.dataStart then none
        else
          let clusters := (total - b.dataStart) / b.spc
          if clusters < 2 then none else b.finish total clusters

/-! ## Clusters and the FAT -/

/-- FAT32_CLUSTER_EOC -/
def clusterEoc : ℕ := 0x0FFFFFF8

def clusterIsValid (fs : Fs) (cluster : ℕ) : Bool := decide (2 ≤ cluster) && decide (cluster < u32 (fs.clusterCount + 2))

def clusterOffsetBytes (fs : Fs) (cluster : ℕ) : ℕ :=
  (fs.dataStartSector + (cluster - 2) * fs.sectorsPerCluster) * fs.bytesPerSector

/-- `cluster_bytes` -/
def clusterBytes (fs : Fs) : ℕ := u32 (fs.bytesPerSector * fs.sectorsPerCluster)

/-- bytes of an entry of the FAT -/
def fatWidth (fs : Fs) : ℕ := if fs.fat16 then 2 else 4

/-- where the entry of a cluster is in the first copy of the FAT -/
def fatOffset (fs : Fs) (cluster : ℕ) : ℕ := fs.reservedSectors * fs.bytesPerSector + cluster * fatWidth fs

variable (im : Image) (fs : Fs)

/-- the entry of a cluster, of which FAT32 uses 28 bits; none if it is behind the image -/
def fatEntry (cluster : ℕ) : Except Stop (Option ℕ) :=
  if im.size < fatOffset fs cluster + fatWidth fs then .ok none
  else do
    let v := leNat (← fetch im (fatOffset fs cluster) (fatWidth fs))
    .ok (some (if fs.fat16 then v else v % 0x10000000))

def fatNextCluster (cluster : ℕ) : Except Stop ℕ := do
  match ← fatEntry im fs cluster with
  | none => .ok clusterEoc
  | some v => .ok (if fs.fat16 = true ∧ 0xFFF8 ≤ v then clusterEoc else v)

/-- the next cluster of a chain, if there is one -/
def chainNext (cluster : ℕ) : Except Stop (Option ℕ) := do
  let next ← fatNextCluster im fs cluster
  .ok (if clusterEoc ≤ next ∨ clusterIsValid fs next = false then none else some next)

/-- the loop of `fat_find_free_cluster` from cluster c on -/
def freeLoop (im : Image) (fs : Fs) : ℕ → ℕ → Except Stop ℕ
  | 0, _ => .ok 0
  | n + 1, c => do
    match ← fatEntry im fs c with
    | none => .ok 0
    | some v => if v = 0 then .ok c else freeLoop im fs n (c + 1)

def fatFindFreeCluster : Except Stop ℕ := freeLoop im fs (u32 (fs.clusterCount + 2) - 2) 2

/-! ## Directory entries -/

def chr (b : UInt8) : Char := Char.ofNat b.toNat

/-- a byte of an entry -/
def byteAt (e : Bytes) (i : ℕ) : UInt8 := e.getD i 0

/-- `rd16` and `rd32` in an entry -/
def le (e : Bytes) (i n : ℕ) : ℕ := leNat ((e.drop i).take n)

/-- `format_83_name`; the 64 characters of its buffer are more than enough -/
def format83Name (e : Bytes) : Str :=
  let ext := (e.drop 8).take 3
  let text := (e.take 8).takeWhile (· ≠ 0x20) ++ (if ext.any (· ≠ 0x20) then [0x2E] else []) ++ ext.takeWhile (· ≠ 0x20)
  (text.takeWhile (· ≠ 0)).map chr

/-- where the 13 characters of a long name entry are -/
def lfnOffsets : List ℕ := [1, 3, 5, 7, 9, 14, 16, 18, 20, 22, 24, 28, 30]

/-- the low byte of a UTF-16 unit -/
def lfnChar (ch : ℕ) : Char := if ch % 128 ≠ 0 then Char.ofNat (ch % 256) else '?'

/-- `lfn_extract` into an empty buffer of 256 -/
def lfnExtract (e : Bytes) : Str :=
  ((lfnOffsets.map fun k => le e k 2).takeWhile fun ch => decide (ch ≠ 0x0000) && decide (ch ≠ 0xFFFF)).map lfnChar

/-- a long name entry: the first one starts the name, the others come before what is there, if there is room -/
def lfnAdd (lfn : Str) (e : Bytes) : Str :=
  let text := lfnExtract e
  if byteAt e 0 &&& 0x40 ≠ 0 then text else if text.length + lfn.length < 256 then text ++ lfn else lfn

def upper (c : Char) : Char := if 97 ≤ c.toNat ∧ c.toNat ≤ 122 then Char.ofNat (c.toNat - 32) else c

/-- `f_stricmp(a, b) == 0` -/
def stricmp : Str → Str → Bool
  | a :: as, b :: bs => if upper a = upper b then stricmp as bs else false
  | [], [] => true
  | _, _ => false

/-- `fat32_node_t` -/
structure FatNode where
  name : Str
  isDir : Bool
  startCluster : ℕ
  size : ℕ
deriving DecidableEq

/-- FAT32_ATTR_DIR -/
def attrDir (e : Bytes) : Bool := byteAt e 11 &&& 0x10 ≠ 0

/-- an entry of the root directory of FAT12 and FAT16 -/
def rootNode (name : Str) (e : Bytes) : FatNode := ⟨name.take 63, attrDir e, le e 26 2, le e 28 4⟩

/-- an entry of a directory in clusters; cluster 0 of a directory stands for the root -/
def subNode (fs : Fs) (name : Str) (e : Bytes) : FatNode :=
  let start := le e 20 2 * 65536 + le e 26 2
  ⟨name.take 63, attrDir e, if start = 0 ∧ attrDir e = true then fs.rootCluster else start, le e 28 4⟩

/-! ## Scans -/

/-- a loop over entries: a step goes on with a state or returns -/
def entriesLoop {σ ρ : Type} (fetchAt : ℕ → Except Stop (Bytes ⊕ ρ)) (more : σ → Bool) (step : σ → Bytes → σ ⊕ ρ) :
    ℕ → ℕ → σ → Except Stop (σ ⊕ ρ)
  | 0, _, s => .ok (.inl s)
  | n + 1, off, s =>
    if more s then do
      match ← fetchAt off with
      | .inr r => .ok (.inr r)
      | .inl e =>
        match step s e with
        | .inr r => .ok (.inr r)
        | .inl s => entriesLoop fetchAt more step n (off + dirEntrySize) s
    else .ok (.inl s)

/-- the entries of one cluster -/
def clusterEntries {σ ρ : Type} (im : Image) (fs : Fs) (more : σ → Bool) (step : σ → Bytes → σ ⊕ ρ) (cluster : ℕ) (s : σ) :
    Except Stop (σ ⊕ ρ) :=
  entriesLoop (fun off => (fetch im (clusterOffsetBytes fs cluster + off) dirEntrySize).map .inl) more step
    (clusterBytes fs / dirEntrySize) 0 s

/-- the loop over the clusters of a directory -/
def clusterLoop {σ ρ : Type} (im : Image) (fs : Fs) (more : σ → Bool) (step : σ → Bytes → σ ⊕ ρ) :
    ℕ → ℕ → σ → Except Stop (σ ⊕ ρ)
  | 0, _, _ => .error .rounds
  | n + 1, cluster, s =>
    if clusterIsValid fs cluster = true ∧ cluster < clusterEoc ∧ more s = true then
      if im.size < clusterOffsetBytes fs cluster + clusterBytes fs then .ok (.inl s)
      else do
        match ← clusterEntries im fs more step cluster s with
        | .inr r => .ok (.inr r)
        | .inl s =>
          match ← chainNext im fs cluster with
          | none => .ok (.inl s)
          | some next => clusterLoop im fs more step n next s
    else .ok (.inl s)

/-! ## Lookup -/

/-- an entry has the name that is wanted; without a name every entry has -/
def matched (want : Option Str) (lfn name83 : Str) : Bool :=
  match want with
  | none => true
  | some w => stricmp (if lfn ≠ [] then lfn else name83) w || stricmp name83 w

/-- one entry of a lookup, with the long name so far -/
def lookStep (node : Str → Bytes → FatNode) (want : Option Str) (lfn : Str) (e : Bytes) : Str ⊕ Option FatNode :=
  if byteAt e 0 = 0x00 then .inr none
  else if byteAt e 0 = 0xE5 then .inl []
  else if byteAt e 11 = 0x0F then .inl (lfnAdd lfn e)
  else if matched want lfn (format83Name e) then .inr (some (node (if lfn ≠ [] then lfn else format83Name e) e))
  else .inl []

/-- what a lookup returns at its end -/
def lookResult : Str ⊕ Option FatNode → Option FatNode
  | .inl _ => none
  | .inr r => r

def iterRootDirFind (want : Option Str) : Except Stop (Option FatNode) :=
  (entriesLoop
    (fun off =>
      let byteOff := fs.rootDirSector * fs.bytesPerSector + off
      if im.size < byteOff + dirEntrySize then .ok (.inr none) else (fetch im byteOff dirEntrySize).map .inl)
    (fun _ => true) (lookStep rootNode want) (fs.rootDirBytes / dirEntrySize) 0 []).map lookResult

def iterDirFind (rounds dirCluster : ℕ) (want : Option Str) : Except Stop (Option FatNode) :=
  if fs.fat16 = true ∧ dirCluster = 0 then iterRootDirFind im fs want
  else if clusterIsValid fs dirCluster = false then .ok none
  else (clusterLoop im fs (fun _ => true) (lookStep (subNode fs) want) rounds dirCluster []).map lookResult

/-- the part of a path that `part[64]` takes -/
def pathPart (path : Str) : Str := (path.takeWhile (· ≠ '/')).take 63

/-- every round takes a character at least -/
def resolveLoop (im : Image) (fs : Fs) (rounds : ℕ) : ℕ → Str → FatNode → Except Stop (Option FatNode)
  | 0, _, cur => .ok (some cur)
  | n + 1, path, cur =>
    if path = [] then .ok (some cur)
    else if cur.isDir = false then .ok none
    else do
      match ← iterDirFind im fs rounds cur.startCluster (some (pathPart path)) with
      | none => .ok none
      | some next => resolveLoop im fs rounds n ((path.drop (pathPart path).length).dropWhile (· = '/')) next

def rootDir (fs : Fs) : FatNode := ⟨[], true, if fs.fat16 then 0 else fs.rootCluster, 0⟩

def resolvePath (rounds : ℕ) (path : Str) : Except Stop (Option FatNode) :=
  let path := path.dropWhile (· = '/')
  resolveLoop im fs rounds path.length path (rootDir fs)

/-! ## Files -/

def eIsdir : ℤ := -7
def eNotdir : ℤ := -8

/-- `fat32_file_t` -/
structure File where
  node : FatNode
  offset : ℕ
deriving DecidableEq

/-- `while (skip--)` -/
def skipLoop (im : Image) (fs : Fs) : ℕ → ℕ → Except Stop (Option ℕ)
  | 0, cluster => .ok (some cluster)
  | n + 1, cluster => do
    match ← chainNext im fs cluster with
    | none => .ok none
    | some next => skipLoop im fs n next

/-- `while (done < need)` with what is left to read; every round takes a byte at least -/
def readLoop (im : Image) (fs : Fs) : ℕ → ℕ → ℕ → ℕ → Bytes → Except Stop (Except ℤ Bytes)
  | 0, _, _, _, out => .ok (.ok out)
  | n + 1, cluster, inCluster, left, out =>
    if left = 0 then .ok (.ok out)
    else if im.size < clusterOffsetBytes fs cluster + clusterBytes fs then .ok (.error eErr)
    else do
      let chunk := min (clusterBytes fs - inCluster) left
      let out := out ++ (← fetch im (clusterOffsetBytes fs cluster + inCluster) chunk)
      if left - chunk = 0 then .ok (.ok out)
      else
        match ← chainNext im fs cluster with
        | none => .ok (.ok out)
        | some next => readLoop im fs n next 0 (left - chunk) out

/-- the bytes of `fat32_read` -/
def readBytes (f : File) (n : ℕ) : Except Stop (Except ℤ Bytes) :=
  if f.node.isDir then .ok (.error eIsdir)
  else if f.node.size ≤ f.offset then .ok (.ok [])
  else if clusterIsValid fs f.node.startCluster = false then .ok (.error eErr)
  else do
    match ← skipLoop im fs (f.offset / clusterBytes fs) f.node.startCluster with
    | none => .ok (.error eErr)
    | some cluster =>
      let need := min n (f.node.size - f.offset)
      readLoop im fs need cluster (f.offset % clusterBytes fs) need []

def fat32Read (f : File) (n : ℕ) : Except Stop (Except ℤ Bytes × File) := do
  match ← readBytes im fs f n with
  | .error e => .ok (.error e, f)
  | .ok out => .ok (.ok out, { f with offset := u32 (f.offset + out.length) })

/-- one entry of a listing, with the long name so far and the entries that are filled -/
def listStep (s : Str × List Dirent) (e : Bytes) : (Str × List Dirent) ⊕ List Dirent :=
  if byteAt e 0 = 0x00 then .inr s.2
  else if byteAt e 0 = 0xE5 then .inl ([], s.2)
  else if byteAt e 11 = 0x0F then .inl (lfnAdd s.1 e, s.2)
  else
    let name := (if s.1 ≠ [] then s.1 else format83Name e).take 255
    .inl ([], s.2 ++ [⟨name ++ List.replicate (256 - name.length) nul, if attrDir e then .dir else .file, le e 28 4⟩])

def fat32Readdir (rounds : ℕ) (node : FatNode) (cap : ℕ) : Except Stop (Except ℤ (List Dirent)) :=
  if node.isDir = false then .ok (.error eNotdir)
  else
    (clusterLoop im fs (fun s => decide (s.2.length < cap)) listStep rounds node.startCluster ([], [])).map fun r =>
      .ok (Sum.elim Prod.snd id r)

end OpenASD.Vfs.Fat
