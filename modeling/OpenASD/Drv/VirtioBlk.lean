/-
The virtio block driver and its device (kernel/drv/virtio_blk.c: virtio_blk_submit).

Driver and device share memory: three descriptors, the request area with header, data and status byte, and the indices of
the two rings. Every request uses the same descriptors and the same area. The driver publishes a request by a new avail
index, polls the used index, and gives up after 50000000 polls; the device serves published requests in order, whenever it
likes, with descriptors and area as they are then. Requests are cut into the steps between which the device may act.

- `VblkInv`: what holds at each point of the driver, kept by both parties (`VblkInv.drive`, `VblkInv.serve`);
- `reads_delivered`: in every run in which no request is submitted before all earlier ones are served and taken, a read
  that returns 0 has the sectors asked for, and a completion that is taken is that of the request itself;
- `writes_stored`: in the same runs a write that returns 0 is on the disk;
- `late_completion`: after one timeout the completion of the old request is taken for the new one, with the old sectors.
-/
import OpenASD.Core.ByteMem
import OpenASD.Core.Machine

namespace OpenASD.Drv

open ByteMem Machine
open Function (update)

/-! ## The model -/

abbrev virtioBlkTIn : ℕ := 0
abbrev virtioBlkTOut : ℕ := 1
abbrev vringDescFNext : ℕ := 1
abbrev vringDescFWrite : ℕ := 2

abbrev vblkReqDataOff : ℕ := 32
abbrev vblkMaxXferSectors : ℕ := 32
abbrev vblkReqStatusOff : ℕ := vblkReqDataOff + vblkMaxXferSectors * 512
/-- polls before a request is given up -/
abbrev maxSpins : ℕ := 50000000

/-- `vr_desc_t` -/
structure Desc where
  addr : ℕ
  len : ℕ
  flags : ℕ
  next : ℕ
deriving DecidableEq, Repr

/-- what virtio_blk_init leaves in `virtio_blk_ctx_t` for good -/
structure VblkCtx where
  qnum : ℕ
  reqPhys : ℕ
  capacitySectors : ℕ
deriving DecidableEq, Repr

/-- the arguments of virtio_blk_submit; data is the caller's buffer when it is a write -/
structure Req where
  lba : ℕ
  sectors : ℕ
  isWrite : Bool
  data : List UInt8
  lba_lt : lba < 2 ^ 64
  data_len : isWrite = true → data.length = sectors * 512
deriving DecidableEq

/-- where virtio_blk_submit is -/
inductive Point where
  | idle
  | start (r : Req)
  | filled (r : Req)
  | marked (r : Req)
  | headed (r : Req)
  | described (r : Req)
  | polling (r : Req) (spins : ℕ)
  | taken (r : Req)
  | good (r : Req)
deriving DecidableEq

/-- what a call of virtio_blk_submit comes back with: its request, its result and what it copied to the caller -/
structure Return where
  req : Req
  code : ℤ
  buf : List UInt8
deriving DecidableEq

structure VblkSt where
  /-- physical memory, with the request area at `reqPhys` -/
  mem : Mem
  desc : ℕ → Desc
  /-- `avail->ring` -/
  ring : ℕ → ℕ
  availIdx : ℕ
  usedIdx : ℕ
  lastUsedIdx : ℕ
  /-- the disk behind the device, 512 bytes a sector -/
  disk : Mem
  point : Point

/-- the queue as virtio_blk_init leaves it -/
def VblkSt.init (disk : Mem) : VblkSt where
  mem := fun _ => 0
  desc := fun _ => ⟨0, 0, 0, 0⟩
  ring := fun _ => 0
  availIdx := 0
  usedIdx := 0
  lastUsedIdx := 0
  disk := disk
  point := .idle

/-- `data_len` -/
def Req.len (r : Req) : ℕ := r.sectors * 512

variable (c : VblkCtx)

def VblkCtx.dataPa : ℕ := c.reqPhys + vblkReqDataOff
def VblkCtx.statusPa : ℕ := c.reqPhys + vblkReqStatusOff

variable (s : VblkSt)

def status : UInt8 := s.mem c.statusPa

def Req.type (r : Req) : ℕ := if r.isWrite then virtioBlkTOut else virtioBlkTIn

/-- `vblk_req_hdr_t` -/
def putHeader (m : Mem) (pa : ℕ) (r : Req) : Mem := write (write (write m pa 4 r.type) (pa + 4) 4 0) (pa + 8) 8 r.lba

def headDesc : Desc := ⟨c.reqPhys, 16, vringDescFNext, 1⟩
def dataDesc (r : Req) : Desc :=
  ⟨c.dataPa, r.len, vringDescFNext ||| (if r.isWrite then 0 else vringDescFWrite), 2⟩
def statusDesc : Desc := ⟨c.statusPa, 1, vringDescFWrite, 0⟩

def putDescs (r : Req) (d : ℕ → Desc) : ℕ → Desc :=
  update (update (update d 0 (headDesc c)) 1 (dataDesc c r)) 2 (statusDesc c)

/-- a call of virtio_blk_submit; the calls come one after another -/
def submit (r : Req) : Option Return × VblkSt :=
  if s.point ≠ .idle then (none, s)
  else if r.sectors = 0 ∨ vblkMaxXferSectors < r.sectors then (some ⟨r, -1, []⟩, s)
  else (none, { s with point := .start r })

/-- the next step of the driver -/
def drive : Option Return × VblkSt :=
  match s.point with
  | .idle => (none, s)
  | .start r =>
    (none, { s with
      mem := if r.isWrite then put s.mem c.dataPa r.data else fill s.mem c.dataPa r.len 0
      point := .filled r })
  | .filled r => (none, { s with mem := put s.mem c.statusPa [0xFF], point := .marked r })
  | .marked r => (none, { s with mem := putHeader s.mem c.reqPhys r, point := .headed r })
  | .headed r => (none, { s with desc := putDescs c r s.desc, point := .described r })
  | .described r =>
    (none, { s with
      ring := update s.ring (s.availIdx % c.qnum) 0
      availIdx := (s.availIdx + 1) % 2 ^ 16
      point := .polling r 0 })
  | .polling r spins =>
    if maxSpins ≤ spins then (some ⟨r, -1, []⟩, { s with point := .idle })
    else if s.usedIdx ≠ s.lastUsedIdx then (none, { s with lastUsedIdx := s.usedIdx, point := .taken r })
    else (none, { s with point := .polling r (spins + 1) })
  | .taken r =>
    if status c s ≠ 0 then (some ⟨r, -1, []⟩, { s with point := .idle })
    else (none, { s with point := .good r })
  | .good r => (some ⟨r, 0, if r.isWrite then [] else get s.mem c.dataPa r.len⟩, { s with point := .idle })

/-- the device serves the next published request with descriptors and area as they are; `ok` says that its disk works -/
def serve (ok : Bool) : VblkSt :=
  if s.usedIdx = s.availIdx then s
  else
    let head := s.desc (s.ring (s.usedIdx % c.qnum))
    let data := s.desc head.next
    let stat := s.desc data.next
    let type := read s.mem head.addr 4
    let sector := read s.mem (head.addr + 8) 8
    let used := (s.usedIdx + 1) % 2 ^ 16
    let fits := ok = true ∧ sector * 512 + data.len ≤ c.capacitySectors * 512
    if fits ∧ type = virtioBlkTIn ∧ data.flags &&& vringDescFWrite ≠ 0 then
      { s with mem := put (put s.mem data.addr (get s.disk (sector * 512) data.len)) stat.addr [0], usedIdx := used }
    else if fits ∧ type = virtioBlkTOut ∧ data.flags &&& vringDescFWrite = 0 then
      { s with
        disk := put s.disk (sector * 512) (get s.mem data.addr data.len)
        mem := put s.mem stat.addr [0]
        usedIdx := used }
    else { s with mem := put s.mem stat.addr [1], usedIdx := used }

inductive VblkOp where
  | submit (r : Req)
  | drive
  | serve (ok : Bool)
deriving DecidableEq

def vblkStep : VblkOp → Option Return × VblkSt
  | .submit r => submit s r
  | .drive => drive c s
  | .serve ok => (none, serve c s ok)

/-! ## The property and its condition -/

/-- a read that returns 0 brings the sectors asked for, and a completion is taken only when the device has served
everything that is published, the request of the call with it -/
structure Delivers (c : VblkCtx) (s : VblkSt) (op : VblkOp) : Prop where
  read : ∀ ret, (vblkStep c s op).1 = some ret → ret.code = 0 → ret.req.isWrite = false →
    ret.buf = get s.disk (ret.req.lba * 512) (ret.req.sectors * 512)
  own : ∀ r, s.point = .taken r → s.usedIdx = s.availIdx

/-- every published request is served, and the driver has taken every completion -/
def Quiet : Prop := s.usedIdx = s.availIdx ∧ s.lastUsedIdx = s.usedIdx

instance (s : VblkSt) : Decidable (Quiet s) := inferInstanceAs (Decidable (_ ∧ _))

/-- a request is submitted to a quiet queue -/
def Settled : VblkOp → Prop
  | .submit _ => s.point = .idle → Quiet s
  | _ => True

instance (s : VblkSt) : (op : VblkOp) → Decidable (Settled s op)
  | .submit _ => inferInstanceAs (Decidable (_ → _))
  | .drive => .isTrue trivial
  | .serve _ => .isTrue trivial

/-! ## What holds at each point of the driver -/

/-- the data of a write is in the request area -/
def Filled (m : Mem) (r : Req) : Prop := r.isWrite = true → get m c.dataPa r.len = r.data

/-- the header in the request area is that of r -/
def Headed (m : Mem) (r : Req) : Prop := read m c.reqPhys 4 = r.type ∧ read m (c.reqPhys + 8) 8 = r.lba

/-- the descriptors are those of r -/
def Described (d : ℕ → Desc) (r : Req) : Prop := d 0 = headDesc c ∧ d 1 = dataDesc c r ∧ d 2 = statusDesc c

/-- a status of 0 says that the transfer of r has been made -/
def Done (r : Req) : Prop :=
  status c s = 0 →
    get s.disk (r.lba * 512) r.len = if r.isWrite then r.data else get s.mem c.dataPa r.len

/-- r is published and not served yet -/
structure Waiting (c : VblkCtx) (s : VblkSt) (r : Req) : Prop where
  used : s.usedIdx = s.lastUsedIdx
  avail : s.availIdx = (s.usedIdx + 1) % 2 ^ 16
  ring : s.ring (s.usedIdx % c.qnum) = 0
  fits : r.sectors ≤ vblkMaxXferSectors
  filled : Filled c s.mem r
  headed : Headed c s.mem r
  described : Described c s.desc r

/-- before a request is published the queue is quiet; while it is polled it waits or is served; then all is quiet again -/
def AtPoint : Point → Prop
  | .idle => True
  | .start r => Quiet s ∧ r.sectors ≤ vblkMaxXferSectors
  | .filled r => Quiet s ∧ r.sectors ≤ vblkMaxXferSectors ∧ Filled c s.mem r
  | .marked r => Quiet s ∧ r.sectors ≤ vblkMaxXferSectors ∧ Filled c s.mem r
  | .headed r => Quiet s ∧ r.sectors ≤ vblkMaxXferSectors ∧ Filled c s.mem r ∧ Headed c s.mem r
  | .described r =>
    Quiet s ∧ r.sectors ≤ vblkMaxXferSectors ∧ Filled c s.mem r ∧ Headed c s.mem r ∧ Described c s.desc r
  | .polling r _ => Waiting c s r ∨ s.usedIdx = s.availIdx ∧ Done c s r
  | .taken r => Quiet s ∧ Done c s r
  | .good r => Quiet s ∧ Done c s r ∧ status c s = 0

def VblkInv : Prop := AtPoint c s s.point

section

variable {c : VblkCtx} {s : VblkSt} {r : Req} {m : Mem}

theorem Req.len_le (h : r.sectors ≤ vblkMaxXferSectors) : r.len ≤ vblkMaxXferSectors * 512 := Nat.mul_le_mul_right 512 h

/-! ### The request area: header, data and status do not overlap -/

theorem filled_put (c : VblkCtx) (m : Mem) (r : Req) : Filled c (put m c.dataPa r.data) r := by
  intro hw
  have hlen : r.data.length = r.len := r.data_len hw
  rw [← hlen, get_put]

theorem Filled.status (h : Filled c m r) (hr : r.sectors ≤ vblkMaxXferSectors) (b : UInt8) :
    Filled c (put m c.statusPa [b]) r := by
  intro hw
  have hlen := Req.len_le hr
  rw [get_put_of_disjoint, h hw]
  left
  simp only [VblkCtx.dataPa, VblkCtx.statusPa, vblkReqStatusOff]
  omega

theorem Filled.header (h : Filled c m r) : Filled c (putHeader m c.reqPhys r) r := by
  intro hw
  rw [← h hw]
  refine get_congr fun x hx _ => ?_
  simp only [VblkCtx.dataPa, vblkReqDataOff] at hx
  rw [putHeader, write_out (by omega), write_out (by omega), write_out (by omega)]

theorem Req.type_lt (r : Req) : r.type < 256 ^ 4 := by
  unfold Req.type
  split_ifs <;> decide

theorem headed_putHeader (c : VblkCtx) (m : Mem) (r : Req) : Headed c (putHeader m c.reqPhys r) r := by
  constructor
  · rw [putHeader, read_write_of_disjoint (by omega), read_write_of_disjoint (by omega), read_write,
      Nat.mod_eq_of_lt r.type_lt]
  · rw [putHeader, read_write, Nat.mod_eq_of_lt]
    exact r.lba_lt

theorem described_putDescs (c : VblkCtx) (r : Req) (d : ℕ → Desc) : Described c (putDescs c r d) r := by
  simp [Described, putDescs]

/-! ### The device -/

theorem serve_quiet (h : s.usedIdx = s.availIdx) (ok : Bool) : serve c s ok = s := if_pos h

theorem Waiting.used_ne (h : Waiting c s r) : s.usedIdx ≠ s.availIdx := by
  have := h.avail
  omega

theorem Req.type_in (h : r.type = virtioBlkTIn) : r.isWrite = false := by
  cases hw : r.isWrite with
  | false => rfl
  | true => simp [Req.type, hw] at h

theorem Req.type_out (h : r.type = virtioBlkTOut) : r.isWrite = true := by
  cases hw : r.isWrite with
  | true => rfl
  | false => simp [Req.type, hw] at h

/-- a status byte that the device has just written -/
theorem status_put (b : UInt8) (h : s.mem = put m c.statusPa [b]) : status c s = b := by
  have hin : put m c.statusPa [b] (c.statusPa + 0) = [b][0] := put_in (by simp)
  rw [status, h]
  exact hin

/-- the device serves a request that waits: it is the last one published, and a status of 0 is the truth -/
theorem Waiting.serve (h : Waiting c s r) (ok : Bool) :
    (Drv.serve c s ok).usedIdx = (Drv.serve c s ok).availIdx ∧
      Done c (Drv.serve c s ok) r := by
  obtain ⟨hd0, hd1, hd2⟩ := h.described
  obtain ⟨htype, hsector⟩ := h.headed
  have hlen := Req.len_le h.fits
  unfold Drv.serve
  rw [if_neg h.used_ne]
  simp only [h.ring, hd0, headDesc, hd1, dataDesc, hd2, statusDesc, htype, hsector]
  generalize vringDescFNext ||| (if r.isWrite then 0 else vringDescFWrite) = flags
  split_ifs with hin hout
  · -- a read: the sectors are in the data area, and the status byte lies behind them
    refine ⟨h.avail.symm, fun _ => ?_⟩
    have hw := Req.type_in hin.2.1
    have hgot := get_put s.mem c.dataPa (get s.disk (r.lba * 512) r.len)
    rw [length_get] at hgot
    simp only [hw, Bool.false_eq_true, if_false]
    rw [get_put_of_disjoint, hgot]
    left
    simp only [VblkCtx.dataPa, VblkCtx.statusPa, vblkReqStatusOff]
    omega
  · refine ⟨h.avail.symm, fun _ => ?_⟩
    have hw := Req.type_out hout.2.1
    have hput := get_put s.disk (r.lba * 512) (get s.mem c.dataPa r.len)
    rw [length_get] at hput
    simp only [hw, if_true]
    rw [hput, h.filled hw]
  · refine ⟨h.avail.symm, fun h0 => ?_⟩
    rw [status_put 1 rfl] at h0
    exact absurd h0 (by decide)

theorem VblkInv.serve (h : VblkInv c s) (ok : Bool) : VblkInv c (Drv.serve c s ok) := by
  by_cases hq : s.usedIdx = s.availIdx
  · rw [serve_quiet hq]
    exact h
  have hpoint : (Drv.serve c s ok).point = s.point := by
    unfold Drv.serve
    dsimp only
    split_ifs <;> rfl
  unfold VblkInv at h ⊢
  rw [hpoint]
  -- something is published and not served: the driver polls for it, or has given it up
  cases hp : s.point with
  | idle => trivial
  | polling r k =>
    rw [hp] at h
    rcases h with hwait | ⟨hused, -⟩
    · obtain ⟨hused, hdone⟩ := hwait.serve ok
      exact Or.inr ⟨hused, hdone⟩
    · exact absurd hused hq
  | _ =>
    rw [hp] at h
    exact absurd h.1.1 hq

/-! ### The driver -/

theorem VblkInv.drive (h : VblkInv c s) : VblkInv c (Drv.drive c s).2 := by
  have hat := h
  unfold VblkInv at hat
  unfold Drv.drive
  cases hp : s.point with
  | idle => exact h
  | start r =>
    rw [hp] at hat
    refine ⟨hat.1, hat.2, ?_⟩
    intro hw
    simp only [hw, if_true]
    exact filled_put c s.mem r hw
  | filled r =>
    rw [hp] at hat
    exact ⟨hat.1, hat.2.1, hat.2.2.status hat.2.1 0xFF⟩
  | marked r =>
    rw [hp] at hat
    exact ⟨hat.1, hat.2.1, hat.2.2.header, headed_putHeader c s.mem r⟩
  | headed r =>
    rw [hp] at hat
    exact ⟨hat.1, hat.2.1, hat.2.2.1, hat.2.2.2, described_putDescs c r s.desc⟩
  | described r =>
    rw [hp] at hat
    obtain ⟨⟨hused, hlast⟩, hfits, hfilled, hheaded, hdesc⟩ := hat
    refine Or.inl ⟨hlast.symm, ?_, ?_, hfits, hfilled, hheaded, hdesc⟩
    · rw [hused]
    · dsimp only
      rw [hused, Function.update_self]
  | polling r k =>
    rw [hp] at hat
    dsimp only
    split_ifs with hmax hnew
    · exact trivial
    · rcases hat with hwait | ⟨hused, hdone⟩
      · exact absurd hwait.used hnew
      · exact ⟨⟨hused, rfl⟩, hdone⟩
    · rcases hat with hwait | hserved
      · exact Or.inl ⟨hwait.used, hwait.avail, hwait.ring, hwait.fits, hwait.filled, hwait.headed, hwait.described⟩
      · exact Or.inr hserved
  | taken r =>
    rw [hp] at hat
    dsimp only
    split_ifs with hbad
    · exact trivial
    · exact ⟨hat.1, hat.2, not_not.1 hbad⟩
  | good r => exact trivial

theorem VblkInv.submit (h : VblkInv c s) (hquiet : s.point = .idle → Quiet s) : VblkInv c (Drv.submit s r).2 := by
  unfold Drv.submit
  split_ifs with hbusy hsize
  · exact h
  · exact h
  · have hidle : s.point = .idle := not_not.1 hbusy
    exact ⟨hquiet hidle, Nat.le_of_not_lt fun hlt => hsize (Or.inr hlt)⟩

/-- **Step.** Both parties keep the invariant, as long as requests come to a quiet queue. -/
theorem VblkInv.step (h : VblkInv c s) {op : VblkOp} (hop : Settled s op) : VblkInv c (vblkStep c s op).2 := by
  cases op with
  | submit r => exact h.submit hop
  | drive => exact h.drive
  | serve ok => exact h.serve ok

theorem VblkInv.init (c : VblkCtx) (disk : Mem) : VblkInv c (VblkSt.init disk) := trivial

/-- only the last step of the driver returns 0, with the data area as it is then -/
theorem returns_zero {op : VblkOp} {ret : Return} (h : (vblkStep c s op).1 = some ret) (h0 : ret.code = 0) :
    s.point = .good ret.req ∧ ret.buf = if ret.req.isWrite then [] else get s.mem c.dataPa ret.req.len := by
  have hfail : (-1 : ℤ) ≠ 0 := by decide
  cases op with
  | submit r =>
    simp only [vblkStep, Drv.submit] at h
    split_ifs at h
    cases h
    exact absurd h0 hfail
  | serve ok => exact nomatch h
  | drive =>
    simp only [vblkStep, Drv.drive] at h
    split at h
    case h_7 =>
      split_ifs at h
      cases h
      exact absurd h0 hfail
    case h_8 =>
      split_ifs at h
      cases h
      exact absurd h0 hfail
    case h_9 r hp =>
      cases h
      exact ⟨hp, rfl⟩
    all_goals exact nomatch h

theorem VblkInv.delivers (h : VblkInv c s) (op : VblkOp) : Delivers c s op := by
  have hat := h
  unfold VblkInv at hat
  constructor
  · intro ret hret h0 hread
    obtain ⟨hp, hbuf⟩ := returns_zero hret h0
    rw [hp] at hat
    have hdone := hat.2.1 hat.2.2
    simp only [hread, Bool.false_eq_true, if_false] at hbuf hdone
    rw [hbuf, ← hdone, Req.len]
  · intro r hp
    rw [hp] at hat
    exact hat.1.1

end

/-! ## Runs -/

/-- **Reads are delivered.** In every run from the initial queue whose requests are all submitted to a quiet queue,
whatever the order of the driver's steps and the device's, every read that returns 0 brings the sectors asked for and every
completion that is taken is that of the request itself. -/
theorem reads_delivered (c : VblkCtx) (disk : Mem) (ops : List VblkOp)
    (h : Always (vblkStep c) Settled (VblkSt.init disk) ops) : Always (vblkStep c) (Delivers c) (VblkSt.init disk) ops :=
  Always.mono (fun _ op hinv hop => ⟨hinv.delivers op, hinv.step hop⟩) (VblkInv.init c disk) h

/-- a disk of two sectors, the second one all 1 -/
def twoSectors : Mem := fun x => if x < 512 then 0 else 1

def smallCtx : VblkCtx := ⟨4, 4096, 2⟩

def readSector (lba : ℕ) (h : lba < 2 ^ 64) : Req := ⟨lba, 1, false, [], h, nofun⟩

def readFirst : Req := readSector 0 (by decide)
def readSecond : Req := readSector 1 (by decide)

/-- the steps of the driver up to the first poll -/
def publish (r : Req) : List VblkOp := [.submit r, .drive, .drive, .drive, .drive, .drive]

/-- a read that the device serves in time -/
def inTime : List VblkOp := publish readSecond ++ [.serve true, .drive, .drive, .drive]

theorem reads_delivered_second : Always (vblkStep smallCtx) Settled (VblkSt.init twoSectors) inTime ∧
    Always (vblkStep smallCtx) (Delivers smallCtx) (VblkSt.init twoSectors) inTime ∧
    ((trace (vblkStep smallCtx) (VblkSt.init twoSectors) inTime).getLast?.join.map fun ret => (ret.code, ret.buf.head?)) =
      some (0, some 1) := by
  have hsettled : Always (vblkStep smallCtx) Settled (VblkSt.init twoSectors) inTime := by decide +kernel
  exact ⟨hsettled, reads_delivered smallCtx twoSectors inTime hsettled, by decide +kernel⟩

/-- **Writes are stored.** In the same runs, a write that returns 0 is on the disk. -/
theorem writes_stored (c : VblkCtx) (disk : Mem) (ops : List VblkOp)
    (h : Always (vblkStep c) Settled (VblkSt.init disk) ops) :
    Always (vblkStep c) (fun s op => ∀ ret, (vblkStep c s op).1 = some ret → ret.code = 0 → ret.req.isWrite = true →
      get s.disk (ret.req.lba * 512) (ret.req.sectors * 512) = ret.req.data) (VblkSt.init disk) ops := by
  refine Always.mono (fun s op hinv hop => ⟨?_, hinv.step hop⟩) (VblkInv.init c disk) h
  intro ret hret h0 hwrite
  obtain ⟨hp, -⟩ := returns_zero hret h0
  unfold VblkInv at hinv
  rw [hp] at hinv
  have hdone := hinv.2.1 hinv.2.2
  rwa [if_pos hwrite] at hdone

/-- a sector of zeros over the second one, and the device serves it in time -/
def writeInTime : List VblkOp :=
  publish ⟨1, 1, true, List.replicate 512 0, by decide, fun _ => List.length_replicate⟩ ++ [.serve true, .drive, .drive, .drive]

theorem writes_stored_second : Always (vblkStep smallCtx) Settled (VblkSt.init twoSectors) writeInTime ∧
    Always (vblkStep smallCtx) (fun s op => ∀ ret, (vblkStep smallCtx s op).1 = some ret → ret.code = 0 →
      ret.req.isWrite = true → get s.disk (ret.req.lba * 512) (ret.req.sectors * 512) = ret.req.data)
      (VblkSt.init twoSectors) writeInTime ∧
    ((trace (vblkStep smallCtx) (VblkSt.init twoSectors) writeInTime).getLast?.join.map fun ret =>
      (ret.code, ret.req.isWrite)) = some (0, true) := by
  have hsettled : Always (vblkStep smallCtx) Settled (VblkSt.init twoSectors) writeInTime := by decide +kernel
  exact ⟨hsettled, writes_stored smallCtx twoSectors writeInTime hsettled, by decide +kernel⟩

/-! ## A timeout -/

/-- while the device does nothing, the driver polls -/
theorem poll_wait {c : VblkCtx} {s : VblkSt} {r : Req} {k : ℕ} (hp : s.point = .polling r k)
    (hu : s.usedIdx = s.lastUsedIdx) (n : ℕ) (hn : k + n ≤ maxSpins) :
    after (vblkStep c) s (List.replicate n .drive) = { s with point := .polling r (k + n) } := by
  induction n generalizing s k with
  | zero => simp [after, ← hp]
  | succ n ih =>
    have hstep : (vblkStep c s .drive).2 = { s with point := .polling r (k + 1) } := by
      simp only [vblkStep, drive, hp]
      rw [if_neg (by omega), if_neg (not_not.2 hu)]
    have hrest := ih (s := { s with point := .polling r (k + 1) }) (k := k + 1) rfl hu (by omega)
    rw [List.replicate_succ, after, hstep, hrest, Nat.add_assoc, Nat.add_comm 1 n]

/-- the device serves the first read only when the second one has already reset the status byte, but not the header -/
def secondRead : List VblkOp :=
  [.submit readSecond, .drive, .drive, .serve true, .drive, .drive, .drive, .drive]

/-- the first read times out, and a second one is submitted -/
def lateRun : List VblkOp := publish readFirst ++ (List.replicate maxSpins .drive ++ .drive :: secondRead)

/-- the second read takes the completion of the first, while its own request is not served, and returns 0 with the bytes of
the first sector -/
theorem late_completion : let s := after (vblkStep smallCtx) (VblkSt.init twoSectors) lateRun
    s.point = .taken readSecond ∧ s.usedIdx ≠ s.availIdx ∧
      (vblkStep smallCtx (vblkStep smallCtx s .drive).2 .drive).1 = some ⟨readSecond, 0, get s.disk 0 512⟩ ∧
      get s.disk 0 512 ≠ get s.disk 512 512 := by
  have hwait := poll_wait (c := smallCtx) (s := after (vblkStep smallCtx) (VblkSt.init twoSectors) (publish readFirst))
    (r := readFirst) (k := 0) (by decide +kernel) (by decide +kernel) maxSpins (Nat.zero_add maxSpins).le
  rw [lateRun, after_append, after_append, hwait]
  decide +kernel

end OpenASD.Drv
