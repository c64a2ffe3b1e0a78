/-
Ports (kernel/ipc/port.c: port_open, port_close, port_send, port_recv). Calls do not overlap, but a receiver that finds the
queue empty goes to sleep inside port_recv and tries again later, on the entry of the table that it has found before.

Kernel buffers of out-of-line messages are kept by their address; kmalloc is an argument of port_send: the address of a new
buffer, or none. What port_recv stores is the first `len_out` bytes of the receiver's buffer, so it returns those bytes. The
spin locks and what sched_wake does are left out.

- `Slot.ofBytes_bytes`: a slot is read as it was written;
- `exchange_exact_iff`: it arrives as it was sent, or is rejected, exactly if it has more than 56 bytes and the receiver has room
  for a slot or there is no memory. `short_message_longer`: eight bytes arrive as sixteen.
-/
import OpenASD.Core.Machine
import OpenASD.Ipc.Queue

namespace OpenASD.Ipc

open ByteMem Machine
open Function (update update_self)
open List (length_append range replicate take_left')

/-! ## The table -/

abbrev portNameLen : ℕ := 64
abbrev portMsgMax : ℕ := 4096
abbrev portQueueDepth : ℕ := 64
abbrev portInlineMax : ℕ := 56
abbrev hdrSize : ℕ := 8
/-- the size of port_slot_t -/
abbrev portSlotSize : ℕ := 64
abbrev maxPorts : ℕ := 1024

structure PortObj where
  /-- without the zero at the end -/
  name : List UInt8
  id : ℕ
  ownerPid : ℕ
  refcount : ℕ
  ring : Ring
  waiter : Option ℕ

/-- a receiver asleep in port_recv -/
structure Sleeper where
  pid : ℕ
  idx : ℕ
  cap : ℕ
deriving DecidableEq, Repr

structure Ports where
  table : ℕ → PortObj
  /-- the buffers of out-of-line messages that are allocated -/
  heap : ℕ → Option (List UInt8)
  asleep : List Sleeper
  /-- a buffer that was not allocated has been read and freed -/
  badFree : Bool

def emptyRing : Ring := ⟨0, 0, 0, 0, fun _ => 0⟩

/-- after port_subsystem_init -/
def portSubsystemInit : Ports := ⟨fun _ => ⟨[], 0, 0, 0, emptyRing, none⟩, fun _ => none, [], false⟩

variable (y : Ports)

def Ports.setPort (i : ℕ) (p : PortObj) : Ports := { y with table := update y.table i p }

/-- strncmp of the name in the table with the whole name -/
def portFindByName (name : List UInt8) : Option ℕ :=
  (range maxPorts).find? fun i => decide ((y.table i).id ≠ 0 ∧ (y.table i).name = name.take portNameLen)

def portFindById (id : ℕ) : Option ℕ :=
  if id = 0 ∨ maxPorts < id then none else if (y.table (id - 1)).id = id then some (id - 1) else none

/-- the ring of a new port; the sizes pass the checks of ringbuf_init -/
def newRing (data : Mem) : Ring := (ringbufInit data portSlotSize portQueueDepth).getD emptyRing

def portOpen (name : List UInt8) (flags pid : ℕ) : ℕ × Ports :=
  if name = [] then (0, y)
  else
    match portFindByName y name with
    | some i =>
      if flags &&& 2 = 0 then (0, y)
      else ((y.table i).id, y.setPort i { y.table i with refcount := ((y.table i).refcount + 1) % 2 ^ 32 })
    | none =>
      if flags &&& 1 = 0 then (0, y)
      else
        match (range maxPorts).find? fun i => decide ((y.table i).id = 0) with
        | none => (0, y)
        | some i => (i + 1, y.setPort i ⟨name.take (portNameLen - 1), i + 1, pid, 1, newRing (fun _ => 0), none⟩)

def portClose (id : ℕ) : Ports :=
  match portFindById y id with
  | none => y
  | some i =>
    let count := (y.table i).refcount - 1
    y.setPort i { y.table i with refcount := count, id := if count = 0 then 0 else (y.table i).id }

/-! ## Messages -/

/-- port_slot_t -/
structure Slot where
  type : ℕ
  len : ℕ
  payload : List UInt8
deriving DecidableEq, Repr

def Slot.bytes (s : Slot) : Item := leBytes 4 s.type ++ leBytes 4 s.len ++ s.payload

def Slot.ofBytes (v : Item) : Slot := ⟨leNat (v.take 4), leNat ((v.drop 4).take 4), v.drop 8⟩

/-- `len - sizeof(msg_hdr_t)` in 64 bits, at most 56 -/
def inlineCopy (len : ℕ) : ℕ :=
  if (len + 2 ^ 64 - hdrSize) % 2 ^ 64 < portInlineMax then (len + 2 ^ 64 - hdrSize) % 2 ^ 64 else portInlineMax

def inlineSlot (mem : Mem) (msg len : ℕ) : Slot :=
  ⟨read mem msg 4, len, get mem (msg + hdrSize) (inlineCopy len) ++ replicate (portInlineMax - inlineCopy len) 0⟩

def outSlot (mem : Mem) (msg len ptr : ℕ) : Slot :=
  ⟨read mem msg 4, len, leBytes 8 ptr ++ replicate (portInlineMax - 8) 0⟩

def sendTries : ℕ := 1000

/-- the attempts of port_send -/
def tryPush : ℕ → Ring → Item → Option Ring
  | 0, _, _ => none
  | n + 1, rb, v => (ringbufPush rb v).or (tryPush n rb v)

/-- a receiver that waits is woken -/
def pushSlot (i : ℕ) (s : Slot) : ℤ × Ports :=
  (tryPush sendTries (y.table i).ring s.bytes).elim (-1, y) fun rb =>
    (0, y.setPort i { y.table i with ring := rb, waiter := none })

def portSend (id : ℕ) (mem : Mem) (msg len : ℕ) (kmalloc : Option ℕ) : ℤ × Ports :=
  if len = 0 ∨ portMsgMax < len then (-1, y)
  else
    match portFindById y id with
    | none => (-1, y)
    | some i =>
      if len ≤ portInlineMax then pushSlot y i (inlineSlot mem msg len)
      else
        match kmalloc with
        | none => (-1, y)
        | some ptr =>
          pushSlot { y with heap := update y.heap ptr (some (get mem msg len)) } i (outSlot mem msg len ptr)

inductive Ret where
  | done (v : ℤ)
  /-- port_recv returns 0: the bytes in the receiver's buffer, `len_out` of them -/
  | got (bytes : List UInt8)
  | asleep
deriving DecidableEq, Repr

/-- the address in an out-of-line slot -/
def Slot.ptr (s : Slot) : ℕ := leNat (s.payload.take 8)

/-- the message of a slot, to a buffer of cap bytes -/
def deliver (s : Slot) (cap : ℕ) : Ret × Ports :=
  if s.len ≤ portInlineMax then
    (.got (leBytes 4 s.type ++ leBytes 4 s.len ++ s.payload.take (min s.len (cap - hdrSize))), y)
  else
    match y.heap s.ptr with
    | some bytes => (.got (bytes.take (min s.len cap)), { y with heap := update y.heap s.ptr none })
    | none => (.got (replicate (min s.len cap) 0), { y with badFree := true })

/-- port_recv once it has found its port -/
def recvAt (i cap pid : ℕ) : Ret × Ports :=
  match ringbufPop (y.table i).ring portSlotSize with
  | some (v, rb) => deliver (y.setPort i { y.table i with ring := rb }) (Slot.ofBytes v) cap
  | none => (.asleep, { (y.setPort i { y.table i with waiter := some pid }) with asleep := ⟨pid, i, cap⟩ :: y.asleep })

/-- valid: neither pointer is null -/
def portRecv (id : ℕ) (valid : Bool) (cap pid : ℕ) : Ret × Ports :=
  if valid = false ∨ cap < portSlotSize then (.done (-1), y)
  else
    match portFindById y id with
    | none => (.done (-1), y)
    | some i => recvAt y i cap pid

/-! ## Slots in the ring -/

variable {s : Slot} {len msg i id cap : ℕ} {y : Ports} {vs : List Item}

theorem Slot.ofBytes_bytes (htype : s.type < 2 ^ 32) (hlen : s.len < 2 ^ 32) : Slot.ofBytes s.bytes = s := by
  have h1 : s.bytes.take 4 = leBytes 4 s.type := by
    exact take_left' (length_leBytes 4 _)
  have h2 : s.bytes.drop 4 = leBytes 4 s.len ++ s.payload := by
    exact List.drop_left' (length_leBytes 4 _)
  have h3 : s.bytes.drop 8 = s.payload := by
    have hhead : (leBytes 4 s.type ++ leBytes 4 s.len).length = 8 := by simp
    exact List.drop_left' hhead
  have h4 : (leBytes 4 s.len ++ s.payload).take 4 = leBytes 4 s.len := take_left' (length_leBytes 4 _)
  have hpow : (256 : ℕ) ^ 4 = 2 ^ 32 := by norm_num
  rw [Slot.ofBytes, h1, h2, h3, h4, leNat_leBytes, leNat_leBytes, hpow, Nat.mod_eq_of_lt htype, Nat.mod_eq_of_lt hlen]

theorem read_four_lt (mem : Mem) (a : ℕ) : read mem a 4 < 2 ^ 32 := by
  have h := read_lt mem a 4
  exact h

theorem inlineCopy_le (len : ℕ) : inlineCopy len ≤ portInlineMax := by
  unfold inlineCopy
  split_ifs with h
  · exact h.le
  · exact le_rfl

theorem inlineSlot_length (mem : Mem) (msg len : ℕ) : (inlineSlot mem msg len).bytes.length = portSlotSize := by
  have h := inlineCopy_le len
  simp only [Slot.bytes, inlineSlot, length_append, length_leBytes, length_get, List.length_replicate]
  simp only [portInlineMax, portSlotSize] at h ⊢
  omega

theorem outSlot_length (mem : Mem) (msg len ptr : ℕ) : (outSlot mem msg len ptr).bytes.length = portSlotSize := by
  simp [Slot.bytes, outSlot, portInlineMax, portSlotSize]

theorem inlineSlot_read (mem : Mem) (hlen : len ≤ portMsgMax) :
    Slot.ofBytes (inlineSlot mem msg len).bytes = inlineSlot mem msg len :=
  Slot.ofBytes_bytes (read_four_lt mem msg) (lt_of_le_of_lt hlen (by norm_num))

variable {ptr : ℕ}

theorem outSlot_read (mem : Mem) (hlen : len ≤ portMsgMax) :
    Slot.ofBytes (outSlot mem msg len ptr).bytes = outSlot mem msg len ptr :=
  Slot.ofBytes_bytes (read_four_lt mem msg) (lt_of_le_of_lt hlen (by norm_num))

theorem outSlot_ptr (mem : Mem) (msg len : ℕ) (h : ptr < 2 ^ 64) : (outSlot mem msg len ptr).ptr = ptr := by
  have htake : (outSlot mem msg len ptr).payload.take 8 = leBytes 8 ptr := take_left' (length_leBytes 8 ptr)
  have hpow : (256 : ℕ) ^ 8 = 2 ^ 64 := by norm_num
  rw [Slot.ptr, htake, leNat_leBytes, hpow, Nat.mod_eq_of_lt h]

/-- without another call in between, the first attempt decides -/
theorem tryPush_succ (n : ℕ) (rb : Ring) (v : Item) : tryPush (n + 1) rb v = ringbufPush rb v := by
  induction n with
  | zero => exact Option.or_none
  | succ n ih =>
    rw [tryPush, ih]
    exact Option.or_self

theorem tryPush_eq (rb : Ring) (v : Item) : tryPush sendTries rb v = ringbufPush rb v := tryPush_succ 999 rb v

/-! ## A message and its receiver -/

/-- a port with these slots in its queue -/
structure Waiting (y : Ports) (id i : ℕ) (vs : List Item) : Prop where
  found : portFindById y id = some i
  holds : (y.table i).ring.Holds portSlotSize vs
  depth : (y.table i).ring.slotCount = portQueueDepth

theorem table_setPort (y : Ports) (i : ℕ) (p : PortObj) : (y.setPort i p).table i = p := by
  exact update_self i p y.table

theorem find_setPort {p : PortObj} (h : portFindById y id = some i) (hp : p.id = (y.table i).id) :
    portFindById (y.setPort i p) id = some i := by
  unfold portFindById at h ⊢
  split_ifs at h with h0 hid
  cases h
  have hnew : ((y.setPort (id - 1) p).table (id - 1)).id = id := by
    rw [table_setPort, hp, hid]
  rw [if_neg h0, if_pos hnew]

/-- the queue takes a slot when there is room -/
theorem Waiting.push (h : Waiting y id i vs) (hroom : vs.length < portQueueDepth) (hs : s.bytes.length = portSlotSize) :
    (pushSlot y i s).1 = 0 ∧ Waiting (pushSlot y i s).2 id i (vs ++ [s.bytes]) ∧ (pushSlot y i s).2.heap = y.heap := by
  have hne : vs.length ≠ (y.table i).ring.slotCount := by
    rw [h.depth]
    exact hroom.ne
  obtain ⟨rb, hrb, hholds, hcount⟩ := h.holds.push hne hs
  have hpush : pushSlot y i s = (0, y.setPort i { y.table i with ring := rb, waiter := none }) := by
    rw [pushSlot, tryPush_eq, hrb, Option.elim_some]
  rw [hpush]
  refine ⟨rfl, ⟨find_setPort h.found rfl, ?_, ?_⟩, rfl⟩
  · rw [table_setPort]
    exact hholds
  · rw [table_setPort]
    exact hcount.trans h.depth

/-- delivery touches the buffer of its slot only -/
theorem deliver_frame (y : Ports) (s : Slot) (cap : ℕ) : (deliver y s cap).2.table = y.table ∧
    ∀ ptr, (portInlineMax < s.len → s.ptr ≠ ptr) → (deliver y s cap).2.heap ptr = y.heap ptr := by
  unfold deliver
  by_cases hlen : s.len ≤ portInlineMax
  · rw [if_pos hlen]
    exact ⟨rfl, fun _ _ => rfl⟩
  rw [if_neg hlen]
  cases hheap : y.heap s.ptr with
  | some bytes => exact ⟨rfl, fun ptr hne => Function.update_of_ne (hne (not_le.1 hlen)).symm _ _⟩
  | none => exact ⟨rfl, fun _ _ => rfl⟩

theorem Waiting.of_table {y' : Ports} (h : Waiting y id i vs) (ht : y'.table = y.table) : Waiting y' id i vs := by
  refine ⟨?_, ?_, ?_⟩
  · have hfind := h.found
    unfold portFindById at hfind ⊢
    rw [ht]
    exact hfind
  · rw [ht]
    exact h.holds
  · rw [ht]
    exact h.depth

/-- port_recv takes the oldest slot -/
theorem Waiting.recv {v : Item} (h : Waiting y id i (v :: vs)) (hcap : portSlotSize ≤ cap) (pid : ℕ) :
    ∃ y', portRecv y id true cap pid = deliver y' (Slot.ofBytes v) cap ∧ y'.heap = y.heap ∧ Waiting y' id i vs := by
  obtain ⟨rb, hrb, hholds, hcount⟩ := h.holds.pop
  have hvalid : ¬ (true = false ∨ cap < portSlotSize) := by
    rintro (hf | hlt)
    · cases hf
    · exact absurd hcap (Nat.not_le.2 hlt)
  refine ⟨y.setPort i { y.table i with ring := rb }, ?_, rfl, find_setPort h.found rfl, ?_, ?_⟩
  · unfold portRecv recvAt
    rw [if_neg hvalid, h.found]
    dsimp only
    rw [hrb]
  · rw [table_setPort]
    exact hholds
  · rw [table_setPort]
    exact hcount.trans h.depth

/-- calls of port_recv with buffers of these sizes, by these processes -/
def drained (y : Ports) (id : ℕ) (older : List (ℕ × ℕ)) : Ports :=
  older.foldl (fun y o => (portRecv y id true o.1 o.2).2) y

/-- the messages before the last one are received -/
theorem Waiting.drained {v : Item} (h : Waiting y id i (vs ++ [v]))
    {older : List (ℕ × ℕ)} (hlen : older.length = vs.length) (hcap : ∀ o ∈ older, portSlotSize ≤ o.1) :
    Waiting (drained y id older) id i [v] ∧
    ∀ ptr, (∀ w ∈ vs, portInlineMax < (Slot.ofBytes w).len → (Slot.ofBytes w).ptr ≠ ptr) →
      (drained y id older).heap ptr = y.heap ptr := by
  induction vs generalizing y older with
  | nil =>
    rw [List.eq_nil_of_length_eq_zero hlen]
    exact ⟨h, fun _ _ => rfl⟩
  | cons w ws ih =>
    cases older with
    | nil => cases hlen
    | cons o os =>
      obtain ⟨y', hrecv, hheap, hw⟩ := h.recv (hcap o List.mem_cons_self) o.2
      obtain ⟨htable, hframe⟩ := deliver_frame y' (Slot.ofBytes w) o.1
      have hnext : Waiting (portRecv y id true o.1 o.2).2 id i (ws ++ [v]) := by
        rw [hrecv]
        exact hw.of_table htable
      obtain ⟨h1, h2⟩ := ih hnext (Nat.succ.inj hlen) fun p hp => hcap p (List.mem_cons_of_mem o hp)
      refine ⟨h1, fun ptr hptr => ?_⟩
      calc (Ipc.drained y id (o :: os)).heap ptr
          = (portRecv y id true o.1 o.2).2.heap ptr := h2 ptr fun u hu => hptr u (List.mem_cons_of_mem w hu)
        _ = y.heap ptr := by rw [hrecv, hframe ptr (hptr w List.mem_cons_self), hheap]

/-- the message at the head of the queue is delivered -/
theorem Waiting.last (h : Waiting y id i [s.bytes]) (hs : Slot.ofBytes s.bytes = s) (hcap : portSlotSize ≤ cap) (pid : ℕ) :
    ∃ y', portRecv y id true cap pid = deliver y' s cap ∧ y'.heap = y.heap := by
  obtain ⟨y', hrecv, hheap, -⟩ := h.recv hcap pid
  rw [hs] at hrecv
  exact ⟨y', hrecv, hheap⟩

/-- an inline message arrives with eight bytes more than it had -/
theorem deliver_inline (y : Ports) (mem : Mem) (msg : ℕ) (hlen : len ≤ portInlineMax) (hcap : portSlotSize ≤ cap) :
    ∃ bytes, (deliver y (inlineSlot mem msg len) cap).1 = .got bytes ∧ bytes.length = len + hdrSize := by
  have hpay : (inlineSlot mem msg len).payload.length = portInlineMax := by
    simp only [inlineSlot, length_append, length_get, List.length_replicate]
    exact Nat.add_sub_cancel' (inlineCopy_le len)
  have hcopy : min len (cap - hdrSize) = len := by
    apply min_eq_left
    calc len ≤ portSlotSize - hdrSize := hlen
      _ ≤ cap - hdrSize := Nat.sub_le_sub_right hcap hdrSize
  have hinline : (inlineSlot mem msg len).len ≤ portInlineMax := hlen
  refine ⟨leBytes 4 (read mem msg 4) ++ leBytes 4 len ++ (inlineSlot mem msg len).payload.take len, ?_, ?_⟩
  · rw [deliver, if_pos hinline]
    show Ret.got (_ ++ (inlineSlot mem msg len).payload.take (min len (cap - hdrSize))) = _
    rw [hcopy]
    rfl
  · rw [length_append, length_append, length_leBytes, length_leBytes, List.length_take, hpay, min_eq_left hlen]
    exact Nat.add_comm _ _

theorem deliver_out {mem : Mem} (hlen : portInlineMax < len) (hptr : ptr < 2 ^ 64)
    (hheap : y.heap ptr = some (get mem msg len)) (hcap : len ≤ cap) :
    (deliver y (outSlot mem msg len ptr) cap).1 = .got (get mem msg len) := by
  have hout : ¬ (outSlot mem msg len ptr).len ≤ portInlineMax := Nat.not_le.2 hlen
  rw [deliver, if_neg hout, outSlot_ptr mem msg len hptr, hheap]
  show Ret.got ((get mem msg len).take (min len cap)) = _
  rw [min_eq_left hcap, List.take_of_length_le (length_get mem msg len).le]

/-- the message is rejected by port_send, or arrives exactly as it was sent -/
def Exact (y : Ports) (id : ℕ) (mem : Mem) (msg len : ℕ) (kmalloc : Option ℕ) (older : List (ℕ × ℕ)) (cap pid : ℕ) : Prop :=
  (portSend y id mem msg len kmalloc).1 = -1 ∨
  (portRecv (drained (portSend y id mem msg len kmalloc).2 id older) id true cap pid).1 = .got (get mem msg len)

theorem recv_small {pid : ℕ} (hcap : cap < portSlotSize) : (portRecv y id true cap pid).1 = .done (-1) := by
  rw [portRecv, if_pos (Or.inr hcap)]

/-- **Messages arrive as they were sent.** For every message, every port with a free slot and every receive buffer of the size
of the message, once the messages before it are received: it arrives as it was sent, or port_send rejects it, if and only if it
has more than 56 bytes, and the buffer has room for a slot or there is no memory for a copy. The copy gets a block of its own,
as mm.c gives it under the conditions of `Mm.good_run_sound` and `Mm.kfree_exact`. -/
theorem exchange_exact_iff {y : Ports} {id i : ℕ} {vs : List Item} (hport : Waiting y id i vs)
    (hroom : vs.length < portQueueDepth) (mem : Mem) (msg len : ℕ) (hpos : 0 < len) (hmax : len ≤ portMsgMax)
    (kmalloc : Option ℕ) (hnew : ∀ ptr, kmalloc = some ptr → ptr < 2 ^ 64 ∧
      ∀ v ∈ vs, portInlineMax < (Slot.ofBytes v).len → (Slot.ofBytes v).ptr ≠ ptr)
    (older : List (ℕ × ℕ)) (holder : older.length = vs.length) (hcaps : ∀ o ∈ older, portSlotSize ≤ o.1) (cap pid : ℕ)
    (hcap : len ≤ cap) :
    Exact y id mem msg len kmalloc older cap pid ↔ portInlineMax < len ∧ (portSlotSize ≤ cap ∨ kmalloc = none) := by
  have hlegal : ¬ (len = 0 ∨ portMsgMax < len) := not_or.2 ⟨hpos.ne', Nat.not_lt.2 hmax⟩
  unfold Exact
  by_cases hinline : len ≤ portInlineMax
  · -- inline: never rejected, never exact
    have hsend : portSend y id mem msg len kmalloc = pushSlot y i (inlineSlot mem msg len) := by
      rw [portSend, if_neg hlegal, hport.found]
      exact if_pos hinline
    obtain ⟨hret, hwait, -⟩ := hport.push hroom (inlineSlot_length mem msg len)
    obtain ⟨hlast, -⟩ := hwait.drained holder hcaps
    rw [hsend, hret]
    constructor
    · rintro (hrej | hgot)
      · exact absurd hrej (by decide)
      by_cases hslot : portSlotSize ≤ cap
      · obtain ⟨y', hrecv, -⟩ := hlast.last (inlineSlot_read mem hmax) hslot pid
        obtain ⟨bytes, hbytes, hlength⟩ := deliver_inline y' mem msg hinline hslot
        rw [hrecv, hbytes] at hgot
        have hsame := congrArg List.length (Ret.got.inj hgot)
        rw [hlength, length_get] at hsame
        exact absurd hsame (Nat.ne_of_gt (Nat.lt_add_of_pos_right (Nat.succ_pos 7)))
      · rw [recv_small (not_le.1 hslot)] at hgot
        cases hgot
    · rintro ⟨hbig, -⟩
      exact absurd hinline (Nat.not_le.2 hbig)
  have hbig : portInlineMax < len := not_le.1 hinline
  cases kmalloc with
  | none =>
    have hsend : portSend y id mem msg len none = (-1, y) := by
      rw [portSend, if_neg hlegal, hport.found]
      exact if_neg hinline
    rw [hsend]
    exact ⟨fun _ => ⟨hbig, Or.inr rfl⟩, fun _ => Or.inl rfl⟩
  | some ptr =>
    -- out of line: the copy stays in its buffer until the slot is read
    obtain ⟨hptr, hother⟩ := hnew ptr rfl
    have hsend : portSend y id mem msg len (some ptr) = pushSlot
        { y with heap := update y.heap ptr (some (get mem msg len)) } i (outSlot mem msg len ptr) := by
      rw [portSend, if_neg hlegal, hport.found]
      exact if_neg hinline
    have hcopied : Waiting { y with heap := update y.heap ptr (some (get mem msg len)) } id i vs :=
      hport.of_table rfl
    obtain ⟨hret, hwait, hheap⟩ := hcopied.push hroom (outSlot_length mem msg len ptr)
    obtain ⟨hlast, hkept⟩ := hwait.drained holder hcaps
    have hbuf := hkept ptr hother
    rw [hheap] at hbuf
    rw [hsend, hret]
    by_cases hslot : portSlotSize ≤ cap
    · obtain ⟨y', hrecv, hheap'⟩ := hlast.last (outSlot_read mem hmax) hslot pid
      have hheld : y'.heap ptr = some (get mem msg len) := by
        rw [hheap', hbuf]
        exact update_self ptr _ y.heap
      rw [hrecv, deliver_out hbig hptr hheld hcap]
      exact ⟨fun _ => ⟨hbig, Or.inl hslot⟩, fun _ => Or.inr rfl⟩
    rw [recv_small (not_le.1 hslot)]
    constructor
    · rintro (hrej | hgot)
      · exact absurd hrej (by decide)
      · cases hgot
    · rintro ⟨-, hor⟩
      exact hor.elim (fun h => absurd h hslot) fun h => nomatch h

/-- the ring of a new port is empty -/
theorem newRing_holds (data : Mem) : (newRing data).Holds portSlotSize [] ∧ (newRing data).slotCount = portQueueDepth := by
  have hpow : ringbufInit data portSlotSize portQueueDepth =
      some ⟨portSlotSize, portQueueDepth, 0, 0, fill data 0 (portSlotSize * portQueueDepth) 0⟩ := rfl
  exact ringbufInit_holds (by decide) hpow le_rfl

/-- a table with one port -/
def onePort : Ports := (portOpen portSubsystemInit [97] 1 1).2

theorem onePort_table : onePort.table 0 = ⟨[97], 1, 1, 1, newRing (fun _ => 0), none⟩ := by
  have hnew : portFindByName portSubsystemInit [97] = none := by
    apply List.find?_eq_none.2
    intro i _ h
    exact absurd rfl (of_decide_eq_true h).1
  have hfree : ((range maxPorts).find? fun i => decide ((portSubsystemInit.table i).id = 0)) = some 0 := by
    decide +kernel
  unfold onePort portOpen
  rw [if_neg (by decide), hnew]
  rw [if_neg (by decide), hfree]
  exact table_setPort _ _ _

theorem onePort_waiting : Waiting onePort 1 0 [] := by
  obtain ⟨hholds, hdepth⟩ := newRing_holds fun _ => 0
  refine ⟨?_, ?_, ?_⟩
  · have hid : (onePort.table 0).id = 1 := by rw [onePort_table]
    rw [portFindById, if_neg (by decide), Nat.sub_self, if_pos hid]
  · rw [onePort_table]
    exact hholds
  · rw [onePort_table]
    exact hdepth

/-- sixty bytes to a buffer of sixty-four -/
theorem exchange_exact_iff_sixty : Exact onePort 1 (fun a => UInt8.ofNat a) 0 60 (some 4096) [] 64 0 :=
  (exchange_exact_iff onePort_waiting (by decide) (fun a => UInt8.ofNat a) 0 60 (by decide) (by decide) (some 4096)
    (fun ptr h => ⟨Option.some.inj h ▸ by decide, fun v hv => absurd hv List.not_mem_nil⟩) [] rfl
    (fun o ho => absurd ho List.not_mem_nil) 64 0 (by decide)).2 ⟨by decide, Or.inl (by decide)⟩

/-- eight bytes arrive as sixteen -/
theorem short_message_longer : (portSend onePort 1 (fun a => UInt8.ofNat a) 0 8 none).1 = 0 ∧
    (portRecv (portSend onePort 1 (fun a => UInt8.ofNat a) 0 8 none).2 1 true 64 0).1 =
      .got [0, 1, 2, 3, 8, 0, 0, 0, 0, 0, 0, 0, 0, 0, 0, 0] := by
  decide +kernel

end OpenASD.Ipc
