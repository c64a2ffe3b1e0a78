/-
Who owns the buffers of out-of-line messages, over whole histories of ports (kernel/ipc/port.c).

A buffer that port_send has allocated should be referenced by exactly one slot in the queue of an open port, until port_recv
frees it. kmalloc is trusted to return a buffer that is not in use.

- `Good.step`: the invariant, and what a call needs to keep it;
- `buffers_owned`: every buffer has one owner in every state, if no out-of-line message is sent to a full queue and no port is
  closed for the last time with such a message in its queue. `buffer_lost`: such a close loses the buffer.
-/
import OpenASD.Ipc.Port

namespace OpenASD.Ipc

open ByteMem Machine
open List (filterMap_nil mem_cons mem_range not_mem_nil range)
open Function (forall_update_iff update update_of_ne update_self)

/-! ## Histories -/

inductive PortOp where
  | openPort (name : List UInt8) (flags pid : ℕ)
  | send (id : ℕ) (mem : Mem) (msg len : ℕ) (kmalloc : Option ℕ)
  | recv (id : ℕ) (valid : Bool) (cap pid : ℕ)
  /-- the n-th receiver that is asleep tries again -/
  | wake (n : ℕ)
  | close (id : ℕ)

def portStep (y : Ports) : PortOp → Ret × Ports
  | .openPort name flags pid => (.done (portOpen y name flags pid).1, (portOpen y name flags pid).2)
  | .send id mem msg len kmalloc => (.done (portSend y id mem msg len kmalloc).1, (portSend y id mem msg len kmalloc).2)
  | .recv id valid cap pid => portRecv y id valid cap pid
  | .wake n =>
    match y.asleep[n]? with
    | none => (.done (-1), y)
    | some z => recvAt { y with asleep := y.asleep.eraseIdx n } z.idx z.cap z.pid
  | .close id => (.done 0, portClose y id)

/-- the buffer that a slot refers to -/
def slotPtr (v : Item) : Option ℕ :=
  if (Slot.ofBytes v).len ≤ portInlineMax then none else some (Slot.ofBytes v).ptr

/-- the buffers that the queue of a port refers to -/
def PortObj.ptrs (p : PortObj) : List ℕ := (p.ring.items portSlotSize).filterMap slotPtr

/-- the buffers that the queues of the open ports refer to -/
def Ports.ptrs (y : Ports) : List ℕ :=
  (range maxPorts).flatMap fun i => if (y.table i).id = 0 then [] else (y.table i).ptrs

/-- every allocated buffer is referred to by one slot, and none was freed that was not allocated -/
structure Owned (y : Ports) : Prop where
  one : y.ptrs.Nodup
  queued : ∀ ptr, y.heap ptr ≠ none ↔ ptr ∈ y.ptrs
  freed : y.badFree = false

/-- what kmalloc promises -/
def Fresh (y : Ports) : PortOp → Prop
  | .send _ _ _ _ kmalloc => ∀ ptr, kmalloc = some ptr → ptr < 2 ^ 64 ∧ y.heap ptr = none
  | _ => True

/-- no out-of-line message to a full queue, no last close with such a message in the queue -/
def Careful (y : Ports) : PortOp → Prop
  | .send id _ _ len kmalloc => ∀ i, portFindById y id = some i → portInlineMax < len → kmalloc ≠ none →
      ((y.table i).ring.items portSlotSize).length < portQueueDepth
  | .close id => ∀ i, portFindById y id = some i → (y.table i).refcount ≤ 1 → (y.table i).ptrs = []
  | _ => True

/-! ## The invariant -/

/-- the ring of a port that has been opened -/
def Opened (p : PortObj) : Prop := ∃ vs, p.ring.Holds portSlotSize vs ∧ p.ring.slotCount = portQueueDepth

structure Good (y : Ports) : Prop where
  /-- an open port is known by the number of its entry -/
  ids : ∀ i < maxPorts, (y.table i).id = 0 ∨ (y.table i).id = i + 1 ∧ Opened (y.table i)
  sleepers : ∀ z ∈ y.asleep, z.idx < maxPorts ∧ Opened (y.table z.idx)
  closed : ∀ i < maxPorts, (y.table i).id = 0 → (y.table i).ptrs = []
  one : ∀ i < maxPorts, (y.table i).ptrs.Nodup
  apart : ∀ i < maxPorts, ∀ j < maxPorts, i ≠ j → ∀ ptr ∈ (y.table i).ptrs, ptr ∉ (y.table j).ptrs
  queued : ∀ ptr, y.heap ptr ≠ none ↔ ∃ i < maxPorts, ptr ∈ (y.table i).ptrs
  freed : y.badFree = false

variable {y : Ports} {p : PortObj} {vs : List Item} {i id len : ℕ} {asleep : List Sleeper}

theorem Good.owned (h : Good y) : Owned y := by
  have hall : y.ptrs = (range maxPorts).flatMap fun i => (y.table i).ptrs := by
    apply List.flatMap_congr
    intro i hi
    split_ifs with hid
    · exact (h.closed i (mem_range.1 hi) hid).symm
    · rfl
  refine ⟨?_, fun ptr => ?_, h.freed⟩
  · rw [hall, List.nodup_flatMap]
    refine ⟨fun i hi => h.one i (mem_range.1 hi), ?_⟩
    apply List.nodup_range.pairwise_of_forall_ne
    intro i hi j hj hij ptr hptr
    exact h.apart i (mem_range.1 hi) j (mem_range.1 hj) hij ptr hptr
  rw [hall, List.mem_flatMap, h.queued]
  constructor
  · rintro ⟨i, hi, hptr⟩
    exact ⟨i, mem_range.2 hi, hptr⟩
  · rintro ⟨i, hi, hptr⟩
    exact ⟨i, mem_range.1 hi, hptr⟩

theorem ptrs_of_holds (h : p.ring.Holds portSlotSize vs) : p.ptrs = vs.filterMap slotPtr := by
  rw [PortObj.ptrs, h.items]

theorem find_spec (h : Good y) (hf : portFindById y id = some i) :
    i < maxPorts ∧ (y.table i).id = i + 1 ∧ Opened (y.table i) := by
  unfold portFindById at hf
  split_ifs at hf with h0 hid
  cases hf
  rw [not_or] at h0
  have hi : id - 1 < maxPorts := by
    omega
  have hne : (y.table (id - 1)).id ≠ 0 := by
    rw [hid]
    exact h0.1
  exact ⟨hi, (h.ids (id - 1) hi).resolve_left hne⟩

/-- the references out of one entry, and those out of the others -/
theorem refs_split (t : ℕ → PortObj) (hi : i < maxPorts) (ptr : ℕ) : (∃ j < maxPorts, ptr ∈ (t j).ptrs) ↔
    ptr ∈ (t i).ptrs ∨ ∃ j < maxPorts, j ≠ i ∧ ptr ∈ (t j).ptrs := by
  constructor
  · rintro ⟨j, hj, hptr⟩
    by_cases hji : j = i
    · subst hji
      exact .inl hptr
    · exact .inr ⟨j, hj, hji, hptr⟩
  · rintro (hptr | ⟨j, hj, -, hptr⟩)
    · exact ⟨i, hi, hptr⟩
    · exact ⟨j, hj, hptr⟩

section

variable (h : Good y) (hi : i < maxPorts) (hid : p.id = 0 ∧ p.ptrs = [] ∨ p.id = i + 1 ∧ Opened p)
  (hopened : Opened (y.table i) → Opened p) (hasleep : ∀ z ∈ asleep, z ∈ y.asleep ∨ z.idx = i ∧ Opened p)
include h hi hid hopened hasleep

/-- an entry is replaced: its slots and the heap change together -/
theorem Good.write {heap : ℕ → Option (List UInt8)}
    (hone : p.ptrs.Nodup) (hapart : ∀ j < maxPorts, j ≠ i → ∀ ptr ∈ p.ptrs, ptr ∉ (y.table j).ptrs)
    (hheap : ∀ ptr, heap ptr ≠ none ↔ ptr ∈ p.ptrs ∨ ∃ j < maxPorts, j ≠ i ∧ ptr ∈ (y.table j).ptrs) :
    Good ⟨update y.table i p, heap, asleep, y.badFree⟩ := by
  have hself : update y.table i p i = p := update_self i p y.table
  have hne : ∀ {j}, j ≠ i → update y.table i p j = y.table j := fun hj => update_of_ne hj p y.table
  refine ⟨?_, fun z hz => ?_, ?_, ?_, fun j hj k hk hjk => ?_, fun ptr => ?_, h.freed⟩
  · exact (forall_update_iff y.table fun j v => j < maxPorts → v.id = 0 ∨ v.id = j + 1 ∧ Opened v).2
      ⟨fun _ => hid.imp_left And.left, fun j _ => h.ids j⟩
  · have hcase : z.idx < maxPorts ∧ (Opened (y.table z.idx) ∨ z.idx = i ∧ Opened p) := by
      rcases hasleep z hz with hz | ⟨rfl, hp⟩
      · exact ⟨(h.sleepers z hz).1, .inl (h.sleepers z hz).2⟩
      · exact ⟨hi, .inr ⟨rfl, hp⟩⟩
    refine ⟨hcase.1, ?_⟩
    dsimp only
    by_cases hzi : z.idx = i
    · rw [hzi, hself]
      rcases hcase.2 with ho | ⟨-, hp⟩
      · rw [hzi] at ho
        exact hopened ho
      · exact hp
    · rw [hne hzi]
      exact hcase.2.resolve_right fun hc => hzi hc.1
  · refine (forall_update_iff y.table fun j v => j < maxPorts → v.id = 0 → v.ptrs = []).2
      ⟨fun _ h0 => ?_, fun j _ => h.closed j⟩
    rcases hid with hid | hid
    · exact hid.2
    · rw [hid.1] at h0
      cases h0
  · exact (forall_update_iff y.table fun j v => j < maxPorts → v.ptrs.Nodup).2 ⟨fun _ => hone, fun j _ => h.one j⟩
  · dsimp only
    by_cases hji : j = i
    · subst hji
      rw [hself, hne hjk.symm]
      exact hapart k hk hjk.symm
    rw [hne hji]
    by_cases hki : k = i
    · subst hki
      rw [hself]
      exact fun ptr hptr hmem => hapart j hj hji ptr hmem hptr
    · rw [hne hki]
      exact h.apart j hj k hk hjk
  · dsimp only
    rw [hheap, refs_split (update y.table i p) hi, hself]
    refine or_congr_right (exists_congr fun j => and_congr_right fun _ => and_congr_right fun hji => ?_)
    rw [hne hji]

/-- the same buffers are referred to -/
theorem Good.keep (hptrs : p.ptrs = (y.table i).ptrs) : Good ⟨update y.table i p, y.heap, asleep, y.badFree⟩ := by
  apply h.write hi hid hopened hasleep
  · rw [hptrs]
    exact h.one i hi
  · intro j hj hji ptr hptr
    rw [hptrs] at hptr
    exact h.apart i hi j hj hji.symm ptr hptr
  intro ptr
  rw [hptrs, h.queued, refs_split y.table hi]

end

theorem Good.init : Good portSubsystemInit := by
  have hptrs : ∀ i, (portSubsystemInit.table i).ptrs = [] := by
    intro i
    have hitems : emptyRing.items portSlotSize = [] := by decide +kernel
    show (emptyRing.items portSlotSize).filterMap slotPtr = []
    rw [hitems, filterMap_nil]
  refine ⟨fun i _ => .inl rfl, fun z hz => absurd hz not_mem_nil, fun i _ _ => hptrs i, fun i _ => ?_,
    fun i _ j _ _ ptr hptr => ?_, fun ptr => ⟨fun hne => absurd rfl hne, ?_⟩, rfl⟩
  · rw [hptrs i]
    exact List.nodup_nil
  · rw [hptrs i] at hptr
    exact absurd hptr not_mem_nil
  · rintro ⟨i, -, hptr⟩
    rw [hptrs i] at hptr
    exact absurd hptr not_mem_nil

/-- a ring of the same items, or a field that is not the ring, in an open port -/
theorem Good.touch (h : Good y) (hi : i < maxPorts)
    (hring : p.ring = (y.table i).ring) (hid : p.id = (y.table i).id ∨ p.id = 0 ∧ (y.table i).ptrs = [])
    (hasleep : ∀ z ∈ asleep, z ∈ y.asleep ∨ z.idx = i ∧ Opened p) :
    Good ⟨update y.table i p, y.heap, asleep, y.badFree⟩ := by
  have hptrs : p.ptrs = (y.table i).ptrs := by rw [PortObj.ptrs, hring, PortObj.ptrs]
  have hopened : Opened (y.table i) → Opened p := by
    rintro ⟨vs, hvs⟩
    refine ⟨vs, ?_⟩
    rw [hring]
    exact hvs
  refine h.keep hi ?_ hopened hasleep hptrs
  rcases hid with hid | ⟨h0, hnone⟩
  · rw [hid, hptrs]
    rcases h.ids i hi with h0 | ⟨hsucc, ho⟩
    · exact .inl ⟨h0, h.closed i hi h0⟩
    · exact .inr ⟨hsucc, hopened ho⟩
  · exact .inl ⟨h0, hptrs.trans hnone⟩

theorem Good.portOpen (h : Good y) (name : List UInt8) (flags pid : ℕ) : Good (portOpen y name flags pid).2 := by
  unfold Ipc.portOpen
  by_cases hname : name = []
  · rw [if_pos hname]
    exact h
  rw [if_neg hname]
  cases hf : portFindByName y name with
  | some i =>
    have hi := mem_range.1 (List.mem_of_find?_eq_some hf)
    dsimp only
    split_ifs with hflag
    · exact h
    · exact h.touch hi rfl (.inl rfl) fun z hz => .inl hz
  | none =>
    dsimp only
    split_ifs with hflag
    · exact h
    cases hs : (range maxPorts).find? fun i => decide ((y.table i).id = 0) with
    | none => exact h
    | some i =>
      have hi := mem_range.1 (List.mem_of_find?_eq_some hs)
      have hfree : (y.table i).id = 0 := by simpa using List.find?_some hs
      obtain ⟨hholds, hdepth⟩ := newRing_holds fun _ => 0
      apply h.keep hi (.inr ⟨rfl, [], hholds, hdepth⟩) (fun _ => ⟨[], hholds, hdepth⟩) fun z hz => .inl hz
      rw [h.closed i hi hfree]
      exact ptrs_of_holds (p := ⟨_, _, _, _, newRing fun _ => 0, _⟩) hholds

theorem Good.portClose (h : Good y) (hc : Careful y (.close id)) : Good (portClose y id) := by
  unfold Ipc.portClose
  cases hf : portFindById y id with
  | none => exact h
  | some i =>
    obtain ⟨hi, -, -⟩ := find_spec h hf
    refine h.touch hi rfl ?_ fun z hz => .inl hz
    by_cases hlast : (y.table i).refcount - 1 = 0
    · have hnone := hc i hf (Nat.sub_eq_zero_iff_le.1 hlast)
      exact .inr ⟨if_pos hlast, hnone⟩
    · exact .inl (if_neg hlast)

/-- a slot goes to the end of the queue; if it refers to a buffer, it is a new one -/
theorem Good.pushed (h : Good y) (hi : i < maxPorts)
    (hvs : (y.table i).ring.Holds portSlotSize vs) (hsucc : p.id = i + 1) {v : Item}
    (hp : p.ring.Holds portSlotSize (vs ++ [v])) (hdepth : p.ring.slotCount = portQueueDepth)
    {heap : ℕ → Option (List UInt8)} (hheap : slotPtr v = none ∧ heap = y.heap ∨
      ∃ ptr bytes, slotPtr v = some ptr ∧ y.heap ptr = none ∧ heap = update y.heap ptr (some bytes)) :
    Good ⟨update y.table i p, heap, y.asleep, y.badFree⟩ := by
  have hopened : Opened p := ⟨vs ++ [v], hp, hdepth⟩
  have hold : (y.table i).ptrs = vs.filterMap slotPtr := ptrs_of_holds hvs
  have hptrs : p.ptrs = vs.filterMap slotPtr ++ [v].filterMap slotPtr := by
    rw [ptrs_of_holds hp, List.filterMap_append]
  rcases hheap with ⟨hnone, rfl⟩ | ⟨ptr, bytes, hsome, hfree, rfl⟩
  · apply h.keep hi (.inr ⟨hsucc, hopened⟩) (fun _ => hopened) fun z hz => .inl hz
    rw [hptrs, hold, List.filterMap_cons_none hnone, filterMap_nil, List.append_nil]
  rw [List.filterMap_cons_some hsome, filterMap_nil, ← hold] at hptrs
  have hnew : ∀ j < maxPorts, ptr ∉ (y.table j).ptrs := fun j hj hmem => (h.queued ptr).2 ⟨j, hj, hmem⟩ hfree
  apply h.write hi (.inr ⟨hsucc, hopened⟩) (fun _ => hopened) fun z hz => .inl hz
  · rw [hptrs]
    exact (h.one i hi).append (List.nodup_singleton ptr) (List.disjoint_singleton.2 (hnew i hi))
  · intro j hj hji q hq
    rw [hptrs] at hq
    rcases List.mem_append.1 hq with hq | hq
    · exact h.apart i hi j hj hji.symm q hq
    · rw [List.mem_singleton.1 hq]
      exact hnew j hj
  intro q
  rw [hptrs, List.mem_append, List.mem_singleton]
  by_cases hq : q = ptr
  · subst hq
    rw [update_self]
    exact ⟨fun _ => .inl (.inr rfl), fun _ => Option.some_ne_none bytes⟩
  rw [update_of_ne hq, h.queued, refs_split y.table hi, or_iff_left hq]

theorem slotPtr_inline (mem : Mem) (msg : ℕ) (hlen : len ≤ portInlineMax) :
    slotPtr (inlineSlot mem msg len).bytes = none := by
  rw [slotPtr, inlineSlot_read mem (hlen.trans (by decide))]
  exact if_pos hlen

theorem slotPtr_out (mem : Mem) (msg : ℕ) {ptr : ℕ} (hlen : portInlineMax < len) (hmax : len ≤ portMsgMax)
    (hptr : ptr < 2 ^ 64) : slotPtr (outSlot mem msg len ptr).bytes = some ptr := by
  rw [slotPtr, outSlot_read mem hmax, outSlot_ptr mem msg len hptr]
  exact if_neg (Nat.not_le.2 hlen)

/-- the two results of a push, without another call in between -/
theorem pushSlot_cases (y : Ports) (i : ℕ) {s : Slot} (hvs : (y.table i).ring.Holds portSlotSize vs)
    (hdepth : (y.table i).ring.slotCount = portQueueDepth) (hs : s.bytes.length = portSlotSize) :
    vs.length = portQueueDepth ∧ (pushSlot y i s).2 = y ∨
    ∃ rb, rb.Holds portSlotSize (vs ++ [s.bytes]) ∧ rb.slotCount = portQueueDepth ∧
      (pushSlot y i s).2 = y.setPort i { y.table i with ring := rb, waiter := none } := by
  unfold pushSlot
  rw [tryPush_eq]
  by_cases hfull : vs.length = (y.table i).ring.slotCount
  · rw [hvs.push_full hfull, Option.elim_none]
    exact .inl ⟨hfull.trans hdepth, rfl⟩
  · obtain ⟨rb, hrb, hholds, hcount⟩ := hvs.push hfull hs
    rw [hrb, Option.elim_some]
    exact .inr ⟨rb, hholds, hcount.trans hdepth, rfl⟩

theorem Good.portSend (h : Good y) {mem : Mem} {msg : ℕ} {kmalloc : Option ℕ}
    (hfresh : Fresh y (.send id mem msg len kmalloc)) (hc : Careful y (.send id mem msg len kmalloc)) :
    Good (portSend y id mem msg len kmalloc).2 := by
  unfold Ipc.portSend
  by_cases hbad : len = 0 ∨ portMsgMax < len
  · rw [if_pos hbad]
    exact h
  rw [if_neg hbad]
  have hmax : len ≤ portMsgMax := not_lt.1 (not_or.1 hbad).2
  cases hf : portFindById y id with
  | none => exact h
  | some i =>
    obtain ⟨hi, hsucc, vs, hvs, hdepth⟩ := find_spec h hf
    dsimp only
    by_cases hinline : len ≤ portInlineMax
    · rw [if_pos hinline]
      rcases pushSlot_cases y i hvs hdepth (inlineSlot_length mem msg len) with ⟨-, hsame⟩ | ⟨rb, hrb, hcount, hnew⟩
      · rw [hsame]
        exact h
      · rw [hnew]
        exact h.pushed (p := { y.table i with ring := rb, waiter := none }) hi hvs hsucc hrb hcount (.inl ⟨slotPtr_inline mem msg hinline, rfl⟩)
    rw [if_neg hinline]
    cases kmalloc with
    | none => exact h
    | some ptr =>
      obtain ⟨hptr, hfree⟩ := hfresh ptr rfl
      have hroom := hc i hf (not_le.1 hinline) (Option.some_ne_none ptr)
      rw [hvs.items] at hroom
      rcases pushSlot_cases { y with heap := update y.heap ptr (some (get mem msg len)) } i hvs hdepth
        (outSlot_length mem msg len ptr) with ⟨hfull, -⟩ | ⟨rb, hrb, hcount, hnew⟩
      · exact absurd hfull hroom.ne
      · rw [hnew]
        exact h.pushed (p := { y.table i with ring := rb, waiter := none }) hi hvs hsucc hrb hcount
          (.inr ⟨ptr, get mem msg len, slotPtr_out mem msg (not_le.1 hinline) hmax hptr, hfree, rfl⟩)

/-- the oldest slot leaves the queue, and its buffer is freed -/
theorem Good.popped (h : Good y) (hi : i < maxPorts) {v : Item}
    (hvs : (y.table i).ring.Holds portSlotSize (v :: vs)) (hsame : p.id = (y.table i).id)
    (hp : p.ring.Holds portSlotSize vs) (hdepth : p.ring.slotCount = portQueueDepth) (cap : ℕ) :
    Good (deliver (y.setPort i p) (Slot.ofBytes v) cap).2 := by
  have hopened : Opened p := ⟨vs, hp, hdepth⟩
  have hold : (y.table i).ptrs = (v :: vs).filterMap slotPtr := ptrs_of_holds hvs
  have hptrs : p.ptrs = vs.filterMap slotPtr := ptrs_of_holds hp
  have hid : p.id = 0 ∧ p.ptrs = [] ∨ p.id = i + 1 ∧ Opened p := by
    rw [hsame]
    rcases h.ids i hi with h0 | ⟨hsucc, -⟩
    · refine .inl ⟨h0, ?_⟩
      have hnone := h.closed i hi h0
      rw [hold] at hnone
      rw [hptrs]
      exact List.filterMap_eq_nil_iff.2 fun w hw => List.filterMap_eq_nil_iff.1 hnone w (List.mem_cons_of_mem v hw)
    · exact .inr ⟨hsucc, hopened⟩
  unfold deliver
  by_cases hinline : (Slot.ofBytes v).len ≤ portInlineMax
  · rw [if_pos hinline]
    apply h.keep hi hid (fun _ => hopened) fun z hz => .inl hz
    have hnone : slotPtr v = none := if_pos hinline
    rw [hptrs, hold, List.filterMap_cons_none hnone]
  rw [if_neg hinline]
  have hsome : slotPtr v = some (Slot.ofBytes v).ptr := if_neg hinline
  rw [List.filterMap_cons_some hsome, ← hptrs] at hold
  have hone := h.one i hi
  rw [hold] at hone
  have hmem : (Slot.ofBytes v).ptr ∈ (y.table i).ptrs := by
    rw [hold]
    exact List.mem_cons_self
  have hheap : y.heap (Slot.ofBytes v).ptr ≠ none := (h.queued _).2 ⟨i, hi, hmem⟩
  have hset : (y.setPort i p).heap = y.heap := rfl
  rw [hset]
  cases hbuf : y.heap (Slot.ofBytes v).ptr with
  | none => exact absurd hbuf hheap
  | some bytes =>
    apply h.write hi hid (fun _ => hopened) fun z hz => .inl hz
    · exact (List.nodup_cons.1 hone).2
    · intro j hj hji q hq
      exact h.apart i hi j hj hji.symm q (by rw [hold]; exact List.mem_cons_of_mem _ hq)
    intro q
    by_cases hq : q = (Slot.ofBytes v).ptr
    · subst hq
      rw [update_self]
      refine ⟨fun hne => absurd rfl hne, ?_⟩
      rintro (hin | ⟨j, hj, hji, hin⟩)
      · exact absurd hin (List.nodup_cons.1 hone).1
      · exact absurd hin (h.apart i hi j hj hji.symm _ hmem)
    rw [update_of_ne hq, h.queued, refs_split y.table hi, hold, mem_cons, or_iff_right hq]

theorem Good.recvAt (h : Good y) (hi : i < maxPorts) (ho : Opened (y.table i)) (cap pid : ℕ) :
    Good (recvAt y i cap pid).2 := by
  obtain ⟨vs, hvs, hdepth⟩ := ho
  unfold Ipc.recvAt
  cases vs with
  | nil =>
    rw [hvs.pop_empty]
    refine h.touch hi rfl (.inl rfl) fun z hz => ?_
    rcases mem_cons.1 hz with rfl | hz
    · exact .inr ⟨rfl, [], hvs, hdepth⟩
    · exact .inl hz
  | cons v vs =>
    obtain ⟨rb, hrb, hholds, hcount⟩ := hvs.pop
    rw [hrb]
    exact h.popped (p := { y.table i with ring := rb }) hi hvs rfl hholds (hcount.trans hdepth) cap

/-- **One call.** -/
theorem Good.step (h : Good y) {op : PortOp} (hfresh : Fresh y op) (hc : Careful y op) : Good (portStep y op).2 := by
  cases op with
  | openPort name flags pid => exact h.portOpen name flags pid
  | send id mem msg len kmalloc => exact h.portSend hfresh hc
  | recv id valid cap pid =>
    show Good (portRecv y id valid cap pid).2
    unfold portRecv
    split_ifs with hbad
    · exact h
    cases hf : portFindById y id with
    | none => exact h
    | some i =>
      obtain ⟨hi, -, ho⟩ := find_spec h hf
      exact h.recvAt hi ho cap pid
  | wake n =>
    show Good (match y.asleep[n]? with
      | none => (.done (-1), y)
      | some z => Ipc.recvAt { y with asleep := y.asleep.eraseIdx n } z.idx z.cap z.pid : Ret × Ports).2
    cases hz : y.asleep[n]? with
    | none => exact h
    | some z =>
      obtain ⟨hi, ho⟩ := h.sleepers z (List.mem_of_getElem? hz)
      have hfewer : Good { y with asleep := y.asleep.eraseIdx n } :=
        { h with sleepers := fun x hx => h.sleepers x (List.mem_of_mem_eraseIdx hx) }
      exact hfewer.recvAt hi ho z.cap z.pid
  | close id => exact h.portClose hc

/-- **Every buffer has one owner.** In every history from boot in which kmalloc returns buffers that are not in use (mm.c does
under the conditions of `Mm.good_run_sound` and `Mm.kfree_exact`), no out-of-line message is sent to a full queue and no port
is closed for the last time with such a message in its queue, in every state: each allocated buffer is referred to by exactly
one slot in a queue of an open port, and none was freed twice. -/
theorem buffers_owned (ops : List PortOp) (hfresh : Always portStep Fresh portSubsystemInit ops)
    (hcareful : Always portStep Careful portSubsystemInit ops) : Owned (after portStep portSubsystemInit ops) := by
  have hgood : ∀ y, Good y → Always portStep Fresh y ops → Always portStep Careful y ops → Good (after portStep y ops) := by
    clear hfresh hcareful
    induction ops with
    | nil => exact fun y h _ _ => h
    | cons op ops ih => exact fun y h hf hc => ih _ (h.step hf.1 hc.1) hf.2 hc.2
  exact (hgood _ Good.init hfresh hcareful).owned

/-- a port with a message of 60 bytes in its queue -/
def oneMessage : List PortOp := [.openPort [97] 1 1, .send 1 (fun a => UInt8.ofNat a) 0 60 (some 4096)]

theorem buffers_owned_one : Owned (after portStep portSubsystemInit oneMessage) := by
  have hfind : portFindById (portStep portSubsystemInit (.openPort [97] 1 1)).2 1 = some 0 := by decide +kernel
  have hempty : (((portStep portSubsystemInit (.openPort [97] 1 1)).2.table 0).ring.items portSlotSize).length <
      portQueueDepth := by decide +kernel
  have hheap : (portStep portSubsystemInit (.openPort [97] 1 1)).2.heap 4096 = none := by decide +kernel
  apply buffers_owned oneMessage
  · refine ⟨trivial, fun ptr hptr => ?_, trivial⟩
    cases hptr
    exact ⟨by decide, hheap⟩
  refine ⟨trivial, fun i hi _ _ => ?_, trivial⟩
  rw [hfind] at hi
  cases hi
  exact hempty

/-- the port is closed with the message in its queue: the buffer stays allocated, and no queue refers to it -/
theorem buffer_lost : ¬ Owned (after portStep portSubsystemInit (oneMessage ++ [.close 1])) := by
  have hheap : (after portStep portSubsystemInit (oneMessage ++ [.close 1])).heap 4096 ≠ none := by decide +kernel
  have hptrs : (after portStep portSubsystemInit (oneMessage ++ [.close 1])).ptrs = [] := by decide +kernel
  intro h
  have hmem := (h.queued 4096).1 hheap
  rw [hptrs] at hmem
  exact absurd hmem not_mem_nil

end OpenASD.Ipc
