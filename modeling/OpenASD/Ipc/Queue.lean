/-
The ring buffer with calls that do not overlap (kernel/ipc/ringbuf.h: ringbuf_push, ringbuf_pop and their batches), as a
queue of items.

- `Ring.Holds`: an initialised ring with these items of one size;
- `push_run`, `pop_run`: a call is the steps of the machine of `OpenASD.Ipc.RingBuf` with the other side idle;
- `Ring.Holds.push`, `Ring.Holds.push_full`, `Ring.Holds.pop`, `Ring.Holds.pop_empty`: what the calls do to the items;
- `batches_one_by_one`: a batch is its calls one by one up to the first that fails.
-/
import OpenASD.Core.Loop
import OpenASD.Ipc.RingBuf

namespace OpenASD.Ipc

open ByteMem Wrap
open Option (bind_some)

/-- none is -1 -/
@[irreducible] def ringbufPush (rb : Ring) (v : Item) : Option Ring :=
  if rb.used = rb.slotCount then none
  else if rb.slotSize < v.length then none
  else some { rb with data := put rb.data (rb.slot rb.writeIdx) v, writeIdx := wrap 64 (rb.writeIdx + 1) }

/-- none is -1 -/
@[irreducible] def ringbufPop (rb : Ring) (size : ℕ) : Option (Item × Ring) :=
  if rb.readIdx = rb.writeIdx then none
  else if rb.slotSize < size then none
  else some (get rb.data (rb.slot rb.readIdx) size, { rb with readIdx := wrap 64 (rb.readIdx + 1) })

/-- an initialised ring that holds these items -/
structure Ring.Holds (rb : Ring) (size : ℕ) (vs : List Item) : Prop where
  init : rb.Init
  fit : size ≤ rb.slotSize
  items : rb.items size = vs

section

variable {rb : Ring} {size : ℕ} {vs : List Item} {v : Item}

theorem Ring.Holds.length (h : rb.Holds size vs) : vs.length = rb.used := by
  rw [← h.items, Ring.items, List.length_map, List.length_range]

/-- the ring of a state of the machine, when both sides are idle -/
theorem RInv.holds {b : ℕ} {y : Sys} (h : RInv size b y) (hinit : isPow2 y.ring.slotCount = true) :
    y.ring.Holds size (y.pushed.drop y.popped.length) := by
  have hroom := h.room
  refine ⟨⟨hinit, h.count_lt, ?_, ?_, ?_⟩, h.ok.fit, ?_⟩
  · rw [h.w]
    exact wrap_lt 64 _
  · rw [h.r]
    exact wrap_lt 64 _
  · rw [Ring.used, h.dist_eq]
    omega
  · rw [h.fifo, List.drop_left]

/-- a push is the steps of the producer -/
theorem push_run {rb' : Ring} (hv : v.length = size) (hw : rb.writeIdx < 2 ^ 64) (h : ringbufPush rb v = some rb') :
    run size (Sys.start rb size) [.push (.one v), .prod, .prod, .prod] =
      some { Sys.start rb size with ring := rb', pushRet := some 0, pushed := rb.items size ++ [v] } := by
  set y := Sys.start rb size
  have hself : wrap 64 (rb.writeIdx + 0) = rb.writeIdx := Nat.mod_eq_of_lt hw
  unfold ringbufPush at h
  split_ifs at h with hfull hbig
  rw [hv] at hbig
  cases h
  have hcall : step size y (.push (.one v)) =
      some { y with prod := .loaded (.one v) rb.writeIdx } := by
    have hall : (PushCall.one v).items.all (fun v => decide (v.length = size)) = true := by
      rw [PushCall.items, List.all_cons, List.all_nil, decide_eq_true hv]
      rfl
    exact if_pos hall
  have hload : step size { y with prod := .loaded (.one v) rb.writeIdx } .prod =
      some { y with prod := .copying true [v] rb.writeIdx 0 } := by
    show (if rb.used = rb.slotCount then _ else if rb.slotSize < size then _ else _) = _
    rw [if_neg hfull, if_neg hbig]
  have hcopy : step size { y with prod := .copying true [v] rb.writeIdx 0 } .prod =
      some { y with
        ring := { rb with data := put rb.data (rb.slot (wrap 64 (rb.writeIdx + 0))) v }
        prod := .copying true [v] rb.writeIdx 1 } := rfl
  rw [hself] at hcopy
  rw [run, hcall, bind_some, run, hload, bind_some, run, hcopy, bind_some, run]
  rfl

/-- a pop is the steps of the consumer -/
theorem pop_run {rb' : Ring} (hr : rb.readIdx < 2 ^ 64) (h : ringbufPop rb size = some (v, rb')) :
    run size (Sys.start rb size) [.pop .one, .cons, .cons, .cons] =
      some { Sys.start rb size with ring := rb', popRet := some 0, popped := [v] } := by
  set y := Sys.start rb size
  have hself : wrap 64 (rb.readIdx + 0) = rb.readIdx := Nat.mod_eq_of_lt hr
  unfold ringbufPop at h
  split_ifs at h with hempty hbig
  cases h
  have hcall : step size y (.pop .one) = some { y with cons := .loaded .one rb.readIdx } := rfl
  have hload : step size { y with cons := .loaded .one rb.readIdx } .cons =
      some { y with cons := .copying true 1 rb.readIdx [] } := by
    show (if rb.readIdx = rb.writeIdx then _ else if rb.slotSize < size then _ else _) = _
    rw [if_neg hempty, if_neg hbig]
  have hcopy : step size { y with cons := .copying true 1 rb.readIdx [] } .cons =
      some { y with
        cons := .copying true 1 rb.readIdx [get rb.data (rb.slot (wrap 64 (rb.readIdx + 0))) size] } := rfl
  rw [hself] at hcopy
  rw [run, hcall, bind_some, run, hload, bind_some, run, hcopy, bind_some, run]
  rfl

theorem Ring.Holds.push_full (h : rb.Holds size vs) (hfull : vs.length = rb.slotCount) : ringbufPush rb v = none := by
  rw [ringbufPush, if_pos (h.length.symm.trans hfull)]

/-- an item goes to the end -/
theorem Ring.Holds.push (h : rb.Holds size vs) (hroom : vs.length ≠ rb.slotCount) (hv : v.length = size) :
    ∃ rb', ringbufPush rb v = some rb' ∧ rb'.Holds size (vs ++ [v]) ∧ rb'.slotCount = rb.slotCount := by
  have hopen : ¬ rb.used = rb.slotCount := fun he => hroom (h.length.trans he)
  have hfit : ¬ rb.slotSize < v.length := by
    rw [hv]
    exact Nat.not_lt.2 h.fit
  obtain ⟨rb', hrb'⟩ : ∃ rb', ringbufPush rb v = some rb' := by
    rw [ringbufPush, if_neg hopen, if_neg hfit]
    exact ⟨_, rfl⟩
  have hinv := ring_inv (start_inv h.init h.fit) (push_run hv h.init.write hrb')
  have hsame : rb'.slotCount = rb.slotCount := by
    rw [ringbufPush, if_neg hopen, if_neg hfit] at hrb'
    cases hrb'
    rfl
  have hpow : isPow2 rb'.slotCount = true := by
    rw [hsame]
    exact h.init.pow
  have hholds : rb'.Holds size (rb.items size ++ [v]) := hinv.holds hpow
  rw [h.items] at hholds
  exact ⟨rb', hrb', hholds, hsame⟩

theorem Ring.Holds.pop_empty (h : rb.Holds size []) : ringbufPop rb size = none := by
  have hd : dist 64 rb.writeIdx rb.readIdx = 0 := h.length.symm
  have he : rb.readIdx = rb.writeIdx := by
    have hwrap := wrap_add_dist h.init.write h.init.read
    rw [hd, Nat.add_zero] at hwrap
    exact (Nat.mod_eq_of_lt h.init.read).symm.trans hwrap
  rw [ringbufPop, if_pos he]

/-- the first item comes out -/
theorem Ring.Holds.pop (h : rb.Holds size (v :: vs)) :
    ∃ rb', ringbufPop rb size = some (v, rb') ∧ rb'.Holds size vs ∧ rb'.slotCount = rb.slotCount := by
  have hsome : ¬ rb.readIdx = rb.writeIdx := by
    intro he
    have hlen := h.length
    rw [Ring.used, he, Wrap.dist, Nat.add_sub_cancel_left, Nat.mod_self] at hlen
    exact absurd hlen (Nat.succ_ne_zero _)
  obtain ⟨w, rb', hrb'⟩ : ∃ w rb', ringbufPop rb size = some (w, rb') := by
    rw [ringbufPop, if_neg hsome, if_neg (Nat.not_lt.2 h.fit)]
    exact ⟨_, _, rfl⟩
  have hinv := ring_inv (start_inv h.init h.fit) (pop_run h.init.read hrb')
  have hsame : rb'.slotCount = rb.slotCount := by
    rw [ringbufPop, if_neg hsome, if_neg (Nat.not_lt.2 h.fit)] at hrb'
    cases hrb'
    rfl
  have hpow : isPow2 rb'.slotCount = true := by
    rw [hsame]
    exact h.init.pow
  have hholds : rb'.Holds size ((rb.items size).drop 1) := hinv.holds hpow
  have hfifo : rb.items size = [w] ++ rb'.items size := hinv.fifo
  rw [h.items] at hholds hfifo
  rw [List.singleton_append, List.cons.injEq] at hfifo
  rw [← hfifo.1] at hrb'
  exact ⟨rb', hrb', hholds, hsame⟩

/-- a ring of 64-byte slots after `ringbuf_init` -/
theorem ringbufInit_holds {data : Mem} {slotSize slotCount : ℕ} (hn : slotCount < 2 ^ 32)
    (h : ringbufInit data slotSize slotCount = some rb) (hsize : size ≤ slotSize) :
    rb.Holds size [] ∧ rb.slotCount = slotCount := by
  obtain ⟨hinit, hslot, hitems⟩ := ringbufInit_init hn h
  have hzero : rb.used = 0 := by
    have hlen : (rb.items 0).length = 0 := by
      rw [hitems]
      rfl
    rwa [Ring.items, List.length_map, List.length_range] at hlen
  refine ⟨⟨hinit, hslot.symm ▸ hsize, ?_⟩, ?_⟩
  · rw [Ring.items, hzero, List.range_zero, List.map_nil]
  unfold ringbufInit at h
  split_ifs at h
  cases h
  rfl

end

/-! ## Batches -/

/-- n items copied into the slots from `write_idx` on, and the index stored -/
def Ring.filled (rb : Ring) (items : Mem) (itemSize n : ℕ) : Ring :=
  { rb with
    data := (List.range n).foldl
      (fun m i => put m (rb.slot (wrap 64 (rb.writeIdx + i))) (get items (i * itemSize) itemSize)) rb.data
    writeIdx := wrap 64 (rb.writeIdx + n) }

def ringbufPushBatch (rb : Ring) (items : Mem) (itemSize n : ℕ) : ℕ × Ring :=
  let avail := dist 32 rb.slotCount (wrap 32 rb.used)
  let n := if avail < n then avail else n
  if rb.slotSize < itemSize then (0, rb) else (n, rb.filled items itemSize n)

/-- n items copied out of the slots from `read_idx` on, and the index stored -/
def Ring.drained (rb : Ring) (buf : Mem) (itemSize n : ℕ) : Mem × Ring :=
  ((List.range n).foldl
    (fun m i => put m (i * itemSize) (get rb.data (rb.slot (wrap 64 (rb.readIdx + i))) itemSize)) buf,
   { rb with readIdx := wrap 64 (rb.readIdx + n) })

def ringbufPopBatch (rb : Ring) (buf : Mem) (itemSize n : ℕ) : ℕ × Mem × Ring :=
  let avail := wrap 32 rb.used
  let n := if avail < n then avail else n
  if rb.slotSize < itemSize then (0, buf, rb) else (n, rb.drained buf itemSize n)

/-- a call of `ringbuf_push` for item i of a buffer -/
def pushEach (items : Mem) (itemSize i : ℕ) (rb : Ring) : Option Ring :=
  ringbufPush rb (get items (i * itemSize) itemSize)

/-- a call of `ringbuf_pop` for the place of item i in a buffer -/
def popEach (itemSize i : ℕ) (s : Mem × Ring) : Option (Mem × Ring) :=
  (ringbufPop s.2 itemSize).map fun r => (put s.1 (i * itemSize) r.1, r.2)

/-- fields of their types, and no more items than slots; the count need not be a power of two -/
structure Ring.Bounded (rb : Ring) : Prop where
  small : rb.slotCount < 2 ^ 32
  write : rb.writeIdx < 2 ^ 64
  read : rb.readIdx < 2 ^ 64
  full : rb.used ≤ rb.slotCount

section Batches

variable {rb : Ring} {itemSize i n : ℕ} {items buf : Mem}

/-- the indices after i more items -/
theorem Ring.Bounded.dist_add (h : rb.Bounded) (hi : i < 2 ^ 32) :
    dist 64 (wrap 64 (rb.writeIdx + i)) rb.readIdx = rb.used + i := by
  obtain ⟨h1, h2, h3, h4⟩ := h
  simp only [Wrap.dist, wrap] at *
  omega

theorem Ring.Bounded.read_eq_iff (h : rb.Bounded) (hi : i ≤ rb.used) :
    wrap 64 (rb.readIdx + i) = rb.writeIdx ↔ i = rb.used := by
  obtain ⟨h1, h2, h3, h4⟩ := h
  simp only [Wrap.dist, wrap] at *
  omega

theorem pushEach_filled (hi : dist 64 (wrap 64 (rb.writeIdx + i)) rb.readIdx ≠ rb.slotCount)
    (hfit : ¬ rb.slotSize < itemSize) :
    pushEach items itemSize i (rb.filled items itemSize i) = some (rb.filled items itemSize (i + 1)) := by
  simp only [pushEach, ringbufPush, Ring.filled, length_get, if_neg hi, if_neg hfit, Ring.slot, wrap_wrap_add, List.range_succ,
    List.foldl_append, List.foldl_cons, List.foldl_nil, Nat.add_assoc]

theorem popEach_drained (hi : wrap 64 (rb.readIdx + i) ≠ rb.writeIdx) (hfit : ¬ rb.slotSize < itemSize) :
    popEach itemSize i (rb.drained buf itemSize i) = some (rb.drained buf itemSize (i + 1)) := by
  simp only [popEach, ringbufPop, Ring.drained, if_neg hi, if_neg hfit, Ring.slot, wrap_wrap_add, List.range_succ,
    List.foldl_append, List.foldl_cons, List.foldl_nil, Nat.add_assoc, Option.map_some]

/-- the number of items of a batch -/
theorem atMost_spec (avail n : ℕ) : (if avail < n then avail else n) ≤ n ∧ (if avail < n then avail else n) ≤ avail ∧
    ((if avail < n then avail else n) < n → (if avail < n then avail else n) = avail) := by
  split_ifs <;> omega

theorem pushBatch_eq (h : rb.Bounded) :
    ringbufPushBatch rb items itemSize n = Loop.untilFails (pushEach items itemSize) n 0 rb := by
  have hstart : rb.filled items itemSize 0 = rb := by
    have hw : wrap 64 rb.writeIdx = rb.writeIdx := Nat.mod_eq_of_lt h.write
    simp [Ring.filled, hw]
  have hfull := h.full
  have hsmall := h.small
  have havail : dist 32 rb.slotCount (wrap 32 rb.used) = rb.slotCount - rb.used := by
    generalize rb.used = d at *
    simp only [Wrap.dist, wrap]
    omega
  unfold ringbufPushBatch
  simp only [havail]
  obtain ⟨hn, hle, hend⟩ := atMost_spec (rb.slotCount - rb.used) n
  generalize (if rb.slotCount - rb.used < n then _ else n) = m at *
  by_cases hbig : rb.slotSize < itemSize
  · -- the first call fails already
    simp only [if_pos hbig]
    refine (Loop.untilFails_eq (fun _ => rb) (Nat.zero_le n) (by simp) fun _ => ?_).symm
    simp [pushEach, ringbufPush, hbig]
  rw [if_neg hbig]
  nth_rewrite 2 [← hstart]
  refine (Loop.untilFails_eq (rb.filled items itemSize) hn (fun i hi => ?_) fun hlt => ?_).symm
  · refine pushEach_filled ?_ hbig
    rw [h.dist_add (by omega)]
    omega
  · have hdist := h.dist_add (i := m) (by omega)
    simp only [pushEach, ringbufPush, Ring.filled, hdist]
    rw [if_pos (by have := hend hlt; omega)]

theorem popBatch_eq (h : rb.Bounded) :
    ringbufPopBatch rb buf itemSize n = Loop.untilFails (popEach itemSize) n 0 (buf, rb) := by
  have hstart : rb.drained buf itemSize 0 = (buf, rb) := by
    have hr : wrap 64 rb.readIdx = rb.readIdx := Nat.mod_eq_of_lt h.read
    simp [Ring.drained, hr]
  have hfull := h.full
  have hsmall := h.small
  have havail : wrap 32 rb.used = rb.used := Nat.mod_eq_of_lt (by omega)
  unfold ringbufPopBatch
  simp only [havail]
  obtain ⟨hn, hle, hend⟩ := atMost_spec rb.used n
  by_cases hbig : rb.slotSize < itemSize
  · simp only [if_pos hbig]
    refine (Loop.untilFails_eq (fun _ => (buf, rb)) (Nat.zero_le n) (by simp) fun _ => ?_).symm
    simp [popEach, ringbufPop, hbig]
  rw [if_neg hbig, ← hstart]
  refine (Loop.untilFails_eq (rb.drained buf itemSize) hn (fun i hi => ?_) fun hlt => ?_).symm
  · exact popEach_drained (fun he => by have := (h.read_eq_iff (by omega)).1 he; omega) hbig
  · have hempty := (h.read_eq_iff hle).2 (hend hlt)
    simp [popEach, ringbufPop, Ring.drained, hempty]

/-- **Batches.** A batch leaves the ring, the buffer and the count of its calls one by one, up to the first that fails. -/
theorem batches_one_by_one (h : rb.Bounded) (items buf : Mem) (itemSize n : ℕ) :
    ringbufPushBatch rb items itemSize n = Loop.untilFails (pushEach items itemSize) n 0 rb ∧
      ringbufPopBatch rb buf itemSize n = Loop.untilFails (popEach itemSize) n 0 (buf, rb) :=
  ⟨pushBatch_eq h, popBatch_eq h⟩

/-- a ring whose write index has wrapped -/
theorem batches_one_by_one_wrapped : Ring.Bounded ⟨8, 4, 1, 2 ^ 64 - 2, fun _ => 0⟩ ∧
    ringbufPushBatch ⟨8, 4, 1, 2 ^ 64 - 2, fun _ => 0⟩ (fun _ => 7) 8 5 =
      Loop.untilFails (pushEach (fun _ => 7) 8) 5 0 ⟨8, 4, 1, 2 ^ 64 - 2, fun _ => 0⟩ := by
  have hbounded : Ring.Bounded ⟨8, 4, 1, 2 ^ 64 - 2, fun _ => 0⟩ := ⟨by decide, by decide, by decide, by decide⟩
  exact ⟨hbounded, (batches_one_by_one hbounded (fun _ => 7) (fun _ => 0) 8 5).1⟩

end Batches

end OpenASD.Ipc
