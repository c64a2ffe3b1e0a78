/-
The ring buffer between one producer and one consumer, as a machine of atomic steps: every load of an index, every copy
of a slot and every store of an index is a step of its own, and the two sides interleave in any order. Calls are
`ringbuf_push`, `ringbuf_push_batch`, `ringbuf_pop` and `ringbuf_pop_batch` with one item size.

Ghost state: `pushed`, the items of all calls whose index store has happened, and `popped`, what the consumer had copied
into its buffers when it released the slots.

Results:
- `ring_inv`: an invariant of every interleaving, over the true numbers of pushed and popped items;
- `ring_run_sound`: in every state reached from any start of the 64-bit indices, the pushed items are the popped items
  followed by what is in the ring, in order; the ring never holds more than `slot_count` items; the producer never
  writes a slot that has not been read; a push fails exactly if the ring is full at its load of `read_idx`, a pop
  exactly if it is empty at its load of `write_idx`, and batches take as many as there are at that load.
-/
import OpenASD.Core.ByteMem
import OpenASD.Core.Wrap

namespace OpenASD.Ipc

open ByteMem Wrap
open List (length_append length_map length_range)

/-! ## The ring -/

structure Ring where
  slotSize : ℕ
  slotCount : ℕ
  writeIdx : ℕ
  readIdx : ℕ
  /-- the bytes behind the header -/
  data : Mem

def isPow2 (n : ℕ) : Bool := decide (n ≠ 0) && decide (n &&& (n - 1) = 0)

/-- `ringbuf_init`: none is -1; the sizes are 32-bit -/
def ringbufInit (data : Mem) (slotSize slotCount : ℕ) : Option Ring :=
  if !isPow2 slotSize || decide (slotSize < 8) then none
  else if !isPow2 slotCount || decide (slotCount < 2) then none
  else some ⟨slotSize, slotCount, 0, 0, fill data 0 (slotSize * slotCount) 0⟩

/-- the place of the slot of an index in the data -/
def Ring.slot (rb : Ring) (idx : ℕ) : ℕ := (idx &&& (rb.slotCount - 1)) * rb.slotSize

/-! ## The machine -/

/-- an item is its bytes -/
abbrev Item := List UInt8

/-- what the producer was called with -/
inductive PushCall where
  | one (v : Item)
  | batch (vs : List Item)

def PushCall.items : PushCall → List Item
  | .one v => [v]
  | .batch vs => vs

/-- where the producer is; `w` is its copy of `write_idx` -/
inductive Prod where
  | idle
  | loaded (call : PushCall) (w : ℕ)
  | copying (one : Bool) (vs : List Item) (w i : ℕ)

inductive PopCall where
  | one
  | batch (n : ℕ)

/-- where the consumer is; `r` is its copy of `read_idx`, `buf` what it has copied -/
inductive Cons where
  | idle
  | loaded (call : PopCall) (r : ℕ)
  | copying (one : Bool) (n r : ℕ) (buf : List Item)

structure Sys where
  ring : Ring
  prod : Prod
  cons : Cons
  /-- return values of the last calls that have returned -/
  pushRet : Option ℤ
  popRet : Option ℤ
  pushed : List Item
  popped : List Item

inductive Act where
  /-- a call of the producer, up to its load of `write_idx` -/
  | push (call : PushCall)
  /-- the next step of the producer -/
  | prod
  /-- a call of the consumer, up to its load of `read_idx` -/
  | pop (call : PopCall)
  /-- the next step of the consumer -/
  | cons

def Sys.pushReturns (y : Sys) (v : ℤ) : Sys := { y with prod := .idle, pushRet := some v }

def Sys.popReturns (y : Sys) (v : ℤ) : Sys := { y with cons := .idle, popRet := some v }

variable (size : ℕ) (y : Sys)

/-- one step of the producer -/
def stepProd : Option Sys :=
  match y.prod with
  | .idle => none
  | .loaded (.one v) w =>
    -- the load of `read_idx`
    if dist 64 w y.ring.readIdx = y.ring.slotCount then some (y.pushReturns (-1))
    else if y.ring.slotSize < size then some (y.pushReturns (-1))
    else some { y with prod := .copying true [v] w 0 }
  | .loaded (.batch vs) w =>
    let avail := dist 32 y.ring.slotCount (wrap 32 (dist 64 w y.ring.readIdx))
    let n := if avail < vs.length then avail else vs.length
    if y.ring.slotSize < size then some (y.pushReturns 0)
    else some { y with prod := .copying false (vs.take n) w 0 }
  | .copying one vs w i =>
    match vs[i]? with
    | some v => some { y with
        ring := { y.ring with data := put y.ring.data (y.ring.slot (wrap 64 (w + i))) v }
        prod := .copying one vs w (i + 1) }
    | none => some { (y.pushReturns (if one then 0 else vs.length)) with
        ring := { y.ring with writeIdx := wrap 64 (w + vs.length) }
        pushed := y.pushed ++ vs }

/-- one step of the consumer -/
def stepCons : Option Sys :=
  match y.cons with
  | .idle => none
  | .loaded .one r =>
    -- the load of `write_idx`
    if r = y.ring.writeIdx then some (y.popReturns (-1))
    else if y.ring.slotSize < size then some (y.popReturns (-1))
    else some { y with cons := .copying true 1 r [] }
  | .loaded (.batch n) r =>
    let avail := wrap 32 (dist 64 y.ring.writeIdx r)
    let n := if avail < n then avail else n
    if y.ring.slotSize < size then some (y.popReturns 0)
    else some { y with cons := .copying false n r [] }
  | .copying one n r buf =>
    if buf.length < n then
      let v := get y.ring.data (y.ring.slot (wrap 64 (r + buf.length))) size
      some { y with cons := .copying one n r (buf ++ [v]) }
    else some { (y.popReturns (if one then 0 else n)) with
        ring := { y.ring with readIdx := wrap 64 (r + n) }
        popped := y.popped ++ buf }

/-- calls start on an idle side, with items of the fixed size -/
def step : Act → Option Sys
  | .push call =>
    match y.prod with
    | .idle => if call.items.all (fun v => decide (v.length = size)) then
        some { y with prod := .loaded call y.ring.writeIdx }
      else none
    | _ => none
  | .prod => stepProd size y
  | .pop call =>
    match y.cons with
    | .idle => some { y with cons := .loaded call y.ring.readIdx }
    | _ => none
  | .cons => stepCons size y

def run (size : ℕ) (y : Sys) : List Act → Option Sys
  | [] => some y
  | a :: as => (step size y a).bind fun y' => run size y' as

/-- the number of items in the ring, by its indices -/
abbrev Ring.used (rb : Ring) : ℕ := dist 64 rb.writeIdx rb.readIdx

/-- the items in the ring, read off its memory -/
def Ring.items (rb : Ring) (size : ℕ) : List Item :=
  (List.range rb.used).map fun j => get rb.data (rb.slot (wrap 64 (rb.readIdx + j))) size

/-- both sides idle; what is in the ring counts as pushed -/
def Sys.start (rb : Ring) (size : ℕ) : Sys := ⟨rb, .idle, .idle, none, none, rb.items size, []⟩

/-! ## The invariant -/

/-- an initialised ring whose slots hold items of this size -/
structure Ring.Ok (rb : Ring) (size : ℕ) : Prop where
  pow : ∃ k, k ≤ 31 ∧ rb.slotCount = 2 ^ k
  fit : size ≤ rb.slotSize

variable {v : Item}

section Slots

variable {rb : Ring} {size x z : ℕ}

theorem Ring.Ok.slot_eq (h : rb.Ok size) (x : ℕ) : rb.slot (wrap 64 x) = x % rb.slotCount * rb.slotSize := by
  obtain ⟨k, hk, e⟩ := h.pow
  rw [Ring.slot, e, wrap_and_mask (by omega)]

/-- slots with different numbers do not overlap -/
theorem Ring.Ok.slot_disjoint (h : rb.Ok size) (hne : x % rb.slotCount ≠ z % rb.slotCount) :
    rb.slot (wrap 64 x) + rb.slotSize ≤ rb.slot (wrap 64 z) ∨ rb.slot (wrap 64 z) + rb.slotSize ≤ rb.slot (wrap 64 x) := by
  rw [h.slot_eq, h.slot_eq, ← Nat.succ_mul, ← Nat.succ_mul]
  rcases Nat.lt_or_gt_of_ne hne with hlt | hlt
  · exact Or.inl (Nat.mul_le_mul_right rb.slotSize hlt)
  · exact Or.inr (Nat.mul_le_mul_right rb.slotSize hlt)

/-- the item in the slot of the true number x -/
def Ring.cell (rb : Ring) (size x : ℕ) : Item := get rb.data (rb.slot (wrap 64 x)) size

/-- writing the slot of x -/
def Ring.putCell (rb : Ring) (x : ℕ) (v : Item) : Ring := { rb with data := put rb.data (rb.slot (wrap 64 x)) v }

theorem cell_putCell_self (rb : Ring) (hv : v.length = size) (x : ℕ) : (rb.putCell x v).cell size x = v := by
  rw [← hv]
  exact get_put _ _ _

theorem cell_putCell_ne (h : rb.Ok size) (hv : v.length = size)
    (hne : x % rb.slotCount ≠ z % rb.slotCount) : (rb.putCell x v).cell size z = rb.cell size z := by
  refine get_put_of_disjoint ?_
  rw [hv]
  have hfit := h.fit
  rcases h.slot_disjoint hne with hd | hd
  · exact Or.inr (le_trans (Nat.add_le_add_left hfit _) hd)
  · exact Or.inl (le_trans (Nat.add_le_add_left hfit _) hd)

end Slots

/-- what is known while the producer is in the middle of a call; b is the true number of the first item -/
def ProdOk (size b : ℕ) (y : Sys) : Prop :=
  match y.prod with
  | .idle => True
  | .loaded call w => w = y.ring.writeIdx ∧ ∀ v ∈ call.items, v.length = size
  | .copying _ vs w i => w = y.ring.writeIdx ∧ (∀ v ∈ vs, v.length = size) ∧
      y.pushed.length + vs.length ≤ y.popped.length + y.ring.slotCount ∧
      ∀ j < i, ∀ v, vs[j]? = some v → y.ring.cell size (b + y.pushed.length + j) = v

/-- what is known while the consumer is in the middle of a call -/
def ConsOk (y : Sys) : Prop :=
  match y.cons with
  | .idle => True
  | .loaded _ r => r = y.ring.readIdx
  | .copying _ n r buf => r = y.ring.readIdx ∧ buf.length ≤ n ∧ y.popped.length + n ≤ y.pushed.length ∧
      buf = (y.pushed.drop y.popped.length).take buf.length

structure RInv (size b : ℕ) (y : Sys) : Prop where
  ok : y.ring.Ok size
  w : y.ring.writeIdx = wrap 64 (b + y.pushed.length)
  r : y.ring.readIdx = wrap 64 (b + y.popped.length)
  room : y.pushed.length ≤ y.popped.length + y.ring.slotCount
  pre : y.popped <+: y.pushed
  cells : ∀ i v, y.popped.length ≤ i → y.pushed[i]? = some v → y.ring.cell size (b + i) = v
  prod : ProdOk size b y
  cons : ConsOk y

section Inv

variable {size b : ℕ} {y y' : Sys}

section

variable (h : RInv size b y)
include h

theorem RInv.le : y.popped.length ≤ y.pushed.length := h.pre.length_le

theorem RInv.count_lt : y.ring.slotCount < 2 ^ 32 := by
  obtain ⟨k, hk, e⟩ := h.ok.pow
  rw [e]
  exact Nat.pow_lt_pow_right (by decide) (by omega)

/-- the difference of the indices is the number of items in the ring -/
theorem RInv.dist_eq : dist 64 y.ring.writeIdx y.ring.readIdx = y.pushed.length - y.popped.length := by
  have hle := h.le
  have hroom := h.room
  have hcount := h.count_lt
  rw [h.w, h.r, dist_wrap (by omega) (by omega)]
  omega

/-- a call of the producer -/
theorem push_inv {call : PushCall} (hs : step size y (.push call) = some y') : RInv size b y' := by
  simp only [step] at hs
  split at hs
  · split_ifs at hs with hall
    cases hs
    refine { h with prod := ⟨rfl, fun v hv => ?_⟩ }
    exact of_decide_eq_true (List.all_eq_true.1 hall v hv)
  · cases hs

/-- a call of the consumer -/
theorem pop_inv {call : PopCall} (hs : step size y (.pop call) = some y') : RInv size b y' := by
  simp only [step] at hs
  split at hs
  · cases hs
    exact { h with cons := rfl }
  · cases hs

/-- a call of the producer that returns without a copy -/
theorem RInv.pushReturns (v : ℤ) : RInv size b (y.pushReturns v) := { h with prod := trivial }

theorem RInv.popReturns (v : ℤ) : RInv size b (y.popReturns v) := { h with cons := trivial }

/-- the room that a batch finds -/
theorem RInv.avail_push : dist 32 y.ring.slotCount (wrap 32 (dist 64 y.ring.writeIdx y.ring.readIdx)) =
      y.ring.slotCount - (y.pushed.length - y.popped.length) := by
  have hroom := h.room
  have hcount := h.count_lt
  have hself : wrap 32 y.ring.slotCount = y.ring.slotCount := Nat.mod_eq_of_lt hcount
  rw [h.dist_eq]
  have hd := dist_wrap (w := 32) (a := y.ring.slotCount) (b := y.pushed.length - y.popped.length) (by omega) (by omega)
  rwa [hself] at hd

theorem RInv.avail_pop : wrap 32 (dist 64 y.ring.writeIdx y.ring.readIdx) = y.pushed.length - y.popped.length := by
  have hroom := h.room
  have hcount := h.count_lt
  rw [h.dist_eq]
  exact Nat.mod_eq_of_lt (by omega)

end

variable {i w n r : ℕ} {one : Bool} {vs : List Item}

section

variable (h : RInv size b y)
include h

/-- the copy of the i-th item of a call -/
theorem copy_inv (hp : y.prod = .copying one vs w i) (hv : vs[i]? = some v) : RInv size b { y with
      ring := { y.ring with data := put y.ring.data (y.ring.slot (wrap 64 (w + i))) v }
      prod := .copying one vs w (i + 1) } := by
  have hprod := h.prod
  rw [ProdOk, hp] at hprod
  obtain ⟨hw, hlen, hroom, hdone⟩ := hprod
  have hi : i < vs.length := (List.getElem?_eq_some_iff.1 hv).1
  have hvl : v.length = size := hlen v (List.mem_of_getElem? hv)
  have hle := h.le
  have hidx : wrap 64 (w + i) = wrap 64 (b + y.pushed.length + i) := by rw [hw, h.w, wrap_wrap_add]
  have hput : { y.ring with data := put y.ring.data (y.ring.slot (wrap 64 (w + i))) v } =
      y.ring.putCell (b + y.pushed.length + i) v := by rw [hidx]; rfl
  rw [hput]
  -- items in the ring and items copied before have other slots
  have hold : ∀ x, b + y.popped.length ≤ x → x < b + y.pushed.length + i →
      (y.ring.putCell (b + y.pushed.length + i) v).cell size x = y.ring.cell size x := by
    intro x h1 h2
    exact cell_putCell_ne h.ok hvl (mod_ne h2 (by omega)).symm
  refine ⟨⟨h.ok.pow, h.ok.fit⟩, h.w, h.r, h.room, h.pre, fun j u hj hu => ?_, ⟨hw, hlen, hroom, fun j hj u hu => ?_⟩, ?_⟩
  · have hjl : j < y.pushed.length := (List.getElem?_eq_some_iff.1 hu).1
    have hj' : y.popped.length ≤ j := hj
    exact (hold (b + j) (by omega) (by omega)).trans (h.cells j u hj hu)
  · rcases Nat.lt_succ_iff_lt_or_eq.1 hj with hlt | rfl
    · exact (hold (b + y.pushed.length + j) (by omega) (by omega)).trans (hdone j hlt u hu)
    · rw [hv] at hu
      cases hu
      exact cell_putCell_self y.ring hvl _
  · exact h.cons

/-- the store of `write_idx` -/
theorem publish_inv (hp : y.prod = .copying one vs w i) (hv : vs[i]? = none) (v : ℤ) : RInv size b { (y.pushReturns v) with
      ring := { y.ring with writeIdx := wrap 64 (w + vs.length) }
      pushed := y.pushed ++ vs } := by
  have hprod := h.prod
  rw [ProdOk, hp] at hprod
  obtain ⟨hw, hlen, hroom, hdone⟩ := hprod
  have hi : vs.length ≤ i := List.getElem?_eq_none_iff.1 hv
  refine ⟨⟨h.ok.pow, h.ok.fit⟩, ?_, h.r, ?_, h.pre.trans (List.prefix_append _ _), fun j u hj hu => ?_, trivial, ?_⟩
  · rw [hw, h.w, wrap_wrap_add, length_append, add_assoc]
  · rw [length_append]
    exact hroom
  · -- a new item was copied before
    rcases Nat.lt_or_ge j y.pushed.length with hlt | hge
    · rw [List.getElem?_append_left hlt] at hu
      exact h.cells j u hj hu
    rw [List.getElem?_append_right hge] at hu
    have hjl : j - y.pushed.length < vs.length := (List.getElem?_eq_some_iff.1 hu).1
    have hc := hdone (j - y.pushed.length) (by omega) u hu
    have e : b + y.pushed.length + (j - y.pushed.length) = b + j := by omega
    rw [e] at hc
    exact hc
  have hcons := h.cons
  rw [ConsOk] at hcons ⊢
  simp only [Sys.pushReturns]
  split at hcons
  · trivial
  · exact hcons
  obtain ⟨c1, c2, c3, c4⟩ := hcons
  refine ⟨c1, c2, ?_, ?_⟩
  · rw [length_append]
    omega
  rw [List.drop_append_of_le_length h.le, List.take_append_of_le_length]
  · exact c4
  · rw [List.length_drop]
    omega

theorem stepProd_inv (hs : stepProd size y = some y') : RInv size b y' := by
  have hprod := h.prod
  have hroom := h.room
  unfold stepProd at hs
  split at hs
  · cases hs
  · next v w hp =>
    rw [ProdOk, hp] at hprod
    obtain ⟨rfl, hlen⟩ := hprod
    rw [h.dist_eq] at hs
    split_ifs at hs with hfull hbig
    · cases hs
      exact h.pushReturns (-1)
    · cases hs
      exact h.pushReturns (-1)
    cases hs
    refine { h with prod := ⟨rfl, hlen, ?_, fun j hj => absurd hj (Nat.not_lt_zero j)⟩ }
    show y.pushed.length + 1 ≤ y.popped.length + y.ring.slotCount
    omega
  · next vs w hp =>
    rw [ProdOk, hp] at hprod
    obtain ⟨rfl, hlen⟩ := hprod
    simp only [h.avail_push] at hs
    by_cases hbig : y.ring.slotSize < size
    · rw [if_pos hbig] at hs
      cases hs
      exact h.pushReturns 0
    rw [if_neg hbig] at hs
    cases hs
    refine { h with prod := ⟨rfl, fun v hv => hlen v (List.mem_of_mem_take hv), ?_,
      fun j hj => absurd hj (Nat.not_lt_zero j)⟩ }
    -- no more items are taken than there is room for
    rw [List.length_take]
    show y.pushed.length + _ ≤ y.popped.length + y.ring.slotCount
    split_ifs <;> omega
  · next one vs w i hp =>
    split at hs
    · next v hv =>
      cases hs
      exact copy_inv h hp hv
    · next hv =>
      cases hs
      exact publish_inv h hp hv _

/-- the copy out of a slot -/
theorem fetch_inv {buf : List Item} (hc : y.cons = .copying one n r buf) (hn : buf.length < n) : RInv size b { y with
      cons := .copying one n r (buf ++ [get y.ring.data (y.ring.slot (wrap 64 (r + buf.length))) size]) } := by
  have hcons := h.cons
  rw [ConsOk, hc] at hcons
  obtain ⟨hr, -, hroom, hbuf⟩ := hcons
  have hlt : y.popped.length + buf.length < y.pushed.length := by omega
  -- the slot holds the item that is next in the order of pushes
  have hcell : get y.ring.data (y.ring.slot (wrap 64 (r + buf.length))) size = y.pushed[y.popped.length + buf.length] := by
    have hx := h.cells (y.popped.length + buf.length) _ (Nat.le_add_right _ _) (List.getElem?_eq_getElem hlt)
    rw [hr, h.r, wrap_wrap_add, add_assoc]
    exact hx
  refine { h with cons := ⟨hr, ?_, hroom, ?_⟩ }
  · rw [length_append]
    exact hn
  have hdrop : buf.length < (y.pushed.drop y.popped.length).length := by
    rw [List.length_drop]
    omega
  rw [hcell, length_append, List.length_singleton, List.take_succ_eq_append_getElem hdrop, ← hbuf,
    List.getElem_drop]

/-- the store of `read_idx` -/
theorem release_inv {buf : List Item} (hc : y.cons = .copying one n r buf) (hn : ¬ buf.length < n) (v : ℤ) :
    RInv size b { (y.popReturns v) with
      ring := { y.ring with readIdx := wrap 64 (r + n) }
      popped := y.popped ++ buf } := by
  have hcons := h.cons
  rw [ConsOk, hc] at hcons
  obtain ⟨hr, hle, hroom, hbuf⟩ := hcons
  have hlen : buf.length = n := le_antisymm hle (Nat.le_of_not_lt hn)
  have hpop : (y.popped ++ buf).length = y.popped.length + n := by rw [length_append, hlen]
  refine ⟨⟨h.ok.pow, h.ok.fit⟩, h.w, ?_, ?_, ?_, fun i u hi hu => ?_, ?_, trivial⟩
  · rw [hr, h.r, wrap_wrap_add, hpop, add_assoc]
  · show y.pushed.length ≤ (y.popped ++ buf).length + y.ring.slotCount
    have := h.room
    omega
  · show y.popped ++ buf <+: y.pushed
    obtain ⟨t, ht⟩ := h.pre
    rw [← ht, List.prefix_append_right_inj]
    rw [← ht, List.drop_left] at hbuf
    rw [hbuf]
    exact List.take_prefix _ _
  · have hi' : (y.popped ++ buf).length ≤ i := hi
    exact h.cells i u (by omega) hu
  have hprod := h.prod
  rw [ProdOk] at hprod ⊢
  simp only [Sys.popReturns]
  split at hprod
  · trivial
  · exact hprod
  · obtain ⟨p1, p2, p3, p4⟩ := hprod
    refine ⟨p1, p2, ?_, p4⟩
    omega

theorem stepCons_inv (hs : stepCons size y = some y') : RInv size b y' := by
  have hcons := h.cons
  have hle := h.le
  unfold stepCons at hs
  split at hs
  · cases hs
  · next r hc =>
    rw [ConsOk, hc] at hcons
    split_ifs at hs with hempty hbig
    · cases hs
      exact h.popReturns (-1)
    · cases hs
      exact h.popReturns (-1)
    cases hs
    refine { h with cons := ⟨hcons, Nat.zero_le 1, ?_, rfl⟩ }
    -- different indices, so there is an item
    show y.popped.length + 1 ≤ y.pushed.length
    by_contra hno
    refine hempty ?_
    rw [hcons, h.r, h.w]
    congr 2
    omega
  · next n r hc =>
    rw [ConsOk, hc] at hcons
    subst hcons
    simp only [h.avail_pop] at hs
    by_cases hbig : y.ring.slotSize < size
    · rw [if_pos hbig] at hs
      cases hs
      exact h.popReturns 0
    rw [if_neg hbig] at hs
    cases hs
    refine { h with cons := ⟨rfl, Nat.zero_le _, ?_, rfl⟩ }
    show y.popped.length + _ ≤ y.pushed.length
    split_ifs <;> omega
  · next one n r buf hc =>
    by_cases hn : buf.length < n
    · rw [if_pos hn] at hs
      cases hs
      exact fetch_inv h hc hn
    · rw [if_neg hn] at hs
      cases hs
      exact release_inv h hc hn _

theorem step_inv {a : Act} (hs : step size y a = some y') : RInv size b y' := by
  cases a with
  | push call => exact push_inv h hs
  | prod => exact stepProd_inv h hs
  | pop call => exact pop_inv h hs
  | cons => exact stepCons_inv h hs

/-- **Every interleaving keeps the invariant.** -/
theorem ring_inv {as : List Act} (hr : run size y as = some y') : RInv size b y' := by
  induction as generalizing y with
  | nil =>
    cases hr
    exact h
  | cons a as ih =>
    obtain ⟨y1, h1, h2⟩ := Option.bind_eq_some_iff.1 hr
    exact ih (step_inv h h1) h2

end

/-! ## The ring as a queue -/

/-- the copies of a push, and its index store: then its items count as pushed, and it returns 0, or how many they are -/
def Stores (size : ℕ) (y : Sys) : Prop := ∀ one vs w i, y.prod = .copying one vs w i →
  ∃ y', step size y .prod = some y' ∧ y'.popped = y.popped ∧
    if i < vs.length then y'.prod = .copying one vs w (i + 1) ∧ y'.pushRet = y.pushRet ∧ y'.pushed = y.pushed
    else y'.prod = .idle ∧ y'.pushRet = some (if one then 0 else (vs.length : ℤ)) ∧ y'.pushed = y.pushed ++ vs

/-- the copies of a pop, and its index store: then what it has copied counts as popped, and it returns 0, or how many -/
def Takes (size : ℕ) (y : Sys) : Prop := ∀ one n r buf, y.cons = .copying one n r buf →
  ∃ y', step size y .cons = some y' ∧ y'.pushed = y.pushed ∧
    if buf.length < n then (∃ v, y'.cons = .copying one n r (buf ++ [v])) ∧ y'.popRet = y.popRet ∧ y'.popped = y.popped
    else y'.cons = .idle ∧ y'.popRet = some (if one then 0 else (buf.length : ℤ)) ∧ y'.popped = y.popped ++ buf

section

variable (h : RInv size b y)
include h

/-- what is in the ring is what was pushed and not popped -/
theorem RInv.fifo : y.pushed = y.popped ++ y.ring.items size := by
  obtain ⟨t, ht⟩ := h.pre
  have hitems : y.ring.items size = t := by
    have hlen : dist 64 y.ring.writeIdx y.ring.readIdx = t.length := by
      rw [h.dist_eq, ← ht, length_append, Nat.add_sub_cancel_left]
    refine List.ext_getElem ?_ fun j h1 h2 => ?_
    · rw [Ring.items, length_map, length_range, Ring.used, hlen]
    have hget : y.pushed[y.popped.length + j]? = some t[j] := by
      rw [← ht, List.getElem?_append_right (Nat.le_add_right _ _), Nat.add_sub_cancel_left,
        List.getElem?_eq_getElem h2]
    have hcell := h.cells _ _ (Nat.le_add_right _ _) hget
    simp only [Ring.items, List.getElem_map, List.getElem_range]
    rw [h.r, wrap_wrap_add, add_assoc]
    exact hcell
  rw [hitems, ht]

theorem RInv.items_length : (y.ring.items size).length = y.pushed.length - y.popped.length := by
  rw [Ring.items, length_map, length_range, Ring.used, h.dist_eq]

/-- the slot that the producer writes next does not overlap those that hold items -/
theorem RInv.fresh (hp : y.prod = .copying one vs w i) (hi : i < vs.length) {j : ℕ} (hj : j < (y.ring.items size).length) :
    y.ring.slot (wrap 64 (w + i)) + y.ring.slotSize ≤ y.ring.slot (wrap 64 (y.ring.readIdx + j)) ∨
    y.ring.slot (wrap 64 (y.ring.readIdx + j)) + y.ring.slotSize ≤ y.ring.slot (wrap 64 (w + i)) := by
  have hprod := h.prod
  rw [ProdOk, hp] at hprod
  obtain ⟨hw, -, hroom, -⟩ := hprod
  rw [h.items_length] at hj
  rw [hw, h.w, h.r, wrap_wrap_add, wrap_wrap_add]
  exact h.ok.slot_disjoint (mod_ne (by omega) (by omega)).symm

/-- the load of `read_idx` in a push -/
theorem RInv.load_push (hp : y.prod = .loaded (.one v) w) : ∃ y', step size y .prod = some y' ∧
      ((y.ring.items size).length = y.ring.slotCount → y'.prod = .idle ∧ y'.pushRet = some (-1)) ∧
      ((y.ring.items size).length ≠ y.ring.slotCount → y'.prod = .copying true [v] w 0) := by
  have hprod := h.prod
  rw [ProdOk, hp] at hprod
  obtain ⟨rfl, -⟩ := hprod
  simp only [step, stepProd, hp]
  rw [h.dist_eq, h.items_length]
  by_cases hfull : y.pushed.length - y.popped.length = y.ring.slotCount
  · rw [if_pos hfull]
    exact ⟨_, rfl, fun _ => ⟨rfl, rfl⟩, fun hne => absurd hfull hne⟩
  · rw [if_neg hfull, if_neg (Nat.not_lt.2 h.ok.fit)]
    exact ⟨_, rfl, fun he => absurd he hfull, fun _ => rfl⟩

/-- the load of `read_idx` in a batch: as many items as there are free slots -/
theorem RInv.load_push_batch (hp : y.prod = .loaded (.batch vs) w) : ∃ y', step size y .prod = some y' ∧
      y'.prod = .copying false (vs.take (y.ring.slotCount - (y.ring.items size).length)) w 0 := by
  have hprod := h.prod
  rw [ProdOk, hp] at hprod
  obtain ⟨rfl, -⟩ := hprod
  simp only [step, stepProd, hp]
  rw [h.avail_push, h.items_length, if_neg (Nat.not_lt.2 h.ok.fit)]
  refine ⟨_, rfl, ?_⟩
  split_ifs with hlt
  · rfl
  · rw [List.take_of_length_le (Nat.le_of_not_lt hlt), List.take_length]

/-- the load of `write_idx` in a pop -/
theorem RInv.load_pop (hc : y.cons = .loaded .one r) : ∃ y', step size y .cons = some y' ∧
      ((y.ring.items size).length = 0 → y'.cons = .idle ∧ y'.popRet = some (-1)) ∧
      ((y.ring.items size).length ≠ 0 → y'.cons = .copying true 1 r []) := by
  have hcons := h.cons
  rw [ConsOk, hc] at hcons
  subst hcons
  have hle := h.le
  have hd := h.dist_eq
  simp only [step, stepCons, hc]
  rw [h.items_length]
  by_cases hempty : y.pushed.length - y.popped.length = 0
  · have he : y.ring.readIdx = y.ring.writeIdx := by
      rw [h.r, h.w]
      congr 2
      omega
    rw [if_pos he]
    exact ⟨_, rfl, fun _ => ⟨rfl, rfl⟩, fun hne => absurd hempty hne⟩
  have hne : y.ring.readIdx ≠ y.ring.writeIdx := by
    intro he
    rw [he, Wrap.dist, Nat.add_sub_cancel_left, Nat.mod_self] at hd
    exact hempty hd.symm
  rw [if_neg hne, if_neg (Nat.not_lt.2 h.ok.fit)]
  exact ⟨_, rfl, fun he => absurd he hempty, fun _ => rfl⟩

/-- the load of `write_idx` in a batch: as many items as there are -/
theorem RInv.load_pop_batch (hc : y.cons = .loaded (.batch n) r) :
    ∃ y', step size y .cons = some y' ∧ y'.cons = .copying false (min (y.ring.items size).length n) r [] := by
  have hcons := h.cons
  rw [ConsOk, hc] at hcons
  subst hcons
  simp only [step, stepCons, hc]
  rw [h.avail_pop, h.items_length, if_neg (Nat.not_lt.2 h.ok.fit)]
  refine ⟨_, rfl, ?_⟩
  split_ifs with hlt
  · rw [min_eq_left hlt.le]
  · rw [min_eq_right (Nat.le_of_not_lt hlt)]

theorem RInv.takes : Takes size y := by
  intro one n r buf hc
  have hcons := h.cons
  rw [ConsOk, hc] at hcons
  simp only [step, stepCons, hc]
  by_cases hn : buf.length < n
  · rw [if_pos hn]
    exact ⟨_, rfl, rfl, by rw [if_pos hn]; exact ⟨⟨_, rfl⟩, rfl, rfl⟩⟩
  · rw [if_neg hn, le_antisymm hcons.2.1 (Nat.le_of_not_lt hn)]
    exact ⟨_, rfl, rfl, by rw [if_neg (lt_irrefl n)]; exact ⟨rfl, rfl, rfl⟩⟩

end

theorem stores (size : ℕ) (y : Sys) : Stores size y := by
  intro one vs w i hp
  simp only [step, stepProd, hp]
  by_cases hi : i < vs.length
  · rw [List.getElem?_eq_getElem hi]
    exact ⟨_, rfl, rfl, by rw [if_pos hi]; exact ⟨rfl, rfl, rfl⟩⟩
  · rw [List.getElem?_eq_none (Nat.le_of_not_lt hi)]
    exact ⟨_, rfl, rfl, by rw [if_neg hi]; exact ⟨rfl, rfl, rfl⟩⟩

end Inv

/-! ## Every interleaving -/

/-- what `ringbuf_init` has checked, and the range of the fields -/
structure Ring.Init (rb : Ring) : Prop where
  pow : isPow2 rb.slotCount = true
  small : rb.slotCount < 2 ^ 32
  write : rb.writeIdx < 2 ^ 64
  read : rb.readIdx < 2 ^ 64
  full : rb.used ≤ rb.slotCount

theorem pow_of_isPow2 {n : ℕ} (h : isPow2 n = true) (hn : n < 2 ^ 32) : ∃ k, k ≤ 31 ∧ n = 2 ^ k := by
  rw [isPow2, Bool.and_eq_true, decide_eq_true_eq, decide_eq_true_eq] at h
  obtain ⟨k, rfl⟩ := (Nat.and_sub_one_eq_zero_iff_isPowerOfTwo h.1).1 h.2
  have hk := (Nat.pow_lt_pow_iff_right (by decide)).1 hn
  exact ⟨k, by omega, rfl⟩

/-- a ring that `ringbuf_init` has set up is initialised and empty -/
theorem ringbufInit_init {data : Mem} {slotSize slotCount : ℕ} {rb : Ring} (hn : slotCount < 2 ^ 32)
    (h : ringbufInit data slotSize slotCount = some rb) : rb.Init ∧ rb.slotSize = slotSize ∧ rb.items 0 = [] := by
  unfold ringbufInit at h
  split_ifs at h with h1 h2
  cases h
  simp only [Bool.or_eq_true, Bool.not_eq_true', decide_eq_true_eq, not_or, Bool.not_eq_false] at h2
  have hzero : dist 64 0 0 = 0 := Nat.mod_self _
  have hfull : dist 64 0 0 ≤ slotCount := hzero.le.trans (Nat.zero_le slotCount)
  refine ⟨⟨h2.1, hn, Nat.two_pow_pos 64, Nat.two_pow_pos 64, hfull⟩, rfl, ?_⟩
  rw [Ring.items, Ring.used, hzero]
  rfl

theorem start_inv {rb : Ring} {size : ℕ} (h : rb.Init) (hsz : size ≤ rb.slotSize) :
    RInv size rb.readIdx (Sys.start rb size) := by
  have hlen : (rb.items size).length = rb.used := by
    rw [Ring.items, length_map, length_range]
  refine ⟨⟨pow_of_isPow2 h.pow h.small, hsz⟩, ?_, ?_, ?_, List.nil_prefix, fun i v _ hv => ?_, trivial, trivial⟩
  · show rb.writeIdx = wrap 64 (rb.readIdx + (rb.items size).length)
    rw [hlen, wrap_add_dist h.write h.read]
  · exact (Nat.mod_eq_of_lt h.read).symm
  · show (rb.items size).length ≤ 0 + rb.slotCount
    rw [hlen, zero_add]
    exact h.full
  have hv' : (rb.items size)[i]? = some v := hv
  rw [Ring.items, List.getElem?_map, Option.map_eq_some_iff] at hv'
  obtain ⟨j, hj, rfl⟩ := hv'
  rw [(List.getElem?_eq_some_iff.1 hj).2.symm, List.getElem_range]
  rfl

/-- what the ring promises in a state -/
structure RingSound (size : ℕ) (y : Sys) : Prop where
  /-- popped items are a prefix of the pushed ones, and the rest is in the ring, in order -/
  fifo : y.pushed = y.popped ++ y.ring.items size
  bound : (y.ring.items size).length ≤ y.ring.slotCount
  /-- the next copy of the producer goes to a slot that holds no unread item -/
  fresh : ∀ one vs w i, y.prod = .copying one vs w i → i < vs.length → ∀ j < (y.ring.items size).length,
    y.ring.slot (wrap 64 (w + i)) + y.ring.slotSize ≤ y.ring.slot (wrap 64 (y.ring.readIdx + j)) ∨
    y.ring.slot (wrap 64 (y.ring.readIdx + j)) + y.ring.slotSize ≤ y.ring.slot (wrap 64 (w + i))
  /-- the index load of a push: it fails if the ring is full, and only then -/
  push : ∀ v w, y.prod = .loaded (.one v) w → ∃ y', step size y .prod = some y' ∧
    ((y.ring.items size).length = y.ring.slotCount → y'.prod = .idle ∧ y'.pushRet = some (-1)) ∧
    ((y.ring.items size).length ≠ y.ring.slotCount → y'.prod = .copying true [v] w 0)
  pushBatch : ∀ vs w, y.prod = .loaded (.batch vs) w → ∃ y', step size y .prod = some y' ∧
    y'.prod = .copying false (vs.take (y.ring.slotCount - (y.ring.items size).length)) w 0
  store : Stores size y
  /-- the index load of a pop: it fails if the ring is empty, and only then -/
  pop : ∀ r, y.cons = .loaded .one r → ∃ y', step size y .cons = some y' ∧
    ((y.ring.items size).length = 0 → y'.cons = .idle ∧ y'.popRet = some (-1)) ∧
    ((y.ring.items size).length ≠ 0 → y'.cons = .copying true 1 r [])
  popBatch : ∀ n r, y.cons = .loaded (.batch n) r → ∃ y', step size y .cons = some y' ∧
    y'.cons = .copying false (min (y.ring.items size).length n) r []
  take : Takes size y

/-- **The ring is a bounded FIFO queue under every interleaving.** From every initialised ring, wherever its indices
start, in every state that steps of one producer and one consumer reach. -/
theorem ring_run_sound {rb : Ring} {size : ℕ} (hi : rb.Init) (hsz : size ≤ rb.slotSize) {as : List Act} {y : Sys}
    (hr : run size (Sys.start rb size) as = some y) : RingSound size y := by
  have h := ring_inv (start_inv hi hsz) hr
  refine ⟨h.fifo, ?_, fun one vs w i hp hlt j hj => h.fresh hp hlt hj, fun v w hp => h.load_push hp,
    fun vs w hp => h.load_push_batch hp, stores size y, fun r hc => h.load_pop hc,
    fun n r hc => h.load_pop_batch hc, h.takes⟩
  have hroom := h.room
  rw [h.items_length]
  omega

/-- indices that start at the last 64-bit value: a batch of three into two slots, then a pop and one more push -/
theorem ring_run_sound_wrap : ∃ y, run 1 (Sys.start ⟨8, 2, 2 ^ 64 - 1, 2 ^ 64 - 1, fun _ => 0⟩ 1)
    [.push (.batch [[1], [2], [3]]), .prod, .prod, .pop .one, .prod, .prod, .cons, .cons, .push (.one [4]), .cons,
      .prod, .prod, .prod] = some y ∧
    (y.pushed, y.popped, y.pushRet) = ([[1], [2], [4]], [[1]], some 0) ∧ RingSound 1 y := by
  have hrun : (run 1 (Sys.start ⟨8, 2, 2 ^ 64 - 1, 2 ^ 64 - 1, fun _ => 0⟩ 1)
    [.push (.batch [[1], [2], [3]]), .prod, .prod, .pop .one, .prod, .prod, .cons, .cons, .push (.one [4]), .cons,
      .prod, .prod, .prod]).map (fun y => (y.pushed, y.popped, y.pushRet)) = some ([[1], [2], [4]], [[1]], some 0) := by
    decide +kernel
  obtain ⟨y, hy, hp⟩ := Option.map_eq_some_iff.1 hrun
  have hi : Ring.Init ⟨8, 2, 2 ^ 64 - 1, 2 ^ 64 - 1, fun _ => 0⟩ :=
    ⟨by decide, by decide, by decide, by decide, by decide +kernel⟩
  exact ⟨y, hy, hp, ring_run_sound hi (by decide) hy⟩

end OpenASD.Ipc
