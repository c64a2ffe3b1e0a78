/-
A part of x86-64 as seen by straight-line kernel code: the general registers, flags, selectors, CR3, model specific registers
and a memory of bytes at 64-bit addresses. Addresses wrap. What the manual leaves undefined in the flags is given by `undef`.

- `load_store`, `load_store_of_apart`: eight bytes are read back, others are as they were.
- `load_store_disp`: words at displacements from one base; `Separate.load_left`, `Separate.load_right`: two separate blocks.
- `subFlags_zf`: what a conditional jump sees after a comparison.
-/
import Mathlib.Algebra.Group.Nat.Defs
import Mathlib.Tactic.Common

namespace OpenASD.X86

/-! ## Memory -/

abbrev Word := BitVec 64
abbrev Memory := Word → BitVec 8

/-- the eight bytes from a on, the lowest first -/
def load (m : Memory) (a : Word) : Word :=
  m (a + 7) ++ m (a + 6) ++ m (a + 5) ++ m (a + 4) ++ m (a + 3) ++ m (a + 2) ++ m (a + 1) ++ m a

def store (m : Memory) (a v : Word) : Memory :=
  fun x => if (x - a).toNat < 8 then v.extractLsb' (8 * (x - a).toNat) 8 else m x

theorem store_at (m : Memory) (a v i : Word) (hi : i.toNat < 8) : store m a v (a + i) = v.extractLsb' (8 * i.toNat) 8 := by
  have h : a + i - a = i := by rw [BitVec.add_comm, BitVec.add_sub_cancel]
  rw [store, h, if_pos hi]

theorem load_store (m : Memory) (a v : Word) : load (store m a v) a = v := by
  have h0 : store m a v a = v.extractLsb' 0 8 := by
    simpa using store_at m a v 0 (by decide)
  rw [load, h0]
  iterate 7 rw [store_at m a v _ (by decide)]
  -- the bytes are put together from the highest on
  iterate 7 rw [BitVec.extractLsb'_append_extractLsb'_eq_extractLsb' (by decide)]
  exact BitVec.extractLsb'_eq_self

theorem load_congr {m m' : Memory} {a : Word} (h : ∀ i < 8, m (a + BitVec.ofNat 64 i) = m' (a + BitVec.ofNat 64 i)) :
    load m a = load m' a := by
  have h0 : m a = m' a := by simpa using h 0 (by decide)
  have h1 : m (a + 1) = m' (a + 1) := h 1 (by decide)
  have h2 : m (a + 2) = m' (a + 2) := h 2 (by decide)
  have h3 : m (a + 3) = m' (a + 3) := h 3 (by decide)
  have h4 : m (a + 4) = m' (a + 4) := h 4 (by decide)
  have h5 : m (a + 5) = m' (a + 5) := h 5 (by decide)
  have h6 : m (a + 6) = m' (a + 6) := h 6 (by decide)
  have h7 : m (a + 7) = m' (a + 7) := h 7 (by decide)
  rw [load, load, h0, h1, h2, h3, h4, h5, h6, h7]

/-- two words have no byte in common -/
def Apart (a b : Word) : Prop := 8 ≤ (b - a).toNat ∧ 8 ≤ (a - b).toNat

theorem load_store_of_apart {a b : Word} (h : Apart a b) (m : Memory) (v : Word) : load (store m a v) b = load m b := by
  obtain ⟨h1, h2⟩ := h
  apply load_congr
  intro i hi
  apply if_neg
  bv_omega

theorem Apart.symm {a b : Word} (h : Apart a b) : Apart b a := ⟨h.2, h.1⟩

/-! ## Blocks of words -/

theorem add_disp (c : Word) (i j : ℕ) : c + BitVec.ofNat 64 i + BitVec.ofNat 64 j = c + BitVec.ofNat 64 (i + j) := by
  rw [BitVec.add_assoc, BitVec.ofNat_add]

theorem sub_disp (c : Word) {i j : ℕ} (h : j ≤ i) :
    c + BitVec.ofNat 64 i - BitVec.ofNat 64 j = c + BitVec.ofNat 64 (i - j) := by
  obtain ⟨k, rfl⟩ := Nat.exists_eq_add_of_le' h
  rw [Nat.add_sub_cancel, ← add_disp, BitVec.add_sub_cancel]

/-- words of one block -/
theorem load_store_disp (m : Memory) (c v : Word) {i j : ℕ} (hi : i < 2 ^ 32) (hj : j < 2 ^ 32) (h : i + 8 ≤ j ∨ j + 8 ≤ i) :
    load (store m (c + BitVec.ofNat 64 i) v) (c + BitVec.ofNat 64 j) = load m (c + BitVec.ofNat 64 j) := by
  apply load_store_of_apart
  constructor <;> bv_omega

/-- the blocks of n bytes at c and of k bytes at s have no byte in common -/
def Separate (c : Word) (n : ℕ) (s : Word) (k : ℕ) : Prop := n ≤ (s - c).toNat ∧ k ≤ (c - s).toNat

namespace Separate

variable {c s : Word} {n k i j : ℕ}

theorem apart (h : Separate c n s k) (hi : i + 8 ≤ n) (hj : j + 8 ≤ k) :
    Apart (c + BitVec.ofNat 64 i) (s + BitVec.ofNat 64 j) := by
  obtain ⟨h1, h2⟩ := h
  constructor <;> bv_omega

section

variable (h : Separate c n s k) (m : Memory) (v : Word) (hi : i + 8 ≤ n) (hj : j + 8 ≤ k)
include h m v hi hj

theorem load_left : load (store m (s + BitVec.ofNat 64 j) v) (c + BitVec.ofNat 64 i) = load m (c + BitVec.ofNat 64 i) :=
  load_store_of_apart (h.apart hi hj).symm m v

theorem load_right : load (store m (c + BitVec.ofNat 64 i) v) (s + BitVec.ofNat 64 j) = load m (s + BitVec.ofNat 64 j) :=
  load_store_of_apart (h.apart hi hj) m v

end

end Separate

/-! ## Processor -/

inductive Reg where
  | rax | rbx | rcx | rdx | rsi | rdi | rbp | rsp | r8 | r9 | r10 | r11 | r12 | r13 | r14 | r15
deriving DecidableEq

structure Cpu where
  reg : Reg → Word
  rip : Word
  rflags : Word
  cs : BitVec 16
  ss : BitVec 16
  cr3 : Word
  msr : BitVec 32 → Word
  mem : Memory

namespace Cpu

def set (c : Cpu) (r : Reg) (v : Word) : Cpu := { c with reg := Function.update c.reg r v }

def setMem (c : Cpu) (a v : Word) : Cpu := { c with mem := store c.mem a v }

/-- the address `disp(%base)` -/
def addr (c : Cpu) (disp : ℕ) (base : Reg) : Word := c.reg base + BitVec.ofNat 64 disp

end Cpu

/-! ## Flags -/

def putBit (w : Word) (i : ℕ) (b : Bool) : Word := if b then w ||| (1#64 <<< i) else w &&& ~~~(1#64 <<< i)

theorem getLsbD_putBit (w : Word) {i j : ℕ} (hj : j < 64) (b : Bool) :
    (putBit w i b).getLsbD j = if i = j then b else w.getLsbD j := by
  unfold putBit
  cases b <;> by_cases h : i = j <;> simp [h, hj] <;> omega

/-- CF, PF, AF, ZF, SF and OF -/
structure Status where
  cf : Bool
  pf : Bool
  af : Bool
  zf : Bool
  sf : Bool
  of : Bool

def setStatus (w : Word) (s : Status) : Word :=
  putBit (putBit (putBit (putBit (putBit (putBit w 0 s.cf) 2 s.pf) 4 s.af) 6 s.zf) 7 s.sf) 11 s.of

/-- an even number of ones in the low byte -/
def parity (v : Word) : Bool := ((List.range 8).countP fun i => v.getLsbD i) % 2 = 0

/-- PF, ZF and SF say something about the result of every operation -/
def statusOf (v : Word) (cf af of : Bool) : Status := ⟨cf, parity v, af, v = 0, v.msb, of⟩

/-! ## Instructions -/

/-- in the order of operands of the manual: the destination first -/
inductive Instr where
  | mov (dst src : Reg)
  | movImm32 (dst : Reg) (v : BitVec 32)
  | load (dst : Reg) (disp : ℕ) (base : Reg)
  | store (disp : ℕ) (base src : Reg)
  | lea (dst : Reg) (disp : ℕ) (base : Reg)
  | xor (dst src : Reg)
  | or (dst src : Reg)
  | cmp (a b : Reg)
  | subImm (dst : Reg) (n : ℕ)
  | shl (dst : Reg) (n : ℕ)
  | shr (dst : Reg) (n : ℕ)
  | push (src : Reg)
  | pop (dst : Reg)
  | pushf
  | fromCr3 (dst : Reg)
  | toCr3 (src : Reg)
  | rdmsr
  | wrmsr
  | movwCs (dst : Reg)
  | movwSs (dst : Reg)
  | jeOver (next : Instr)
  | ret
  | iret

section

variable (undef : Word → Bool)

def logicFlags (f v : Word) : Word := setStatus f (statusOf v false (undef v) false)

def subFlags (f a b : Word) : Word :=
  setStatus f (statusOf (a - b) (decide (a < b)) (decide (a.toNat % 16 < b.toNat % 16))
    ((a.msb != b.msb) && ((a - b).msb != a.msb)))

/-- a shift by more than one place; the last bit that is moved out is `cf` -/
def shiftFlags (f v : Word) (cf : Bool) : Word := setStatus f (statusOf v cf (undef v) (undef v))

/-- ZF after a comparison -/
theorem subFlags_zf (f a b : Word) : (subFlags f a b).getLsbD 6 = decide (a = b) := by
  have hzero : (a - b = 0) ↔ (a = b) := by
    constructor
    · intro h
      bv_omega
    · intro h
      rw [h, BitVec.sub_self]
      rfl
  calc (subFlags f a b).getLsbD 6 = decide (a - b = 0) := by
        unfold subFlags setStatus
        rw [getLsbD_putBit _ (by decide), if_neg (by decide), getLsbD_putBit _ (by decide), if_neg (by decide),
          getLsbD_putBit _ (by decide), if_pos rfl]
        rfl
    _ = decide (a = b) := decide_eq_decide.2 hzero

/-- what `pushfq` stores: RF and VM are cleared -/
def flagImage (f : Word) : Word := f &&& 0xFCFFFF

def exec (c : Cpu) : Instr → Cpu
  | .mov dst src => c.set dst (c.reg src)
  | .movImm32 dst v => c.set dst (v.setWidth 64)
  | .load dst disp base => c.set dst (X86.load c.mem (c.addr disp base))
  | .store disp base src => c.setMem (c.addr disp base) (c.reg src)
  | .lea dst disp base => c.set dst (c.addr disp base)
  | .xor dst src =>
    { c.set dst (c.reg dst ^^^ c.reg src) with rflags := logicFlags undef c.rflags (c.reg dst ^^^ c.reg src) }
  | .or dst src =>
    { c.set dst (c.reg dst ||| c.reg src) with rflags := logicFlags undef c.rflags (c.reg dst ||| c.reg src) }
  | .cmp a b => { c with rflags := subFlags c.rflags (c.reg a) (c.reg b) }
  | .subImm dst n =>
    { c.set dst (c.reg dst - BitVec.ofNat 64 n) with rflags := subFlags c.rflags (c.reg dst) (BitVec.ofNat 64 n) }
  | .shl dst n =>
    { c.set dst (c.reg dst <<< n) with
      rflags := shiftFlags undef c.rflags (c.reg dst <<< n) ((c.reg dst).getLsbD (64 - n)) }
  | .shr dst n =>
    { c.set dst (c.reg dst >>> n) with
      rflags := shiftFlags undef c.rflags (c.reg dst >>> n) ((c.reg dst).getLsbD (n - 1)) }
  | .push src => (c.setMem (c.reg .rsp - 8#64) (c.reg src)).set .rsp (c.reg .rsp - 8#64)
  | .pop dst => (c.set .rsp (c.reg .rsp + 8#64)).set dst (X86.load c.mem (c.reg .rsp))
  | .pushf => (c.setMem (c.reg .rsp - 8#64) (flagImage c.rflags)).set .rsp (c.reg .rsp - 8#64)
  | .fromCr3 dst => c.set dst c.cr3
  | .toCr3 src => { c with cr3 := c.reg src }
  | .rdmsr =>
    let v := c.msr ((c.reg .rcx).setWidth 32)
    (c.set .rax ((v.setWidth 32).setWidth 64)).set .rdx (v >>> 32)
  | .wrmsr =>
    let v : BitVec (32 + 32) := (c.reg .rdx).setWidth 32 ++ (c.reg .rax).setWidth 32
    { c with msr := Function.update c.msr ((c.reg .rcx).setWidth 32) v }
  | .movwCs dst => c.set dst ((c.reg dst >>> 16 <<< 16) ||| c.cs.setWidth 64)
  | .movwSs dst => c.set dst ((c.reg dst >>> 16 <<< 16) ||| c.ss.setWidth 64)
  | .jeOver next => if c.rflags.getLsbD 6 then c else exec c next
  | .ret => { c.set .rsp (c.reg .rsp + 8#64) with rip := X86.load c.mem (c.reg .rsp) }
  | .iret =>
    { c.set .rsp (X86.load c.mem (c.addr 24 .rsp)) with
      rip := X86.load c.mem (c.addr 0 .rsp)
      cs := (X86.load c.mem (c.addr 8 .rsp)).setWidth 16
      rflags := X86.load c.mem (c.addr 16 .rsp)
      ss := (X86.load c.mem (c.addr 32 .rsp)).setWidth 16 }

def run (c : Cpu) (code : List Instr) : Cpu := code.foldl (exec undef) c

end

/-! ## Halves of a word -/

/-- what `rdmsr` takes apart is put together -/
theorem halves_or (v : Word) : ((v.setWidth 32).setWidth 64 : Word) ||| v >>> 32 <<< 32 = v := by
  apply BitVec.eq_of_getLsbD_eq
  intro i hi
  by_cases h : i < 32
  · simp [h, hi]
  · have hsum : 32 + (i - 32) = i := by omega
    simp [h, hi, hsum]

/-- what `wrmsr` puts together -/
theorem halves_append (v : Word) : ((v >>> 32).setWidth 32 ++ v.setWidth 32 : BitVec (32 + 32)) = v := by
  apply BitVec.eq_of_getLsbD_eq
  intro i hi
  rw [BitVec.getLsbD_append]
  by_cases h : i < 32
  · simp [h]
  · have hsum : 32 + (i - 32) = i := by omega
    have hlow : i - 32 < 32 := by omega
    simp [h, hsum, hlow]

end OpenASD.X86
