/-
The sections of a driver module (kernel/drv/adf.c: elf_load, passes 1 and 2). A module enters as its section headers.

Both passes move a cursor over the sections that are loaded: the sizing pass over all of them, to the size of the buffer, the
copying pass over the first 256, to the place of each.
- `layout_sound`: the passes agree, and the sections are aligned, inside the buffer and apart, if none is behind the first 256
  headers, every alignment is a power of two that the buffer has too, and the sizes do not wrap;
- `layout_broken`: an alignment of 0 sends the cursor back to the start.
-/
import Mathlib.Data.Nat.Bitwise
import Mathlib.Tactic

namespace OpenASD.Adf

/-- `Elf64_Shdr` as far as the passes read it -/
structure Shdr where
  shType : ℕ
  shSize : UInt64
  shAddralign : UInt64
deriving DecidableEq, Repr

/-- SHT_PROGBITS or SHT_NOBITS -/
def Shdr.Loaded (sh : Shdr) : Prop := sh.shType = 1 ∨ sh.shType = 8

instance (sh : Shdr) : Decidable sh.Loaded := inferInstanceAs (Decidable (_ ∨ _))

def aligned (cursor align : UInt64) : UInt64 := (cursor + align - 1) &&& ~~~(align - 1)

/-- the loaded sections with their offsets, and the cursor at the end -/
def layout : UInt64 → List Shdr → List (Shdr × UInt64) × UInt64
  | cursor, [] => ([], cursor)
  | cursor, sh :: shdrs =>
    if sh.Loaded then
      let off := aligned cursor sh.shAddralign
      let r := layout (off + sh.shSize) shdrs
      ((sh, off) :: r.1, r.2)
    else layout cursor shdrs

def sizingPass (shdrs : List Shdr) : List (Shdr × UInt64) × UInt64 := layout 0 shdrs

def copyingPass (shdrs : List Shdr) : List (Shdr × UInt64) := (layout 0 (shdrs.take 256)).1

/-- the end of a section -/
def lim (x : Shdr × UInt64) : ℕ := x.2.toNat + x.1.shSize.toNat

/-- a buffer at base in which all is well; an alignment of 0 asks for nothing -/
structure Laid (base : ℕ) (shdrs : List Shdr) : Prop where
  agree : copyingPass shdrs = (sizingPass shdrs).1
  aligned : ∀ x ∈ copyingPass shdrs, x.1.shAddralign = 0 ∨ x.1.shAddralign.toNat ∣ base + x.2.toNat
  inside : ∀ x ∈ copyingPass shdrs, lim x ≤ (sizingPass shdrs).2.toNat
  apart : (copyingPass shdrs).Pairwise fun x y => lim x ≤ y.2.toNat ∨ lim y ≤ x.2.toNat

/-- the room that the loaded sections ask for -/
def room (shdrs : List Shdr) : ℕ :=
  ((shdrs.filter fun sh => sh.Loaded).map fun sh => sh.shAddralign.toNat + sh.shSize.toNat).sum

/-- the next multiple of a power of two -/
theorem aligned_spec {c a : UInt64} {k : ℕ} (hk : a.toNat = 2 ^ k) (h : c.toNat + a.toNat < 2 ^ 64) :
    c.toNat ≤ (aligned c a).toNat ∧ (aligned c a).toNat < c.toNat + a.toNat ∧
    a.toNat ∣ (aligned c a).toNat := by
  have hpos := Nat.two_pow_pos k
  have hone : (1 : UInt64).toNat = 1 := rfl
  have hsum : (c + a - 1).toNat = c.toNat + a.toNat - 1 := by
    rw [UInt64.toNat_sub, UInt64.toNat_add, hone]
    omega
  have hmask : (~~~(a - 1)).toNat = 2 ^ 64 - (2 ^ k - 1 + 1) := by
    rw [UInt64.toNat_not, UInt64.toNat_sub, hone, UInt64.size]
    omega
  have heq : (aligned c a).toNat = (c.toNat + a.toNat - 1) / 2 ^ k * 2 ^ k := by
    rw [aligned, UInt64.toNat_and, hsum, hmask]
    refine Nat.eq_of_testBit_eq fun i => ?_
    rw [Nat.testBit_and, Nat.testBit_two_pow_sub_succ (by omega), Nat.testBit_two_pow_sub_one, Nat.testBit_mul_two_pow,
      Nat.testBit_div_two_pow]
    by_cases hi : i < k
    · simp [hi]
    rw [Nat.sub_add_cancel (Nat.le_of_not_lt hi)]
    by_cases h64 : i < 64
    · simp [hi, h64, Nat.le_of_not_lt hi]
    have hbit : (c.toNat + a.toNat - 1).testBit i = false := by
      refine Nat.testBit_lt_two_pow (lt_of_lt_of_le ?_ (Nat.pow_le_pow_right two_pos (Nat.le_of_not_lt h64)))
      omega
    simp [hbit]
  have hlow := Nat.div_mul_le_self (c.toNat + a.toNat - 1) (2 ^ k)
  have hhigh := Nat.lt_div_mul_add (a := c.toNat + a.toNat - 1) hpos
  rw [heq]
  exact ⟨by omega, by omega, hk ▸ Nat.dvd_mul_left _ _⟩

/-- a power of two that the address of the buffer is a multiple of -/
def Regular (base align : ℕ) : Prop := (∃ k, align = 2 ^ k) ∧ align ∣ base

section

variable {base : ℕ} {c : UInt64} {shdrs : List Shdr}

/-- the sections follow each other between the cursors -/
theorem layout_spec (h2 : ∀ sh ∈ shdrs, sh.Loaded → Regular base sh.shAddralign.toNat)
    (hroom : c.toNat + room shdrs < 2 ^ 64) : c.toNat ≤ (layout c shdrs).2.toNat ∧
    (∀ x ∈ (layout c shdrs).1, x.1.shAddralign.toNat ∣ base + x.2.toNat ∧ c.toNat ≤ x.2.toNat ∧
      lim x ≤ (layout c shdrs).2.toNat) ∧ (layout c shdrs).1.Pairwise fun x y => lim x ≤ y.2.toNat := by
  induction shdrs generalizing c with
  | nil => exact ⟨le_rfl, nofun, .nil⟩
  | cons sh shdrs ih =>
    obtain ⟨hsh, hrest⟩ := List.forall_mem_cons.1 h2
    simp only [room, List.filter_cons, decide_eq_true_eq] at hroom
    rw [layout]
    split_ifs at hroom ⊢ with hl
    · have hcons : c.toNat + (sh.shAddralign.toNat + sh.shSize.toNat + room shdrs) < 2 ^ 64 := hroom
      obtain ⟨⟨k, hk⟩, hbase⟩ := hsh hl
      obtain ⟨hlow, hhigh, hdvd⟩ := aligned_spec (c := c) hk (by omega)
      have hlim : (aligned c sh.shAddralign + sh.shSize).toNat = (aligned c sh.shAddralign).toNat + sh.shSize.toNat := by
        rw [UInt64.toNat_add]
        exact Nat.mod_eq_of_lt (by omega)
      obtain ⟨h1, h3, h4⟩ := ih (c := aligned c sh.shAddralign + sh.shSize) hrest (by omega)
      refine ⟨by dsimp only; omega, List.forall_mem_cons.2 ⟨⟨Nat.dvd_add hbase hdvd, hlow, hlim.ge.trans h1⟩, fun x hx => ?_⟩,
        List.pairwise_cons.2 ⟨fun y hy => hlim.ge.trans (h3 y hy).2.1, h4⟩⟩
      obtain ⟨hd, hc, hx'⟩ := h3 x hx
      exact ⟨hd, by omega, hx'⟩
    · exact ih hrest hroom

/-- headers at the end that are not loaded take no part -/
theorem layout_append (c : UInt64) (shdrs : List Shdr) {rest : List Shdr} (h : ∀ sh ∈ rest, ¬ sh.Loaded) :
    layout c (shdrs ++ rest) = layout c shdrs := by
  induction shdrs generalizing c with
  | nil =>
    induction rest with
    | nil => rfl
    | cons sh rest ih => exact (if_neg (h sh (by simp))).trans (ih fun v hv => h v (List.mem_cons_of_mem sh hv))
  | cons sh shdrs ih => simp only [List.cons_append, layout, ih]

/-- **Layout.** For every table and every buffer: if no loaded section is behind the first 256 headers, and the alignments of
the loaded sections are powers of two that divide the address of the buffer and do not add up to 2^64 with the sizes, all is
well. -/
theorem layout_sound (hmax : ∀ sh ∈ shdrs.drop 256, ¬ sh.Loaded) (hroom : room shdrs < 2 ^ 64)
    (h2 : ∀ sh ∈ shdrs, sh.Loaded → Regular base sh.shAddralign.toNat) : Laid base shdrs := by
  have hall : copyingPass shdrs = (sizingPass shdrs).1 := by
    rw [copyingPass, sizingPass, ← layout_append 0 (shdrs.take 256) hmax, List.take_append_drop]
  obtain ⟨-, h3, h4⟩ := layout_spec (c := 0) h2 (by simpa using hroom)
  refine ⟨hall, ?_, ?_, ?_⟩ <;> rw [hall]
  · exact fun x hx => .inr (h3 x hx).1
  · exact fun x hx => (h3 x hx).2.2
  · exact h4.imp .inl

end

/-- code of 10 bytes with alignment 16, data of 8 bytes with alignment 8, and a large section that is not loaded -/
theorem layout_sound_two : Laid 4096 [⟨1, 10, 16⟩, ⟨2, 0xFFFFFFFFFFFFFFFF, 3⟩, ⟨8, 8, 8⟩] := by
  refine layout_sound (by decide) (by decide) ?_
  simp only [List.mem_cons, List.not_mem_nil, or_false, forall_eq_or_imp, forall_eq]
  exact ⟨fun _ => ⟨⟨4, rfl⟩, by decide⟩, fun h => absurd h (by decide), fun _ => ⟨⟨3, rfl⟩, by decide⟩⟩

/-- **An alignment of 0.** The mask has no bit: the second section is placed on the first, and the buffer has its size. -/
theorem layout_broken : (sizingPass [⟨1, 10, 16⟩, ⟨1, 8, 0⟩]).2 = 8 ∧ ¬ Laid 4096 [⟨1, 10, 16⟩, ⟨1, 8, 0⟩] := by
  refine ⟨by decide, fun h => ?_⟩
  exact absurd (h.inside (⟨1, 10, 16⟩, 0) (by decide)) (by decide)

end OpenASD.Adf
