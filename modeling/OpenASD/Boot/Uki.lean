/-
The sections of a loaded PE image (boot/uki_stub.c: pe_find_section). The memory is counted from the image base, so that an
address is an offset; the firmware has put each section at its virtual address.

`find_section_iff`: the function finds a section exactly if there is one of that name. What it returns is where the section
is in the file, so it is right exactly if the first section of that name has the same place and size in memory.
-/
import OpenASD.Core.ByteMem

namespace OpenASD.Boot

open ByteMem

/-- the loop over the name: n bytes are left; wc is 0 at the end of the name -/
def nameMatches (b : Mem) : ℕ → ℕ → List UInt8 → Bool
  | 0, _, _ => true
  | n + 1, p, name =>
    let wc := name.headD 0
    if b p ≠ wc then false else if wc = 0 then true else nameMatches b n (p + 1) name.tail

/-- the loop over the section headers, of which n are left and the next one is at sh: pointer and size -/
def sectionLoop (b : Mem) (name : List UInt8) : ℕ → ℕ → Option (ℕ × ℕ)
  | 0, _ => none
  | n + 1, sh =>
    if nameMatches b 8 sh name then some (read b (sh + 20) 4, read b (sh + 16) 4)
    else sectionLoop b name n (sh + 40)

def peFindSection (b : Mem) (name : List UInt8) : Option (ℕ × ℕ) :=
  if b 0 ≠ 0x4D ∨ b 1 ≠ 0x5A then none
  else
    let pe := read b 0x3C 4
    if b pe ≠ 0x50 ∨ b (pe + 1) ≠ 0x45 ∨ b (pe + 2) ≠ 0 ∨ b (pe + 3) ≠ 0 then none
    else
      let opt := pe + 24
      if read b opt 2 ≠ 0x20B then none else sectionLoop b name (read b (pe + 6) 2) (opt + read b (pe + 20) 2)

/-! ## Images -/

/-- a section header -/
structure Section where
  name : List UInt8
  virtualSize : ℕ
  virtualAddress : ℕ
  sizeOfRawData : ℕ
  pointerToRawData : ℕ
deriving DecidableEq

def sectionAt (b : Mem) (sh : ℕ) : Section where
  name := (get b sh 8).takeWhile (· ≠ 0)
  virtualSize := read b (sh + 8) 4
  virtualAddress := read b (sh + 12) 4
  sizeOfRawData := read b (sh + 16) 4
  pointerToRawData := read b (sh + 20) 4

/-- a PE32+ image in memory -/
structure Image where
  mem : Mem
  dos : mem 0 = 0x4D ∧ mem 1 = 0x5A
  pe : ℕ
  at_pe : read mem 0x3C 4 = pe
  signature : mem pe = 0x50 ∧ mem (pe + 1) = 0x45 ∧ mem (pe + 2) = 0 ∧ mem (pe + 3) = 0
  plus : read mem (pe + 24) 2 = 0x20B

/-- the table of n section headers at sh -/
def sectionTable (b : Mem) : ℕ → ℕ → List Section
  | 0, _ => []
  | n + 1, sh => sectionAt b sh :: sectionTable b n (sh + 40)

def Image.sections (i : Image) : List Section :=
  sectionTable i.mem (read i.mem (i.pe + 6) 2) (i.pe + 24 + read i.mem (i.pe + 20) 2)

/-- the first section of a name -/
def Image.first (i : Image) (name : List UInt8) : Option Section := i.sections.find? fun s => s.name = name

/-- a C string that can be the name of a section -/
structure SectionName where
  text : List UInt8
  short : text.length ≤ 8
  nul : 0 ∉ text

/-! ## The loops -/

theorem nameMatches_iff {b : Mem} {n p : ℕ} {name : List UInt8} (hn : name.length ≤ n) (h0 : 0 ∉ name) :
    nameMatches b n p name = true ↔ (get b p n).takeWhile (· ≠ 0) = name := by
  induction n generalizing p name with
  | zero =>
    obtain rfl := List.length_eq_zero_iff.1 (Nat.le_zero.1 hn)
    exact iff_of_true rfl rfl
  | succ n ih =>
    have hget : get b p (n + 1) = b p :: get b (p + 1) n := by
      rw [Nat.add_comm, get_append]
      rfl
    rw [nameMatches, hget]
    cases name with
    | nil => by_cases hp : b p = 0 <;> simp [hp]
    | cons c name =>
      rw [List.mem_cons, not_or] at h0
      have hc : c ≠ 0 := fun e => h0.1 e.symm
      have hrest := ih (p := p + 1) (Nat.le_of_succ_le_succ hn) h0.2
      by_cases hp : b p = c
      · simpa [hp, hc] using hrest
      · by_cases hz : b p = 0 <;> simp [hp, hz, hc.symm]

theorem sectionLoop_eq (b : Mem) (name : SectionName) (n sh : ℕ) : sectionLoop b name.text n sh =
    ((sectionTable b n sh).find? fun s => s.name = name.text).map fun s => (s.pointerToRawData, s.sizeOfRawData) := by
  induction n generalizing sh with
  | zero => rfl
  | succ n ih =>
    have hname : nameMatches b 8 sh name.text = true ↔ (sectionAt b sh).name = name.text := nameMatches_iff name.short name.nul
    rw [sectionLoop, ih, sectionTable, List.find?_cons]
    by_cases hm : (sectionAt b sh).name = name.text
    · rw [if_pos (hname.2 hm), decide_eq_true hm]
      rfl
    · rw [if_neg (mt hname.1 hm), decide_eq_false hm]

/-- what the function returns is the place in the file -/
theorem peFindSection_eq (i : Image) (name : SectionName) : peFindSection i.mem name.text =
    (i.first name.text).map fun s => (s.pointerToRawData, s.sizeOfRawData) := by
  obtain ⟨h0, h1, h2, h3⟩ := i.signature
  rw [peFindSection, i.dos.1, i.dos.2, if_neg (by decide)]
  simp only [i.at_pe, h0, h1, h2, h3, i.plus, ne_eq, not_true_eq_false, or_self, if_false]
  exact sectionLoop_eq i.mem name _ _

/-- **Sections by name.** For every image and name the function returns 1 exactly if a section has the name; pointer and size
are those of the first such section in memory exactly if they are the same in the file. -/
theorem find_section_iff (i : Image) (name : SectionName) :
    ((peFindSection i.mem name.text).isSome = true ↔ ∃ s ∈ i.sections, s.name = name.text) ∧
    (peFindSection i.mem name.text = (i.first name.text).map (fun s => (s.virtualAddress, s.virtualSize)) ↔
      ∀ s ∈ i.first name.text, s.pointerToRawData = s.virtualAddress ∧ s.sizeOfRawData = s.virtualSize) := by
  rw [peFindSection_eq]
  refine ⟨by simp [Image.first], ?_⟩
  cases i.first name.text with
  | none => simp
  | some s => simp

/-- an image with one section `a`: one byte at 0x1000, at 0x400 in the file -/
def oneSection : Image where
  mem := fun
    | 0 => 0x4D | 1 => 0x5A | 0x3C => 0x40 | 0x40 => 0x50 | 0x41 => 0x45 | 0x46 => 1 | 0x54 => 0xF0 | 0x58 => 0x0B | 0x59 => 2
    | 0x148 => 0x61 | 0x150 => 1 | 0x155 => 0x10 | 0x159 => 2 | 0x15D => 4 | _ => 0
  dos := by decide
  pe := 0x40
  at_pe := by decide
  signature := by decide
  plus := by decide

/-- the pointer leads to 0x400 and the size is that of the padded section in the file -/
theorem section_misplaced : peFindSection oneSection.mem [0x61] = some (0x400, 0x200) ∧
    oneSection.first [0x61] = some ⟨[0x61], 1, 0x1000, 0x200, 0x400⟩ := by
  decide

end OpenASD.Boot
