/-
Byte-addressed memory with little-endian words. Nothing here names a program.

A memory is a total map from addresses to bytes. `put` copies a byte string to an address (memcpy), `fill` sets a range
to one byte (memset), `get` reads a byte string, `read` and `write` are the n-byte little-endian words.

Results: reading back what was written (`get_put`, `read_write`), and the frame rules: a store changes nothing outside
its range (`put_out`, `fill_out`, `write_out`) and a read sees only its own range (`get_congr`, `read_congr`), hence
`read_write_of_disjoint`. A packed record is the list of its fields with their widths; `read_pack` reads a field at the
length of the fields before it.
-/
import Mathlib.Tactic

namespace OpenASD.ByteMem

abbrev Mem := ℕ → UInt8

/-- the number with these little-endian digits -/
def leNat : List UInt8 → ℕ
  | [] => 0
  | b :: bs => b.toNat + 256 * leNat bs

/-- the n low bytes of v, least significant first -/
def leBytes : ℕ → ℕ → List UInt8
  | 0, _ => []
  | n + 1, v => UInt8.ofNat v :: leBytes n (v / 256)

@[simp] theorem length_leBytes (n v : ℕ) : (leBytes n v).length = n := by
  induction n generalizing v with
  | zero => rfl
  | succ n ih => simp [leBytes, ih]

theorem leBytes_zero (n : ℕ) : leBytes n 0 = List.replicate n 0 := by
  induction n with
  | zero => rfl
  | succ n ih =>
    rw [leBytes, Nat.zero_div, ih, List.replicate_succ]
    rfl

theorem leNat_leBytes (n v : ℕ) : leNat (leBytes n v) = v % 256 ^ n := by
  induction n generalizing v with
  | zero => simp [leBytes, leNat, Nat.mod_one]
  | succ n ih =>
    rw [leBytes, leNat, ih, pow_succ', Nat.mod_mul]
    simp

theorem leNat_lt (bs : List UInt8) : leNat bs < 256 ^ bs.length := by
  induction bs with
  | nil => simp [leNat]
  | cons b bs ih =>
    have hb := b.toNat_lt
    rw [leNat, List.length_cons, pow_succ']
    omega

/-! ## Ranges of bytes -/

/-- the n bytes at address a -/
def get (m : Mem) (a n : ℕ) : List UInt8 := (List.range n).map fun i => m (a + i)

/-- copy the bytes bs to address a -/
def put (m : Mem) (a : ℕ) (bs : List UInt8) : Mem := fun x => if a ≤ x then bs.getD (x - a) (m x) else m x

/-- set the n bytes at address a to c -/
def fill (m : Mem) (a n : ℕ) (c : UInt8) : Mem := fun x => if a ≤ x ∧ x < a + n then c else m x

@[simp] theorem length_get (m : Mem) (a n : ℕ) : (get m a n).length = n := by simp [get]

variable {a n x b v k : ℕ} {m : Mem} {bs : List UInt8} {c : UInt8}

theorem get_getElem? {i : ℕ} (h : i < n) : (get m a n)[i]? = some (m (a + i)) := by
  simp [get, h]

theorem get_congr {m' : Mem} (h : ∀ x, a ≤ x → x < a + n → m x = m' x) : get m a n = get m' a n := by
  refine List.map_congr_left fun i hi => ?_
  have := List.mem_range.1 hi
  exact h (a + i) (by omega) (by omega)

theorem put_out (h : x < a ∨ a + bs.length ≤ x) : put m a bs x = m x := by
  unfold put
  split_ifs with hx
  · rw [List.getD_eq_getElem?_getD, List.getElem?_eq_none (by omega), Option.getD_none]
  · rfl

theorem put_in {i : ℕ} (h : i < bs.length) : put m a bs (a + i) = bs[i] := by
  simp [put, h]

theorem get_put (m : Mem) (a : ℕ) (bs : List UInt8) : get (put m a bs) a bs.length = bs := by
  refine List.ext_getElem (by simp) fun i h1 h2 => ?_
  simp [get, put_in h2]

theorem get_put_of_disjoint (h : b + n ≤ a ∨ a + bs.length ≤ b) : get (put m a bs) b n = get m b n :=
  get_congr fun x h1 h2 => put_out (by omega)

theorem fill_out (h : x < a ∨ a + n ≤ x) : fill m a n c x = m x := by
  unfold fill
  rw [if_neg (by omega)]

theorem fill_in (h1 : a ≤ x) (h2 : x < a + n) : fill m a n c x = c := by
  unfold fill
  rw [if_pos ⟨h1, h2⟩]

/-! ## Little-endian words -/

/-- the n-byte word at address a -/
def read (m : Mem) (a n : ℕ) : ℕ := leNat (get m a n)

/-- store the n-byte word v at address a -/
def write (m : Mem) (a n v : ℕ) : Mem := put m a (leBytes n v)

theorem read_lt (m : Mem) (a n : ℕ) : read m a n < 256 ^ n := by
  have := leNat_lt (get m a n)
  rwa [length_get] at this

theorem read_congr {m' : Mem} (h : ∀ x, a ≤ x → x < a + n → m x = m' x) : read m a n = read m' a n := by
  rw [read, read, get_congr h]

theorem read_write (m : Mem) (a n v : ℕ) : read (write m a n v) a n = v % 256 ^ n := by
  have h := get_put m a (leBytes n v)
  rw [length_leBytes] at h
  rw [read, write, h, leNat_leBytes]

theorem write_out (h : x < a ∨ a + n ≤ x) : write m a n v x = m x :=
  put_out (by simpa using h)

theorem read_write_of_disjoint (h : b + k ≤ a ∨ a + n ≤ b) : read (write m a n v) b k = read m b k :=
  read_congr fun x h1 h2 => write_out (by omega)

theorem read_fill_zero (h1 : a ≤ b) (h2 : b + k ≤ a + n) : read (fill m a n 0) b k = 0 := by
  have hz : get (fill m a n 0) b k = List.replicate k 0 := by
    refine List.ext_getElem (by simp) fun i hi _ => ?_
    rw [length_get] at hi
    simp [get, fill_in (m := m) (c := 0) (show a ≤ b + i by omega) (show b + i < a + n by omega)]
  rw [read, hz]
  clear hz h2
  induction k with
  | zero => rfl
  | succ k ih => rw [List.replicate_succ, leNat, ih]; rfl

/-! ## Packed records -/

/-- fields one after another, each with its width and value -/
def pack (fs : List (ℕ × ℕ)) : List UInt8 := fs.flatMap fun f => leBytes f.1 f.2

def packLen (fs : List (ℕ × ℕ)) : ℕ := (fs.map Prod.fst).sum

@[simp] theorem length_pack (fs : List (ℕ × ℕ)) : (pack fs).length = packLen fs := by
  simp [pack, packLen, List.length_flatMap]

theorem pack_append (fs gs : List (ℕ × ℕ)) : pack (fs ++ gs) = pack fs ++ pack gs := List.flatMap_append

theorem get_append (m : Mem) (a n k : ℕ) : get m a (n + k) = get m a n ++ get m (a + n) k := by
  simp [get, List.range_add, Function.comp_def, Nat.add_assoc]

variable {fs gs : List (ℕ × ℕ)}

/-- a memory that holds a record holds its fields -/
theorem read_pack (h : get m a (packLen (fs ++ (n, v) :: gs)) = pack (fs ++ (n, v) :: gs)) :
    read m (a + packLen fs) n = v % 256 ^ n := by
  have hlen : packLen (fs ++ (n, v) :: gs) = packLen fs + (n + packLen gs) := by simp [packLen]
  rw [hlen, get_append, get_append, pack_append] at h
  have h2 := (List.append_inj h (by simp)).2
  rw [read, (List.append_inj h2 (by simp)).1, leNat_leBytes]

/-- a store to a field gives the record with the new value -/
theorem write_pack (w : ℕ) (h : get m a (packLen (fs ++ (n, v) :: gs)) = pack (fs ++ (n, v) :: gs)) :
    get (write m (a + packLen fs) n w) a (packLen (fs ++ (n, v) :: gs)) = pack (fs ++ (n, w) :: gs) := by
  have hlen : packLen (fs ++ (n, v) :: gs) = packLen fs + (n + packLen gs) := by simp [packLen]
  have hcons : ∀ x, pack ((n, x) :: gs) = leBytes n x ++ pack gs := fun _ => rfl
  rw [hlen, get_append, get_append, pack_append, hcons] at h
  obtain ⟨h1, h2⟩ := List.append_inj h (by simp)
  have h3 := (List.append_inj h2 (by simp)).2
  have hmid := get_put m (a + packLen fs) (leBytes n w)
  rw [length_leBytes] at hmid
  have hlow : get (write m (a + packLen fs) n w) a (packLen fs) = get m a (packLen fs) :=
    get_put_of_disjoint (Or.inl le_rfl)
  have hhigh : get (write m (a + packLen fs) n w) (a + packLen fs + n) (packLen gs) =
      get m (a + packLen fs + n) (packLen gs) :=
    get_put_of_disjoint (Or.inr (by simp))
  rw [hlen, get_append, get_append, pack_append, hcons, hlow, hhigh, h1, h3, write, hmid]

/-- the first bytes of a range -/
theorem get_take (m : Mem) (a : ℕ) (h : n ≤ k) : get m a n = (get m a k).take n := by
  obtain ⟨j, rfl⟩ := Nat.exists_eq_add_of_le h
  rw [get_append, List.take_left' (by simp)]

end OpenASD.ByteMem
