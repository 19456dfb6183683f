import Mathlib.Data.List.GetD
import Mathlib.Data.Nat.Bitwise
import Mathlib.Tactic.Common

/-! # Byte buffers with memory behind the used length

A growable buffer is the list of its used bytes. Code that reads through a raw
pointer also sees the memory behind them, which holds anything; `memory` shows a
buffer through such a pointer, with that memory as a parameter.
-/
namespace SrWebSocket

/-- The bytes at a pointer to the start of a buffer: the used bytes, then `junk`. -/
def memory (used : List UInt8) (junk : ℕ → UInt8) (i : ℕ) : UInt8 := used.getD i (junk i)

def slice (m : ℕ → UInt8) (off n : ℕ) : List UInt8 := (List.range n).map fun i => m (off + i)

def addSize (w a b : ℕ) : ℕ := (a + b) % 2 ^ w

/-- Subtraction in an unsigned type of `w` bits, for operands of the type. -/
def subSize (w a b : ℕ) : ℕ := (a + (2 ^ w - b)) % 2 ^ w

theorem addSize_of_lt {w a b : ℕ} (h : a + b < 2 ^ w) : addSize w a b = a + b := Nat.mod_eq_of_lt h

theorem addSize_le (w a b : ℕ) : addSize w a b ≤ a + b := Nat.mod_le _ _

theorem subSize_of_le {w a b : ℕ} (ha : a < 2 ^ w) (hb : b ≤ a) : subSize w a b = a - b := by
  have h : a + (2 ^ w - b) = (a - b) + 2 ^ w := by omega
  rw [subSize, h, Nat.add_mod_right, Nat.mod_eq_of_lt (by omega)]

variable {s t used : List UInt8} {junk junk' : ℕ → UInt8} {i off n : ℕ}

theorem memory_congr (h : i < used.length) : memory used junk i = memory used junk' i := by
  simp only [memory, List.getD_eq_getElem _ _ h]

theorem memory_of_le (h : used.length ≤ i) : memory used junk i = junk i := List.getD_eq_default _ _ h

theorem memory_append_left (h : i < s.length) : memory (s ++ t) junk i = memory s junk' i := by
  have hst : i < (s ++ t).length := by rw [List.length_append]; omega
  simp only [memory, List.getD_eq_getElem _ _ h, List.getD_eq_getElem _ _ hst, List.getElem_append_left h]

theorem memory_drop (k : ℕ) :
    memory used junk (k + i) = memory (used.drop k) (fun i => junk (k + i)) i := by
  simp only [memory, List.getD_eq_getElem?_getD, List.getElem?_drop]

@[simp] theorem length_slice (m : ℕ → UInt8) (off n : ℕ) : (slice m off n).length = n := by simp [slice]

theorem slice_memory (h : off + n ≤ used.length) :
    slice (memory used junk) off n = (used.drop off).take n := by
  apply List.ext_getElem
  · simp only [length_slice, List.length_take, List.length_drop]
    omega
  · intro j hj hj'
    rw [length_slice] at hj
    have hlt : off + j < used.length := by omega
    simp only [slice, List.getElem_map, List.getElem_range, memory, List.getElem_take, List.getElem_drop,
      List.getD_eq_getElem _ _ hlt]

/-! ## Masking -/

/-- The bytes `xs` combined with a repeating four-byte key. -/
def applyMask (key : ℕ → UInt8) (xs : List UInt8) : List UInt8 := xs.mapIdx fun i b => b ^^^ key (i % 4)

@[simp] theorem length_applyMask (key : ℕ → UInt8) (xs : List UInt8) : (applyMask key xs).length = xs.length := by
  simp [applyMask]

theorem applyMask_applyMask (key : ℕ → UInt8) (xs : List UInt8) : applyMask key (applyMask key xs) = xs := by
  apply List.ext_getElem
  · simp
  · intro i hi hi'
    simp only [applyMask, List.getElem_mapIdx, UInt8.xor_assoc, UInt8.xor_self, UInt8.xor_zero]

theorem applyMask_congr {key key' : ℕ → UInt8} (h : ∀ i < 4, key i = key' i) (xs : List UInt8) :
    applyMask key xs = applyMask key' xs := by
  have hf : (fun (i : ℕ) (b : UInt8) => b ^^^ key (i % 4)) = fun i b => b ^^^ key' (i % 4) := by
    funext i b
    rw [h (i % 4) (Nat.mod_lt _ (by decide))]
  rw [applyMask, applyMask, hf]

/-- The loop that unmasks `n` bytes of a buffer in place, from index `off`. -/
def xorLoop (key : ℕ → UInt8) (off n : ℕ) (buf : List UInt8) : List UInt8 :=
  (List.range n).foldl (fun buf i => buf.modify (off + i) (· ^^^ key (i % 4))) buf

theorem getElem?_xorLoop (key : ℕ → UInt8) (off n : ℕ) (buf : List UInt8) (j : ℕ) :
    (xorLoop key off n buf)[j]? =
      if off ≤ j ∧ j < off + n then buf[j]?.map (· ^^^ key ((j - off) % 4)) else buf[j]? := by
  induction n with
  | zero => simp [xorLoop]
  | succ n ih =>
    have hs : xorLoop key off (n + 1) buf = (xorLoop key off n buf).modify (off + n) (· ^^^ key (n % 4)) := by
      simp [xorLoop, List.range_succ]
    rw [hs, List.getElem?_modify, ih]
    by_cases hj : off + n = j
    · subst hj
      simp
    · simp only [hj, if_false]
      by_cases hlt : off ≤ j ∧ j < off + n
      · rw [if_pos hlt, if_pos (by omega)]
        simp
      · rw [if_neg hlt, if_neg (by omega)]
        simp

theorem xorLoop_append (key : ℕ → UInt8) (s xs : List UInt8) :
    xorLoop key s.length xs.length (s ++ xs) = s ++ applyMask key xs := by
  apply List.ext_getElem?
  intro j
  rw [getElem?_xorLoop]
  by_cases hj : j < s.length
  · rw [if_neg (by omega), List.getElem?_append_left hj, List.getElem?_append_left hj]
  · rw [List.getElem?_append_right (by omega), List.getElem?_append_right (by omega)]
    by_cases hlt : j < s.length + xs.length
    · rw [if_pos (by omega)]
      simp [applyMask]
    · rw [if_neg (by omega), List.getElem?_eq_none (by omega), List.getElem?_eq_none (by simp; omega)]

/-! ## Bits of a byte -/

theorem toNat_and_0f (b : UInt8) : (b &&& 0x0f).toNat = b.toNat % 16 := by
  rw [UInt8.toNat_and]
  exact Nat.and_two_pow_sub_one_eq_mod b.toNat 4

theorem toNat_and_7f (b : UInt8) : (b &&& 0x7f).toNat = b.toNat % 128 := by
  rw [UInt8.toNat_and]
  exact Nat.and_two_pow_sub_one_eq_mod b.toNat 7

theorem toNat_and_80 (b : UInt8) : (b &&& 0x80).toNat = if 128 ≤ b.toNat then 128 else 0 := by
  have hb : b.toNat < 256 := UInt8.toNat_lt b
  have h : b.toNat &&& 2 ^ 7 = (b.toNat.testBit 7).toNat * 2 ^ 7 := Nat.and_two_pow b.toNat 7
  rw [UInt8.toNat_and]
  change b.toNat &&& 2 ^ 7 = _
  rw [h, Nat.testBit_eq_decide_div_mod_eq]
  split
  · have : b.toNat / 128 % 2 = 1 := by omega
    simp [this]
  · have : b.toNat / 128 % 2 = 0 := by omega
    simp [this]

theorem and_80_ne_zero (b : UInt8) : b &&& 0x80 ≠ 0 ↔ 128 ≤ b.toNat := by
  rw [Ne, ← UInt8.toNat_inj, toNat_and_80]
  split <;> simp_all

theorem and_80_eq (b : UInt8) : b &&& 0x80 = 0x80 ↔ 128 ≤ b.toNat := by
  rw [← UInt8.toNat_inj, toNat_and_80]
  split <;> simp_all

theorem toNat_80_or {b : UInt8} (h : b.toNat < 128) : (0x80 ||| b).toNat = 128 + b.toNat := by
  have := Nat.two_pow_add_eq_or_of_lt (i := 7) h 1
  rw [UInt8.toNat_or]
  exact this.symm

/-! ## Big-endian numbers -/

/-- The `k` low bytes of `n`, the most significant first. -/
def bigEndian : ℕ → ℕ → List UInt8
  | 0, _ => []
  | k + 1, n => UInt8.ofNat (n / 256 ^ k) :: bigEndian k n

@[simp] theorem length_bigEndian (k n : ℕ) : (bigEndian k n).length = k := by
  induction k with
  | zero => rfl
  | succ k ih => rw [bigEndian, List.length_cons, ih]

/-- The number with these bytes, the most significant first. -/
def ofBigEndian (bytes : List UInt8) : ℕ := bytes.foldl (fun n b => n * 256 + b.toNat) 0

theorem foldl_bigEndian (a k n : ℕ) :
    (bigEndian k n).foldl (fun n b => n * 256 + b.toNat) a = a * 256 ^ k + n % 256 ^ k := by
  induction k generalizing a with
  | zero => simp [bigEndian, Nat.mod_one]
  | succ k ih =>
    have hb : (UInt8.ofNat (n / 256 ^ k)).toNat = n / 256 ^ k % 256 := UInt8.toNat_ofNat'
    have hpow : 256 ^ (k + 1) = 256 * 256 ^ k := Nat.pow_succ'
    rw [bigEndian, List.foldl_cons, ih, hb, Nat.mod_pow_succ, hpow, Nat.add_mul, Nat.mul_assoc,
      Nat.mul_comm (256 ^ k) (n / 256 ^ k % 256)]
    omega

theorem ofBigEndian_bigEndian (k n : ℕ) : ofBigEndian (bigEndian k n) = n % 256 ^ k := by
  rw [ofBigEndian, foldl_bigEndian, Nat.zero_mul, Nat.zero_add]

end SrWebSocket
