import Mathlib.Algebra.Order.Ring.Nat
import Mathlib.Data.Nat.Bitwise
import Mathlib.Tactic.Common
import Mathlib.Tactic.Ring

/-!
# Byte buffers

A buffer of fixed length, copying into a part of it, and the little-endian
numbers stored in it. The laws say which bytes an update changes, so that the
fields of a structure laid over a buffer can be treated as independent.
-/

namespace Efs.Library

/-- Eight bits of memory. -/
abbrev Byte := BitVec 8

/-- A buffer of `n` bytes. -/
@[ext] structure Bytes (n : ℕ) where
  /-- The byte at each place. -/
  byte : Fin n → Byte

namespace Bytes

variable {n m : ℕ}

instance : DecidableEq (Bytes n) := fun a b =>
  decidable_of_iff (∀ i, a.byte i = b.byte i)
    ⟨fun h => Bytes.ext (funext h), fun h _ => by rw [h]⟩

/-- The buffer of zeros. -/
def zero : Bytes n := ⟨fun _ => 0⟩

instance : Inhabited (Bytes n) := ⟨zero⟩

/-- The byte at the place `i`, zero outside of the buffer. -/
def get (d : Bytes n) (i : ℕ) : Byte := if h : i < n then d.byte ⟨i, h⟩ else 0

/-- Copy `len` bytes of `src` to the place `off`. -/
def write (d : Bytes n) (off len : ℕ) (src : ℕ → Byte) : Bytes n :=
  ⟨fun i => if off ≤ i.val ∧ i.val < off + len then src (i.val - off) else d.byte i⟩

/-- The `m` bytes at the place `off`. -/
def sub (d : Bytes n) (off m : ℕ) : Bytes m := ⟨fun i => d.get (off + i.val)⟩

/-- Copy a whole buffer to the place `off`. -/
def put (d : Bytes n) (off : ℕ) (src : Bytes m) : Bytes n := d.write off m src.get

/-- All bytes of a zero buffer are zero. -/
@[simp] theorem get_zero (i : ℕ) : (zero : Bytes n).get i = 0 := by
  simp [get, zero]

/-- Buffers are equal when they agree at every place. -/
theorem ext_get {a b : Bytes n} (h : ∀ i < n, a.get i = b.get i) : a = b := by
  ext1
  funext i
  have hi := h i.val i.isLt
  simpa [get, i.isLt] using hi

/-- A copy changes exactly the places it covers. -/
theorem get_write (d : Bytes n) (off len : ℕ) (src : ℕ → Byte) (i : ℕ) :
    (d.write off len src).get i =
      if off ≤ i ∧ i < off + len ∧ i < n then src (i - off) else d.get i := by
  unfold get write
  by_cases hi : i < n
  · simp [hi]
  · simp [hi]

/-- A write leaves the bytes outside of its range. -/
theorem get_write_of_not_mem {d : Bytes n} {off len : ℕ} {src : ℕ → Byte} {i : ℕ}
    (h : i < off ∨ off + len ≤ i) : (d.write off len src).get i = d.get i := by
  rw [get_write, if_neg (by omega)]

/-- A write sets the bytes in its range. -/
theorem get_write_of_mem {d : Bytes n} {off len : ℕ} {src : ℕ → Byte} {i : ℕ}
    (h : off ≤ i) (h' : i < off + len) (hn : i < n) :
    (d.write off len src).get i = src (i - off) := by
  rw [get_write, if_pos ⟨h, h', hn⟩]

/-- The bytes of a part. -/
@[simp] theorem get_sub (d : Bytes n) (off : ℕ) (i : ℕ) :
    (d.sub off m).get i = if i < m then d.get (off + i) else 0 := by
  unfold sub
  by_cases hi : i < m <;> simp [get, hi]

/-- A part that a copy covers exactly reads back what was copied. -/
theorem sub_put (d : Bytes n) {off : ℕ} (src : Bytes m) (h : off + m ≤ n) :
    (d.put off src).sub off m = src := by
  apply ext_get
  intro i hi
  rw [get_sub, if_pos hi, put, get_write_of_mem (by omega) (by omega) (by omega)]
  congr 1
  omega

/-- A part that a copy does not meet is unchanged. -/
theorem sub_write_of_disjoint {d : Bytes n} {off len off' m : ℕ} {src : ℕ → Byte}
    (h : off' + m ≤ off ∨ off + len ≤ off') :
    (d.write off len src).sub off' m = d.sub off' m := by
  apply ext_get
  intro i hi
  rw [get_sub, get_sub, if_pos hi, if_pos hi, get_write_of_not_mem (by omega)]

/-- The parts of a zero buffer are zero. -/
@[simp] theorem sub_zero (off : ℕ) : (zero : Bytes n).sub off m = zero := by
  apply ext_get
  intro i hi
  rw [get_sub, if_pos hi, get_zero, get_zero]

/-! ## Little-endian numbers -/

/-- The number stored least significant byte first in `w` bytes at `off`. -/
def getLE (d : Bytes n) (off : ℕ) : ℕ → ℕ
  | 0 => 0
  | w + 1 => (d.get off).toNat + 256 * getLE d (off + 1) w

/-- Store `v` least significant byte first in `w` bytes at `off`. -/
def putLE (d : Bytes n) (off w v : ℕ) : Bytes n :=
  d.write off w fun k => BitVec.ofNat 8 (v / 256 ^ k)

/-- The bytes of an array of numbers of `w` bytes each. -/
def numbers (w : ℕ) (v : ℕ → ℕ) (k : ℕ) : Byte := BitVec.ofNat 8 (v (k / w) / 256 ^ (k % w))

/-- The bytes of an array of buffers. -/
def buffers (v : ℕ → Bytes m) (k : ℕ) : Byte := (v (k / m)).get (k % m)

/-- An array of buffers reads back each of them. -/
theorem sub_write_buffers (d : Bytes n) {off len i : ℕ} (v : ℕ → Bytes m) (hi : m * i + m ≤ len)
    (h : off + len ≤ n) : (d.write off len (buffers v)).sub (off + m * i) m = v i := by
  apply ext_get
  intro k hk
  have hplace : off + m * i + k - off = m * i + k := by omega
  have hdiv : (m * i + k) / m = i := by
    rw [Nat.mul_add_div (by omega), Nat.div_eq_of_lt hk, Nat.add_zero]
  have hmod : (m * i + k) % m = k := by
    rw [Nat.mul_add_mod, Nat.mod_eq_of_lt hk]
  rw [get_sub, if_pos hk, get_write_of_mem (by omega) (by omega) (by omega), hplace, buffers, hdiv,
    hmod]

/-- The stored number depends only on the bytes it covers. -/
theorem getLE_congr {d : Bytes n} {d' : Bytes m} {off off' w : ℕ}
    (h : ∀ k < w, d.get (off + k) = d'.get (off' + k)) : d.getLE off w = d'.getLE off' w := by
  induction w generalizing off off' with
  | zero => rfl
  | succ w ih =>
    have h0 : d.get off = d'.get off' := by simpa using h 0 (by omega)
    have hrest : d.getLE (off + 1) w = d'.getLE (off' + 1) w := by
      apply ih
      intro k hk
      have := h (k + 1) (by omega)
      rwa [show off + 1 + k = off + (k + 1) by omega, show off' + 1 + k = off' + (k + 1) by omega]
    rw [getLE, getLE, h0, hrest]

/-- A number of some bytes is below its bound. -/
theorem getLE_lt (d : Bytes n) (off w : ℕ) : d.getLE off w < 256 ^ w := by
  induction w generalizing off with
  | zero => simp [getLE]
  | succ w ih =>
    have hb := (d.get off).isLt
    have hr := ih (off + 1)
    rw [getLE, pow_succ]
    omega

/-- Bit `k` of the stored number is bit `k % 8` of the byte `k / 8`. -/
theorem testBit_getLE (d : Bytes n) (off w k : ℕ) :
    (d.getLE off w).testBit k =
      (decide (k < 8 * w) && (d.get (off + k / 8)).getLsbD (k % 8)) := by
  induction w generalizing off k with
  | zero => simp [getLE]
  | succ w ih =>
    have hsplit : d.getLE off (w + 1) = 2 ^ 8 * d.getLE (off + 1) w + (d.get off).toNat := by
      rw [getLE]
      omega
    rw [hsplit, Nat.testBit_two_pow_mul_add _ (d.get off).isLt]
    by_cases hk : k < 8
    · rw [if_pos hk, Nat.div_eq_of_lt hk, Nat.mod_eq_of_lt hk]
      rw [BitVec.testBit_toNat, decide_eq_true (by omega), Bool.true_and, Nat.add_zero]
    · rw [if_neg hk, ih]
      have hdiv : off + 1 + (k - 8) / 8 = off + k / 8 := by omega
      have hmod : (k - 8) % 8 = k % 8 := by omega
      rw [hdiv, hmod]
      congr 1
      exact decide_eq_decide.mpr (by omega)

/-- The zero buffer stores the number zero everywhere. -/
theorem getLE_zero (off w : ℕ) : (zero : Bytes n).getLE off w = 0 := by
  induction w generalizing off with
  | zero => rfl
  | succ w ih => simp [getLE, ih]

/-- Reading back a stored number gives it modulo the width. -/
theorem getLE_putLE (d : Bytes n) {off w : ℕ} (v : ℕ) (h : off + w ≤ n) :
    (d.putLE off w v).getLE off w = v % 256 ^ w := by
  have key : ∀ u j, j + u = w →
      (d.putLE off w v).getLE (off + j) u = v / 256 ^ j % 256 ^ u := by
    intro u
    induction u with
    | zero => intro j _; simp [getLE, Nat.mod_one]
    | succ u ih =>
      intro j hj
      have hget : (d.putLE off w v).get (off + j) = BitVec.ofNat 8 (v / 256 ^ j) := by
        rw [putLE, get_write_of_mem (by omega) (by omega) (by omega)]
        congr 3
        omega
      have hnext := ih (j + 1) (by omega)
      rw [getLE, hget, show off + j + 1 = off + (j + 1) by omega, hnext]
      rw [BitVec.toNat_ofNat, pow_succ 256 j, ← Nat.div_div_eq_div_mul, pow_succ' 256 u,
        Nat.mod_mul]
  simpa using key w 0 (by omega)

/-- What does not fit into the width is not stored. -/
theorem putLE_mod (d : Bytes n) (off w v : ℕ) : d.putLE off w (v % 256 ^ w) = d.putLE off w v := by
  apply ext_get
  intro i _
  rw [putLE, putLE, get_write, get_write]
  by_cases h : off ≤ i ∧ i < off + w ∧ i < n
  · have hw : 256 ^ w = 256 ^ (i - off) * 256 ^ (w - (i - off)) := by
      rw [← pow_add]
      congr 1
      omega
    have hdvd : 2 ^ 8 ∣ 256 ^ (w - (i - off)) := dvd_pow_self 256 (by omega)
    rw [if_pos h, if_pos h, hw, Nat.mod_mul_right_div_self]
    apply BitVec.eq_of_toNat_eq
    rw [BitVec.toNat_ofNat, BitVec.toNat_ofNat, Nat.mod_mod_of_dvd _ hdvd]
  · rw [if_neg h, if_neg h]

/-- An array of numbers reads back each of them modulo the width. -/
theorem getLE_write_numbers (d : Bytes n) {off len w i : ℕ} (v : ℕ → ℕ) (hi : w * i + w ≤ len)
    (h : off + len ≤ n) : (d.write off len (numbers w v)).getLE
      (off + w * i) w = v i % 256 ^ w := by
  rw [← getLE_putLE d (v i) (show off + w * i + w ≤ n by omega)]
  apply getLE_congr
  intro k hk
  have hplace : off + w * i + k - off = w * i + k := by omega
  have hplace' : off + w * i + k - (off + w * i) = k := by omega
  have hdiv : (w * i + k) / w = i := by
    rw [Nat.mul_add_div (by omega), Nat.div_eq_of_lt hk, Nat.add_zero]
  have hmod : (w * i + k) % w = k := by
    rw [Nat.mul_add_mod, Nat.mod_eq_of_lt hk]
  rw [get_write_of_mem (by omega) (by omega) (by omega), putLE,
    get_write_of_mem (by omega) (by omega) (by omega), hplace, hplace', numbers, hdiv, hmod]

/-- A copy outside of a stored number leaves it alone. -/
theorem getLE_write_of_disjoint {d : Bytes n} {off len off' w : ℕ} {src : ℕ → Byte}
    (h : off' + w ≤ off ∨ off + len ≤ off') :
    (d.write off len src).getLE off' w = d.getLE off' w := by
  apply getLE_congr
  intro k hk
  rw [get_write_of_not_mem (by omega)]

end Bytes

end Efs.Library
