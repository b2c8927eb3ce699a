import Efs.BitmapWords
import Efs.Library.PackedFields

/-!
# The population count

`BITCOUNT64` takes from every field of four bits its shifts by one, two and three, which
leaves the number of set bits of the field. It then adds neighbouring fields into bytes,
and the bytes by a remainder.
-/

namespace Efs

open Library

/-- A field of four bits without its shifts is the number of its set bits. -/
theorem onesBelow_four : ∀ d < 16, d - d / 2 ^ 1 - d / 2 ^ 2 - d / 2 ^ 3 = onesBelow 4 d := by
  decide

/-- Four bits have at most four ones. -/
theorem onesBelow_four_le {d : ℕ} : onesBelow 4 d ≤ 4 := by
  unfold onesBelow
  have h := Finset.sum_le_card_nsmul (Finset.range 4) (fun j => (d.testBit j).toNat) 1
    fun j _ => Bool.toNat_le _
  simpa using h

variable {u v : BitVec 64} {f g : ℕ → ℕ}

/-- A word minus one that is nowhere larger. -/
theorem toNat_sub_packed (hu : u.toNat = packed 4 f 16) (hv : v.toNat = packed 4 g 16)
    (h : ∀ i < 16, g i ≤ f i) : (u - v).toNat = packed 4 (fun i => f i - g i) 16 := by
  have hle : v ≤ u := by
    rw [BitVec.le_def, hu, hv]
    exact packed_le h
  rw [BitVec.toNat_sub_of_le hle, hu, hv, packed_sub h]

/-- A word shifted inside of its fields of four bits. -/
theorem toNat_shifted (n mask : BitVec 64) {s : ℕ} (hs : s ≤ 4)
    (hmask : mask.toNat = packed 4 (fun _ => 2 ^ (4 - s) - 1) 16) :
    (n >>> s &&& mask).toNat = packed 4 (fun i => fieldOf 4 n.toNat i / 2 ^ s) 16 := by
  rw [BitVec.toNat_and, BitVec.toNat_ushiftRight, hmask]
  exact shiftRight_and_packed hs

/-- The words after the three subtractions of `BITCOUNT64`. -/
theorem toNat_nibbleCounts (n : BitVec 64) :
    (n - (n >>> 1 &&& 0x7777777777777777#64) - (n >>> 2 &&& 0x3333333333333333#64) -
        (n >>> 3 &&& 0x1111111111111111#64)).toNat =
      packed 4 (fun i => onesBelow 4 (fieldOf 4 n.toNat i)) 16 := by
  have h0 : n.toNat = packed 4 (fieldOf 4 n.toNat) 16 := (packed_fieldOf n.isLt).symm
  have h1 := toNat_shifted n 0x7777777777777777#64 (s := 1) (by omega) (by decide)
  have h2 := toNat_shifted n 0x3333333333333333#64 (s := 2) (by omega) (by decide)
  have h3 := toNat_shifted n 0x1111111111111111#64 (s := 3) (by omega) (by decide)
  have hd1 := toNat_sub_packed h0 h1 fun i _ => Nat.div_le_self _ _
  have hd2 := toNat_sub_packed hd1 h2 fun i _ => by omega
  have hd3 := toNat_sub_packed hd2 h3 fun i _ => by omega
  rw [hd3]
  apply packed_congr
  intro i _
  exact onesBelow_four _ fieldOf_lt

/-- The sums of neighbouring fields, masked to the bytes. -/
theorem toNat_byteCounts {o : ℕ → ℕ} (hu : u.toNat = packed 4 o 16) (ho : ∀ i, o i ≤ 4)
    (hlast : o 16 = 0) :
    (u + u >>> 4 &&& 0x0f0f0f0f0f0f0f0f#64).toNat =
      packed 8 (fun i => o (2 * i) + o (2 * i + 1)) 8 := by
  have hshift : u.toNat >>> 4 = packed 4 (fun i => o (i + 1)) 16 := by
    rw [hu, packed_shiftRight (by have := ho 0; omega)]
    rw [packed, packed, Finset.sum_range_succ _ 15, hlast, Nat.zero_mul, Nat.add_zero]
  have hsum : u.toNat + u.toNat >>> 4 = packed 4 (fun i => o i + o (i + 1)) (2 * 8) := by
    rw [hshift, hu, packed_add]
  have hbyte : ∀ i < 8, o (2 * i) + o (2 * i + 1) +
      (o (2 * i + 1) + o (2 * i + 1 + 1)) * 2 ^ 4 < 2 ^ (2 * 4) := by
    intro i _
    have ha := ho (2 * i)
    have hb := ho (2 * i + 1)
    have hc := ho (2 * i + 1 + 1)
    omega
  rw [packed_pair] at hsum
  have hlt := packed_lt hbyte
  have hmask : (0x0f0f0f0f0f0f0f0f#64).toNat = packed (2 * 4) (fun _ => 2 ^ 4 - 1) 8 := by decide
  rw [BitVec.toNat_and, BitVec.toNat_add, BitVec.toNat_ushiftRight, hsum,
    Nat.mod_eq_of_lt hlt, hmask, and_packed fun _ _ => by decide]
  apply packed_congr
  intro i hi
  rw [fieldOf_packed hbyte hi, Nat.and_two_pow_sub_one_eq_mod, Nat.add_mul_mod_self_right]
  have ha := ho (2 * i)
  have hb := ho (2 * i + 1)
  omega

/-- `BITCOUNT64` counts the set bits. -/
theorem toNat_bitcount64 (n : BitVec 64) :
    (bitcount64 n).toNat = ((Finset.range 64).filter fun j => n.getLsbD j = true).card := by
  let o := fun i => onesBelow 4 (fieldOf 4 n.toNat i)
  have ho : ∀ i, o i ≤ 4 := fun i => onesBelow_four_le
  have hlast : o 16 = 0 := by
    have hzero : fieldOf 4 n.toNat 16 = 0 := by
      rw [fieldOf, Nat.div_eq_of_lt n.isLt, Nat.zero_mod]
    show onesBelow 4 (fieldOf 4 n.toNat 16) = 0
    rw [hzero]
    decide
  have hbytes := toNat_byteCounts (toNat_nibbleCounts n) ho hlast
  have hsum : ∑ i ∈ Finset.range 8, (o (2 * i) + o (2 * i + 1)) =
      ∑ i ∈ Finset.range 16, o i := by
    simp only [Finset.sum_range_succ, Finset.sum_range_zero, Nat.reduceMul, Nat.reduceAdd]
    omega
  have hmod : packed 8 (fun i => o (2 * i) + o (2 * i + 1)) 8 % 255 =
      (∑ i ∈ Finset.range 8, (o (2 * i) + o (2 * i + 1))) % 255 := packed_mod
  have hones : onesBelow (4 * 16) n.toNat = ∑ i ∈ Finset.range 16, o i := onesBelow_fields
  have hle : ∑ i ∈ Finset.range 16, o i ≤ 64 := by
    have h := Finset.sum_le_card_nsmul (Finset.range 16) o 4 fun i _ => ho i
    simpa using h
  rw [bitcount64, BitVec.toNat_umod, hbytes]
  calc packed 8 (fun i => o (2 * i) + o (2 * i + 1)) 8 % 255
      = ∑ i ∈ Finset.range 16, o i := by rw [hmod, hsum, Nat.mod_eq_of_lt (by omega)]
    _ = ((Finset.range 64).filter fun j => n.getLsbD j = true).card := by
      rw [← hones, onesBelow_eq_card]
      rfl

/-- `BITMAP_FIRST_EMPTY_64` is -1 on the full word and otherwise the place of the most
significant clear bit, and `BITCOUNT64` is the number of set bits. -/
theorem bitmapFirstEmpty64_bitcount64 (n : BitVec 64) :
    ((bitmapFirstEmpty64 n = -1 ∧ ∀ j < 64, n.getLsbD j = true) ∨
      ∃ k : ℕ, k < 64 ∧ bitmapFirstEmpty64 n = (k : ℤ) ∧ n.getLsbD k = false ∧
        ∀ j, k < j → j < 64 → n.getLsbD j = true) ∧
    ∀ m : BitVec 64,
      (bitcount64 m).toNat = ((Finset.range 64).filter fun j => m.getLsbD j = true).card := by
  constructor
  · rcases bitmapFirstEmpty64_spec n with ⟨heq, hfull⟩ | ⟨k, hk, heq, hclear, habove⟩
    · left
      refine ⟨heq, fun j hj => ?_⟩
      have hbit := congrArg (·.getLsbD j) hfull
      simpa [hj] using hbit
    · right
      exact ⟨k, hk, heq, hclear, habove⟩
  · exact toNat_bitcount64

end Efs
