import BraceLisp.Number.Binary64
import Mathlib

/-!
# The bits of doubles

A double other than a NaN is its sign and its magnitude bits: `ofMagnitude`
puts together what `isNegative` and `magnitude` take apart. The magnitude bits
of infinity lie between those of the finite doubles and those of the NaNs.

The double's own operations unpack its bits into fields. That packing undoes
this is known of them; what is added is where the fields are in the magnitude
bits.
-/

namespace BraceLisp.Binary64

open Float.Model Float.Model.UnpackedFloat

abbrev exponentField (b : BitVec 64) : BitVec 11 :=
  @unpackExponent Format.binary64 b

abbrev mantissaField (b : BitVec 64) : BitVec 52 :=
  @unpackMantissa Format.binary64 b

theorem toNat_exponentField (b : BitVec 64) :
    (exponentField b).toNat = b.toNat / leadingBit % 2048 := by
  simp [exponentField, unpackExponent, leadingBit, Nat.shiftRight_eq_div_pow]

theorem toNat_mantissaField (b : BitVec 64) :
    (mantissaField b).toNat = b.toNat % leadingBit := by
  simp [mantissaField, unpackMantissa, leadingBit]

theorem exponentField_eq_neg_one {b : BitVec 64} :
    exponentField b = -1 ↔ infinity ≤ b.toNat % signBit := by
  rw [← BitVec.toNat_inj, toNat_exponentField]
  show b.toNat / leadingBit % 2048 = 2047 ↔ _
  simp only [leadingBit, infinity, signBit]
  omega

theorem mantissaField_eq_zero {b : BitVec 64} (h : exponentField b = -1) :
    mantissaField b = 0 ↔ b.toNat % signBit = infinity := by
  have hexp := exponentField_eq_neg_one.mp h
  have hb : b.toNat < 2 ^ 64 := b.isLt
  rw [← BitVec.toNat_inj, toNat_mantissaField]
  show b.toNat % leadingBit = 0 ↔ _
  simp only [leadingBit, infinity, signBit] at hexp ⊢
  omega

theorem toBits_ofBits {b : UInt64} (h : b.toNat % signBit ≤ infinity) :
    (Float.ofBits b).toBits = b := by
  have hvalid : Format.binary64.Valid b.toBitVec := by
    refine ⟨fun hexp hman => absurd ?_ hman⟩
    have hle := exponentField_eq_neg_one.mp hexp
    exact (mantissaField_eq_zero hexp).mpr (Nat.le_antisymm h hle)
  show UInt64.ofBitVec (UnpackedFloat.pack Format.binary64
    (UnpackedFloat.unpack Format.binary64 b.toBitVec)) = b
  rw [pack_unpack_of_valid hvalid]

theorem isFinite_iff (x : Float) : x.isFinite ↔ magnitude x < infinity := by
  rw [magnitude, ← Nat.not_le, ← UInt64.toNat_toBitVec,
    ← exponentField_eq_neg_one]
  show (UnpackedFloat.unpack Format.binary64 x.toBits.toBitVec).isFinite ↔ _
  generalize x.toBits.toBitVec = b
  rw [UnpackedFloat.unpack]
  split
  · next hexp =>
      refine iff_of_false ?_ (not_not_intro hexp)
      split <;> exact Bool.false_ne_true
  · next hexp =>
      refine iff_of_true ?_ hexp
      split
      · split <;> rfl
      · rfl

theorem isNaN_iff (x : Float) : x.isNaN ↔ infinity < magnitude x := by
  show (UnpackedFloat.unpack Format.binary64 x.toBits.toBitVec).isNaN ↔ _
  rw [magnitude, ← UInt64.toNat_toBitVec]
  generalize x.toBits.toBitVec = b
  rw [UnpackedFloat.unpack]
  split
  · next hexp =>
      have hle := exponentField_eq_neg_one.mp hexp
      split
      · next hman =>
          rw [(mantissaField_eq_zero hexp).mp hman]
          exact iff_of_false Bool.false_ne_true (Nat.lt_irrefl _)
      · next hman =>
          have hne := fun h => hman ((mantissaField_eq_zero hexp).mpr h)
          exact iff_of_true rfl (Nat.lt_of_le_of_ne hle (Ne.symm hne))
  · next hexp =>
      have hlt := mt exponentField_eq_neg_one.mpr hexp
      refine iff_of_false ?_ fun h => hlt (Nat.le_of_lt h)
      split
      · split <;> exact Bool.false_ne_true
      · exact Bool.false_ne_true

theorem isInf_iff (x : Float) : x.isInf ↔ magnitude x = infinity := by
  show (UnpackedFloat.unpack Format.binary64 x.toBits.toBitVec).isInf ↔ _
  rw [magnitude, ← UInt64.toNat_toBitVec]
  generalize x.toBits.toBitVec = b
  rw [UnpackedFloat.unpack]
  split
  · next hexp =>
      split
      · next hman =>
          exact iff_of_true rfl ((mantissaField_eq_zero hexp).mp hman)
      · next hman =>
          exact iff_of_false Bool.false_ne_true fun h =>
            hman ((mantissaField_eq_zero hexp).mpr h)
  · next hexp =>
      refine iff_of_false ?_ fun h =>
        hexp (exponentField_eq_neg_one.mpr (Nat.le_of_eq h.symm))
      split
      · split <;> exact Bool.false_ne_true
      · exact Bool.false_ne_true

/-- A double is its sign and its magnitude bits. -/
theorem ofMagnitude_magnitude (x : Float) :
    ofMagnitude (isNegative x) (magnitude x) = x := by
  have hx : x.toBits.toNat < 2 ^ 64 := x.toBits.toNat_lt
  have h : (if isNegative x then signBit + magnitude x else magnitude x) =
      x.toBits.toNat := by
    rw [isNegative, magnitude]
    by_cases hneg : signBit ≤ x.toBits.toNat
    · rw [if_pos (decide_eq_true hneg)]
      unfold signBit at hneg ⊢
      omega
    · rw [if_neg (by rw [decide_eq_false hneg]; decide)]
      unfold signBit at hneg ⊢
      omega
  rw [ofMagnitude, h, UInt64.ofNat_toNat, Float.ofBits_toBits]

theorem toNat_toBits_ofMagnitude (negative : Bool) {bits : Nat}
    (h : bits ≤ infinity) :
    (ofMagnitude negative bits).toBits.toNat =
      if negative then signBit + bits else bits := by
  have hlt : (if negative then signBit + bits else bits) < 2 ^ 64 := by
    unfold infinity at h
    unfold signBit
    split <;> omega
  have hmod : (if negative then signBit + bits else bits) % signBit =
      bits := by
    unfold infinity at h
    unfold signBit
    split <;> omega
  rw [ofMagnitude, toBits_ofBits]
  · rw [UInt64.toNat_ofNat', Nat.mod_eq_of_lt hlt]
  · rw [UInt64.toNat_ofNat', Nat.mod_eq_of_lt hlt, hmod]
    exact h

theorem magnitude_ofMagnitude (negative : Bool) {bits : Nat}
    (h : bits ≤ infinity) : magnitude (ofMagnitude negative bits) = bits := by
  rw [magnitude, toNat_toBits_ofMagnitude negative h]
  unfold infinity at h
  unfold signBit
  split <;> omega

theorem isNegative_ofMagnitude (negative : Bool) {bits : Nat}
    (h : bits ≤ infinity) :
    isNegative (ofMagnitude negative bits) = negative := by
  rw [isNegative, toNat_toBits_ofMagnitude negative h]
  unfold infinity at h
  unfold signBit
  cases negative with
  | false =>
      rw [if_neg Bool.false_ne_true]
      exact decide_eq_false (by omega)
  | true => exact decide_eq_true (Nat.le_add_right ..)

end BraceLisp.Binary64
