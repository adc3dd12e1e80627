import BraceLisp.Proofs.DoubleBits
import BraceLisp.Proofs.Rounding

/-!
# The values of doubles

A finite double is its significand with its sign, times a power of two. `value`
takes these from where the double's own operations unpack them, and `value_eq`
finds them in the magnitude bits: the absolute value is so many units, of which
`2 ^ 1074` make one.

`Rounded` is what is wanted of a number that is rounded to a double. The
grid is one side of zero only, but doubles of the other sign are never nearer,
and as near only if they are zero. So rounding on the grid is rounding
to the nearest of all doubles (`NearestOf.nearestDouble`), and a decimal becomes
the double nearest to it (`Decimal.toFloat_rounded`), which is one double only
(`Rounded.unique`): of two even ones that are as near, a third lies between.
-/

namespace BraceLisp

namespace Binary64

open Float.Model Float.Model.UnpackedFloat

/-- The number that an unpacked double is, if it is finite: the significand with
its sign, times a power of two. -/
def unpackedValue : UnpackedFloat → ℚ
  | .finite s m e _ => (s.apply (m : Int) : Int) * (2 : ℚ) ^ e
  | _ => 0

/-- The number that a finite double is. -/
def value (x : Float) : ℚ := unpackedValue x.toModel.unpack

/-- The absolute value of the doubles with magnitude bits `bits`. -/
def gridValue (bits : Nat) : ℚ := units bits / 2 ^ 1074

theorem gridValue_zero : gridValue 0 = 0 := by
  rw [gridValue, show units 0 = 0 from rfl, Nat.cast_zero, zero_div]

theorem gridValue_strictMono : StrictMono gridValue := fun _ _ h =>
  div_lt_div_of_pos_right (cast_units_strictMono h) (pow_pos two_pos _)

theorem gridValue_nonneg (bits : Nat) : 0 ≤ gridValue bits :=
  div_nonneg (Nat.cast_nonneg _) (pow_nonneg zero_le_two _)

/-- A sign as a factor. -/
def signFactor (negative : Bool) : ℚ := if negative then -1 else 1

theorem signFactor_apply (b : BitVec 64) (m : Nat) :
    (((Sign.ofBitVec (@unpackSign Format.binary64 b)).apply m : Int) : ℚ) =
      signFactor (decide (signBit ≤ b.toNat)) * m := by
  have hsign : @unpackSign Format.binary64 b = 0#1 ↔ ¬ signBit ≤ b.toNat := by
    have hb : b.toNat < 2 ^ 64 := b.isLt
    rw [← BitVec.toNat_inj]
    simp [unpackSign, signBit]
    omega
  unfold Sign.ofBitVec signFactor
  by_cases h : signBit ≤ b.toNat
  · rw [if_neg (mt hsign.mp (not_not_intro h)), decide_eq_true h, if_pos rfl]
    simp [Sign.apply]
  · rw [if_pos (hsign.mpr h), decide_eq_false h]
    simp [Sign.apply]

theorem mod_signBit_eq (b : BitVec 64) :
    b.toNat % signBit =
      (exponentField b).toNat * leadingBit + (mantissaField b).toNat := by
  rw [toNat_exponentField, toNat_mantissaField]
  unfold signBit leadingBit
  omega

/-- Without an exponent, the mantissa counts units. -/
theorem unpackedValue_subnormal {b : BitVec 64} (h : exponentField b = 0) :
    unpackedValue (UnpackedFloat.unpack Format.binary64 b) =
      signFactor (decide (signBit ≤ b.toNat)) *
        ((mantissaField b).toNat * 2 ^ (-1074 : Int)) := by
  have hne : ¬ exponentField b = -1 := by rw [h]; decide
  rw [UnpackedFloat.unpack]
  split
  · next heq => exact absurd heq hne
  refine (congrArg unpackedValue (if_pos h)).trans ?_
  split
  · next hzero =>
      have hman : (mantissaField b).toNat = 0 := congrArg BitVec.toNat hzero
      rw [hman, Nat.cast_zero, zero_mul, mul_zero]
      rfl
  · next hne =>
      have hexp : (exponentField b).toNat = 0 := congrArg BitVec.toNat h
      rw [unpackedValue, signFactor_apply, mul_assoc]
      show _ * (_ * (2 : ℚ) ^ (((exponentField b).toNat : Int) - 1075 + 1)) = _
      rw [hexp]
      rfl

/-- An exponent adds a leading one to the mantissa. -/
theorem unpackedValue_normal {b : BitVec 64} (h : exponentField b ≠ 0)
    (h' : exponentField b ≠ -1) :
    unpackedValue (UnpackedFloat.unpack Format.binary64 b) =
      signFactor (decide (signBit ≤ b.toNat)) *
        ((leadingBit + (mantissaField b).toNat : Nat) *
          2 ^ ((exponentField b).toNat - 1075 : Int)) := by
  have hone : (1#1 ++ mantissaField b).toNat =
      leadingBit + (mantissaField b).toNat := by
    rw [BitVec.toNat_append, ← Nat.shiftLeft_add_eq_or_of_lt (BitVec.isLt _)]
    rfl
  rw [UnpackedFloat.unpack]
  split
  · next heq => exact absurd heq h'
  split
  · next heq => exact absurd heq h
  · rw [unpackedValue, signFactor_apply, mul_assoc, ← hone]
    rfl

theorem value_eq {x : Float} (h : x.isFinite) :
    value x = signFactor (isNegative x) * gridValue (magnitude x) := by
  rw [isFinite_iff] at h
  show unpackedValue
    (UnpackedFloat.unpack Format.binary64 x.toBits.toBitVec) = _
  rw [magnitude, ← UInt64.toNat_toBitVec] at h
  rw [isNegative, magnitude, ← UInt64.toNat_toBitVec]
  generalize x.toBits.toBitVec = b at *
  have hman := (mantissaField b).isLt
  have hne : exponentField b ≠ -1 := fun hexp =>
    absurd (exponentField_eq_neg_one.mp hexp) (Nat.not_le.mpr h)
  rw [mod_signBit_eq, gridValue]
  by_cases hexp : exponentField b = 0
  · have hzero : (exponentField b).toNat = 0 := congrArg BitVec.toNat hexp
    rw [unpackedValue_subnormal hexp, hzero, units_add (by omega) (.inl rfl),
      Nat.pow_zero, Nat.mul_one, zpow_neg, ← div_eq_mul_inv]
    rfl
  · obtain ⟨k, hk⟩ : ∃ k, (exponentField b).toNat = k + 1 :=
      Nat.exists_eq_add_one.mpr (Nat.pos_of_ne_zero fun h =>
        hexp (BitVec.eq_of_toNat_eq h))
    have hsplit : (k + 1) * leadingBit + (mantissaField b).toNat =
        k * leadingBit + (leadingBit + (mantissaField b).toNat) := by
      rw [Nat.succ_mul, Nat.add_assoc]
    have hexponent : ((k + 1 : Nat) : Int) - 1075 = k - 1074 := by omega
    have hlow : leadingBit = 2 ^ 52 := rfl
    rw [unpackedValue_normal hexp hne, hk, hsplit,
      units_add (by omega) (.inr (by omega)), hexponent,
      zpow_sub₀ two_ne_zero, zpow_natCast, Nat.cast_mul, Nat.cast_pow,
      Nat.cast_ofNat, mul_div_assoc]
    rfl

theorem isFinite_ofMagnitude (negative : Bool) {bits : Nat}
    (h : bits < infinity) : (ofMagnitude negative bits).isFinite := by
  rw [isFinite_iff, magnitude_ofMagnitude _ (Nat.le_of_lt h)]
  exact h

theorem value_ofMagnitude (negative : Bool) {bits : Nat} (h : bits < infinity) :
    value (ofMagnitude negative bits) =
      signFactor negative * gridValue bits := by
  rw [value_eq (isFinite_ofMagnitude negative h),
    isNegative_ofMagnitude _ (Nat.le_of_lt h),
    magnitude_ofMagnitude _ (Nat.le_of_lt h)]

/-! ## Rounding a number to a double -/

/-- No finite double is nearer to `q`, and if another one is as near, the last
bit of this one is zero. -/
structure NearestDouble (q : ℚ) (x : Float) : Prop where
  isFinite : x.isFinite
  le (y : Float) : y.isFinite → |q - value x| ≤ |q - value y|
  even (y : Float) : y.isFinite → value y ≠ value x →
    |q - value y| = |q - value x| → Even x.toBits.toNat

/-- What is wanted of a number that is rounded to a double, for a number
given by its sign and its absolute value: the double nearest to it, or infinity
if the number is beyond the greatest finite double by half of the last distance
or more, always with the sign of the number. -/
structure Rounded (negative : Bool) (q : ℚ) (x : Float) : Prop where
  sign : isNegative x = negative
  notNaN : x.isNaN = false
  infinite : x.isInf ↔ (2 ^ 1024 - 2 ^ 970 : ℚ) ≤ q
  zero : magnitude x = 0 ↔ q ≤ 1 / 2 ^ 1075
  nearest : ¬ x.isInf → NearestDouble (signFactor negative * q) x

theorem even_magnitude_iff (x : Float) :
    Even (magnitude x) ↔ Even x.toBits.toNat := by
  rw [Nat.even_iff, Nat.even_iff, magnitude, signBit]
  omega

theorem abs_signFactor_sub (negative : Bool) (q r : ℚ) :
    |signFactor negative * q - signFactor negative * r| = |q - r| := by
  rw [← mul_sub, abs_mul]
  cases negative
  · rw [show signFactor false = 1 from rfl, abs_one, one_mul]
  · rw [show signFactor true = -1 from rfl, abs_neg, abs_one, one_mul]

theorem abs_sub_le_add {q r : ℚ} (hq : 0 ≤ q) (hr : 0 ≤ r) :
    |q - r| ≤ q + r :=
  abs_le.mpr ⟨by linarith, by linarith⟩

/-- Numbers of different signs are apart by both of their absolute values. -/
theorem abs_signFactor_sub_of_ne {negative negative' : Bool}
    (h : negative ≠ negative') {q r : ℚ} (hq : 0 ≤ q) (hr : 0 ≤ r) :
    |signFactor negative * q - signFactor negative' * r| = q + r := by
  cases negative <;> cases negative'
  · exact absurd rfl h
  · rw [show signFactor false * q - signFactor true * r = q + r by
      unfold signFactor; norm_num, abs_of_nonneg (add_nonneg hq hr)]
  · rw [show signFactor true * q - signFactor false * r = -(q + r) by
      unfold signFactor; norm_num; ring, abs_neg,
      abs_of_nonneg (add_nonneg hq hr)]
  · exact absurd rfl h

theorem abs_sub_gridValue_le (negative : Bool) {q : ℚ} (hq : 0 ≤ q) {y : Float}
    (hy : y.isFinite) :
    |q - gridValue (magnitude y)| ≤ |signFactor negative * q - value y| := by
  rw [value_eq hy]
  by_cases hsign : negative = isNegative y
  · rw [hsign, abs_signFactor_sub]
  · rw [abs_signFactor_sub_of_ne hsign hq (gridValue_nonneg _)]
    exact abs_sub_le_add hq (gridValue_nonneg _)

/-- What is nearest on the grid is nearest of all doubles. -/
theorem NearestOf.nearestDouble {q : ℚ} (hq : 0 ≤ q) {x : Float}
    (hx : x.isFinite) (h : NearestOf gridValue q (magnitude x)) :
    NearestDouble (signFactor (isNegative x) * q) x := by
  have hdist : |signFactor (isNegative x) * q - value x| =
      |q - gridValue (magnitude x)| := by
    rw [value_eq hx, abs_signFactor_sub]
  refine ⟨hx, fun y hy => ?_, fun y hy hne heq => ?_⟩
  · rw [hdist]
    exact (h.le _).trans (abs_sub_gridValue_le _ hq hy)
  · rw [hdist] at heq
    have htie := le_antisymm ((abs_sub_gridValue_le _ hq hy).trans_eq heq)
      (h.le _)
    rw [← even_magnitude_iff]
    refine h.even _ (fun hgrid => hne ?_) htie
    rw [value_eq hy, hgrid] at heq
    rw [value_eq hx, value_eq hy, hgrid]
    by_cases hsign : isNegative x = isNegative y
    · rw [hsign]
    · -- On the other side of zero only zero itself is as near.
      have hzero := h.le 0
      rw [abs_signFactor_sub_of_ne hsign hq (gridValue_nonneg _)] at heq
      rw [← heq, gridValue_zero, sub_zero, abs_of_nonneg hq] at hzero
      have hx0 := le_antisymm ((add_le_iff_nonpos_right q).mp hzero)
        (gridValue_nonneg (magnitude x))
      rw [hx0, mul_zero, mul_zero]

/-! ## There is one such double -/

section Unique

variable {negative : Bool} {q : ℚ} {x y : Float}

theorem NearestDouble.le_gridValue
    (h : NearestDouble (signFactor negative * q) x)
    (hsign : isNegative x = negative) {bits : Nat} (hbits : bits < infinity) :
    |q - gridValue (magnitude x)| ≤ |q - gridValue bits| := by
  have hle := h.le _ (isFinite_ofMagnitude negative hbits)
  rw [value_eq h.isFinite, value_ofMagnitude negative hbits, hsign,
    abs_signFactor_sub, abs_signFactor_sub] at hle
  exact hle

theorem NearestDouble.even_of_tie
    (h : NearestDouble (signFactor negative * q) x)
    (hsign : isNegative x = negative) {bits : Nat} (hbits : bits < infinity)
    (hne : bits ≠ magnitude x)
    (heq : |q - gridValue bits| = |q - gridValue (magnitude x)|) :
    Even (magnitude x) := by
  have hfactor : signFactor negative ≠ 0 := by
    cases negative <;> decide
  rw [even_magnitude_iff]
  refine h.even _ (isFinite_ofMagnitude negative hbits) ?_ ?_
  · rw [value_eq h.isFinite, value_ofMagnitude negative hbits, hsign]
    exact fun hvalue =>
      hne (gridValue_strictMono.injective (mul_left_cancel₀ hfactor hvalue))
  · rw [value_eq h.isFinite, value_ofMagnitude negative hbits, hsign,
      abs_signFactor_sub, abs_signFactor_sub]
    exact heq

theorem NearestDouble.not_magnitude_lt
    (hx : NearestDouble (signFactor negative * q) x)
    (hy : NearestDouble (signFactor negative * q) y)
    (hxsign : isNegative x = negative) (hysign : isNegative y = negative) :
    ¬ magnitude x < magnitude y := by
  intro hlt
  have hxfinite := (isFinite_iff x).mp hx.isFinite
  have hyfinite := (isFinite_iff y).mp hy.isFinite
  have heq := le_antisymm (hx.le_gridValue hxsign hyfinite)
    (hy.le_gridValue hysign hxfinite)
  have hxeven := hx.even_of_tie hxsign hyfinite hlt.ne' heq.symm
  have hyeven := hy.even_of_tie hysign hxfinite hlt.ne heq
  rw [Nat.even_iff] at hxeven hyeven
  -- Both are even, so a double lies between them and is nearer than both.
  have hnext : magnitude x + 1 < magnitude y := by omega
  have hlow := two_mul_le_add_of_abs_sub_le
    (gridValue_strictMono (Nat.lt_succ_self (magnitude x)))
    (hx.le_gridValue hxsign (hnext.trans hyfinite))
  have hhigh := add_le_two_mul_of_abs_sub_le (gridValue_strictMono hlt) heq.ge
  have hbetween := gridValue_strictMono hnext
  linarith

/-- A number is rounded to one double only. -/
theorem Rounded.unique (hx : Rounded negative q x)
    (hy : Rounded negative q y) : x = y := by
  have hmagnitude : magnitude x = magnitude y := by
    by_cases hinf : x.isInf
    · have hinf' := hy.infinite.mpr (hx.infinite.mp hinf)
      rw [(isInf_iff x).mp hinf, (isInf_iff y).mp hinf']
    · have hinf' := mt hy.infinite.mp (mt hx.infinite.mpr hinf)
      have hx' := hx.nearest hinf
      have hy' := hy.nearest hinf'
      exact Nat.le_antisymm
        (Nat.le_of_not_lt (hy'.not_magnitude_lt hx' hy.sign hx.sign))
        (Nat.le_of_not_lt (hx'.not_magnitude_lt hy' hx.sign hy.sign))
  rw [← ofMagnitude_magnitude x, hmagnitude, hx.sign, ← hy.sign,
    ofMagnitude_magnitude]

end Unique

/-! ## Decimals -/

theorem threshold_eq (a b s : Nat) (hab : b ≤ a) :
    ((2 ^ (a + s) - 2 ^ (b + s) : Nat) : ℚ) = (2 ^ a - 2 ^ b) * 2 ^ s := by
  rw [Nat.cast_sub (Nat.pow_le_pow_right two_pos (by omega)), Nat.cast_pow,
    Nat.cast_pow, Nat.cast_ofNat, sub_mul, ← pow_add, ← pow_add]

end Binary64

open Binary64

/-- A decimal becomes the double nearest to it. -/
theorem Decimal.toFloat_rounded (d : Decimal) :
    Rounded d.negative d.absolute d.toFloat := by
  obtain ⟨n, m, hm, hq, hmag⟩ := d.magnitude_eq_nearest
  have hle : d.magnitude ≤ infinity := d.magnitude_le_infinity
  have hc : (0 : ℚ) < 2 ^ 1074 := pow_pos two_pos 1074
  have hx : Binary64.magnitude d.toFloat = d.magnitude :=
    magnitude_ofMagnitude _ hle
  have hsign : isNegative d.toFloat = d.negative := isNegative_ofMagnitude _ hle
  have habs : 0 ≤ d.absolute :=
    mul_nonneg (Nat.cast_nonneg _) (zpow_nonneg (by norm_num) _)
  refine ⟨hsign, ?_, ?_, ?_, fun hinf => ?_⟩
  · rw [← Bool.not_eq_true, isNaN_iff, hx]
    exact Nat.not_lt.mpr hle
  · rw [isInf_iff, hx, hmag, nearest_eq_infinity_iff n hm, hq,
      threshold_eq 1024 970 1074 (by decide), mul_le_mul_iff_left₀ hc]
  · rw [hx, hmag, nearest_eq_zero_iff n hm, hq, ← le_div_iff₀ hc, div_div,
      ← pow_succ']
  · rw [isInf_iff, hx] at hinf
    rw [← hsign]
    refine NearestOf.nearestDouble habs ?_ (.div hc ?_)
    · rw [isFinite_iff, hx]
      omega
    · rw [hx, ← hq, hmag]
      rw [hmag] at hinf
      exact nearest_nearest n hm hinf

end BraceLisp
