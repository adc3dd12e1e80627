import BraceLisp.Number.Decimal
import Mathlib.Algebra.Group.Nat.Defs

/-!
# Rounding a quotient

`Binary64.nearest` rounds a quotient of naturals. What is kept here is how it
treats the quotients that texts of numbers denote: it sees the quotient and not
its terms, it leaves the value of a double as it is, and the early exits of
`Decimal.magnitude` answer as it would.
-/

namespace BraceLisp

namespace Binary64

theorem roundHalfEven_mul (n d : Nat) {k : Nat} (hk : 0 < k) :
    roundHalfEven (n * k) (d * k) = roundHalfEven n d := by
  have hr : n * k % (d * k) = n % d * k := Nat.mul_mod_mul_right k n d
  unfold roundHalfEven
  simp only [Nat.mul_div_mul_right n d hk, hr, ← Nat.mul_assoc,
    Nat.mul_lt_mul_right hk]

theorem roundHalfEven_mul_self (q : Nat) {d : Nat} (hd : 0 < d) :
    roundHalfEven (q * d) d = q := by
  unfold roundHalfEven
  simp only [Nat.mul_mod_left, Nat.mul_div_cancel q hd, Nat.mul_zero, hd,
    if_true]

/-- Rounding sees a quotient, not its terms. -/
theorem nearest_mul (n d : Nat) {k : Nat} (hk : 0 < k) :
    nearest (n * k) (d * k) = nearest n d := by
  unfold nearest
  simp only [Nat.mul_div_mul_right n d hk, Nat.shiftLeft_eq,
    Nat.mul_right_comm d k, roundHalfEven_mul _ _ hk]

/-- What is below half of the least positive double is zero. -/
theorem nearest_eq_zero {n d : Nat} (h : 2 * n < d) : nearest n d = 0 := by
  have hlt : n < d := by omega
  have hround : roundHalfEven n d = 0 := by
    unfold roundHalfEven
    simp only [Nat.mod_eq_of_lt hlt, Nat.div_eq_of_lt hlt, h, if_true]
  unfold nearest
  simp only [Nat.div_eq_of_lt hlt, Nat.log2_zero, Nat.zero_sub, Nat.zero_mul,
    Nat.shiftLeft_zero, hround]
  rfl

theorem log2_shiftLeft {n : Nat} (hn : n ≠ 0) (k : Nat) :
    (n <<< k).log2 = n.log2 + k := by
  have hpos : 0 < n * 2 ^ k :=
    Nat.mul_pos (Nat.pos_of_ne_zero hn) (Nat.two_pow_pos k)
  rw [Nat.shiftLeft_eq, Nat.log2_eq_iff (Nat.ne_of_gt hpos)]
  constructor
  · rw [Nat.pow_add]
    exact Nat.mul_le_mul_right _ (Nat.log2_self_le hn)
  · rw [Nat.add_right_comm, Nat.pow_add]
    exact Nat.mul_lt_mul_of_pos_right Nat.lt_log2_self (Nat.two_pow_pos k)

theorem log2_units {bits : Nat} :
    (units bits).log2 - 52 = binade bits := by
  unfold units binade significand
  split
  · next h =>
      -- Below the first binade the bits are the units.
      have hbits : bits.log2 < 52 ∨ bits = 0 := by
        by_cases h0 : bits = 0
        · exact .inr h0
        · exact .inl (by rwa [Nat.log2_lt h0])
      have hdiv : bits / leadingBit = 0 := Nat.div_eq_of_lt h
      rw [hdiv]
      rcases hbits with hlog | rfl
      · show bits.log2 - 52 = 0
        omega
      · rfl
  · next h =>
      have hmod : bits % leadingBit < leadingBit := Nat.mod_lt _ (by decide)
      have hsig : (leadingBit + bits % leadingBit).log2 = 52 := by
        unfold leadingBit at hmod ⊢
        rw [Nat.log2_eq_iff (by omega)]
        omega
      have hne : leadingBit + bits % leadingBit ≠ 0 := by
        unfold leadingBit; omega
      rw [log2_shiftLeft hne, hsig, Nat.add_sub_cancel_left]

theorem binade_add_significand (bits : Nat) :
    binade bits * leadingBit + significand bits = bits := by
  unfold binade significand leadingBit
  split <;> omega

/-- The value of a double rounds to the double. -/
theorem nearest_units {bits d : Nat} (hd : 0 < d) (hbits : bits < infinity) :
    nearest (units bits * d) d = bits := by
  have hround : roundHalfEven (units bits * d) (d <<< binade bits) =
      significand bits := by
    rw [units, Nat.shiftLeft_eq, Nat.shiftLeft_eq, Nat.mul_assoc,
      Nat.mul_comm _ d]
    exact roundHalfEven_mul_self _ (Nat.mul_pos hd (Nat.two_pow_pos _))
  unfold nearest
  simp only [Nat.mul_div_cancel _ hd, log2_units, hround,
    binade_add_significand]
  omega

end Binary64

namespace Decimal

open Binary64

theorem two_mul_shiftLeft_lt {s t coefficient places : Nat}
    (hst : 2 ^ (s + 1) ≤ 10 ^ t) (h : coefficient.log2 + 1 + t ≤ places) :
    2 * coefficient <<< s < 10 ^ places := by
  calc
    2 * coefficient <<< s = coefficient * 2 ^ (s + 1) := by
      rw [Nat.shiftLeft_eq, Nat.mul_left_comm, ← Nat.pow_succ']
    _ < 2 ^ (coefficient.log2 + 1) * 2 ^ (s + 1) :=
      Nat.mul_lt_mul_of_pos_right Nat.lt_log2_self (Nat.two_pow_pos _)
    _ ≤ 10 ^ (coefficient.log2 + 1) * 10 ^ t :=
      Nat.mul_le_mul (Nat.pow_le_pow_left (by decide) _) hst
    _ = 10 ^ (coefficient.log2 + 1 + t) := (Nat.pow_add ..).symm
    _ ≤ 10 ^ places := Nat.pow_le_pow_right (by decide) h

/-- The early exits of `magnitude` are not needed for a fraction: it is the
quotient, rounded. -/
theorem magnitude_fraction (negative : Bool) (coefficient places : Nat) :
    magnitude ⟨negative, coefficient, -(places : Int)⟩ =
      nearest (coefficient <<< 1074) (10 ^ places) := by
  unfold magnitude
  simp only
  split
  · next h =>
      rw [h, Nat.zero_shiftLeft, nearest_eq_zero (Nat.pow_pos (by decide))]
  · next h =>
      rw [if_neg (by omega)]
      split
      · next hsmall =>
          have hlow : 2 ^ (1074 + 1) ≤ 10 ^ 324 := by decide +kernel
          have hlt : 2 * coefficient <<< 1074 < 10 ^ places :=
            two_mul_shiftLeft_lt hlow (by omega)
          rw [nearest_eq_zero hlt]
      · match places with
        | 0 => simp
        | k + 1 => rfl

theorem magnitude_le_infinity (d : Decimal) : d.magnitude ≤ infinity := by
  unfold magnitude
  split
  · exact Nat.zero_le _
  split
  · exact Nat.le_refl _
  split
  · exact Nat.zero_le _
  split
  · exact Nat.min_le_right ..
  · exact Nat.min_le_right ..

end Decimal

end BraceLisp
