import BraceLisp.Proofs.Nearest
import Mathlib.Algebra.Order.Field.Basic
import Mathlib.Algebra.Order.Field.Rat
import Mathlib.Algebra.Order.Ring.Abs
import Mathlib.Tactic.FieldSimp
import Mathlib.Tactic.Linarith
import Mathlib.Tactic.Ring

/-!
# Rounding is to the nearest

The magnitude bits count the doubles from zero upwards, so the units of all
magnitude bits are a grid, `2 ^ binade bits` from one point to the next, and it
may be thought of as going on behind infinity. `Binary64.nearest` takes the grid
point that is nearest to a quotient, and the even one of two, and then keeps it
from getting past infinity.

A quotient is rounded to a multiple of `2 ^ s`, where the quotient has 53 bits
before the binary point in these units. Every grid point is such a multiple or
lies below `2 ^ (s + 52)`. What lies below is farther away than `2 ^ (s + 52)`
itself, which is a multiple, so the nearest multiple is the nearest grid point.
-/

namespace BraceLisp

namespace Binary64

/-! ## The grid -/

theorem units_succ (bits : Nat) :
    units (bits + 1) = units bits + 2 ^ binade bits := by
  unfold units binade significand leadingBit
  simp only [Nat.shiftLeft_eq]
  by_cases hlast : bits % 0x10000000000000 = 0xFFFFFFFFFFFFF
  · -- The next binade begins, with twice the distance.
    have hdiv : (bits + 1) / 0x10000000000000 =
        bits / 0x10000000000000 + 1 := by omega
    have hmod : (bits + 1) % 0x10000000000000 = 0 := by omega
    rw [if_neg (by omega), hdiv, hmod, Nat.add_sub_cancel]
    split
    · next h => rw [Nat.div_eq_of_lt h, Nat.pow_zero]; omega
    · next h =>
        obtain ⟨e, he⟩ : ∃ e, bits / 0x10000000000000 = e + 1 :=
          Nat.exists_eq_add_one.mpr (by omega)
        rw [he, hlast, Nat.add_sub_cancel, Nat.pow_succ]
        omega
  · have hdiv : (bits + 1) / 0x10000000000000 = bits / 0x10000000000000 := by
      omega
    have hmod : (bits + 1) % 0x10000000000000 =
        bits % 0x10000000000000 + 1 := by omega
    rw [hdiv, hmod]
    split
    · next h =>
        rw [if_pos (by omega), Nat.div_eq_of_lt (by omega), Nat.pow_zero]
        omega
    · next h =>
        rw [if_neg (by omega), ← Nat.add_assoc, Nat.add_mul, Nat.one_mul]

theorem units_strictMono : StrictMono units :=
  strictMono_nat_of_lt_succ fun bits => by
    rw [units_succ]
    exact Nat.lt_add_of_pos_right (Nat.two_pow_pos _)

/-- Grid points are multiples of `2 ^ s` from `2 ^ (s + 52)` on. -/
theorem units_dvd_or_lt (s bits : Nat) :
    2 ^ s ∣ units bits ∨ 0 < s ∧ units bits < 2 ^ 52 * 2 ^ s := by
  unfold units
  rw [Nat.shiftLeft_eq]
  rcases Nat.lt_or_ge (binade bits) s with h | h
  · refine .inr ⟨Nat.zero_lt_of_lt h, ?_⟩
    have hsig : significand bits < 2 ^ 53 := by
      unfold significand leadingBit
      split <;> omega
    calc
      significand bits * 2 ^ binade bits < 2 ^ 53 * 2 ^ binade bits :=
        Nat.mul_lt_mul_of_pos_right hsig (Nat.two_pow_pos _)
      _ = 2 ^ (53 + binade bits) := (Nat.pow_add ..).symm
      _ ≤ 2 ^ (52 + s) := Nat.pow_le_pow_right (by decide) (by omega)
      _ = 2 ^ 52 * 2 ^ s := Nat.pow_add ..
  · exact .inl (Dvd.dvd.mul_left (Nat.pow_dvd_pow 2 h) _)

/-- The units of a significand of full length, or of one that was rounded up. -/
theorem units_add {s m : Nat} (hm : m ≤ 2 ^ 53) (h : s = 0 ∨ 2 ^ 52 ≤ m) :
    units (s * leadingBit + m) = m * 2 ^ s := by
  unfold units binade significand leadingBit
  rw [Nat.shiftLeft_eq]
  rcases Nat.lt_or_ge m (2 ^ 52) with hlow | hhigh
  · rw [if_pos (by omega), Nat.div_eq_of_lt (by omega)]
    obtain rfl : s = 0 := by omega
    omega
  rw [if_neg (by omega)]
  rcases Nat.lt_or_eq_of_le hm with hlt | rfl
  · rw [show (s * 0x10000000000000 + m) / 0x10000000000000 = s + 1 by omega,
      show 0x10000000000000 + (s * 0x10000000000000 + m) % 0x10000000000000 = m
        by omega, Nat.add_sub_cancel]
  · rw [show (s * 0x10000000000000 + 2 ^ 53) / 0x10000000000000 = s + 1 + 1
        by omega, show (s * 0x10000000000000 + 2 ^ 53) % 0x10000000000000 = 0
        by omega, Nat.add_sub_cancel, Nat.pow_succ]
    omega

/-! ## The nearest point -/

/-- Of the points that `f` gives, `f i` is nearest to `q`, and `i` is even if
another one is as near. -/
structure NearestOf (f : Nat → ℚ) (q : ℚ) (i : Nat) : Prop where
  le (j : Nat) : |q - f i| ≤ |q - f j|
  even (j : Nat) : f j ≠ f i → |q - f j| = |q - f i| → Even i

theorem roundHalfEven_near (n : Nat) {d : Nat} (hd : 0 < d) :
    |(n : ℚ) / d - roundHalfEven n d| ≤ 1 / 2 ∧
      (|(n : ℚ) / d - roundHalfEven n d| = 1 / 2 →
        Even (roundHalfEven n d)) := by
  have hd' : (0 : ℚ) < d := by exact_mod_cast hd
  have hdiv : (n : ℚ) / d = (n / d : Nat) + (n % d : Nat) / d := by
    rw [div_eq_iff hd'.ne', add_mul, div_mul_cancel₀ _ hd'.ne']
    exact_mod_cast (Nat.div_add_mod' n d).symm
  have hnonneg : (0 : ℚ) ≤ (n % d : Nat) / d :=
    div_nonneg (Nat.cast_nonneg _) hd'.le
  have hlt : ((n % d : Nat) : ℚ) / d < 1 := by
    rw [div_lt_one hd']
    exact_mod_cast Nat.mod_lt n hd
  have hhalf : ((n % d : Nat) : ℚ) / d < 1 / 2 ↔ 2 * (n % d) < d := by
    rw [div_lt_div_iff₀ hd' two_pos, one_mul, mul_comm]
    norm_cast
  have hhalf' : 1 / 2 < ((n % d : Nat) : ℚ) / d ↔ d < 2 * (n % d) := by
    rw [div_lt_div_iff₀ two_pos hd', one_mul, mul_comm]
    norm_cast
  unfold roundHalfEven
  simp only [← hhalf, ← hhalf']
  rw [hdiv]
  generalize ((n % d : Nat) : ℚ) / d = t at *
  split
  · next h =>
      rw [add_sub_cancel_left, abs_of_nonneg hnonneg]
      exact ⟨h.le, fun heq => absurd heq h.ne⟩
  split
  · next h =>
      have habs :
          |((n / d : Nat) : ℚ) + t - ((n / d + 1 : Nat) : ℚ)| = 1 - t := by
        rw [Nat.cast_succ, add_sub_add_left_eq_sub, abs_of_neg (by linarith),
          neg_sub]
      rw [habs]
      exact ⟨by linarith, fun heq => by linarith⟩
  · next h h' =>
      obtain rfl : t = 1 / 2 := by linarith
      refine ⟨?_, fun _ => ?_⟩
      · rcases Nat.mod_two_eq_zero_or_one (n / d) with heven | hodd
        · rw [heven, Nat.add_zero, add_sub_cancel_left]
          norm_num
        · rw [hodd, Nat.cast_succ, add_sub_add_left_eq_sub]
          norm_num
      · rw [Nat.even_iff]
        omega

theorem roundHalfEven_nearest (n : Nat) {d : Nat} (hd : 0 < d) :
    NearestOf Nat.cast ((n : ℚ) / d) (roundHalfEven n d) := by
  obtain ⟨hnear, htie⟩ := roundHalfEven_near n hd
  generalize (n : ℚ) / d = q, roundHalfEven n d = r at *
  -- Any other whole number is one away from `r`, so at least a half from `q`.
  have hfar : ∀ j : Nat, (j : ℚ) ≠ r → 1 / 2 ≤ |q - j| := by
    intro j hj
    have hone : (1 : ℚ) ≤ |(j : ℚ) - r| := by
      have hne : (j : Int) - r ≠ 0 := by
        intro h
        exact hj (by exact_mod_cast sub_eq_zero.mp h)
      exact_mod_cast Int.one_le_abs hne
    have htri : |(j : ℚ) - r| ≤ |q - j| + |q - r| := by
      rw [abs_sub_comm q j]
      exact abs_sub_le _ _ _
    linarith
  refine ⟨fun j => ?_, fun j hj heq => htie ?_⟩
  · by_cases hj : (j : ℚ) = r
    · rw [hj]
    · exact hnear.trans (hfar j hj)
  · exact le_antisymm hnear (heq ▸ hfar j hj)

theorem NearestOf.div {f : Nat → ℚ} {q c : ℚ} {i : Nat} (hc : 0 < c)
    (h : NearestOf f (q * c) i) : NearestOf (fun j => f j / c) q i := by
  have hscale : ∀ j, |q * c - f j| = |q - f j / c| * c := by
    intro j
    rw [← abs_of_pos hc, ← abs_mul, abs_of_pos hc, sub_mul,
      div_mul_cancel₀ _ hc.ne']
  refine ⟨fun j => ?_, fun j hne heq => h.even j ?_ ?_⟩
  · have hle := h.le j
    rw [hscale, hscale] at hle
    exact le_of_mul_le_mul_right hle hc
  · intro hfj
    exact hne (by rw [hfj])
  · rw [hscale, hscale, heq]

/-- The nearest multiple is the nearest point if every point is a multiple or
is below some multiple that is not above `q`. -/
theorem NearestOf.of_multiples {f : Nat → ℚ} {x c : ℚ} {m i : Nat} (hc : 0 < c)
    (hround : NearestOf Nat.cast x m) (hi : f i = m * c)
    (heven : Even m → Even i)
    (hf : ∀ j, (∃ k : Nat, f j = k * c) ∨
      ∃ k : Nat, f j < k * c ∧ (k : ℚ) ≤ x) :
    NearestOf f (x * c) i := by
  have hdist : ∀ k : Nat, |x * c - k * c| = |x - k| * c := by
    intro k
    rw [← sub_mul, abs_mul, abs_of_pos hc]
  have hbelow : ∀ j, ∀ k : Nat, f j < k * c → (k : ℚ) ≤ x →
      |x * c - f i| < |x * c - f j| := by
    intro j k hj hk
    have hkc : k * c ≤ x * c := mul_le_mul_of_nonneg_right hk hc.le
    calc
      |x * c - f i| = |x - m| * c := by rw [hi, hdist]
      _ ≤ |x - k| * c := mul_le_mul_of_nonneg_right (hround.le k) hc.le
      _ = x * c - k * c := by rw [← hdist, abs_of_nonneg (sub_nonneg.mpr hkc)]
      _ < x * c - f j := sub_lt_sub_left hj _
      _ ≤ |x * c - f j| := le_abs_self _
  refine ⟨fun j => ?_, fun j hne heq => heven ?_⟩
  · rcases hf j with ⟨k, hk⟩ | ⟨k, hj, hk⟩
    · rw [hi, hk, hdist, hdist]
      exact mul_le_mul_of_nonneg_right (hround.le k) hc.le
    · exact (hbelow j k hj hk).le
  · rcases hf j with ⟨k, hk⟩ | ⟨k, hj, hk⟩
    · rw [hi, hk] at hne
      rw [hi, hk, hdist, hdist] at heq
      exact hround.even k (fun h => hne (by rw [h]))
        (mul_right_cancel₀ hc.ne' heq)
    · exact absurd heq (hbelow j k hj hk).ne'

theorem le_roundHalfEven (n d : Nat) : n / d ≤ roundHalfEven n d := by
  unfold roundHalfEven
  simp only
  split_ifs <;> omega

theorem roundHalfEven_le (n d : Nat) : roundHalfEven n d ≤ n / d + 1 := by
  unfold roundHalfEven
  simp only
  split_ifs <;> omega

/-- The grid point nearest to `n / d`, infinity and beyond included. -/
def gridPoint (n d : Nat) : Nat :=
  let s := (n / d).log2 - 52
  s * leadingBit + roundHalfEven n (d <<< s)

theorem nearest_eq_min (n d : Nat) :
    nearest n d = min (gridPoint n d) infinity :=
  rfl

/-- In the units that a quotient is rounded to, it has at most 53 bits before
the point, and 53 bits if these are not the least units. -/
theorem div_shiftLeft_bounds (n d : Nat) {s : Nat}
    (hs : s = (n / d).log2 - 52) :
    n / d <<< s < 2 ^ 53 ∧ (s = 0 ∨ 2 ^ 52 ≤ n / d <<< s) := by
  rw [Nat.shiftLeft_eq, ← Nat.div_div_eq_div_mul]
  generalize n / d = q at *
  refine ⟨?_, or_iff_not_imp_left.mpr fun hne => ?_⟩
  · rw [Nat.div_lt_iff_lt_mul (Nat.two_pow_pos s), ← Nat.pow_add]
    exact Nat.lt_of_lt_of_le Nat.lt_log2_self
      (Nat.pow_le_pow_right (by decide) (by omega))
  · have hq : q ≠ 0 := by
      rintro rfl
      rw [Nat.log2_zero] at hs
      omega
    rw [Nat.le_div_iff_mul_le (Nat.two_pow_pos s), ← Nat.pow_add]
    exact Nat.le_trans (Nat.pow_le_pow_right (by decide) (by omega))
      (Nat.log2_self_le hq)

theorem gridPoint_nearest (n : Nat) {d : Nat} (hd : 0 < d) :
    NearestOf (fun bits => (units bits : ℚ)) ((n : ℚ) / d) (gridPoint n d) := by
  unfold gridPoint
  simp only
  generalize hs : (n / d).log2 - 52 = s
  obtain ⟨hlt, hfull⟩ := div_shiftLeft_bounds n d hs.symm
  have hd' : 0 < d <<< s := by
    rw [Nat.shiftLeft_eq]
    exact Nat.mul_pos hd (Nat.two_pow_pos s)
  have hscale : (n : ℚ) / d = n / (d <<< s : Nat) * 2 ^ s := by
    rw [Nat.shiftLeft_eq, Nat.cast_mul, Nat.cast_pow, Nat.cast_ofNat]
    field_simp
  rw [hscale]
  refine (roundHalfEven_nearest n hd').of_multiples (by positivity) ?_ ?_ ?_
  · rw [units_add]
    · push_cast
      rfl
    · exact (roundHalfEven_le n _).trans hlt
    · exact hfull.imp_right fun h => h.trans (le_roundHalfEven n _)
  · intro h
    exact (Nat.even_mul.mpr (.inr ⟨2 ^ 51, rfl⟩)).add h
  · intro bits
    rcases units_dvd_or_lt s bits with ⟨k, hk⟩ | ⟨hs0, hbelow⟩
    · exact .inl ⟨k, by rw [hk]; push_cast; ring⟩
    · refine .inr ⟨2 ^ 52, by exact_mod_cast hbelow, ?_⟩
      have hfull := hfull.resolve_left hs0.ne'
      rw [Nat.le_div_iff_mul_le hd'] at hfull
      rw [le_div_iff₀ (by exact_mod_cast hd')]
      exact_mod_cast hfull

/-! ## Thresholds -/

theorem add_le_two_mul_of_abs_sub_le {q a b : ℚ} (hab : a < b)
    (h : |q - b| ≤ |q - a|) : a + b ≤ 2 * q := by
  rcases abs_cases (q - a) with ⟨ha, _⟩ | ⟨ha, _⟩
  all_goals rcases abs_cases (q - b) with ⟨hb, _⟩ | ⟨hb, _⟩
  all_goals linarith

theorem two_mul_le_add_of_abs_sub_le {q a b : ℚ} (hab : a < b)
    (h : |q - a| ≤ |q - b|) : 2 * q ≤ a + b := by
  rcases abs_cases (q - a) with ⟨ha, _⟩ | ⟨ha, _⟩
  all_goals rcases abs_cases (q - b) with ⟨hb, _⟩ | ⟨hb, _⟩
  all_goals linarith

theorem abs_sub_eq_of_add_eq {q a b : ℚ} (h : a + b = 2 * q) :
    |q - b| = |q - a| := by
  rw [show q - b = -(q - a) by linarith, abs_neg]

/-- A quotient is rounded to above a point from halfway to the next point on, or
from behind that if the point is even. -/
theorem NearestOf.lt_iff {f : Nat → ℚ} (hf : StrictMono f) {q : ℚ} {i : Nat}
    (h : NearestOf f q i) (j : Nat) :
    j < i ↔ f j + f (j + 1) < 2 * q ∨ f j + f (j + 1) = 2 * q ∧ Odd j := by
  constructor
  · intro hji
    have hnext : f (j + 1) ≤ f i := hf.monotone hji
    have hsum := add_le_two_mul_of_abs_sub_le (hf hji) (h.le j)
    rcases lt_or_eq_of_le (show f j + f (j + 1) ≤ 2 * q by linarith) with
      hlt | heq
    · exact .inl hlt
    · obtain rfl : i = j + 1 := hf.injective (by linarith)
      have heven := h.even j (hf hji).ne (abs_sub_eq_of_add_eq heq).symm
      exact .inr ⟨heq, by rwa [Nat.even_add_one, Nat.not_even_iff_odd] at heven⟩
  · contrapose!
    intro hij
    have hle : f i ≤ f j := hf.monotone hij
    have hlt : f i < f (j + 1) := hf (Nat.lt_succ_of_le hij)
    have hsum := two_mul_le_add_of_abs_sub_le hlt (h.le (j + 1))
    refine ⟨by linarith, fun heq => ?_⟩
    obtain rfl : i = j := hf.injective (by linarith)
    rw [Nat.not_odd_iff_even]
    exact h.even (i + 1) hlt.ne' (abs_sub_eq_of_add_eq heq)

theorem cast_units_strictMono : StrictMono fun bits => (units bits : ℚ) :=
  Nat.strictMono_cast.comp units_strictMono

/-- What is at least halfway from the greatest finite double to `2 ^ 1024` is
infinity. -/
theorem nearest_eq_infinity_iff (n : Nat) {d : Nat} (hd : 0 < d) :
    nearest n d = infinity ↔ ((2 ^ 2098 - 2 ^ 2044 : Nat) : ℚ) ≤ n / d := by
  have hsum : units (infinity - 1) + units (infinity - 1 + 1) =
      2 * (2 ^ 2098 - 2 ^ 2044) := by decide +kernel
  generalize 2 ^ 2098 - 2 ^ 2044 = threshold at *
  have hsum' : (units (infinity - 1) + units (infinity - 1 + 1) : ℚ) =
      2 * threshold := by exact_mod_cast hsum
  have hodd : Odd (infinity - 1) := by decide
  rw [nearest_eq_min, min_eq_right_iff]
  show infinity - 1 < gridPoint n d ↔ _
  rw [(gridPoint_nearest n hd).lt_iff cast_units_strictMono, hsum',
    and_iff_left hodd, ← le_iff_lt_or_eq, mul_le_mul_iff_right₀ two_pos]

/-- What is at most half of the least positive double is zero. -/
theorem nearest_eq_zero_iff (n : Nat) {d : Nat} (hd : 0 < d) :
    nearest n d = 0 ↔ (n : ℚ) / d ≤ 1 / 2 := by
  have hsum : units 0 + units (0 + 1) = 1 := by decide
  have hsum' : (units 0 + units (0 + 1) : ℚ) = 1 := by exact_mod_cast hsum
  have hodd : ¬ Odd 0 := by decide
  have hpos := (gridPoint_nearest n hd).lt_iff cast_units_strictMono 0
  rw [hsum', or_iff_left fun h => hodd h.2] at hpos
  have hinfinity : infinity ≠ 0 := by decide
  have hzero : min (gridPoint n d) infinity = 0 ↔ ¬ 0 < gridPoint n d := by
    omega
  rw [nearest_eq_min, hzero, hpos, not_lt, le_div_iff₀' two_pos]

theorem nearest_nearest (n : Nat) {d : Nat} (hd : 0 < d)
    (h : nearest n d ≠ infinity) :
    NearestOf (fun bits => (units bits : ℚ)) ((n : ℚ) / d) (nearest n d) := by
  rw [nearest_eq_min] at h ⊢
  rw [Nat.min_eq_left (by omega)]
  exact gridPoint_nearest n hd

end Binary64

namespace Decimal

open Binary64

theorem le_shiftLeft_of_le {coefficient low j k s : Nat}
    (h : coefficient ≠ 0) (hjk : j ≤ k) (hlow : low ≤ 10 ^ j * 2 ^ s) :
    low ≤ (coefficient * 10 ^ k) <<< s := by
  have hpow : 10 ^ j ≤ coefficient * 10 ^ k :=
    (Nat.pow_le_pow_right (by decide) hjk).trans
      (Nat.le_mul_of_pos_left _ (Nat.pos_of_ne_zero h))
  rw [Nat.shiftLeft_eq]
  exact hlow.trans (Nat.mul_le_mul_right _ hpow)

theorem magnitude_natCast (negative : Bool) (coefficient k : Nat) :
    magnitude ⟨negative, coefficient, k⟩ =
      nearest ((coefficient * 10 ^ k) <<< 1074) 1 := by
  unfold magnitude
  simp only
  split
  · next h =>
      rw [h, Nat.zero_mul, Nat.zero_shiftLeft, nearest_eq_zero (by decide)]
  split
  · next hne hlarge =>
      have hk : 310 ≤ k := by omega
      have hhigh : 2 ^ 2098 - 2 ^ 2044 ≤ 10 ^ 310 * 2 ^ 1074 := by
        decide +kernel
      symm
      rw [nearest_eq_infinity_iff _ Nat.one_pos, Nat.cast_one, div_one,
        Nat.cast_le]
      exact le_shiftLeft_of_le hne hk hhigh
  · rw [if_neg (by omega)]
    rfl

/-- The absolute value of the number that a decimal stands for. -/
def absolute (d : Decimal) : ℚ := d.coefficient * (10 : ℚ) ^ d.exponent

theorem cast_shiftLeft (n k : Nat) : ((n <<< k : Nat) : ℚ) = n * 2 ^ k := by
  rw [Nat.shiftLeft_eq, Nat.cast_mul, Nat.cast_pow, Nat.cast_ofNat]

/-- The early exits of `magnitude` are not needed: it is a quotient, rounded. -/
theorem magnitude_eq_nearest (d : Decimal) :
    ∃ n m : Nat, 0 < m ∧ (n : ℚ) / m = d.absolute * 2 ^ 1074 ∧
      d.magnitude = nearest n m := by
  obtain ⟨negative, coefficient, exponent⟩ := d
  unfold absolute
  obtain ⟨k, rfl | rfl⟩ := Int.eq_nat_or_neg exponent
  · refine ⟨(coefficient * 10 ^ k) <<< 1074, 1, Nat.one_pos, ?_,
      magnitude_natCast _ _ _⟩
    rw [cast_shiftLeft, Nat.cast_one, div_one, Nat.cast_mul, Nat.cast_pow,
      Nat.cast_ofNat, zpow_natCast]
  · refine ⟨coefficient <<< 1074, 10 ^ k, Nat.pow_pos (by decide), ?_,
      magnitude_fraction _ _ _⟩
    rw [cast_shiftLeft, Nat.cast_pow, Nat.cast_ofNat, zpow_neg, zpow_natCast,
      mul_right_comm, div_eq_mul_inv]

end Decimal

end BraceLisp
