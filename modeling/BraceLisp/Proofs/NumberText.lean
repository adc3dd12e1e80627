import BraceLisp.Number.Text
import BraceLisp.Proofs.DoubleBits
import BraceLisp.Proofs.Literal
import BraceLisp.Proofs.Nearest

/-!
# Numbers read back

The text of a finite double is a decimal literal, and reading it gives the same
double, bit for bit (`Number.toFloat_ofChars?_chars`). The digits are found by a
search that tests whether they read back; where no short ones do, the exact
value does. What is left is the layout of the text: zeros that are dropped
behind the point, and the point itself, do not change the number.
-/

namespace BraceLisp.Number

open Binary64 Decimal

/-! ## Digits that read back -/

theorem shiftLeft_exact (significand binade s : Nat) :
    ((significand * 5 ^ (s - binade)) <<< (binade - s)) <<< s =
      significand <<< binade * 10 ^ (s - binade) := by
  have hexp : binade - s + s = binade + (s - binade) := by omega
  simp only [Nat.shiftLeft_eq]
  rw [Nat.mul_assoc _ _ (2 ^ s), ← Nat.pow_add, hexp, Nat.pow_add,
    show 10 = 2 * 5 from rfl, Nat.mul_pow]
  simp only [Nat.mul_assoc, Nat.mul_left_comm, Nat.mul_comm]

theorem readsBack_iff {bits places value : Nat} :
    ReadsBack bits places value ↔
      nearest (value <<< 1074) (10 ^ places) = bits := by
  rw [ReadsBack, magnitude_fraction]

theorem readsBack_exact {bits : Nat} (h : bits < infinity) :
    ReadsBack bits (placesOf bits) (exact bits) := by
  have hexact : exact bits <<< 1074 = units bits * 10 ^ placesOf bits :=
    shiftLeft_exact (significand bits) (binade bits) 1074
  rw [readsBack_iff, hexact]
  exact nearest_units (Nat.pow_pos (by decide)) h

theorem readsBack_of_onGrid? {bits step value : Nat}
    (h : onGrid? bits step = some value) :
    ReadsBack bits (placesOf bits) value := by
  unfold onGrid? at h
  simp only at h
  split at h
  · next hlow =>
      split at h
      · next hhigh => cases h; exact hhigh.1
      · cases h; exact hlow
  · split at h
    · next hhigh => cases h; exact hhigh
    · cases h

/-- Whichever digits are written, they read back. -/
theorem readsBack_shortest {bits : Nat} (h : bits < infinity) :
    ReadsBack bits (placesOf bits) (shortest bits) := by
  unfold shortest
  simp only
  generalize hfound : List.findSome? _ _ = found
  cases found with
  | none => exact readsBack_exact h
  | some value =>
      obtain ⟨n, -, hn⟩ := List.exists_of_findSome?_eq_some hfound
      exact readsBack_of_onGrid? hn

/-! ## Layout -/

theorem digits_toDigits (n : Nat) : Digits (Nat.toDigits 10 n) := fun _ hc =>
  Nat.isDigit_of_mem_toDigits (by decide) (by decide) hc

theorem exists_zeros (digits : List Char) :
    ∃ k, digits = (digits.reverse.dropWhile (· = '0')).reverse ++
      List.replicate k '0' := by
  have hzeros : digits.reverse.takeWhile (· = '0') =
      List.replicate (digits.reverse.takeWhile (· = '0')).length '0' := by
    rw [List.eq_replicate_iff]
    exact ⟨rfl, fun c hc => by
      simpa using List.all_eq_true.mp List.all_takeWhile c hc⟩
  refine ⟨(digits.reverse.takeWhile (· = '0')).length, ?_⟩
  rw [← List.reverse_replicate, ← hzeros, ← List.reverse_append,
    List.takeWhile_append_dropWhile, List.reverse_reverse]

theorem fractionDigits_append (places value : Nat) :
    ∃ k, fractionDigits places value ++ List.replicate k '0' =
      List.replicate (places - (Nat.toDigits 10 value).length) '0' ++
        Nat.toDigits 10 value := by
  obtain ⟨k, hk⟩ := exists_zeros
    (List.replicate (places - (Nat.toDigits 10 value).length) '0' ++
      Nat.toDigits 10 value)
  exact ⟨k, hk.symm⟩

theorem digits_fractionDigits (places value : Nat) :
    Digits (fractionDigits places value) := by
  intro c hc
  obtain ⟨k, hk⟩ := fractionDigits_append places value
  have hmem := List.mem_append_left (List.replicate k '0') hc
  rw [hk, List.mem_append] at hmem
  rcases hmem with hzero | hdigit
  · rw [List.eq_of_mem_replicate hzero]
    decide
  · exact digits_toDigits value c hdigit

/-- The digits behind the point are those of the value, without zeros at its
end. -/
theorem ofDigitChars_fractionDigits {places value : Nat}
    (h : value < 10 ^ places) :
    (fractionDigits places value).length ≤ places ∧
      Nat.ofDigitChars 10 (fractionDigits places value) 0 *
        10 ^ (places - (fractionDigits places value).length) = value := by
  -- Without places the value is zero, and its one digit is dropped.
  obtain rfl | hpos := Nat.eq_zero_or_pos places
  · obtain rfl : value = 0 := by simpa using h
    exact ⟨Nat.le_refl 0, rfl⟩
  · obtain ⟨k, hk⟩ := fractionDigits_append places value
    have hle : (Nat.toDigits 10 value).length ≤ places :=
      (Nat.length_toDigits_le_iff (by decide) hpos).mpr h
    have hlength := congrArg List.length hk
    have hvalue := congrArg (Nat.ofDigitChars 10 · 0) hk
    simp only [List.length_append, List.length_replicate] at hlength
    simp only [Nat.ofDigitChars_append, Nat.ofDigitChars_replicate_zero,
      Nat.mul_zero, Nat.ofDigitChars_ten_toDigits] at hvalue
    refine ⟨by omega, ?_⟩
    rw [show places - (fractionDigits places value).length = k by omega,
      Nat.mul_comm]
    exact hvalue

theorem positional_eq_append (places value : Nat) :
    ∃ point,
      FractionText point (fractionDigits places (value % 10 ^ places)) ∧
      positional places value =
        Nat.toDigits 10 (value / 10 ^ places) ++ point := by
  have hdigits := digits_fractionDigits places (value % 10 ^ places)
  unfold positional
  simp only
  split
  · next hnil =>
      replace hnil : fractionDigits places (value % 10 ^ places) = [] := hnil
      rw [hnil]
      exact ⟨[], .none, (List.append_nil _).symm⟩
  · exact ⟨_, .point hdigits, rfl⟩

theorem ofDigitChars_positional (places value : Nat) :
    Nat.ofDigitChars 10 (Nat.toDigits 10 (value / 10 ^ places) ++
      fractionDigits places (value % 10 ^ places)) 0 *
      10 ^ (places -
        (fractionDigits places (value % 10 ^ places)).length) = value := by
  have hpos : 0 < 10 ^ places := Nat.pow_pos (by decide)
  obtain ⟨hle, hfraction⟩ :=
    ofDigitChars_fractionDigits (Nat.mod_lt value hpos)
  rw [Nat.ofDigitChars_append, Nat.ofDigitChars_ten_toDigits,
    Nat.ofDigitChars_eq_ofDigitChars_zero, Nat.add_mul, hfraction,
    Nat.mul_right_comm, ← Nat.pow_add, Nat.add_sub_cancel' hle]
  exact Nat.div_add_mod value (10 ^ places)

/-- The text of `value` units of `10 ^ (-places)` is a literal for them. -/
theorem ofChars?_positional {s : List Char} (hs : SignText s)
    (places value : Nat) :
    ∃ coefficient k, k ≤ places ∧ coefficient * 10 ^ (places - k) = value ∧
      ofChars? (s ++ positional places value) =
        some ⟨decide (s = ['-']), coefficient, -(k : Int)⟩ := by
  have hpos : 0 < 10 ^ places := Nat.pow_pos (by decide)
  obtain ⟨hle, -⟩ := ofDigitChars_fractionDigits (Nat.mod_lt value hpos)
  obtain ⟨point, hpoint, htext⟩ := positional_eq_append places value
  refine ⟨_, _, hle, ofDigitChars_positional places value, ?_⟩
  have hread := ofChars?_append hs (digits_toDigits (value / 10 ^ places))
    hpoint (.inl Nat.toDigits_ne_nil) .none
  rw [List.append_nil, ← htext] at hread
  rw [hread, exponentPart?, Option.map_some, Int.zero_sub]

theorem magnitude_of_readsBack {bits places value coefficient k : Nat}
    (h : ReadsBack bits places value) (hk : k ≤ places)
    (hvalue : coefficient * 10 ^ (places - k) = value) (negative : Bool) :
    magnitude ⟨negative, coefficient, -(k : Int)⟩ = bits := by
  rw [readsBack_iff, ← hvalue] at h
  have hpos : 0 < 10 ^ (places - k) := Nat.pow_pos (by decide)
  rw [magnitude_fraction, ← nearest_mul _ _ hpos, ← Nat.pow_add,
    Nat.add_sub_cancel' hk, ← h, Nat.shiftLeft_eq, Nat.shiftLeft_eq,
    Nat.mul_right_comm]

/-! ## The text of a double -/

/-- The text of a finite double is a literal that is read as the double. -/
theorem ofChars?_chars {x : Float} (hx : x.isFinite) :
    ∃ d, ofChars? (chars x) = some d ∧ d.toFloat = x := by
  have h := (isFinite_iff x).mp hx
  obtain ⟨s, hs, hneg, htext⟩ : ∃ s, SignText s ∧
      decide (s = ['-']) = isNegative x ∧
      chars x = s ++ positional (placesOf (magnitude x))
        (shortest (magnitude x)) := by
    unfold chars unsigned
    simp only
    rw [if_neg (Nat.lt_asymm h), if_neg (Nat.ne_of_lt h)]
    cases isNegative x with
    | true => exact ⟨['-'], .minus, rfl, rfl⟩
    | false => exact ⟨[], .none, rfl, rfl⟩
  obtain ⟨coefficient, k, hk, hvalue, hread⟩ := ofChars?_positional hs
    (placesOf (magnitude x)) (shortest (magnitude x))
  rw [← htext] at hread
  refine ⟨_, hread, ?_⟩
  rw [Decimal.toFloat, magnitude_of_readsBack (readsBack_shortest h) hk hvalue,
    hneg, ofMagnitude_magnitude]

theorem isNaN_toFloat (d : Decimal) : d.toFloat.isNaN = false := by
  rw [← Bool.not_eq_true, isNaN_iff, Decimal.toFloat,
    magnitude_ofMagnitude _ d.magnitude_le_infinity]
  exact Nat.not_lt.mpr d.magnitude_le_infinity

end BraceLisp.Number
