import BraceLisp.Atom
import BraceLisp.Proofs.Literal
import Mathlib.Computability.Language
import Mathlib.Order.CompletePartialOrder

/-!
# The two filters of a number

A bare word is a number if it gets through two filters: a pattern matches it,
and it is the text of a double. Neither language is part of the other. The
pattern's `\d` is any decimal digit of Unicode, so it matches words in digits
that no double is written with. And a double may be written as `inf`, as
`infinity` or as `nan`, in letters of either case, which the pattern does not
match.

Both are written here as they are documented, with the operations on languages.
Which characters outside of ASCII are decimal digits differs among the versions
of Unicode and is left open (`DecimalDigits`). Whatever they are, the words that
are in both languages are the decimal literals (`literal_iff_filters`), and to
read a literal in one go is to use the filters one after the other
(`Atom.ofWord_eq_number_iff`).
-/

open scoped Computability

namespace BraceLisp

/-- The decimal digits of a version of Unicode. The ones in ASCII are the same
in all versions. -/
structure DecimalDigits where
  isDigit : Char → Bool
  ascii : ∀ c : Char, c.toNat < 128 → isDigit c = c.isDigit

instance : Inhabited DecimalDigits := ⟨⟨Char.isDigit, fun _ _ => rfl⟩⟩

theorem DecimalDigits.of_isDigit (digits : DecimalDigits) {c : Char}
    (h : c.isDigit) : digits.isDigit c := by
  have hascii : c.toNat < 128 :=
    Nat.lt_of_le_of_lt (Char.isDigit_iff_toNat.mp h).2 (by decide)
  rw [digits.ascii c hascii, h]

namespace NumberFilter

open Decimal (Digits SignText FractionText ExponentText Literal)

/-! ## The languages -/

/-- One character of a class, `[…]`. -/
def oneOf (p : Char → Prop) : Language Char := {word | ∃ c, word = [c] ∧ p c}

/-- `x?` -/
def opt (x : Language Char) : Language Char := 1 + x

/-- `x+` -/
def many1 (x : Language Char) : Language Char := x * x∗

/-- `[+-]?` -/
def sign : Language Char := opt (oneOf fun c => c = '+' ∨ c = '-')

/-- `\.` -/
def point : Language Char := oneOf (· = '.')

/-- `\d` where these are the digits. -/
def digit (isDigit : Char → Bool) : Language Char := oneOf (isDigit ·)

/-- `([eE][+-]?\d+)?` -/
def exponent (isDigit : Char → Bool) : Language Char :=
  opt (oneOf (fun c => c = 'e' ∨ c = 'E') * sign * many1 (digit isDigit))

/-- `\d+(\.\d*)?|\.\d+` -/
def mantissa (isDigit : Char → Bool) : Language Char :=
  many1 (digit isDigit) * opt (point * (digit isDigit)∗) +
    point * many1 (digit isDigit)

/-- `[+-]?(\d+(\.\d*)?|\.\d+)([eE][+-]?\d+)?` -/
def pattern (isDigit : Char → Bool) : Language Char :=
  sign * (mantissa isDigit * exponent isDigit)

/-- A word in letters of either case. -/
def anyCase (name : String) : Language Char :=
  {word | word.map Char.toLower = name.toList}

/-- `'inf' | 'infinity' | 'nan'` -/
def name : Language Char := anyCase "inf" + anyCase "infinity" + anyCase "nan"

/-- `Number ::= ( Digit+ | Digit+ '.' Digit* | Digit* '.' Digit+ ) Exp?` -/
def number : Language Char :=
  let d := digit Char.isDigit
  (many1 d + many1 d * point * d∗ + d∗ * point * many1 d) *
    exponent Char.isDigit

/-- `Float ::= Sign? ( 'inf' | 'infinity' | 'nan' | Number )` -/
def doubleText : Language Char := sign * (name + number)

/-! ## The words of a language -/

theorem mem_opt {x : Language Char} {word : List Char} :
    word ∈ opt x ↔ word = [] ∨ word ∈ x := by
  rw [opt, Language.mem_add, Language.mem_one]

theorem mem_kstar_oneOf {p : Char → Prop} {word : List Char} :
    word ∈ (oneOf p)∗ ↔ ∀ c ∈ word, p c := by
  rw [Language.mem_kstar]
  constructor
  · rintro ⟨parts, rfl, hparts⟩ c hc
    obtain ⟨part, hpart, hc⟩ := List.mem_flatten.mp hc
    obtain ⟨d, rfl, hd⟩ := hparts part hpart
    rwa [List.mem_singleton.mp hc]
  · intro h
    refine ⟨word.map ([·]), (List.flatMap_singleton' word).symm, ?_⟩
    intro part hpart
    obtain ⟨c, hc, rfl⟩ := List.mem_map.mp hpart
    exact ⟨c, rfl, h c hc⟩

theorem mem_many1_oneOf {p : Char → Prop} {word : List Char} :
    word ∈ many1 (oneOf p) ↔ word ≠ [] ∧ ∀ c ∈ word, p c := by
  rw [many1, Language.mem_mul]
  constructor
  · rintro ⟨_, ⟨c, rfl, hc⟩, rest, hrest, rfl⟩
    exact ⟨List.cons_ne_nil c rest,
      List.forall_mem_cons.mpr ⟨hc, mem_kstar_oneOf.mp hrest⟩⟩
  · rintro ⟨hne, h⟩
    obtain ⟨c, rest, rfl⟩ := List.exists_cons_of_ne_nil hne
    rw [List.forall_mem_cons] at h
    exact ⟨[c], ⟨c, rfl, h.1⟩, rest, mem_kstar_oneOf.mpr h.2, rfl⟩

theorem mem_sign {word : List Char} : word ∈ sign ↔ SignText word := by
  rw [sign, mem_opt]
  constructor
  · rintro (rfl | ⟨c, rfl, rfl | rfl⟩)
    · exact .none
    · exact .plus
    · exact .minus
  · intro h
    cases h with
    | none => exact .inl rfl
    | plus => exact .inr ⟨'+', rfl, .inl rfl⟩
    | minus => exact .inr ⟨'-', rfl, .inr rfl⟩

theorem mem_exponent {word : List Char} :
    word ∈ exponent Char.isDigit ↔ ExponentText word := by
  rw [exponent, mem_opt, mul_assoc, Language.mem_mul]
  constructor
  · rintro (rfl | ⟨_, ⟨e, rfl, he⟩, rest, hrest, rfl⟩)
    · exact .none
    · obtain ⟨s, hs, digits, hdigits, rfl⟩ := Language.mem_mul.mp hrest
      obtain ⟨hne, hdigits⟩ := mem_many1_oneOf.mp hdigits
      show ExponentText (e :: (s ++ digits))
      exact .some he (mem_sign.mp hs) hne hdigits
  · intro h
    cases h with
    | none => exact .inl rfl
    | @some e s digits he hs hne hdigits =>
        exact .inr ⟨[e], ⟨e, rfl, he⟩, _, Language.mem_mul.mpr
          ⟨s, mem_sign.mpr hs, digits, mem_many1_oneOf.mpr ⟨hne, hdigits⟩, rfl⟩,
          rfl⟩

theorem mem_mantissa {word : List Char} :
    word ∈ mantissa Char.isDigit ↔ ∃ whole point places,
      word = whole ++ point ∧ Digits whole ∧ FractionText point places ∧
        (whole ≠ [] ∨ places ≠ []) := by
  rw [mantissa, Language.mem_add, Language.mem_mul, Language.mem_mul]
  constructor
  · rintro (⟨whole, hwhole, rest, hrest, rfl⟩ | ⟨_, ⟨_, rfl, rfl⟩, places,
      hplaces, rfl⟩)
    · obtain ⟨hne, hwhole⟩ := mem_many1_oneOf.mp hwhole
      rcases mem_opt.mp hrest with rfl | hrest
      · exact ⟨whole, [], [], rfl, hwhole, .none, .inl hne⟩
      · obtain ⟨_, ⟨_, rfl, rfl⟩, places, hplaces, rfl⟩ :=
          Language.mem_mul.mp hrest
        exact ⟨whole, _, places, rfl, hwhole,
          .point (mem_kstar_oneOf.mp hplaces), .inl hne⟩
    · obtain ⟨hne, hplaces⟩ := mem_many1_oneOf.mp hplaces
      exact ⟨[], _, places, rfl, nofun, .point hplaces, .inr hne⟩
  · rintro ⟨whole, point, places, rfl, hwhole, hpoint, hne⟩
    by_cases hnil : whole = []
    · -- Nothing is before the point, so a point is there with digits behind.
      subst hnil
      have hplaces := hne.resolve_left (fun h => h rfl)
      cases hpoint with
      | none => exact absurd rfl hplaces
      | point h =>
          exact .inr ⟨['.'], ⟨'.', rfl, rfl⟩, places,
            mem_many1_oneOf.mpr ⟨hplaces, h⟩, rfl⟩
    · refine .inl ⟨whole, mem_many1_oneOf.mpr ⟨hnil, hwhole⟩, point, ?_, rfl⟩
      cases hpoint with
      | none => exact mem_opt.mpr (.inl rfl)
      | point h =>
          exact mem_opt.mpr (.inr (Language.mem_mul.mpr ⟨['.'], ⟨'.', rfl, rfl⟩,
            places, mem_kstar_oneOf.mpr h, rfl⟩))

/-- With the digits of ASCII alone, the pattern is that of decimal literals. -/
theorem mem_pattern_isDigit {word : List Char} :
    word ∈ pattern Char.isDigit ↔ Literal word := by
  rw [pattern, Language.mem_mul]
  constructor
  · rintro ⟨s, hs, rest, hrest, rfl⟩
    obtain ⟨m, hm, e, he, rfl⟩ := Language.mem_mul.mp hrest
    obtain ⟨whole, point, places, rfl, hwhole, hpoint, hne⟩ :=
      mem_mantissa.mp hm
    exact ⟨s, whole, point, places, e, by rw [List.append_assoc],
      mem_sign.mp hs, hwhole, hpoint, hne, mem_exponent.mp he⟩
  · rintro ⟨s, whole, point, places, e, rfl, hs, hwhole, hpoint, hne, he⟩
    refine ⟨s, mem_sign.mpr hs, _, Language.mem_mul.mpr ⟨whole ++ point,
      mem_mantissa.mpr ⟨whole, point, places, rfl, hwhole, hpoint, hne⟩, e,
      mem_exponent.mpr he, rfl⟩, ?_⟩
    rw [List.append_assoc]

/-- What the documentation has as three forms of a number, the pattern has as
two. -/
theorem number_eq :
    number = mantissa Char.isDigit * exponent Char.isDigit := by
  refine congrArg (· * exponent Char.isDigit) ?_
  unfold mantissa opt many1
  generalize digit Char.isDigit = d
  have hstar : d∗ = 1 + d * d∗ :=
    (Language.one_add_self_mul_kstar_eq_kstar d).symm
  generalize d * d∗ = m at hstar ⊢
  rw [hstar]
  simp only [mul_add, add_mul, mul_one, one_mul, mul_assoc]
  ext word
  simp only [Language.mem_add]
  tauto

theorem mem_doubleText {word : List Char} :
    word ∈ doubleText ↔ word ∈ sign * name ∨ Literal word := by
  rw [doubleText, mul_add, Language.mem_add, number_eq, ← mem_pattern_isDigit,
    pattern]

/-! ## Reading a double -/

/-- The magnitude bits of what a name stands for, infinity or a quiet NaN. -/
def named? (word : List Char) : Option Nat :=
  let letters := word.map Char.toLower
  if letters = "inf".toList ∨ letters = "infinity".toList then
    some Binary64.infinity
  else if letters = "nan".toList then some 0x7FF8000000000000
  else none

/-- The double that all of a text is read as: a sign and a name, or a decimal
literal, correctly rounded. -/
def readDouble? (text : List Char) : Option Float :=
  let (negative, unsigned) := Decimal.sign text
  match named? unsigned with
  | some bits => some (Binary64.ofMagnitude negative bits)
  | none => (Decimal.ofChars? text).map Decimal.toFloat

theorem isSome_named? {word : List Char} :
    (named? word).isSome ↔ word ∈ name := by
  show _ ↔ (word.map Char.toLower = "inf".toList ∨
    word.map Char.toLower = "infinity".toList) ∨
      word.map Char.toLower = "nan".toList
  unfold named?
  dsimp only
  split
  · next h => exact iff_of_true rfl (.inl h)
  · next h =>
      split
      · next hnan => exact iff_of_true rfl (.inr hnan)
      · next hnan => exact iff_of_false nofun (not_or.mpr ⟨h, hnan⟩)

theorem exists_of_mem_name {word : List Char} (h : word ∈ name) :
    ∃ c rest, word = c :: rest ∧ (c.toLower = 'i' ∨ c.toLower = 'n') := by
  cases word with
  | nil =>
      have hempty : ∀ n : String, n.toList ≠ [] → [] ∉ anyCase n :=
        fun n hn hmem => hn (Eq.symm hmem)
      rcases h with (h | h) | h
      · exact absurd h (hempty _ (by decide))
      · exact absurd h (hempty _ (by decide))
      · exact absurd h (hempty _ (by decide))
  | cons c rest =>
      refine ⟨c, rest, rfl, ?_⟩
      rcases h with (h | h) | h
      · exact .inl (List.cons.inj h).1
      · exact .inl (List.cons.inj h).1
      · exact .inr (List.cons.inj h).1

/-- A sign is told from what follows it if that is no other sign. -/
theorem sign_append_cons {s : List Char} (hs : SignText s) {c : Char}
    (hc : c ≠ '-' ∧ c ≠ '+') (rest : List Char) :
    Decimal.sign (s ++ c :: rest) = (decide (s = ['-']), c :: rest) :=
  Decimal.sign_append hs fun d hd => by cases hd; exact hc

/-- The texts of doubles are read, and no others. -/
theorem isSome_readDouble? {text : List Char} :
    (readDouble? text).isSome ↔ text ∈ doubleText := by
  rw [mem_doubleText, ← Decimal.isSome_ofChars?]
  unfold readDouble?
  dsimp only
  constructor
  · intro h
    obtain ⟨s, hs, htext⟩ := Decimal.exists_sign text
    cases hnamed : named? (Decimal.sign text).2 with
    | some bits =>
        have hname := isSome_named?.mp (Option.isSome_of_eq_some hnamed)
        exact .inl (Language.mem_mul.mpr
          ⟨s, mem_sign.mpr hs, _, hname, htext.symm⟩)
    | none =>
        rw [hnamed, Option.isSome_map] at h
        exact .inr h
  · rintro (h | h)
    · obtain ⟨s, hs, word, hword, rfl⟩ := Language.mem_mul.mp h
      obtain ⟨c, rest, rfl, hc⟩ := exists_of_mem_name hword
      have hsign : c ≠ '-' ∧ c ≠ '+' := by
        constructor
        · rintro rfl
          exact absurd hc (by decide)
        · rintro rfl
          exact absurd hc (by decide)
      rw [sign_append_cons (mem_sign.mp hs) hsign]
      obtain ⟨bits, hbits⟩ := Option.isSome_iff_exists.mp
        (isSome_named?.mpr hword)
      rw [hbits]
      rfl
    · cases named? (Decimal.sign text).2 with
      | some bits => rfl
      | none => rwa [Option.isSome_map]

/-! ## One filter after the other -/

theorem pattern_mono {p q : Char → Bool} (h : ∀ c, p c → q c) :
    pattern p ≤ pattern q := by
  have hdigit : digit p ≤ digit q := by
    rintro _ ⟨c, rfl, hc⟩
    exact ⟨c, rfl, h c hc⟩
  have hstar : (digit p)∗ ≤ (digit q)∗ := kstar_mono hdigit
  have hmany1 : many1 (digit p) ≤ many1 (digit q) := mul_le_mul' hdigit hstar
  refine mul_le_mul' le_rfl (mul_le_mul' (add_le_add ?_ ?_) (add_le_add le_rfl
    (mul_le_mul' le_rfl hmany1)))
  · exact mul_le_mul' hmany1 (add_le_add le_rfl (mul_le_mul' le_rfl hstar))
  · exact mul_le_mul' le_rfl hmany1

/-- Behind its sign, what the pattern matches begins with a digit or a point. -/
theorem exists_of_mem_pattern {isDigit : Char → Bool} {text : List Char}
    (h : text ∈ pattern isDigit) : ∃ s c rest, text = s ++ c :: rest ∧
      SignText s ∧ (isDigit c ∨ c = '.') := by
  rw [pattern, Language.mem_mul] at h
  obtain ⟨s, hs, _, h, rfl⟩ := h
  obtain ⟨_, hm, e, -, rfl⟩ := Language.mem_mul.mp h
  rcases hm with hm | hm
  · obtain ⟨_, hwhole, rest, -, rfl⟩ := Language.mem_mul.mp hm
    obtain ⟨_, ⟨c, rfl, hc⟩, whole, -, rfl⟩ := Language.mem_mul.mp hwhole
    exact ⟨s, c, whole ++ rest ++ e, rfl, mem_sign.mp hs, .inl hc⟩
  · obtain ⟨_, ⟨c, rfl, hc⟩, places, -, rfl⟩ := Language.mem_mul.mp hm
    exact ⟨s, c, places ++ e, rfl, mem_sign.mp hs, .inr hc⟩

variable (digits : DecimalDigits) {text : List Char}

theorem not_digit_nor_point {c : Char} (hascii : c.toNat < 128)
    (hdigit : c.isDigit = false) (hpoint : c ≠ '.') :
    ¬(digits.isDigit c ∨ c = '.') := by
  rw [digits.ascii c hascii, hdigit]
  rintro (h | h)
  · cases h
  · exact hpoint h

theorem letter_of_toLower {c : Char} (h : c.toLower = 'i' ∨ c.toLower = 'n') :
    c.toNat < 128 ∧ c.isDigit = false ∧ c ≠ '.' := by
  unfold Char.toLower at h
  split at h
  · next hupper =>
      have hlow : 65 ≤ c.toNat := hupper.1
      have hhigh : c.toNat ≤ 90 := hupper.2
      refine ⟨by omega, ?_, ?_⟩
      · rw [← Bool.not_eq_true, Char.isDigit_iff_toNat]
        intro hdigit
        have hnine : c.toNat ≤ 57 := hdigit.2
        omega
      · rintro rfl
        exact absurd hlow (by decide)
  · rcases h with rfl | rfl
    · decide
    · decide

/-- Where the pattern matches, only decimal literals are read as doubles: no
name begins with a digit or a point. -/
theorem readDouble?_of_mem_pattern (h : text ∈ pattern digits.isDigit) :
    readDouble? text = (Decimal.ofChars? text).map Decimal.toFloat := by
  obtain ⟨s, c, rest, rfl, hs, hc⟩ := exists_of_mem_pattern h
  have hsign : c ≠ '-' ∧ c ≠ '+' := by
    constructor
    · rintro rfl
      exact not_digit_nor_point digits (by decide) (by decide) (by decide) hc
    · rintro rfl
      exact not_digit_nor_point digits (by decide) (by decide) (by decide) hc
  have hname : named? (c :: rest) = none := by
    rw [← Option.not_isSome_iff_eq_none, isSome_named?]
    intro hword
    obtain ⟨_, _, hcons, hletter⟩ := exists_of_mem_name hword
    cases hcons
    obtain ⟨hascii, hdigit, hpoint⟩ := letter_of_toLower hletter
    exact not_digit_nor_point digits hascii hdigit hpoint hc
  unfold readDouble?
  rw [sign_append_cons hs hsign]
  dsimp only
  rw [hname]

/-- The words that are in both languages are the decimal literals. -/
theorem literal_iff_filters :
    Literal text ↔ text ∈ pattern digits.isDigit ∧ text ∈ doubleText := by
  constructor
  · intro h
    exact ⟨pattern_mono (fun c => digits.of_isDigit)
      (mem_pattern_isDigit.mpr h), mem_doubleText.mpr (.inr h)⟩
  · rintro ⟨hpattern, hdouble⟩
    rw [← isSome_readDouble?, readDouble?_of_mem_pattern digits hpattern,
      Option.isSome_map] at hdouble
    exact Decimal.isSome_ofChars?.mp hdouble

/-- To read a decimal literal is to let the pattern match and then to read a
double. -/
theorem ofChars?_eq_some_iff_filters {x : Float} :
    (Decimal.ofChars? text).map Decimal.toFloat = some x ↔
      text ∈ pattern digits.isDigit ∧ readDouble? text = some x := by
  constructor
  · intro h
    have hliteral : Literal text := by
      obtain ⟨d, hd, -⟩ := Option.map_eq_some_iff.mp h
      exact Decimal.isSome_ofChars?.mp (Option.isSome_of_eq_some hd)
    have hpattern := ((literal_iff_filters digits).mp hliteral).1
    exact ⟨hpattern, (readDouble?_of_mem_pattern digits hpattern).trans h⟩
  · rintro ⟨hpattern, hread⟩
    rw [← readDouble?_of_mem_pattern digits hpattern, hread]

end NumberFilter

/-- A bare word is the number that it is by the two filters. -/
theorem Atom.ofWord_eq_number_iff (digits : DecimalDigits) {word : List Char}
    {x : Float} : ofWord word = .number x ↔
      word ∈ NumberFilter.pattern digits.isDigit ∧
        NumberFilter.readDouble? word = some x := by
  rw [← NumberFilter.ofChars?_eq_some_iff_filters, ofWord]
  cases Decimal.ofChars? word with
  | none => exact iff_of_false nofun nofun
  | some d => rw [Option.map_some, Option.some.injEq, number.injEq]

end BraceLisp
