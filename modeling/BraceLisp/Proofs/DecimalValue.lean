import BraceLisp.Proofs.DoubleValue
import BraceLisp.Proofs.LexicalGrammar
import BraceLisp.Proofs.NumberFilters
import BraceLisp.Proofs.RoundTrip

/-!
# The numbers that literals denote

`Decimal.Denotes` reads a decimal literal as a number, part by part as the
grammar has it: the digits before the point, those behind it as a fraction, and
the power of ten. It is exact, whatever the length of the digits and of the
exponent.

A word of a source is a number just when it is a literal, and then it is that
number rounded to a double (`Decimal.toFloat_rounded`). All other words are
symbols, among them those with a digit that is not in ASCII and the names of
infinity and of what is not a number.
-/

namespace BraceLisp

namespace Decimal

/-- The number that `D*` denotes. -/
def wholeNumber (digits : List Char) : Nat := Nat.ofDigitChars 10 digits 0

/-- The power of ten that `([eE] [+-]? D+)?` denotes. -/
inductive ExponentDenotes : List Char → Int → Prop where
  | none : ExponentDenotes [] 0
  | some {e : Char} {s digits : List Char} (he : e = 'e' ∨ e = 'E')
      (hs : SignText s) (hne : digits ≠ []) (hdigits : Digits digits) :
      ExponentDenotes (e :: (s ++ digits))
        (if s = ['-'] then -wholeNumber digits else wholeNumber digits)

/-- The sign and the absolute value of the number that a literal denotes. -/
inductive Denotes : List Char → Bool → ℚ → Prop where
  | mk {s whole point places exponent : List Char} {e : Int} (hs : SignText s)
      (hwhole : Digits whole) (hpoint : FractionText point places)
      (hne : whole ≠ [] ∨ places ≠ [])
      (hexponent : ExponentDenotes exponent e) :
      Denotes (s ++ (whole ++ (point ++ exponent))) (decide (s = ['-']))
        ((wholeNumber whole + wholeNumber places / 10 ^ places.length) *
          (10 : ℚ) ^ e)

theorem ExponentDenotes.text {text : List Char} {e : Int}
    (h : ExponentDenotes text e) : ExponentText text := by
  cases h with
  | none => exact .none
  | some he hs hne hdigits => exact .some he hs hne hdigits

theorem ExponentText.exists_denotes {text : List Char} (h : ExponentText text) :
    ∃ e, ExponentDenotes text e := by
  cases h with
  | none => exact ⟨0, .none⟩
  | some he hs hne hdigits => exact ⟨_, .some he hs hne hdigits⟩

theorem exponentPart?_of_denotes {text : List Char} {e : Int}
    (h : ExponentDenotes text e) : exponentPart? text = some e := by
  cases h with
  | none => rfl
  | some he hs hne hdigits =>
      unfold exponentPart?
      simp only [sign_append hs fun c hc => hdigits.stops_sign hc]
      rw [if_pos ⟨he, hne, List.all_eq_true.mpr hdigits⟩]
      simp only [decide_eq_true_eq]
      rfl

/-- The literals are the texts that denote a number. -/
theorem literal_iff_denotes {text : List Char} :
    Literal text ↔ ∃ negative q, Denotes text negative q := by
  constructor
  · rintro ⟨s, whole, point, places, exponent, rfl, hs, hwhole, hpoint, hne,
      hexponent⟩
    obtain ⟨e, he⟩ := hexponent.exists_denotes
    exact ⟨_, _, .mk hs hwhole hpoint hne he⟩
  · rintro ⟨negative, q, h⟩
    cases h with
    | mk hs hwhole hpoint hne hexponent =>
        exact ⟨_, _, _, _, _, rfl, hs, hwhole, hpoint, hne, hexponent.text⟩

/-- A literal is read as the number that it denotes. -/
theorem exists_ofChars?_of_denotes {text : List Char} {negative : Bool} {q : ℚ}
    (h : Denotes text negative q) :
    ∃ d, ofChars? text = some d ∧ d.negative = negative ∧ d.absolute = q := by
  cases h with
  | @mk s whole point places exponent e hs hwhole hpoint hne hexponent =>
      rw [ofChars?_append hs hwhole hpoint hne hexponent.text,
        exponentPart?_of_denotes hexponent]
      refine ⟨_, rfl, rfl, ?_⟩
      have hten : (10 : ℚ) ^ places.length ≠ 0 := pow_ne_zero _ (by norm_num)
      unfold absolute wholeNumber
      simp only
      rw [Nat.ofDigitChars_append, Nat.ofDigitChars_eq_ofDigitChars_zero]
      rw [zpow_sub₀ (by norm_num), zpow_natCast]
      push_cast
      field_simp

end Decimal

open Decimal

/-- A word that denotes a number is this number, rounded. -/
theorem Atom.ofWord_of_denotes {word : List Char} {negative : Bool} {q : ℚ}
    (h : Denotes word negative q) :
    ∃ x, ofWord word = .number x ∧ Binary64.Rounded negative q x := by
  obtain ⟨d, hd, rfl, rfl⟩ := exists_ofChars?_of_denotes h
  exact ⟨d.toFloat, by rw [ofWord, hd], d.toFloat_rounded⟩

theorem not_inLiteral_of_mem_names {name : String}
    (h : name ∈ ["inf", "NaN", "infinity"]) :
    ∃ c ∈ name.toList, ¬ InLiteral c := by
  simp only [List.mem_cons, List.not_mem_nil, or_false] at h
  rcases h with rfl | rfl | rfl
  · exact ⟨'n', by decide, by unfold InLiteral; decide⟩
  · exact ⟨'N', by decide, by unfold InLiteral; decide⟩
  · exact ⟨'n', by decide, by unfold InLiteral; decide⟩

namespace Cursor

/-- A word is a number if and only if it is a decimal literal, and then it is
the double nearest to the number that the literal denotes. Any other word is the
symbol with its spelling. Whatever the digits of Unicode are, the literals are
what the pattern matches and the text of a double is, and the number is the
double that is read. -/
theorem word_is_rounded_decimal_or_symbol (p : Position)
    {w word rest : List Char} (hw : Separator (word ++ rest) w)
    (hword : BareWord word) (hrest : Stops (fun c => !isDelimiter c) rest) :
    ∃ a : Atom,
      next ⟨p, w ++ (word ++ rest)⟩ = .token ⟨.atom a, p.advanceAll w⟩
        ⟨(p.advanceAll w).advanceAll word, rest⟩ ∧
      ((∃ x, a = .number x) ↔ Literal word) ∧
      (¬ Literal word → a = .symbol (String.ofList word)) ∧
      (∀ c ∈ word, ¬ InLiteral c → a = .symbol (String.ofList word)) ∧
      (∀ s name, SignText s → name ∈ ["inf", "NaN", "infinity"] →
        word = s ++ name.toList → a = .symbol (String.ofList word)) ∧
      (∀ digits : DecimalDigits,
        (Literal word ↔ word ∈ NumberFilter.pattern digits.isDigit ∧
          word ∈ NumberFilter.doubleText) ∧
        ∀ x, a = .number x ↔ word ∈ NumberFilter.pattern digits.isDigit ∧
          NumberFilter.readDouble? word = some x) ∧
      (Literal word ↔ ∃ negative q, Denotes word negative q) ∧
      ∀ negative q, Denotes word negative q →
        ∀ x, a = .number x ↔ Binary64.Rounded negative q x := by
  have hsymbol (h : ¬ Literal word) :
      Atom.ofWord word = .symbol (String.ofList word) :=
    Atom.ofWord_of_lexable ⟨hword, h⟩
  refine ⟨.ofWord word, ?_, ?_, hsymbol, ?_, ?_, fun digits =>
    ⟨NumberFilter.literal_iff_filters digits, fun x =>
      Atom.ofWord_eq_number_iff digits⟩, literal_iff_denotes, ?_⟩
  · rw [next_separator hw, next_word _ hword hrest]
  · constructor
    · rintro ⟨x, hx⟩
      by_contra h
      rw [hsymbol h] at hx
      cases hx
    · intro h
      obtain ⟨negative, q, hq⟩ := literal_iff_denotes.mp h
      obtain ⟨x, hx, -⟩ := Atom.ofWord_of_denotes hq
      exact ⟨x, hx⟩
  · exact fun c hc hnot => hsymbol fun h => hnot (h.inLiteral c hc)
  · rintro s name - hname rfl
    obtain ⟨c, hc, hnot⟩ := not_inLiteral_of_mem_names hname
    exact hsymbol fun h => hnot (h.inLiteral c (List.mem_append_right s hc))
  · intro negative q hq x
    obtain ⟨y, hy, hrounded⟩ := Atom.ofWord_of_denotes hq
    rw [hy, Atom.number.injEq]
    constructor
    · rintro rfl
      exact hrounded
    · exact hrounded.unique

/-- A little more than half of the least double, with a minus, behind a blank
and in front of a brace. -/
theorem literal_near_zero_is_rounded :
    ∃ x, next ⟨.start, [' '] ++ ("-2.5e-324".toList ++ ['}'])⟩ =
        .token ⟨.atom (.number x), Position.start.advanceAll [' ']⟩
          ⟨(Position.start.advanceAll [' ']).advanceAll "-2.5e-324".toList,
            ['}']⟩ ∧
      (∀ digits : DecimalDigits,
        "-2.5e-324".toList ∈ NumberFilter.pattern digits.isDigit ∧
          NumberFilter.readDouble? "-2.5e-324".toList = some x) ∧
      Binary64.Rounded true ((2 + 5 / 10) * 10 ^ (-324 : Int)) x := by
  have hw : Separator ("-2.5e-324".toList ++ ['}']) [' '] :=
    .blank (by decide) .nil
  have hword : BareWord "-2.5e-324".toList :=
    bareWord_of_all (by decide) (by decide) (by decide)
  have hrest : Stops (fun c => !isDelimiter c) ['}'] := .cons (by decide)
  have hdenotes : Denotes "-2.5e-324".toList true
      ((2 + 5 / 10) * 10 ^ (-324 : Int)) := by
    have hwhole : Digits ['2'] := List.all_eq_true.mp rfl
    have hplaces : Digits ['5'] := List.all_eq_true.mp rfl
    have hdigits : Digits ['3', '2', '4'] := List.all_eq_true.mp rfl
    have h := Denotes.mk .minus hwhole (.point hplaces) (.inl (by decide))
      (.some (.inl rfl) .minus (by decide) hdigits)
    rw [show wholeNumber ['2'] = 2 from rfl,
      show wholeNumber ['5'] = 5 from rfl,
      show wholeNumber ['3', '2', '4'] = 324 from rfl, List.length_singleton,
      pow_one, Nat.cast_ofNat, Nat.cast_ofNat] at h
    exact h
  obtain ⟨a, hnext, hnumber, -, -, -, hfilters, hliteral, hvalue⟩ :=
    word_is_rounded_decimal_or_symbol .start hw hword hrest
  obtain ⟨x, rfl⟩ := hnumber.mpr (hliteral.mpr ⟨_, _, hdenotes⟩)
  exact ⟨x, hnext, fun digits => ((hfilters digits).2 x).mp rfl,
    (hvalue _ _ hdenotes x).mp rfl⟩

end Cursor

end BraceLisp
