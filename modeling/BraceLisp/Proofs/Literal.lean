import BraceLisp.Number.Decimal

/-!
# The grammar of decimal literals

`Decimal.Literal` is the grammar `[+-]? (D+ (. D*)? | . D+) ([eE] [+-]? D+)?`
as a predicate on texts, put together from its parts with no reader in sight.
`Decimal.isSome_ofChars?` says that `Decimal.ofChars?` reads the texts of the
grammar and no others.

Reading is by longest spans of digits. A span ends where the grammar has it end
because what follows digits, a point or a letter or nothing, is no digit.
-/

namespace BraceLisp

/-! ## Spans -/

/-- The text does not begin with a character of the kind `p`. -/
def Stops (p : Char → Bool) (text : List Char) : Prop :=
  ∀ c ∈ text.head?, p c = false

theorem Stops.nil {p : Char → Bool} : Stops p [] := by
  intro c hc
  cases hc

theorem Stops.cons {p : Char → Bool} {c : Char} {text : List Char}
    (h : p c = false) : Stops p (c :: text) := by
  intro d hd
  cases hd
  exact h

theorem takeWhile_append_of_stops {p : Char → Bool} {word rest : List Char}
    (hword : ∀ c ∈ word, p c) (hrest : Stops p rest) :
    (word ++ rest).takeWhile p = word := by
  rw [List.takeWhile_append_of_pos hword]
  match rest with
  | [] => exact List.append_nil word
  | c :: rest =>
      rw [List.takeWhile_cons_of_neg (by simp [hrest c rfl]), List.append_nil]

theorem dropWhile_append_of_stops {p : Char → Bool} {word rest : List Char}
    (hword : ∀ c ∈ word, p c) (hrest : Stops p rest) :
    (word ++ rest).dropWhile p = rest := by
  rw [List.dropWhile_append_of_pos hword]
  match rest with
  | [] => rfl
  | c :: rest => exact List.dropWhile_cons_of_neg (by simp [hrest c rfl])

namespace Decimal

/-! ## The grammar -/

/-- `D*` -/
def Digits (text : List Char) : Prop := ∀ c ∈ text, c.isDigit

/-- `[+-]?` -/
inductive SignText : List Char → Prop where
  | none : SignText []
  | plus : SignText ['+']
  | minus : SignText ['-']

/-- `(. D*)?` with the digits behind the point. -/
inductive FractionText : List Char → List Char → Prop where
  | none : FractionText [] []
  | point {places : List Char} (h : Digits places) :
      FractionText ('.' :: places) places

/-- `([eE] [+-]? D+)?` -/
inductive ExponentText : List Char → Prop where
  | none : ExponentText []
  | some {e : Char} {s digits : List Char} (he : e = 'e' ∨ e = 'E')
      (hs : SignText s) (hne : digits ≠ []) (hdigits : Digits digits) :
      ExponentText (e :: (s ++ digits))

/-- `[+-]? (D+ (. D*)? | . D+) ([eE] [+-]? D+)?` -/
def Literal (text : List Char) : Prop :=
  ∃ s whole point places exponent,
    text = s ++ (whole ++ (point ++ exponent)) ∧ SignText s ∧ Digits whole ∧
      FractionText point places ∧ (whole ≠ [] ∨ places ≠ []) ∧
      ExponentText exponent

/-! ## Reading the parts -/

theorem Digits.stops_sign {text : List Char} (h : Digits text) {c : Char}
    (hc : c ∈ text.head?) : c ≠ '-' ∧ c ≠ '+' := by
  have hdigit := h c (List.mem_of_mem_head? hc)
  constructor
  · rintro rfl; exact absurd hdigit (by decide)
  · rintro rfl; exact absurd hdigit (by decide)

theorem sign_eq_self {text : List Char}
    (h : ∀ c ∈ text.head?, c ≠ '-' ∧ c ≠ '+') : sign text = (false, text) := by
  match text with
  | [] => rfl
  | c :: rest =>
      obtain ⟨hminus, hplus⟩ := h c rfl
      unfold sign
      split
      · next heq => cases heq; exact absurd rfl hminus
      · next heq => cases heq; exact absurd rfl hplus
      · rfl

theorem sign_append {s text : List Char} (hs : SignText s)
    (h : ∀ c ∈ text.head?, c ≠ '-' ∧ c ≠ '+') :
    sign (s ++ text) = (decide (s = ['-']), text) := by
  cases hs with
  | none => exact sign_eq_self h
  | plus => rfl
  | minus => rfl

theorem exists_sign (text : List Char) :
    ∃ s, SignText s ∧ text = s ++ (sign text).2 := by
  unfold sign
  split
  · exact ⟨['-'], .minus, rfl⟩
  · exact ⟨['+'], .plus, rfl⟩
  · exact ⟨[], .none, rfl⟩

theorem ExponentText.stops_digit {text : List Char} (h : ExponentText text) :
    Stops Char.isDigit text := by
  cases h with
  | none => exact .nil
  | some he =>
      rcases he with rfl | rfl
      · exact .cons (by decide)
      · exact .cons (by decide)

theorem FractionText.stops_digit {point places text : List Char}
    (h : FractionText point places) (htext : Stops Char.isDigit text) :
    Stops Char.isDigit (point ++ text) := by
  cases h with
  | none => exact htext
  | point => exact .cons (by decide)

theorem fraction_append {point places text : List Char}
    (h : FractionText point places) (htext : ExponentText text) :
    fraction (point ++ text) = (places, text) := by
  cases h with
  | none =>
      cases htext with
      | none => rfl
      | some he => rcases he with rfl | rfl <;> rfl
  | point h =>
      rw [List.cons_append, fraction,
        takeWhile_append_of_stops h htext.stops_digit,
        dropWhile_append_of_stops h htext.stops_digit]

theorem digits_takeWhile (text : List Char) :
    Digits (text.takeWhile Char.isDigit) :=
  List.all_eq_true.mp List.all_takeWhile

theorem exists_fraction (text : List Char) :
    ∃ point, FractionText point (fraction text).1 ∧
      text = point ++ (fraction text).2 := by
  unfold fraction
  split
  · next rest =>
      refine ⟨_, .point (digits_takeWhile rest), ?_⟩
      rw [List.cons_append, List.takeWhile_append_dropWhile]
  · exact ⟨[], .none, rfl⟩

theorem isSome_exponentPart? {text : List Char} :
    (exponentPart? text).isSome ↔ ExponentText text := by
  constructor
  · intro h
    match text with
    | [] => exact .none
    | e :: rest =>
        unfold exponentPart? at h
        obtain ⟨s, hs, hrest⟩ := exists_sign rest
        simp only at h
        split at h
        · next hif =>
            obtain ⟨he, hne, hdigits⟩ := hif
            rw [hrest]
            exact .some he hs hne (List.all_eq_true.mp hdigits)
        · cases h
  · intro h
    cases h with
    | none => rfl
    | @some e s digits he hs hne hdigits =>
        unfold exponentPart?
        simp only [sign_append hs fun c hc => hdigits.stops_sign hc]
        rw [if_pos ⟨he, hne, List.all_eq_true.mpr hdigits⟩]
        rfl

theorem ofChars?_append {s whole point places exponent : List Char}
    (hs : SignText s) (hwhole : Digits whole)
    (hpoint : FractionText point places) (hne : whole ≠ [] ∨ places ≠ [])
    (hexponent : ExponentText exponent) :
    ofChars? (s ++ (whole ++ (point ++ exponent))) =
      (exponentPart? exponent).map fun e =>
        ⟨decide (s = ['-']), Nat.ofDigitChars 10 (whole ++ places) 0,
          e - places.length⟩ := by
  have hstops := hpoint.stops_digit hexponent.stops_digit
  have hhead : ∀ c ∈ (whole ++ (point ++ exponent)).head?,
      c ≠ '-' ∧ c ≠ '+' := by
    intro c hc
    -- A digit stands there, or the point.
    match whole, hpoint with
    | d :: whole, _ => exact hwhole.stops_sign hc
    | [], .none => simp at hne
    | [], .point _ =>
        cases hc
        decide
  unfold ofChars?
  simp only [sign_append hs hhead, takeWhile_append_of_stops hwhole hstops,
    dropWhile_append_of_stops hwhole hstops, fraction_append hpoint hexponent]
  rw [if_neg (by rwa [Classical.not_and_iff_not_or_not])]

/-- Exactly the texts of the grammar are read as decimal literals. -/
theorem isSome_ofChars? {text : List Char} :
    (ofChars? text).isSome ↔ Literal text := by
  constructor
  · intro h
    obtain ⟨s, hs, htext⟩ := exists_sign text
    unfold ofChars? at h
    simp only at h
    split at h
    · cases h
    · next hne =>
        rw [Classical.not_and_iff_not_or_not] at hne
        rw [Option.isSome_map, isSome_exponentPart?] at h
        obtain ⟨point, hpoint, hrest⟩ := exists_fraction
          ((sign text).2.dropWhile Char.isDigit)
        refine ⟨s, _, point, _, _, ?_, hs, digits_takeWhile _, hpoint, hne, h⟩
        rw [← hrest, List.takeWhile_append_dropWhile, ← htext]
  · rintro ⟨s, whole, point, places, exponent, rfl, hs, hwhole, hpoint, hne,
      hexponent⟩
    rw [ofChars?_append hs hwhole hpoint hne hexponent, Option.isSome_map]
    exact isSome_exponentPart?.mpr hexponent

end Decimal

end BraceLisp
