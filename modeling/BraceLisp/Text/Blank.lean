/-!
# Blank characters

The characters with the Unicode property `White_Space`, as ranges of code points. Zero-width
characters and the byte order mark do not have it.
-/

namespace BraceLisp.Text

/-- The ranges of code points that have the property `White_Space`, ends included. -/
def blankRanges : List (Nat × Nat) :=
  [(0x09, 0x0D), (0x20, 0x20), (0x85, 0x85), (0xA0, 0xA0), (0x1680, 0x1680), (0x2000, 0x200A),
    (0x2028, 0x2029), (0x202F, 0x202F), (0x205F, 0x205F), (0x3000, 0x3000)]

/-- Whether a character is blank. -/
def isBlank (c : Char) : Bool :=
  blankRanges.any fun (low, high) => low ≤ c.toNat && c.toNat ≤ high

/-- A text without the blanks at its two ends. -/
def trim (text : List Char) : List Char :=
  ((text.dropWhile isBlank).reverse.dropWhile isBlank).reverse

example : isBlank '\n' ∧ isBlank ' ' ∧ isBlank '\u3000' ∧ ¬ isBlank '\u200b' ∧ ¬ isBlank '\ufeff' := by
  decide

example : trim ['\t', 'a', ' ', 'b', '\r', '\n'] = ['a', ' ', 'b'] := by decide

end BraceLisp.Text
