import BraceLisp.Number.Decimal
import BraceLisp.Number.Text
import BraceLisp.Text.Quoted

/-!
# Atoms

The parts of a source that hold no others: numbers, strings and symbols. A bare word is a number if
all of it is a decimal literal, and else a symbol.
-/

namespace BraceLisp

/-- A number, a string (its contents, not its escaped form) or a symbol. -/
inductive Atom where
  | number (value : Float)
  | string (contents : String)
  | symbol (name : String)
deriving DecidableEq, Repr

namespace Atom

/-- The atom that a bare word is. -/
def ofWord (word : List Char) : Atom :=
  match Decimal.ofChars? word with
  | some d => .number d.toFloat
  | none => .symbol (String.ofList word)

/-- An atom as it is written in a source. -/
def chars : Atom → List Char
  | number x => Number.chars x
  | string s => Text.quote s.toList
  | symbol s => s.toList

/-- Equality of what two atoms mean: zero has two forms, and a NaN is nothing's equal. -/
def same : Atom → Atom → Bool
  | number x, number y => x == y
  | string s, string t => s == t
  | symbol s, symbol t => s == t
  | _, _ => false

end Atom

end BraceLisp
