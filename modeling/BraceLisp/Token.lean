import BraceLisp.Atom
import BraceLisp.Position

/-!
# Tokens

A source is a sequence of braces and atoms; a token is one of them with the place where it begins.
-/

namespace BraceLisp

/-- What a token is, apart from its place. -/
inductive Lexeme where
  | openBrace
  | closeBrace
  | atom (value : Atom)
deriving DecidableEq, Repr

/-- A lexeme and the place of its first character. -/
structure Token where
  lexeme : Lexeme
  position : Position
deriving DecidableEq, Repr

end BraceLisp
