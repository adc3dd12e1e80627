import BraceLisp.Token

/-!
# Terms

A term is an atom or a group of terms: the structure that the braces of a source give it, before
any form of the language is recognised.

`Term.render` writes a term in front of what follows it, so that the text of a group is built
without copying the texts of its members. `Term.flatten` is the other view of a term: the braces
and atoms of which it consists, in order.
-/

namespace BraceLisp

/-- An atom, or the terms between a pair of braces. -/
inductive Term where
  | atom (value : Atom)
  | list (items : List Term)
deriving Repr, Inhabited

namespace Term

/-- A symbol as a term. -/
abbrev symbol (name : String) : Term := .atom (.symbol name)

mutual

/-- Writes a term before the text `rest`. -/
def render : Term → (rest : List Char) → List Char
  | atom a, rest => a.chars ++ rest
  | list items, rest => '{' :: renderItems items ('}' :: rest)

/-- Writes the members of a group, a space between each two, before the text `rest`. -/
def renderItems : List Term → (rest : List Char) → List Char
  | [], rest => rest
  | [t], rest => t.render rest
  | t :: u :: items, rest => t.render (' ' :: renderItems (u :: items) rest)

end

/-- The text of a term. -/
def text (t : Term) : String := String.ofList (t.render [])

mutual

/-- The lexemes of a term, in order. -/
def flatten : Term → List Lexeme
  | atom a => [.atom a]
  | list items => .openBrace :: (flattenAll items ++ [.closeBrace])

/-- The lexemes of a sequence of terms, in order. -/
def flattenAll : List Term → List Lexeme
  | [] => []
  | t :: items => t.flatten ++ flattenAll items

end

mutual

/-- Whether two terms have the same structure and their atoms mean the same. -/
def same : Term → Term → Bool
  | atom a, atom b => a.same b
  | list items, list items' => sameAll items items'
  | _, _ => false

/-- Whether two sequences of terms are the same, term by term. -/
def sameAll : List Term → List Term → Bool
  | [], [] => true
  | t :: items, t' :: items' => t.same t' && sameAll items items'
  | _, _ => false

end

end Term

end BraceLisp
