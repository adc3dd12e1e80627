/-!
# Primitive operators

The operators that are not written in the language itself. Each takes two arguments.
-/

namespace BraceLisp

/-- A built-in operator. -/
inductive Primitive where
  | add
  | sub
  | mul
  | div
  | le
  | equal
deriving DecidableEq, Repr

namespace Primitive

/-- All operators, in the order in which the top-level environment binds them. -/
def all : List Primitive := [add, sub, mul, div, le, equal]

/-- The name of an operator in programs. -/
def name : Primitive → String
  | add => "+"
  | sub => "-"
  | mul => "*"
  | div => "/"
  | le => "<="
  | equal => "equal?"

/-- How many arguments an operator takes. -/
def arity (_ : Primitive) : Nat := 2

/-- The operator with a given name. -/
def ofName? (name : String) : Option Primitive := all.find? (·.name == name)

end Primitive

end BraceLisp
