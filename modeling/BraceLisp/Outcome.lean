/-!
# Computations that may fail or be cut short

A computation draws identities for the closures it makes from a counter, and ends with a value, with
a failure, or without an answer because its depth was exhausted. The last is no failure of the
program: with more depth there may be another outcome.
-/

namespace BraceLisp

/-- How a computation ends. -/
inductive Outcome (ε α : Type) where
  | value (result : α)
  | error (cause : ε)
  | exhausted
deriving DecidableEq, Repr

/-- A computation: from the next unused identity to an outcome, with the next unused identity
behind a value. -/
def Run (ε α : Type) : Type := Nat → Outcome ε (α × Nat)

namespace Run

variable {ε δ α β : Type}

/-- The computation that only returns a value. -/
protected def pure (a : α) : Run ε α := fun next => .value (a, next)

/-- One computation after another. -/
protected def bind (x : Run ε α) (f : α → Run ε β) : Run ε β := fun next =>
  match x next with
  | .value (a, next) => f a next
  | .error e => .error e
  | .exhausted => .exhausted

instance : Monad (Run ε) where
  pure := Run.pure
  bind := Run.bind

/-- The computation that fails. -/
def fail (e : ε) : Run ε α := fun _ => .error e

/-- The computation whose depth is exhausted. -/
def exhausted : Run ε α := fun _ => .exhausted

/-- Draws an identity that was never drawn before. -/
def fresh : Run ε Nat := fun next => .value (next, next + 1)

/-- An answer as a computation. -/
def ofExcept : Except ε α → Run ε α
  | .ok a => Run.pure a
  | .error e => fail e

/-- The same computation with its failures put differently. -/
def mapError (f : ε → δ) (x : Run ε α) : Run δ α := fun next =>
  match x next with
  | .value r => .value r
  | .error e => .error (f e)
  | .exhausted => .exhausted

/-- How a computation ends if no identity was drawn before. -/
def outcome (x : Run ε α) : Outcome ε α :=
  match x 0 with
  | .value (a, _) => .value a
  | .error e => .error e
  | .exhausted => .exhausted

end Run

end BraceLisp
