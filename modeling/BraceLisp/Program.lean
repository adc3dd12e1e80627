import BraceLisp.Eval
import BraceLisp.Expr.OfTerm

/-!
# Programs

From source text to values. Everything is evaluated in the top-level environment, which binds the
operators, `true` and `false`. A program of several expressions is parsed whole before any of it is
evaluated, and its expressions do not see each other.
-/

namespace BraceLisp

variable {ν : Type}

/-- What the top-level environment binds, oldest first. -/
def topBindings : List (String × Value ν) :=
  Primitive.all.map (fun op => (op.name, .primitive op)) ++
    [("true", .boolean true), ("false", .boolean false)]

/-- The top-level environment. -/
def Env.top : Env String := .ofList topBindings

namespace Program

/-- Evaluates a source that holds one expression. -/
def eval (depth : Nat) (source : String) : Run Error (Value String) := do
  let e ← Run.mapError .illFormed (.ofExcept (Expr.ofSource source))
  Run.mapError .runtime (e.eval depth .top)

/-- Evaluates a source that holds one expression and writes its value. -/
def interpret (depth : Nat) (source : String) : Run Error String :=
  return (← eval depth source).text

/-- Evaluates expressions one after another and returns the last value, or `last` if there are
none. -/
def evalLast (depth : Nat) (last : Option (Value String)) :
    List (Expr String) → EvalM String (Option (Value String))
  | [] => return last
  | e :: es => do
    let v ← e.eval depth .top
    evalLast depth (some v) es

/-- The expressions of a source. -/
def exprs (source : String) : Except SyntaxError (List (Expr String)) :=
  Term.allOfSource source >>= Expr.ofTermsWith pure

/-- Evaluates all expressions of a source and returns the value of the last, if there is one. -/
def run (depth : Nat) (source : String) : Run Error (Option (Value String)) := do
  let es ← Run.mapError .illFormed (.ofExcept (exprs source))
  Run.mapError .runtime (evalLast depth none es)

/-- A depth beyond what the stack of a machine has room for. -/
def ampleDepth : Nat := 1000000000

end Program

end BraceLisp
