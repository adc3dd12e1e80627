import BraceLisp.Env
import BraceLisp.Outcome

/-!
# Evaluation

Call by value with lexical scope: the callee first, then the arguments from left to right, and the
first failure is the outcome. The body of a closure is evaluated in the environment that the closure
holds, extended by the arguments, whatever environment the call is made from.

A program may run forever, so evaluation is given a depth: how far evaluations may nest. Every
evaluation inside another, of a part of the expression or of the body of a closure, has one less
than the other. An outcome that is not `exhausted` does not depend on the depth
(`Expr.eval_extends_of_le` in `Eval.Depth`).
-/

namespace BraceLisp

variable {ν : Type}

/-- A computation that fails as evaluation does. -/
abbrev EvalM (ν : Type) := Run (EvalError ν)

/-- The failure of a test that is not a boolean. -/
def testMismatch (v : Value ν) : EvalError ν :=
  .typeMismatch ("if: test must be a boolean, got " ++ v.kind ++ " " ++ v.text)

namespace Primitive

/-- An argument of `op` as a number. -/
def number (op : Primitive) : Value ν → Except (EvalError ν) Float
  | .number x => .ok x
  | v => .error (.typeMismatch (op.name ++ ": expected number, got " ++ v.kind ++ " " ++ v.text))

/-- Applies an arithmetic operation once both arguments are known to be numbers. -/
def arithmetic (op : Primitive) (f : Float → Float → Except (EvalError ν) (Value ν))
    (a b : Value ν) : Except (EvalError ν) (Value ν) := do
  let x ← op.number a
  let y ← op.number b
  f x y

/-- Applies an operator to two arguments. Both zeros are refused as divisors. -/
def applyPair : Primitive → Value ν → Value ν → Except (EvalError ν) (Value ν)
  | add => add.arithmetic fun x y => .ok (.number (x + y))
  | sub => sub.arithmetic fun x y => .ok (.number (x - y))
  | mul => mul.arithmetic fun x y => .ok (.number (x * y))
  | div => div.arithmetic fun x y => if y == 0 then .error .divideByZero else .ok (.number (x / y))
  | le => le.arithmetic fun x y => .ok (.boolean (decide (x ≤ y)))
  | equal => fun a b => .ok (.boolean (a.contentsEqual b))

/-- Applies an operator. The number of arguments is checked before their kinds. -/
def apply (op : Primitive) : List (Value ν) → Except (EvalError ν) (Value ν)
  | [a, b] => op.applyPair a b
  | args => .error (.arity op.name op.arity args.length)

end Primitive

namespace Value

/-- Applies a value to arguments. `run` evaluates the body of a closure. -/
def applyWith (run : Expr ν → Env ν → EvalM ν (Value ν)) :
    Value ν → List (Value ν) → EvalM ν (Value ν)
  | closure _ params body env, args => do run body (← .ofExcept (env.extend params args))
  | primitive op, args => .ofExcept (op.apply args)
  | v, _ => .fail (.notCallable v.text)

end Value

namespace Expr

/-- Evaluates expressions from left to right. -/
def evalEach (run : Expr ν → EvalM ν (Value ν)) : List (Expr ν) → EvalM ν (List (Value ν))
  | [] => return []
  | e :: es => return (← run e) :: (← evalEach run es)

variable [DecidableEq ν]

/-- Evaluates an expression to at most the given depth. -/
def eval : (depth : Nat) → Expr ν → Env ν → EvalM ν (Value ν)
  | 0, _, _ => .exhausted
  | _ + 1, number x, _ => return .number x
  | _ + 1, string s, _ => return .string s
  | _ + 1, ident name, env => .ofExcept (env.lookup name)
  | _ + 1, lam params body, env => return .closure (← .fresh) params body env
  | depth + 1, cond test thenBranch elseBranch, env => do
    match ← eval depth test env with
    | .boolean true => eval depth thenBranch env
    | .boolean false => eval depth elseBranch env
    | v => .fail (testMismatch v)
  | depth + 1, app callee args, env => do
    let f ← eval depth callee env
    let values ← evalEach (eval depth · env) args
    f.applyWith (eval depth) values

end Expr

/-- Applies a value to arguments; the body of a closure is evaluated to at most the given depth. -/
def Value.apply [DecidableEq ν] (depth : Nat) (f : Value ν) (args : List (Value ν)) :
    EvalM ν (Value ν) :=
  f.applyWith (Expr.eval depth) args

end BraceLisp
