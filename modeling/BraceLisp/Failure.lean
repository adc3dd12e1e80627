import BraceLisp.SyntaxError

/-!
# Failures

A program fails before it runs, with a `SyntaxError`, or while it runs, with an `EvalError`. All
messages begin with the name of the language, so that a host can tell them from its own output.
-/

namespace BraceLisp

/-- Why an evaluation fails. -/
inductive EvalError (ν : Type) where
  | unboundName (name : ν)
  /-- A value of the wrong kind; the text says where and which. -/
  | typeMismatch (detail : String)
  | arity (callee : String) (expected got : Nat)
  | divideByZero
  /-- The text is that of the value that was applied. -/
  | notCallable (text : String)
deriving DecidableEq, Repr

/-- Why a program fails. -/
inductive Error where
  | illFormed (cause : SyntaxError)
  | runtime (cause : EvalError String)
deriving DecidableEq, Repr

namespace EvalError

/-- What is wrong, in words. -/
def message : EvalError String → String
  | unboundName name => "unbound name `" ++ name ++ "`"
  | typeMismatch detail => "type error: " ++ detail
  | arity callee expected got =>
    callee ++ " expects " ++ expected.repr ++ " argument(s), got " ++ got.repr
  | divideByZero => "division by zero"
  | notCallable text => "cannot apply non-function value " ++ text

end EvalError

namespace Error

/-- The message of a failure, as it is shown to users. -/
def message : Error → String
  | illFormed e => "ZHRL: syntax error: " ++ e.message
  | runtime e => "ZHRL: " ++ e.message

end Error

end BraceLisp
