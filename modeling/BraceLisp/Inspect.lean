import BraceLisp.Value

/-!
# The structural form of values

A form for looking at values from outside: constructors with their fields, the environments of
closures left out.
-/

namespace BraceLisp

namespace Number

/-- A number in structural form: its text, with `.0` behind a whole number. -/
def inspect (x : Float) : String :=
  let digits := chars x
  if x.isFinite ∧ '.' ∉ digits then String.ofList (digits ++ ['.', '0']) else String.ofList digits

end Number

/-- A sequence in structural form, given the structural forms of its members. -/
def inspectList (items : List String) : String := "[" ++ ", ".intercalate items ++ "]"

/-- A string in structural form. -/
def inspectString (s : String) : String := String.ofList (Text.quote s.toList)

mutual

/-- An expression in structural form. -/
def Expr.inspect : Expr String → String
  | .number x => "NumLit(" ++ Number.inspect x ++ ")"
  | .string s => "StrLit(" ++ inspectString s ++ ")"
  | .ident name => "Id(" ++ name ++ ")"
  | .cond test thenBranch elseBranch =>
    "If \x7b test: " ++ test.inspect ++ ", then: " ++ thenBranch.inspect ++
      ", els: " ++ elseBranch.inspect ++ " \x7d"
  | .lam params body =>
    "Lam \x7b params: " ++ inspectList params ++ ", body: " ++ body.inspect ++ " \x7d"
  | .app callee args =>
    "App \x7b func: " ++ callee.inspect ++ ", args: " ++ inspectList (Expr.inspectEach args) ++ " \x7d"

/-- Expressions in structural form, one by one. -/
def Expr.inspectEach : List (Expr String) → List String
  | [] => []
  | e :: es => e.inspect :: Expr.inspectEach es

end

namespace Primitive

/-- An operator in structural form. -/
def inspect : Primitive → String
  | add => "Add"
  | sub => "Sub"
  | mul => "Mul"
  | div => "Div"
  | le => "Le"
  | equal => "Equal"

end Primitive

namespace Value

/-- A value in structural form. -/
def inspect : Value String → String
  | number x => "Num(" ++ Number.inspect x ++ ")"
  | string s => "Str(" ++ inspectString s ++ ")"
  | boolean b => "Bool(" ++ toString b ++ ")"
  | closure _ params body _ =>
    "Closure(ClosureCell \x7b params: " ++ inspectList params ++ ", body: " ++ body.inspect ++
      ", env: \"<environment>\" \x7d)"
  | primitive op => "Primitive(" ++ op.inspect ++ ")"

end Value

end BraceLisp
