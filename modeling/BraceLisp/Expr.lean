/-!
# Expressions

The abstract syntax that is evaluated. It is generic in the type `ν` of names: evaluation only ever
compares names, so they may be strings or entries of a symbol table.
-/

namespace BraceLisp

/-- An expression with names of type `ν`. -/
inductive Expr (ν : Type) where
  | number (value : Float)
  | string (contents : String)
  | ident (name : ν)
  | cond (test thenBranch elseBranch : Expr ν)
  /-- A procedure. The parser makes its parameters pairwise distinct. -/
  | lam (params : List ν) (body : Expr ν)
  | app (callee : Expr ν) (args : List (Expr ν))
deriving Repr, Inhabited

namespace Expr

variable {ν : Type} [DecidableEq ν]

mutual

/-- Whether two expressions have the same structure and names, and numbers that are equal as
numbers: zero has two forms, and a NaN is nothing's equal. -/
def same : Expr ν → Expr ν → Bool
  | number x, number y => x == y
  | string s, string t => s == t
  | ident x, ident y => x == y
  | cond t a b, cond t' a' b' => t.same t' && a.same a' && b.same b'
  | lam ps b, lam ps' b' => ps == ps' && b.same b'
  | app f es, app f' es' => f.same f' && sameAll es es'
  | _, _ => false

/-- Whether two sequences of expressions are the same, one by one. -/
def sameAll : List (Expr ν) → List (Expr ν) → Bool
  | [], [] => true
  | e :: es, e' :: es' => e.same e' && sameAll es es'
  | _, _ => false

end

end Expr

end BraceLisp
