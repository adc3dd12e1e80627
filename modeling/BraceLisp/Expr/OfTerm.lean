import BraceLisp.Expr
import BraceLisp.Term.Form
import BraceLisp.Term.OfTokens

/-!
# Parsing

A term becomes an expression form by form. `var` has no expression of its own: it is the
application of a `lam` whose parameters are the names of the clauses to the values of the clauses.

Parsing is generic in how a name is represented: `intern` turns a spelling into a name and may
consult and extend a table while it does. `Expr.ofTerm` keeps the spellings themselves.
-/

namespace BraceLisp.Expr

section Generic

variable {ν : Type} [DecidableEq ν] {m : Type → Type} [Monad m] [MonadExceptOf SyntaxError m]
variable (intern : String → m ν)

/-- The name with a given spelling, which must not be a reserved word. -/
def identifier (name : String) : m ν :=
  if Reserved name then throw (.reservedWord name) else intern name

/-- The names of a parameter list, which must be distinct symbols. `seen` holds the parameters to
the left of `terms`. -/
def parametersFrom (seen : List ν) : (terms : List Term) → m (List ν)
  | [] => return []
  | .atom (.symbol s) :: terms => do
    let name ← identifier intern s
    if name ∈ seen then throw (.duplicateParameter s)
    return name :: (← parametersFrom (name :: seen) terms)
  | t :: _ => throw (.invalidParameter t.text)

/-- The names of a parameter list, which must be distinct symbols. -/
def parameters (terms : List Term) : m (List ν) := parametersFrom intern [] terms

mutual

/-- The expression that a term is, or the first fault: the shape of a form is checked first, then
its parameters, then the terms in it from left to right, where the body of a `var` comes before the
values of its clauses. -/
def ofTermWith : Term → m (Expr ν)
  | .atom (.number x) => return .number x
  | .atom (.string s) => return .string s
  | .atom (.symbol s) => return .ident (← identifier intern s)
  | .list items =>
    match h : Form.ofItems items with
    | .error e => throw e
    | .ok (.cond test thenBranch elseBranch) =>
      have := Form.sizeOf_cond_lt h
      return .cond (← ofTermWith test) (← ofTermWith thenBranch) (← ofTermWith elseBranch)
    | .ok (.lam params body) => do
      have := Form.sizeOf_lam_lt h
      let params ← parameters intern params
      return .lam params (← ofTermWith body)
    | .ok (.var clauses body) => do
      have := Form.sizeOf_var_lt h
      let params ← parameters intern (clauses.map Clause.name)
      let body ← ofTermWith body
      return .app (.lam params body) (← ofTermsWith (clauses.map Clause.value))
    | .ok (.app callee args) => do
      have := Form.sizeOf_app_lt h
      return .app (← ofTermWith callee) (← ofTermsWith args)
termination_by t => sizeOf t

/-- The expressions that terms are, left to right. -/
def ofTermsWith : List Term → m (List (Expr ν))
  | [] => return []
  | t :: terms => return (← ofTermWith t) :: (← ofTermsWith terms)
termination_by terms => sizeOf terms

end

end Generic

/-- The expression that a term is. -/
def ofTerm (t : Term) : Except SyntaxError (Expr String) := ofTermWith pure t

/-- The expression that a source is. -/
def ofSource (source : String) : Except SyntaxError (Expr String) :=
  Term.ofSource source >>= ofTerm

end BraceLisp.Expr
