import BraceLisp.Env

/-!
# Free names

A name is free in an expression where no parameter list around it binds it.
The arguments of an application are a list, so the definition has a twin for
lists; `mem_freeNamesAll` leads from the twin back to the members, and
`Expr.induction` is induction over expressions without one.
-/

namespace BraceLisp.Expr

variable {ν : Type}

/-- Induction where the arguments of an application are taken one by one. -/
@[elab_as_elim]
theorem induction {P : Expr ν → Prop} (number : ∀ x, P (number x))
    (string : ∀ s, P (string s)) (ident : ∀ x, P (ident x))
    (cond : ∀ t a b, P t → P a → P b → P (cond t a b))
    (lam : ∀ params body, P body → P (lam params body))
    (app : ∀ f args, P f → (∀ a ∈ args, P a) → P (app f args)) :
    ∀ e, P e := by
  intro e
  match e with
  | .number x => exact number x
  | .string s => exact string s
  | .ident x => exact ident x
  | .cond t a b =>
      exact cond t a b (induction number string ident cond lam app t)
        (induction number string ident cond lam app a)
        (induction number string ident cond lam app b)
  | .lam params body =>
      exact lam params body (induction number string ident cond lam app body)
  | .app f args =>
      exact app f args (induction number string ident cond lam app f)
        fun a _ => induction number string ident cond lam app a
termination_by e => sizeOf e
decreasing_by
  all_goals
    simp only [Expr.cond.sizeOf_spec, Expr.lam.sizeOf_spec,
      Expr.app.sizeOf_spec]
    first
      | omega
      | (have h := List.sizeOf_lt_of_mem ‹_ ∈ _›; omega)

variable [DecidableEq ν]

mutual

/-- The names that occur free in an expression. -/
def freeNames : Expr ν → List ν
  | number _ | string _ => []
  | ident x => [x]
  | cond t a b => t.freeNames ++ a.freeNames ++ b.freeNames
  | lam params body => body.freeNames.filter (· ∉ params)
  | app f args => f.freeNames ++ freeNamesAll args

def freeNamesAll : List (Expr ν) → List ν
  | [] => []
  | e :: es => e.freeNames ++ freeNamesAll es

end

theorem mem_freeNamesAll {x : ν} {es : List (Expr ν)} :
    x ∈ freeNamesAll es ↔ ∃ e ∈ es, x ∈ e.freeNames := by
  induction es with
  | nil => simp [freeNamesAll]
  | cons e es ih => simp [freeNamesAll, ih]

theorem mem_freeNames_ident {x y : ν} :
    x ∈ (ident y).freeNames ↔ x = y := by
  simp [freeNames]

theorem mem_freeNames_cond {x : ν} {t a b : Expr ν} :
    x ∈ (cond t a b).freeNames ↔
      x ∈ t.freeNames ∨ x ∈ a.freeNames ∨ x ∈ b.freeNames := by
  simp [freeNames]

theorem mem_freeNames_lam {x : ν} {params : List ν} {body : Expr ν} :
    x ∈ (lam params body).freeNames ↔ x ∈ body.freeNames ∧ x ∉ params := by
  simp [freeNames]

theorem mem_freeNames_app {x : ν} {f : Expr ν} {args : List (Expr ν)} :
    x ∈ (app f args).freeNames ↔
      x ∈ f.freeNames ∨ ∃ a ∈ args, x ∈ a.freeNames := by
  simp [freeNames, mem_freeNamesAll]

end BraceLisp.Expr
