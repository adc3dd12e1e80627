import BraceLisp.Eval

/-!
# More depth changes no outcome

Depth is only ever used up by being handed on, so a computation that is not cut short takes the same
course with more of it. `Run.Extends` says this of two computations, sequencing keeps it, and
`Expr.eval_extends_of_le` is the induction on the depth.
-/

namespace BraceLisp

namespace Run

variable {ε α β : Type}

/-- The second computation does whatever the first does, unless the first is cut short. -/
def Extends (x y : Run ε α) : Prop := ∀ next, x next ≠ .exhausted → y next = x next

theorem Extends.refl (x : Run ε α) : x.Extends x := fun _ _ => rfl

theorem Extends.trans {x y z : Run ε α} (hxy : x.Extends y) (hyz : y.Extends z) : x.Extends z := by
  intro next h
  rw [hyz next (by rw [hxy next h]; exact h), hxy next h]

/-- The computation that is cut short at once is extended by every other. -/
theorem exhausted_extends (x : Run ε α) : Extends exhausted x := fun _ h => absurd rfl h

theorem Extends.bind {x y : Run ε α} {f g : α → Run ε β} (hxy : x.Extends y)
    (hfg : ∀ a, (f a).Extends (g a)) : (x >>= f).Extends (y >>= g) := by
  intro next h
  show Run.bind y g next = Run.bind x f next
  replace h : Run.bind x f next ≠ .exhausted := h
  unfold Run.bind at h ⊢
  cases hx : x next with
  | value r =>
    have hy : y next = .value r := by rw [hxy next (by simp [hx]), hx]
    simp only [hx] at h
    simp only [hy]
    exact hfg r.1 r.2 h
  | error e =>
    have hy : y next = .error e := by rw [hxy next (by simp [hx]), hx]
    simp only [hy]
  | exhausted => simp [hx] at h

end Run

variable {ν : Type}

theorem Value.applyWith_extends {run run' : Expr ν → Env ν → EvalM ν (Value ν)}
    (h : ∀ e env, (run e env).Extends (run' e env)) (f : Value ν) (args : List (Value ν)) :
    (f.applyWith run args).Extends (f.applyWith run' args) := by
  unfold applyWith
  split
  · exact .bind (.refl _) fun _ => h _ _
  · exact .refl _
  · exact .refl _

namespace Expr

theorem evalEach_extends {run run' : Expr ν → EvalM ν (Value ν)}
    (h : ∀ e, (run e).Extends (run' e)) :
    ∀ es, (evalEach run es).Extends (evalEach run' es)
  | [] => .refl _
  | e :: es => .bind (h e) fun _ => .bind (evalEach_extends h es) fun _ => .refl _

variable [DecidableEq ν]

theorem eval_extends_succ (depth : Nat) (e : Expr ν) (env : Env ν) :
    (e.eval depth env).Extends (e.eval (depth + 1) env) := by
  induction depth generalizing e env with
  | zero => exact Run.exhausted_extends _
  | succ depth ih =>
    cases e with
    | number | string | ident | lam => exact .refl _
    | cond test thenBranch elseBranch =>
      refine .bind (ih test env) fun v => ?_
      split
      · exact ih thenBranch env
      · exact ih elseBranch env
      · exact .refl _
    | app callee args =>
      exact .bind (ih callee env) fun f =>
        .bind (evalEach_extends (fun e => ih e env) args) fun values =>
          f.applyWith_extends ih values

/-- With more depth an evaluation has the same outcome, unless it was cut short. -/
theorem eval_extends_of_le {depth depth' : Nat} (h : depth ≤ depth') (e : Expr ν) (env : Env ν) :
    (e.eval depth env).Extends (e.eval depth' env) := by
  induction h with
  | refl => exact .refl _
  | step _ ih => exact ih.trans (eval_extends_succ _ e env)

end Expr

end BraceLisp
