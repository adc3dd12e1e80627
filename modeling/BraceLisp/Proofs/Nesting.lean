import BraceLisp.Proofs.Calls

/-!
# How deep calls nest

Every call has one less depth than the call that makes it, so the depth that is
left tells how many calls a call is nested in (`Call.Reached.depth_add_length`).
An evaluation is cut short if, and only if, its calls nest as deep as it is
given depth (`Call.outcome_eq_exhausted_iff`): there is no other bound on it,
and a bound on the nesting of calls is a bound on the depth that is enough.

That nothing else cuts an evaluation short is seen from one that cannot be: with
a failure in the place of every exhausted call, the outcome would be another
(`Call.exists_makes_of_exhausted`).
-/

namespace BraceLisp

variable {ν ε α β : Type}

/-! ## Computations that are never cut short -/

namespace Run

/-- A computation that ends with a value or a failure, from every counter. -/
def Answers (x : Run ε α) : Prop :=
  ∀ n, x n ≠ .exhausted

theorem Answers.pure (a : α) : Answers (Pure.pure a : Run ε α) :=
  fun _ => nofun

theorem Answers.fail (e : ε) : Answers (Run.fail e : Run ε α) :=
  fun _ => nofun

theorem Answers.fresh : Answers (Run.fresh : Run ε Nat) :=
  fun _ => nofun

theorem Answers.ofExcept (x : Except ε α) : Answers (Run.ofExcept x) := by
  cases x with
  | ok a => exact .pure a
  | error e => exact .fail e

theorem bind_eq_exhausted_iff {x : Run ε α} {f : α → Run ε β} {n : Nat} :
    (x >>= f) n = .exhausted ↔
      x n = .exhausted ∨ ∃ a m, x n = .value (a, m) ∧ f a m = .exhausted := by
  show Run.bind x f n = .exhausted ↔ _
  unfold Run.bind
  cases x n with
  | value r =>
      obtain ⟨b, k⟩ := r
      simp only [Outcome.value.injEq, Prod.mk.injEq, reduceCtorEq, false_or]
      constructor
      · exact fun h => ⟨b, k, ⟨rfl, rfl⟩, h⟩
      · rintro ⟨_, _, ⟨rfl, rfl⟩, h⟩
        exact h
  | error | exhausted => simp

theorem bind_of_exhausted {x : Run ε α} {f : α → Run ε β} {n : Nat}
    (hx : x n = .exhausted) : (x >>= f) n = .exhausted :=
  bind_eq_exhausted_iff.mpr (.inl hx)

theorem Answers.bind {x : Run ε α} {f : α → Run ε β} (hx : x.Answers)
    (hf : ∀ a, (f a).Answers) : (x >>= f).Answers := by
  intro n h
  rcases bind_eq_exhausted_iff.mp h with h | ⟨a, m, -, h⟩
  · exact hx n h
  · exact hf a m h

/-- The computation with a failure where it would be cut short. -/
def orFail (x : Run ε α) (e : ε) : Run ε α := fun n =>
  match x n with
  | .exhausted => .error e
  | o => o

theorem answers_orFail (x : Run ε α) (e : ε) : (x.orFail e).Answers := by
  intro n
  unfold orFail
  cases x n <;> nofun

theorem orFail_eq {x : Run ε α} {n : Nat} (h : x n ≠ .exhausted) (e : ε) :
    x.orFail e n = x n := by
  unfold orFail
  cases hx : x n with
  | value | error => rfl
  | exhausted => exact absurd hx h

end Run

namespace Expr

theorem evalEach_answers {run : Expr ν → EvalM ν (Value ν)}
    (hrun : ∀ e, (run e).Answers) : ∀ es, (evalEach run es).Answers
  | [] => .pure []
  | e :: es => .bind (hrun e) fun _ =>
      .bind (evalEach_answers hrun es) fun _ => .pure _

theorem evalWith_answers [DecidableEq ν]
    {run : Expr ν → Env ν → EvalM ν (Value ν)}
    (hrun : ∀ e env, (run e env).Answers) (e : Expr ν) (env : Env ν) :
    (e.evalWith run env).Answers := by
  cases e with
  | number x => exact .pure _
  | string s => exact .pure _
  | ident x => exact .ofExcept _
  | lam params body => exact .bind .fresh fun _ => .pure _
  | cond t a b =>
      refine .bind (hrun t env) fun v => ?_
      split
      · exact hrun a env
      · exact hrun b env
      · exact .fail _
  | app f args =>
      refine .bind (hrun f env) fun g =>
        .bind (evalEach_answers (hrun · env) args) fun vs => ?_
      cases g with
      | number | string | boolean => exact .fail _
      | primitive op => exact .ofExcept _
      | closure i params body held =>
          exact .bind (.ofExcept _) fun _ => hrun body _

/-! ## Parts that are cut short -/

variable {run : Expr ν → EvalM ν (Value ν)} {n m : Nat}

theorem evalEach_of_exhausted {before after : List (Expr ν)} {e : Expr ν}
    {us : List (Value ν)} (hbefore : evalEach run before n = .value (us, m))
    (he : run e m = .exhausted) :
    evalEach run (before ++ e :: after) n = .exhausted := by
  induction before generalizing n us with
  | nil =>
      cases hbefore
      exact Run.bind_of_exhausted he
  | cons b before ih =>
      obtain ⟨v, k, ws, hv, hws, rfl⟩ := evalEach_cons_eq_value hbefore
      rw [List.cons_append, evalEach, Run.bind_of_value hv]
      exact Run.bind_of_exhausted (ih hws)

theorem eval_app_of_exhausted [DecidableEq ν] {depth : Nat} {f : Expr ν}
    {args : List (Expr ν)} {env : Env ν}
    (h : evalEach (eval depth · env) (f :: args) n = .exhausted) :
    (app f args).eval (depth + 1) env n = .exhausted := by
  rw [eval_succ, evalWith, Run.bind_eq_exhausted_iff]
  rcases Run.bind_eq_exhausted_iff.mp h with h | ⟨g, k, hg, h⟩
  · exact .inl h
  · rcases Run.bind_eq_exhausted_iff.mp h with h | ⟨vs, k', -, h⟩
    · exact .inr ⟨g, k, hg, Run.bind_of_exhausted h⟩
    · cases h

end Expr

/-! ## Chains of calls -/

namespace Call

variable [DecidableEq ν] {root c c' : Call ν} {way : Way} {ways : List Way}

theorem Makes.depth_eq (h : Makes c way c') : c'.depth + 1 = c.depth := by
  cases h <;> rfl

/-- Some call that is made is cut short, if the call that makes it is. -/
theorem exists_makes_of_exhausted {d : Nat} (hd : c.depth = d + 1)
    (h : c.outcome = .exhausted) :
    ∃ way c', Makes c way c' ∧ c'.outcome = .exhausted := by
  refine Classical.byContradiction fun hnone => ?_
  simp only [not_exists, not_and] at hnone
  obtain ⟨_, e, env, n⟩ := c
  cases hd
  -- Where no call is cut short, this evaluator cannot be told from the other.
  let run := fun (e : Expr ν) env => (e.eval d env).orFail .divideByZero
  have hrun : ∀ way c', Makes ⟨d + 1, e, env, n⟩ way c' →
      run c'.expr c'.env c'.next = c'.outcome := by
    intro way c' hmakes
    have hne := hnone way c' hmakes
    rw [outcome, Nat.succ.inj hmakes.depth_eq] at hne ⊢
    exact Run.orFail_eq hne _
  have hanswers : (e.evalWith run env).Answers :=
    Expr.evalWith_answers (fun _ _ => Run.answers_orFail _ _) e env
  refine hanswers n ?_
  rw [outcome_of_makes hrun]
  exact h

theorem Makes.exhausted (h : Makes c way c') (hc' : c'.outcome = .exhausted) :
    c.outcome = .exhausted := by
  cases h with
  | test => exact Run.bind_of_exhausted hc'
  | branch b htest =>
      rw [outcome, Expr.eval_succ, Expr.evalWith, Run.bind_of_value htest]
      cases b <;> exact hc'
  | operand hsplit hbefore =>
      refine Expr.eval_app_of_exhausted ?_
      rw [hsplit]
      exact Expr.evalEach_of_exhausted hbefore hc'
  | body hall hlen =>
      obtain ⟨g, k, ws, hg, hws, h⟩ := Expr.evalEach_cons_eq_value hall
      cases h
      rw [outcome, Expr.eval_succ, Expr.evalWith, Run.bind_of_value hg,
        Run.bind_of_value hws, Value.applyWith, Env.extend, if_pos hlen]
      exact hc'

namespace Reached

theorem depth_add_length (h : Reached root ways c) :
    c.depth + ways.length = root.depth := by
  induction h with
  | root => rfl
  | step h hmakes ih =>
      have := hmakes.depth_eq
      rw [List.length_append, List.length_singleton]
      omega

theorem of_makes {c₁ : Call ν} (hmakes : Makes root way c₁)
    (h : Reached c₁ ways c) : Reached root (way :: ways) c := by
  induction h with
  | root => exact .step .root hmakes
  | step h hmakes' ih => exact .step ih hmakes'

theorem exhausted (h : Reached root ways c) (hc : c.outcome = .exhausted) :
    root.outcome = .exhausted := by
  induction h with
  | root => exact hc
  | step h hmakes ih => exact ih (hmakes.exhausted hc)

end Reached

/-- An evaluation is cut short if and only if its calls nest as deep as it is
given depth. -/
theorem outcome_eq_exhausted_iff :
    root.outcome = .exhausted ↔
      ∃ ways c, Reached root ways c ∧ ways.length = root.depth := by
  constructor
  · intro h
    induction hd : root.depth generalizing root with
    | zero => exact ⟨[], root, .root, rfl⟩
    | succ d ih =>
        obtain ⟨way, c₁, hmakes, hc₁⟩ := exists_makes_of_exhausted hd h
        have hd₁ := hmakes.depth_eq
        obtain ⟨ways, c, hc, hlen⟩ := ih hc₁ (by omega)
        exact ⟨way :: ways, c, .of_makes hmakes hc, congrArg (· + 1) hlen⟩
  · rintro ⟨ways, c, hc, hlen⟩
    have hdepth : c.depth = 0 := by
      have := hc.depth_add_length
      omega
    refine hc.exhausted ?_
    rw [outcome, hdepth]
    rfl

end Call

end BraceLisp
