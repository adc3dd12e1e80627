import BraceLisp.Eval

/-!
# The calls of a run

The evaluator calls itself for the parts of an expression and for the body of
a closure. `Call.Makes` lists the calls that one call makes, `Call.Reached` the
calls of a whole run, each with the ways that lead to it. That the list leaves
nothing out is `Call.outcome_of_makes`: an evaluation only depends on what its
calls come to.

The calls that one call makes follow each other, and the counter of identities
never goes back. So two calls of a run that are not below one another draw
identities from intervals that do not meet, and an identity tells which `lam`
made a closure, and when in the run (`Call.Reached.draws_once`).
-/

namespace BraceLisp

variable {ν ε α β : Type}

namespace Run

theorem bind_of_value {x : Run ε α} {f : α → Run ε β} {n m : Nat} {a : α}
    (hx : x n = .value (a, m)) : (x >>= f) n = f a m := by
  show Run.bind x f n = f a m
  rw [Run.bind, hx]

theorem bind_eq_value {x : Run ε α} {f : α → Run ε β} {n : Nat} {r : β × Nat}
    (h : (x >>= f) n = .value r) :
    ∃ a m, x n = .value (a, m) ∧ f a m = .value r := by
  replace h : Run.bind x f n = .value r := h
  unfold Run.bind at h
  cases hx : x n with
  | value s => rw [hx] at h; exact ⟨s.1, s.2, rfl, h⟩
  | error e => rw [hx] at h; cases h
  | exhausted => rw [hx] at h; cases h

theorem bind_congr {x y : Run ε α} {f g : α → Run ε β} {n : Nat}
    (hxy : x n = y n)
    (hfg : ∀ a m, y n = .value (a, m) → f a m = g a m) :
    (x >>= f) n = (y >>= g) n := by
  show Run.bind x f n = Run.bind y g n
  unfold Run.bind
  rw [hxy]
  cases hy : y n with
  | value s => exact hfg s.1 s.2 hy
  | error | exhausted => rfl

/-- A computation that never returns to an identity drawn before. -/
def Counts (x : Run ε α) : Prop :=
  ∀ n m a, x n = .value (a, m) → n ≤ m

theorem Counts.pure (a : α) : Counts (Pure.pure a : Run ε α) := by
  intro n m b h
  cases h
  exact Nat.le_refl n

theorem Counts.fail (e : ε) : Counts (Run.fail e : Run ε α) := by
  intro n m b h
  cases h

theorem Counts.fresh : Counts (Run.fresh : Run ε Nat) := by
  intro n m b h
  cases h
  exact Nat.le_succ n

theorem Counts.ofExcept (x : Except ε α) : Counts (Run.ofExcept x) := by
  cases x with
  | ok a => exact .pure a
  | error e => exact .fail e

theorem Counts.bind {x : Run ε α} {f : α → Run ε β} (hx : x.Counts)
    (hf : ∀ a, (f a).Counts) : (x >>= f).Counts := by
  intro n m b h
  obtain ⟨a, k, ha, hb⟩ := bind_eq_value h
  exact Nat.le_trans (hx n k a ha) (hf a k m b hb)

end Run

namespace Expr

variable {run run' : Expr ν → EvalM ν (Value ν)}

theorem evalEach_counts (hrun : ∀ e, (run e).Counts) :
    ∀ es, (evalEach run es).Counts
  | [] => .pure []
  | e :: es => .bind (hrun e) fun _ =>
      .bind (evalEach_counts hrun es) fun _ => .pure _

theorem evalEach_cons_of_value {e : Expr ν} {es : List (Expr ν)}
    {n n₁ m : Nat} {v : Value ν} {vs : List (Value ν)}
    (hv : run e n = .value (v, n₁))
    (hvs : evalEach run es n₁ = .value (vs, m)) :
    evalEach run (e :: es) n = .value (v :: vs, m) := by
  rw [evalEach, Run.bind_of_value hv, Run.bind_of_value hvs]
  rfl

theorem evalEach_cons_eq_value {e : Expr ν} {es : List (Expr ν)}
    {n m : Nat} {vs : List (Value ν)}
    (h : evalEach run (e :: es) n = .value (vs, m)) :
    ∃ v n₁ ws, run e n = .value (v, n₁) ∧
      evalEach run es n₁ = .value (ws, m) ∧ vs = v :: ws := by
  rw [evalEach] at h
  obtain ⟨v, n₁, hv, h⟩ := Run.bind_eq_value h
  obtain ⟨ws, n₂, hws, h⟩ := Run.bind_eq_value h
  cases h
  exact ⟨v, n₁, ws, hv, hws, rfl⟩

theorem evalEach_append_eq_value {es fs : List (Expr ν)} {n m : Nat}
    {vs : List (Value ν)}
    (h : evalEach run (es ++ fs) n = .value (vs, m)) :
    ∃ us n₁ ws, evalEach run es n = .value (us, n₁) ∧
      evalEach run fs n₁ = .value (ws, m) ∧ vs = us ++ ws := by
  induction es generalizing n vs with
  | nil => exact ⟨[], n, vs, rfl, h, rfl⟩
  | cons e es ih =>
      obtain ⟨v, n₁, vs', hv, h', rfl⟩ := evalEach_cons_eq_value h
      obtain ⟨us, n₂, ws, hus, hws, rfl⟩ := ih h'
      exact ⟨v :: us, n₂, ws, evalEach_cons_of_value hv hus, hws, rfl⟩

theorem mem_of_evalEach_eq_value {es : List (Expr ν)} {n m : Nat}
    {vs : List (Value ν)} (h : evalEach run es n = .value (vs, m))
    {v : Value ν} (hv : v ∈ vs) :
    ∃ before e after us n₁ n₂, es = before ++ e :: after ∧
      evalEach run before n = .value (us, n₁) ∧ run e n₁ = .value (v, n₂) := by
  induction es generalizing n vs with
  | nil => cases h; cases hv
  | cons e es ih =>
      obtain ⟨w, n₁, ws, hw, hws, rfl⟩ := evalEach_cons_eq_value h
      rcases List.mem_cons.mp hv with rfl | hv
      · exact ⟨[], e, es, [], n, n₁, rfl, rfl, hw⟩
      · obtain ⟨before, f, after, us, n₂, n₃, rfl, hus, hf⟩ := ih hws hv
        exact ⟨e :: before, f, after, w :: us, n₂, n₃, rfl,
          evalEach_cons_of_value hw hus, hf⟩

/-- To tell two sequences of evaluations apart, one member must be evaluated
apart, after the same results. -/
theorem evalEach_congr {es : List (Expr ν)} {n : Nat}
    (h : ∀ before e after vs m, es = before ++ e :: after →
      evalEach run' before n = .value (vs, m) → run e m = run' e m) :
    evalEach run es n = evalEach run' es n := by
  induction es generalizing n with
  | nil => rfl
  | cons e es ih =>
      rw [evalEach, evalEach]
      refine Run.bind_congr (h [] e es [] n rfl rfl) fun v m hv => ?_
      have hes : evalEach run es m = evalEach run' es m :=
        ih fun before f after vs k hsplit hbefore =>
          h (e :: before) f after (v :: vs) k (by rw [hsplit]; rfl)
            (evalEach_cons_of_value hv hbefore)
      exact Run.bind_congr hes fun _ _ _ => rfl

/-- One level of evaluation, with `run` for the calls of the evaluator. -/
def evalWith [DecidableEq ν] (run : Expr ν → Env ν → EvalM ν (Value ν)) :
    Expr ν → Env ν → EvalM ν (Value ν)
  | number x, _ => return .number x
  | string s, _ => return .string s
  | ident name, env => .ofExcept (env.lookup name)
  | lam params body, env => return .closure (← .fresh) params body env
  | cond test thenBranch elseBranch, env => do
    match ← run test env with
    | .boolean true => run thenBranch env
    | .boolean false => run elseBranch env
    | v => .fail (testMismatch v)
  | app callee args, env => do
    let f ← run callee env
    let values ← evalEach (run · env) args
    f.applyWith run values

end Expr

theorem Value.applyWith_counts {run : Expr ν → Env ν → EvalM ν (Value ν)}
    (hrun : ∀ e env, (run e env).Counts) (f : Value ν)
    (args : List (Value ν)) : (f.applyWith run args).Counts := by
  cases f with
  | number | string | boolean => exact .fail _
  | primitive op => exact .ofExcept _
  | closure i params body env => exact .bind (.ofExcept _) fun _ => hrun _ _

namespace Expr

variable [DecidableEq ν]

theorem eval_succ (depth : Nat) (e : Expr ν) (env : Env ν) :
    e.eval (depth + 1) env = e.evalWith (eval depth) env := by
  cases e <;> rfl

theorem eval_counts (depth : Nat) (e : Expr ν) (env : Env ν) :
    (e.eval depth env).Counts := by
  induction depth generalizing e env with
  | zero => intro n m a h; cases h
  | succ depth ih =>
      cases e with
      | number x => exact .pure _
      | string s => exact .pure _
      | ident x => exact .ofExcept _
      | lam params body => exact .bind .fresh fun _ => .pure _
      | cond t a b =>
          refine .bind (ih t env) fun v => ?_
          split
          · exact ih a env
          · exact ih b env
          · exact .fail _
      | app f args =>
          exact .bind (ih f env) fun g =>
            .bind (evalEach_counts (fun e => ih e env) args) fun vs =>
              g.applyWith_counts ih vs

theorem eval_app_eq_value {depth n : Nat} {f : Expr ν}
    {args : List (Expr ν)} {env : Env ν} {r : Value ν × Nat}
    (h : (app f args).eval (depth + 1) env n = .value r) :
    ∃ g vs m, evalEach (eval depth · env) (f :: args) n =
      .value (g :: vs, m) ∧ g.applyWith (eval depth) vs m = .value r := by
  rw [eval_succ, evalWith] at h
  obtain ⟨g, n₁, hg, h⟩ := Run.bind_eq_value h
  obtain ⟨vs, n₂, hvs, h⟩ := Run.bind_eq_value h
  exact ⟨g, vs, n₂, evalEach_cons_of_value hg hvs, h⟩

end Expr

/-! ## Calls -/

structure Call (ν : Type) where
  depth : Nat
  expr : Expr ν
  env : Env ν
  next : Nat

/-- From a call to one that it makes: to a part of its own expression, or into
the body of the closure that it applies, told by its identity. -/
inductive Way where
  | part (k : Nat)
  | body (identity : Nat)
deriving DecidableEq

namespace Call

variable [DecidableEq ν]

def outcome (c : Call ν) : Outcome (EvalError ν) (Value ν × Nat) :=
  c.expr.eval c.depth c.env c.next

/-- The calls that a call makes itself, each after those that it waits for.
The callee of an application is evaluated as an argument before the first. -/
inductive Makes : Call ν → Way → Call ν → Prop where
  | test {d n : Nat} {t a b : Expr ν} {env : Env ν} :
      Makes ⟨d + 1, .cond t a b, env, n⟩ (.part 0) ⟨d, t, env, n⟩
  | branch {d n m : Nat} {t a b : Expr ν} {env : Env ν} (c : Bool)
      (htest : t.eval d env n = .value (.boolean c, m)) :
      Makes ⟨d + 1, .cond t a b, env, n⟩ (.part (if c then 1 else 2))
        ⟨d, if c then a else b, env, m⟩
  | operand {d n m : Nat} {f a : Expr ν} {args before after : List (Expr ν)}
      {env : Env ν} {vs : List (Value ν)}
      (hsplit : f :: args = before ++ a :: after)
      (hbefore : Expr.evalEach (Expr.eval d · env) before n =
        .value (vs, m)) :
      Makes ⟨d + 1, .app f args, env, n⟩ (.part before.length) ⟨d, a, env, m⟩
  | body {d n m i : Nat} {f body : Expr ν} {args : List (Expr ν)}
      {env held : Env ν} {params : List ν} {vs : List (Value ν)}
      (hall : Expr.evalEach (Expr.eval d · env) (f :: args) n =
        .value (.closure i params body held :: vs, m))
      (hlen : params.length = vs.length) :
      Makes ⟨d + 1, .app f args, env, n⟩ (.body i)
        ⟨d, body, held.bindAll params vs, m⟩

/-- The calls of the run that `root` begins, with the ways that lead there. -/
inductive Reached (root : Call ν) : List Way → Call ν → Prop where
  | root : Reached root [] root
  | step {ways : List Way} {way : Way} {c c' : Call ν}
      (h : Reached root ways c) (hmakes : Makes c way c') :
      Reached root (ways ++ [way]) c'

/-! ## No call is left out -/

/-- A call comes to the same with any other evaluator in the place of this one
that agrees with it on the calls that `Makes` lists. -/
theorem outcome_of_makes {d n : Nat} {e : Expr ν} {env : Env ν}
    {run : Expr ν → Env ν → EvalM ν (Value ν)}
    (hrun : ∀ way c, Makes ⟨d + 1, e, env, n⟩ way c →
      run c.expr c.env c.next = c.outcome) :
    e.evalWith run env n = outcome ⟨d + 1, e, env, n⟩ := by
  rw [outcome, Expr.eval_succ]
  cases e with
  | number | string | ident | lam => rfl
  | cond t a b =>
      refine Run.bind_congr (hrun _ _ .test) fun v m hv => ?_
      cases v with
      | boolean c =>
          have hbranch := hrun _ _ (.branch c hv)
          cases c <;> exact hbranch
      | number | string | primitive | closure => rfl
  | app f args =>
      have hcallee : f :: args = [] ++ f :: args := rfl
      refine Run.bind_congr (hrun _ _ (.operand hcallee rfl)) fun g n₁ hg => ?_
      refine Run.bind_congr (Expr.evalEach_congr fun before a after vs m
        hsplit hbefore => ?_) fun vs m hvs => ?_
      · have hsplit' : f :: args = (f :: before) ++ a :: after := by
          rw [hsplit]; rfl
        exact hrun _ _ (.operand hsplit'
          (Expr.evalEach_cons_of_value hg hbefore))
      · cases g with
        | number | string | boolean | primitive => rfl
        | closure i params body held =>
            refine Run.bind_congr rfl fun env' k henv' => ?_
            rw [Env.extend] at henv'
            split at henv'
            · next hlen =>
                cases henv'
                exact hrun _ _ (.body (Expr.evalEach_cons_of_value hg hvs) hlen)
            · cases henv'

/-! ## Identities are drawn once -/

/-- The first call has returned when the second one begins. -/
def EndsBefore (c c' : Call ν) : Prop :=
  ∃ v m, c.outcome = .value (v, m) ∧ m ≤ c'.next

theorem operand_returns {d n m k : Nat} {env : Env ν} {a : Expr ν}
    {before after : List (Expr ν)} {us vs : List (Value ν)}
    (hbefore : Expr.evalEach (Expr.eval d · env) before n = .value (us, m))
    (hall : Expr.evalEach (Expr.eval d · env) (before ++ a :: after) n =
      .value (vs, k)) :
    ∃ v m', a.eval d env m = .value (v, m') ∧ m' ≤ k := by
  obtain ⟨us', n₁, ws, hus', hws, -⟩ := Expr.evalEach_append_eq_value hall
  rw [hbefore] at hus'
  cases hus'
  obtain ⟨v, m', ws', hv, hws', -⟩ := Expr.evalEach_cons_eq_value hws
  exact ⟨v, m', hv,
    Expr.evalEach_counts (Expr.eval_counts d · env) after m' k ws' hws'⟩

/-- Two calls that one call makes are one, or one of them has returned when the
other begins. -/
theorem Makes.compare {c c₁ c₂ : Call ν} {way way' : Way}
    (h : Makes c way c₁) (h' : Makes c way' c₂) :
    way = way' ∧ c₁ = c₂ ∨
      way ≠ way' ∧ (c₁.EndsBefore c₂ ∨ c₂.EndsBefore c₁) := by
  cases h with
  | test =>
      cases h' with
      | test => exact .inl ⟨rfl, rfl⟩
      | branch c htest =>
          refine .inr ⟨by cases c <;> decide, .inl ⟨_, _, htest, ?_⟩⟩
          exact Nat.le_refl _
  | branch c htest =>
      cases h' with
      | test =>
          refine .inr ⟨by cases c <;> decide, .inr ⟨_, _, htest, ?_⟩⟩
          exact Nat.le_refl _
      | branch c' htest' =>
          rw [htest] at htest'
          cases htest'
          exact .inl ⟨rfl, rfl⟩
  | @operand d n m f a args before after env us hsplit hbefore =>
      cases h' with
      | @operand _ _ m' _ a' _ before' after' _ us' hsplit' hbefore' =>
          rw [hsplit] at hsplit'
          -- Either both are at one place, or one of them is further left.
          rcases List.append_eq_append_iff.mp hsplit' with
            ⟨mid, hmid, hafter⟩ | ⟨mid, hmid, hafter⟩
          all_goals
            cases mid with
            | nil =>
                rw [List.append_nil] at hmid
                subst hmid
                rw [List.nil_append] at hafter
                cases hafter
                rw [hbefore] at hbefore'
                cases hbefore'
                exact .inl ⟨rfl, rfl⟩
            | cons x mid => ?_
          · cases hafter
            rw [hmid] at hbefore'
            refine .inr ⟨by simp [hmid], .inl ?_⟩
            exact operand_returns hbefore hbefore'
          · cases hafter
            rw [hmid] at hbefore
            refine .inr ⟨by simp [hmid], .inr ?_⟩
            exact operand_returns hbefore' hbefore
      | body hall hlen =>
          rw [hsplit] at hall
          exact .inr ⟨by simp, .inl (operand_returns hbefore hall)⟩
  | body hall hlen =>
      cases h' with
      | operand hsplit hbefore =>
          rw [hsplit] at hall
          exact .inr ⟨by simp, .inr (operand_returns hbefore hall)⟩
      | body hall' hlen' =>
          rw [hall] at hall'
          cases hall'
          exact .inl ⟨rfl, rfl⟩

theorem Makes.next_le {c c' : Call ν} {way : Way} (h : Makes c way c') :
    c.next ≤ c'.next := by
  have heach := fun d env =>
    Expr.evalEach_counts fun a : Expr ν => Expr.eval_counts d a env
  cases h with
  | test => exact Nat.le_refl _
  | branch c htest => exact Expr.eval_counts _ _ _ _ _ _ htest
  | operand hsplit hbefore => exact heach _ _ _ _ _ _ hbefore
  | body hall hlen => exact heach _ _ _ _ _ _ hall

theorem Makes.returns {c c' : Call ν} {way : Way} (h : Makes c way c')
    {v : Value ν} {m : Nat} (hc : c.outcome = .value (v, m)) :
    ∃ v' m', c'.outcome = .value (v', m') ∧ m' ≤ m := by
  cases h with
  | test =>
      rw [outcome, Expr.eval_succ, Expr.evalWith] at hc
      obtain ⟨u, k, hu, hc⟩ := Run.bind_eq_value hc
      refine ⟨u, k, hu, ?_⟩
      split at hc
      · exact Expr.eval_counts _ _ _ _ _ _ hc
      · exact Expr.eval_counts _ _ _ _ _ _ hc
      · cases hc
  | branch c htest =>
      rw [outcome, Expr.eval_succ, Expr.evalWith,
        Run.bind_of_value htest] at hc
      refine ⟨v, m, ?_, Nat.le_refl m⟩
      cases c <;> exact hc
  | operand hsplit hbefore =>
      obtain ⟨g, vs, k, hall, hg⟩ := Expr.eval_app_eq_value hc
      rw [hsplit] at hall
      obtain ⟨v', m', hv', hm'⟩ := operand_returns hbefore hall
      exact ⟨v', m', hv', Nat.le_trans hm'
        (g.applyWith_counts (Expr.eval_counts _) vs k m v hg)⟩
  | body hall hlen =>
      obtain ⟨g, vs, k, hall', hg⟩ := Expr.eval_app_eq_value hc
      rw [hall] at hall'
      cases hall'
      refine ⟨v, m, ?_, Nat.le_refl m⟩
      rw [Value.applyWith, Env.extend, if_pos hlen] at hg
      exact hg

namespace Reached

variable {root c c' : Call ν} {ways ways' : List Way}

theorem next_le (h : Reached root ways c) : root.next ≤ c.next := by
  induction h with
  | root => exact Nat.le_refl _
  | step h hmakes ih => exact Nat.le_trans ih hmakes.next_le

theorem returns (h : Reached root ways c) {v : Value ν} {m : Nat}
    (hroot : root.outcome = .value (v, m)) :
    ∃ v' m', c.outcome = .value (v', m') ∧ m' ≤ m := by
  induction h with
  | root => exact ⟨v, m, hroot, Nat.le_refl m⟩
  | step h hmakes ih =>
      obtain ⟨v₁, m₁, h₁, hm₁⟩ := ih
      obtain ⟨v₂, m₂, h₂, hm₂⟩ := hmakes.returns h₁
      exact ⟨v₂, m₂, h₂, Nat.le_trans hm₂ hm₁⟩

theorem unique (h : Reached root ways c) (h' : Reached root ways c') :
    c = c' := by
  induction h generalizing c' with
  | root =>
      generalize hways : [] = ways at h'
      cases h' with
      | root => rfl
      | step => simp at hways
  | @step ways way c₀ c h hmakes ih =>
      generalize hways : ways ++ [way] = ways' at h'
      cases h' with
      | root => simp at hways
      | step h' hmakes' =>
          obtain ⟨rfl, hway⟩ := List.append_inj' hways rfl
          cases hway
          cases ih h'
          rcases hmakes.compare hmakes' with ⟨-, hc⟩ | ⟨hne, -⟩
          · exact hc
          · exact absurd rfl hne

theorem head {way : Way} (h : Reached root (way :: ways) c) :
    ∃ c₁, Makes root way c₁ ∧ Reached c₁ ways c := by
  generalize hall : way :: ways = all at h
  induction h generalizing ways with
  | root => cases hall
  | step h hmakes ih =>
      rcases List.cons_eq_append_iff.mp hall with
        ⟨rfl, hways⟩ | ⟨ways₁, rfl, rfl⟩
      · cases hways
        obtain rfl := h.unique .root
        exact ⟨_, hmakes, .root⟩
      · obtain ⟨c₁, hc₁, h₁⟩ := ih rfl
        exact ⟨c₁, hc₁, .step h₁ hmakes⟩

end Reached

/-- A call that draws an identity, the next one. -/
def Draws (c : Call ν) : Prop :=
  ∃ d params body env n, c = ⟨d + 1, .lam params body, env, n⟩

theorem Draws.makes_nothing {c c' : Call ν} {way : Way} (h : c.Draws) :
    ¬Makes c way c' := by
  obtain ⟨d, params, body, env, n, rfl⟩ := h
  intro hmakes
  cases hmakes

theorem Draws.next_lt {c : Call ν} (h : c.Draws) {v : Value ν} {m : Nat}
    (hc : c.outcome = .value (v, m)) : c.next < m := by
  obtain ⟨d, params, body, env, n, rfl⟩ := h
  cases hc
  exact Nat.lt_succ_self n

/-- What is drawn before a call has returned is not drawn after. -/
theorem EndsBefore.next_lt {c₁ c₂ c c' : Call ν} {ways ways' : List Way}
    (h : c₁.EndsBefore c₂) (hc : Reached c₁ ways c) (hdraws : c.Draws)
    (hc' : Reached c₂ ways' c') : c.next < c'.next := by
  obtain ⟨v, m, hv, hm⟩ := h
  obtain ⟨v', m', hv', hm'⟩ := hc.returns hv
  calc
    c.next < m' := hdraws.next_lt hv'
    _ ≤ m := hm'
    _ ≤ c₂.next := hm
    _ ≤ c'.next := hc'.next_le

/-- In one run an identity is drawn at one call. -/
theorem Reached.draws_once {root c c' : Call ν} {ways ways' : List Way}
    (h : Reached root ways c) (h' : Reached root ways' c') (hc : c.Draws)
    (hc' : c'.Draws) (hnext : c.next = c'.next) : ways = ways' := by
  induction ways generalizing root ways' with
  | nil =>
      cases ways' with
      | nil => rfl
      | cons way' ways' =>
          obtain rfl := h.unique .root
          obtain ⟨c₁, hmakes, -⟩ := h'.head
          exact absurd hmakes hc.makes_nothing
  | cons way ways ih =>
      cases ways' with
      | nil =>
          obtain rfl := h'.unique .root
          obtain ⟨c₁, hmakes, -⟩ := h.head
          exact absurd hmakes hc'.makes_nothing
      | cons way' ways' =>
          obtain ⟨c₁, hmakes, h⟩ := h.head
          obtain ⟨c₂, hmakes', h'⟩ := h'.head
          -- Where the ways part, one side has ended before the other begins.
          rcases hmakes.compare hmakes' with ⟨rfl, rfl⟩ | ⟨-, hends | hends⟩
          · rw [ih h h']
          · have := hends.next_lt h hc h'
            omega
          · have := hends.next_lt h' hc' h
            omega

end Call

end BraceLisp
