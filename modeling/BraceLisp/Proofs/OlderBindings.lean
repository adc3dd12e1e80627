import BraceLisp.Proofs.Bindings
import BraceLisp.Proofs.Simulation

/-!
# Bindings underneath an environment

A lookup finds the most recent binding, so those older than all others are found
for the names only that nothing else binds. In the environment without them such
a lookup fails, and the evaluation with it. An evaluation that ends in any other
way never made one, and goes on as it did when bindings are inserted underneath
its environment.

The closures that it makes keep the inserted bindings, those that were there
before it keep their environments as they were, and a call passes either kind on
to the other. `Value.Grown` allows for both, at any depth.

The comparison goes one way only, which `Run.Matches` cannot say: where the
first computation finds a name unbound, the second may do anything
(`Run.Follows`). But until then both draw the same identities, and the closures
they make are the same ones.
-/

namespace BraceLisp

variable {ν α β α' β' : Type}

/-! ## Inserting bindings -/

/-- The bindings of the first environment, made in the second one. -/
def Env.atop : Env ν → Env ν → Env ν
  | .empty, base => base
  | .bind rest x v, base => (rest.atop base).bind x v

/-- The inserted bindings are older than all others. -/
theorem Env.boundInOrder_atop (env base : Env ν) :
    (env.atop base).boundInOrder = base.boundInOrder ++ env.boundInOrder := by
  induction env using Env.rec (motive_1 := fun _ => True) with
  | empty => exact (List.append_nil _).symm
  | bind rest x v ih _ =>
      simp only [atop, boundInOrder, boundNames, List.reverse_cons] at ih ⊢
      rw [ih, List.append_assoc]
  | _ => trivial

mutual

/-- The same value, but for bindings that are inserted underneath the
environments which it holds. -/
inductive Value.Grown (base : Env ν) : Value ν → Value ν → Prop where
  | number (x : Float) : Value.Grown base (.number x) (.number x)
  | string (s : String) : Value.Grown base (.string s) (.string s)
  | boolean (b : Bool) : Value.Grown base (.boolean b) (.boolean b)
  | primitive (op : Primitive) :
      Value.Grown base (.primitive op) (.primitive op)
  | closure {i : Nat} {params : List ν} {body : Expr ν} {env env' : Env ν}
      (h : Env.Grown base env env') :
      Value.Grown base (.closure i params body env)
        (.closure i params body env')

/-- The same bindings, of values that are grown or not, with `base` underneath
or without it. -/
inductive Env.Grown (base : Env ν) : Env ν → Env ν → Prop where
  | empty : Env.Grown base .empty .empty
  | inserted : Env.Grown base .empty base
  | bind {rest rest' : Env ν} {x : ν} {v v' : Value ν}
      (h : Env.Grown base rest rest') (hv : Value.Grown base v v') :
      Env.Grown base (rest.bind x v) (rest'.bind x v')

end

section

variable {base : Env ν}

mutual

theorem Value.Grown.refl : ∀ v : Value ν, v.Grown base v
  | .number x => .number x
  | .string s => .string s
  | .boolean b => .boolean b
  | .primitive op => .primitive op
  | .closure _ _ _ env => .closure (Env.Grown.refl env)

theorem Env.Grown.refl : ∀ env : Env ν, Env.Grown base env env
  | .empty => .empty
  | .bind rest _ v => .bind (Env.Grown.refl rest) (Value.Grown.refl v)

end

theorem Value.Grown.face_eq {v v' : Value ν} (h : v.Grown base v') :
    v.face = v'.face := by
  cases h <;> rfl

namespace Env.Grown

theorem atop : ∀ env : Env ν, Grown base env (env.atop base)
  | .empty => .inserted
  | .bind rest _ v => .bind (atop rest) (Value.Grown.refl v)

theorem bindAll {env env' : Env ν} (h : Grown base env env')
    {vs vs' : List (Value ν)} (hvs : List.Forall₂ (Value.Grown base) vs vs')
    (params : List ν) :
    Grown base (env.bindAll params vs) (env'.bindAll params vs') := by
  induction hvs generalizing params env env' with
  | nil => cases params <;> exact h
  | cons hv _ ih =>
      cases params with
      | nil => exact h
      | cons p params => exact ih (.bind h hv) params

/-- What is bound stays so, whatever is inserted underneath. -/
theorem find?_cases [DecidableEq ν] {env env' : Env ν}
    (h : Grown base env env') (x : ν) :
    env.find? x = none ∨ ∃ v v', env.find? x = some v ∧
      env'.find? x = some v' ∧ v.Grown base v' := by
  induction env using Env.rec (motive_1 := fun _ => True) generalizing env' with
  | empty => exact .inl rfl
  | bind rest y v ih _ =>
      cases h with
      | @bind _ rest' _ _ v' h hv =>
          by_cases hyx : y = x
          · exact .inr ⟨v, v', if_pos hyx, if_pos hyx, hv⟩
          · rw [Env.find?, Env.find?, if_neg hyx, if_neg hyx]
            exact ih h
  | _ => trivial

end Env.Grown

end

/-! ## Following a computation -/

/-- Related results and the same next identity, the same failure, or both cut
short; or the first found a name unbound. -/
inductive Outcome.Follows (R : α → β → Prop) :
    Outcome (EvalError ν) (α × Nat) → Outcome (EvalError ν) (β × Nat) →
      Prop where
  | value {a : α} {b : β} (n : Nat) (h : R a b) :
      Follows R (.value (a, n)) (.value (b, n))
  | error (e : EvalError ν) : Follows R (.error e) (.error e)
  | exhausted : Follows R .exhausted .exhausted
  | unbound (x : ν) (o : Outcome (EvalError ν) (β × Nat)) :
      Follows R (.error (.unboundName x)) o

theorem Outcome.Follows.answer? {R : α → β → Prop}
    {o : Outcome (EvalError ν) (α × Nat)}
    {o' : Outcome (EvalError ν) (β × Nat)} (h : o.Follows R o')
    {r : Except (EvalError ν) α} (hr : o.answer? = some r)
    (hbound : ∀ x, r ≠ .error (.unboundName x)) :
    ∃ r', o'.answer? = some r' ∧ EndsAlike R r r' := by
  cases h with
  | value n h => cases hr; exact ⟨_, rfl, .ok h⟩
  | error e => cases hr; exact ⟨_, rfl, .error e⟩
  | exhausted => cases hr
  | unbound x o => cases hr; exact absurd rfl (hbound x)

namespace Run

/-- The second computation does as the first, from any counter. -/
def Follows (R : α → β → Prop) (x : EvalM ν α) (y : EvalM ν β) : Prop :=
  ∀ n, (x n).Follows R (y n)

namespace Follows

theorem pure {R : α → β → Prop} {a : α} {b : β} (h : R a b) :
    Follows R (Pure.pure a : EvalM ν α) (Pure.pure b) :=
  fun n => .value n h

theorem fail {R : α → β → Prop} (e : EvalError ν) :
    Follows R (Run.fail e) (Run.fail e) :=
  fun _ => .error e

theorem exhausted {R : α → β → Prop} :
    Follows R (Run.exhausted : EvalM ν α) (Run.exhausted : EvalM ν β) :=
  fun _ => .exhausted

theorem fresh : Follows Eq (Run.fresh : EvalM ν Nat) Run.fresh :=
  fun n => .value (n + 1) rfl

theorem bind {R : α → β → Prop} {S : α' → β' → Prop} {x : EvalM ν α}
    {y : EvalM ν β} {f : α → EvalM ν α'} {g : β → EvalM ν β'}
    (hxy : Follows R x y) (hfg : ∀ a b, R a b → Follows S (f a) (g b)) :
    Follows S (x >>= f) (y >>= g) := by
  intro n
  have h := hxy n
  show Outcome.Follows S (Run.bind x f n) (Run.bind y g n)
  unfold Run.bind
  generalize x n = o, y n = o' at h
  cases h with
  | value m h => exact hfg _ _ h m
  | error e => exact .error e
  | exhausted => exact .exhausted
  | unbound x o => exact .unbound x _

end Follows

end Run

theorem Expr.evalEach_follows {R : Value ν → Value ν → Prop}
    {run run' : Expr ν → EvalM ν (Value ν)}
    (h : ∀ e, (run e).Follows R (run' e)) :
    ∀ es, (evalEach run es).Follows (List.Forall₂ R) (evalEach run' es)
  | [] => .pure .nil
  | e :: es => .bind (h e) fun _ _ hv =>
      .bind (evalEach_follows h es) fun _ _ hvs => .pure (.cons hv hvs)

/-! ## The law -/

section

variable {base : Env ν}

theorem Value.Grown.applyWith_follows
    {run : Expr ν → Env ν → EvalM ν (Value ν)}
    (hrun : ∀ e {env env' : Env ν}, Env.Grown base env env' →
      (run e env).Follows (Value.Grown base) (run e env'))
    {f f' : Value ν} (hf : f.Grown base f') {vs vs' : List (Value ν)}
    (hvs : List.Forall₂ (Value.Grown base) vs vs') :
    (f.applyWith run vs).Follows (Value.Grown base) (f'.applyWith run vs') := by
  cases hf with
  | number | string | boolean => exact .fail _
  | primitive op =>
      show (Run.ofExcept (op.apply vs)).Follows _ (.ofExcept (op.apply vs'))
      rw [op.apply_eq_of_face_eq (hvs.imp fun _ _ => face_eq)]
      cases op.apply vs' with
      | ok v => exact .pure (.refl v)
      | error e => exact .fail e
  | @closure i params body env env' henv =>
      show (Run.ofExcept (env.extend params vs) >>= run body).Follows _
        (Run.ofExcept (env'.extend params vs') >>= run body)
      rw [Env.extend, Env.extend, ← hvs.length_eq]
      split
      · exact hrun body (henv.bindAll hvs params)
      · exact .fail _

variable [DecidableEq ν]

theorem Expr.eval_follows (depth : Nat) (e : Expr ν) {env env' : Env ν}
    (h : Env.Grown base env env') :
    (e.eval depth env).Follows (Value.Grown base) (e.eval depth env') := by
  induction depth generalizing e env env' with
  | zero => exact .exhausted
  | succ depth ih =>
      cases e with
      | number x => exact .pure (.number x)
      | string s => exact .pure (.string s)
      | ident x =>
          show (Run.ofExcept (env.lookup x)).Follows _
            (.ofExcept (env'.lookup x))
          rw [Env.lookup, Env.lookup]
          rcases h.find?_cases x with hx | ⟨v, v', hx, hx', hv⟩
          · -- Here the name may well be found among the inserted bindings.
            rw [hx]
            exact fun n => .unbound x _
          · rw [hx, hx']
            exact .pure hv
      | lam params body =>
          refine .bind .fresh fun i j hij => .pure ?_
          cases hij
          exact .closure h
      | cond t a b =>
          refine .bind (ih t h) fun v v' hv => ?_
          cases hv with
          | boolean c =>
              cases c
              · exact ih b h
              · exact ih a h
          | number | string | primitive | closure => exact .fail _
      | app f args =>
          refine .bind (ih f h) fun g g' hg => ?_
          refine .bind (evalEach_follows (fun a => ih a h) args) ?_
          exact fun vs vs' hvs => hg.applyWith_follows ih hvs

/-- Bindings that are older than all others break nothing: an evaluation that
ends, and not because a name is unbound, ends with the same failure or the same
value when they are inserted, except that environments which the value holds may
have them underneath as well. -/
theorem Expr.ends_alike_atop (e : Expr ν) (env base : Env ν) (next : Nat)
    {r : Except (EvalError ν) (Value ν)} (h : e.Ends env next r)
    (hbound : ∀ x, r ≠ .error (.unboundName x)) :
    (env.atop base).boundInOrder = base.boundInOrder ++ env.boundInOrder ∧
      ∃ r', e.Ends (env.atop base) next r' ∧
        EndsAlike (Value.Grown base) r r' := by
  obtain ⟨depth, hr⟩ := h
  obtain ⟨r', hr', halike⟩ :=
    (e.eval_follows depth (.atop env) next).answer? hr hbound
  exact ⟨env.boundInOrder_atop base, r', ⟨depth, hr'⟩, halike⟩

end

/-- A procedure is made whose body has a name that is not bound, and keeps a
procedure from before. Underneath, that name is bound, and once more the name of
the old procedure: the new one holds both bindings, the old one neither. -/
theorem Expr.makes_closure_atop :
    let held : Value String := .closure 0 [] (.ident "x") .empty
    let env : Env String := .ofList [("f", held)]
    let base : Env String := .ofList [("x", .number 1), ("f", .boolean true)]
    let e : Expr String :=
      .app (.lam ["g"] (.lam [] (.ident "x"))) [.ident "f"]
    let made : Env String → Value String :=
      fun env => .closure 2 [] (.ident "x") (env.bind "g" held)
    e.Ends env 1 (.ok (made env)) ∧
      (env.atop base).boundInOrder = ["x", "f", "f"] ∧
      (∃ r, e.Ends (env.atop base) 1 r ∧
        EndsAlike (Value.Grown base) (.ok (made env)) r) ∧
      e.Ends (env.atop base) 1 (.ok (made (env.atop base))) := by
  intro held env base e made
  have hends : e.Ends env 1 (.ok (made env)) := ⟨3, rfl⟩
  obtain ⟨hnames, halike⟩ := e.ends_alike_atop env base 1 hends nofun
  exact ⟨hends, hnames, halike, ⟨3, rfl⟩⟩

end BraceLisp
