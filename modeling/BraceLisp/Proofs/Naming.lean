import BraceLisp.Program
import BraceLisp.Proofs.FreeNames
import Mathlib.Data.List.Forall2

/-!
# Names are only compared

Expressions, values and environments may have names of any type. Take a relation
between names of two types under which names of one type are equal just when the
related names of the other are. Then nothing that is done with names tells the
two types apart: a lookup finds related values or fails for related names, the
visible names are related in order, and an evaluation takes the same course, at
every depth and with the same identities (`Expr.eval_counterpart`).

`Counterpart` is the same relation for expressions, values, environments and
failures: all is equal but the names, and these are related. Sequencing respects
it, for answers and for computations, so evaluation does, by induction on the
depth with one case for each kind of expression.
-/

namespace BraceLisp

open Relator

variable {ν μ : Type}

/-! ## Counterparts -/

/-- The same expression, with related names. -/
inductive Expr.Counterpart (N : ν → μ → Prop) : Expr ν → Expr μ → Prop where
  | number (x : Float) : Counterpart N (.number x) (.number x)
  | string (s : String) : Counterpart N (.string s) (.string s)
  | ident {x : ν} {y : μ} (h : N x y) : Counterpart N (.ident x) (.ident y)
  | cond {t a b : Expr ν} {t' a' b' : Expr μ} (ht : Counterpart N t t')
      (ha : Counterpart N a a') (hb : Counterpart N b b') :
      Counterpart N (.cond t a b) (.cond t' a' b')
  | lam {params : List ν} {params' : List μ} {body : Expr ν} {body' : Expr μ}
      (hparams : List.Forall₂ N params params')
      (hbody : Counterpart N body body') :
      Counterpart N (.lam params body) (.lam params' body')
  | app {f : Expr ν} {f' : Expr μ} {args : List (Expr ν)}
      {args' : List (Expr μ)} (hf : Counterpart N f f')
      (hargs : List.Forall₂ (Counterpart N) args args') :
      Counterpart N (.app f args) (.app f' args')

mutual

/-- The same value, with related names. -/
inductive Value.Counterpart (N : ν → μ → Prop) : Value ν → Value μ → Prop where
  | number (x : Float) : Value.Counterpart N (.number x) (.number x)
  | string (s : String) : Value.Counterpart N (.string s) (.string s)
  | boolean (b : Bool) : Value.Counterpart N (.boolean b) (.boolean b)
  | primitive (op : Primitive) :
      Value.Counterpart N (.primitive op) (.primitive op)
  | closure (i : Nat) {params : List ν} {params' : List μ} {body : Expr ν}
      {body' : Expr μ} {env : Env ν} {env' : Env μ}
      (hparams : List.Forall₂ N params params')
      (hbody : body.Counterpart N body') (henv : Env.Counterpart N env env') :
      Value.Counterpart N (.closure i params body env)
        (.closure i params' body' env')

/-- The same bindings, with related names. -/
inductive Env.Counterpart (N : ν → μ → Prop) : Env ν → Env μ → Prop where
  | empty : Env.Counterpart N .empty .empty
  | bind {rest : Env ν} {rest' : Env μ} {x : ν} {y : μ} {v : Value ν}
      {v' : Value μ} (hrest : Env.Counterpart N rest rest') (hx : N x y)
      (hv : Value.Counterpart N v v') :
      Env.Counterpart N (.bind rest x v) (.bind rest' y v')

end

/-- The same failure, with related names. -/
inductive EvalError.Counterpart (N : ν → μ → Prop) :
    EvalError ν → EvalError μ → Prop where
  | unboundName {x : ν} {y : μ} (h : N x y) :
      Counterpart N (.unboundName x) (.unboundName y)
  | typeMismatch (detail : String) :
      Counterpart N (.typeMismatch detail) (.typeMismatch detail)
  | arity (callee : String) (expected got : Nat) :
      Counterpart N (.arity callee expected got) (.arity callee expected got)
  | divideByZero : Counterpart N .divideByZero .divideByZero
  | notCallable (text : String) :
      Counterpart N (.notCallable text) (.notCallable text)

/-! ## More names related -/

section Mono

variable {N N' : ν → μ → Prop} (hN : ∀ x y, N x y → N' x y)

include hN

theorem Expr.Counterpart.mono {e : Expr ν} {e' : Expr μ}
    (h : e.Counterpart N e') : e.Counterpart N' e' := by
  induction e using Expr.induction generalizing e' with
  | number x => cases h; exact .number x
  | string s => cases h; exact .string s
  | ident x => cases h with | ident h => exact .ident (hN _ _ h)
  | cond t a b iht iha ihb =>
      cases h with
      | cond ht ha hb => exact .cond (iht ht) (iha ha) (ihb hb)
  | lam params body ih =>
      cases h with
      | lam hparams hbody => exact .lam (hparams.imp hN) (ih hbody)
  | app f args ihf ihargs =>
      cases h with
      | app hf hargs =>
          refine .app (ihf hf) ?_
          induction hargs with
          | nil => exact .nil
          | cons h _ ih =>
              rw [List.forall_mem_cons] at ihargs
              exact .cons (ihargs.1 h) (ih ihargs.2)

mutual

theorem Value.Counterpart.mono {v : Value ν} {v' : Value μ}
    (h : v.Counterpart N v') : v.Counterpart N' v' := by
  cases h with
  | number x => exact .number x
  | string s => exact .string s
  | boolean b => exact .boolean b
  | primitive op => exact .primitive op
  | closure i hparams hbody henv =>
      exact .closure i (hparams.imp hN) (hbody.mono hN) henv.mono

theorem Env.Counterpart.mono {env : Env ν} {env' : Env μ}
    (h : env.Counterpart N env') : env.Counterpart N' env' := by
  cases h with
  | empty => exact .empty
  | bind hrest hx hv => exact .bind hrest.mono (hN _ _ hx) hv.mono

end

end Mono

/-! ## Answers and computations -/

/-- Two answers: related values or related failures. -/
inductive AnswersAlike {ε δ α β : Type} (E : ε → δ → Prop) (R : α → β → Prop) :
    Except ε α → Except δ β → Prop where
  | ok {a : α} {b : β} (h : R a b) : AnswersAlike E R (.ok a) (.ok b)
  | error {e : ε} {d : δ} (h : E e d) : AnswersAlike E R (.error e) (.error d)

theorem AnswersAlike.bind {ε δ α β α' β' : Type} {E : ε → δ → Prop}
    {R : α → β → Prop} {S : α' → β' → Prop} {x : Except ε α} {y : Except δ β}
    {f : α → Except ε α'} {g : β → Except δ β'} (h : AnswersAlike E R x y)
    (hfg : ∀ a b, R a b → AnswersAlike E S (f a) (g b)) :
    AnswersAlike E S (x >>= f) (y >>= g) := by
  cases h with
  | ok h => exact hfg _ _ h
  | error h => exact .error h

/-- Two outcomes: related values with the same next identity, related failures,
or both cut short. -/
inductive Outcome.Counterpart {ε δ α β : Type} (E : ε → δ → Prop)
    (R : α → β → Prop) :
    Outcome ε (α × Nat) → Outcome δ (β × Nat) → Prop where
  | value {a : α} {b : β} (next : Nat) (h : R a b) :
      Counterpart E R (.value (a, next)) (.value (b, next))
  | error {e : ε} {d : δ} (h : E e d) : Counterpart E R (.error e) (.error d)
  | exhausted : Counterpart E R .exhausted .exhausted

namespace Run

variable {ε δ α β α' β' : Type} {E : ε → δ → Prop} {R : α → β → Prop}
  {S : α' → β' → Prop}

/-- Computations that have related outcomes from every counter. -/
def Counterpart (E : ε → δ → Prop) (R : α → β → Prop) (x : Run ε α)
    (y : Run δ β) : Prop :=
  ∀ next, (x next).Counterpart E R (y next)

theorem Counterpart.pure {a : α} {b : β} (h : R a b) :
    Counterpart E R (Pure.pure a : Run ε α) (Pure.pure b) :=
  fun next => .value next h

theorem Counterpart.fail {e : ε} {d : δ} (h : E e d) :
    Counterpart E R (Run.fail e) (Run.fail d) :=
  fun _ => .error h

theorem Counterpart.exhausted :
    Counterpart E R (Run.exhausted : Run ε α) (Run.exhausted : Run δ β) :=
  fun _ => .exhausted

theorem Counterpart.fresh :
    Counterpart E Eq (Run.fresh : Run ε Nat) (Run.fresh : Run δ Nat) :=
  fun next => .value (next + 1) rfl

theorem Counterpart.ofExcept {x : Except ε α} {y : Except δ β}
    (h : AnswersAlike E R x y) :
    Counterpart E R (Run.ofExcept x) (Run.ofExcept y) := by
  cases h with
  | ok h => exact .pure h
  | error h => exact .fail h

theorem Counterpart.bind {x : Run ε α} {y : Run δ β} {f : α → Run ε α'}
    {g : β → Run δ β'} (hxy : Counterpart E R x y)
    (hfg : ∀ a b, R a b → Counterpart E S (f a) (g b)) :
    Counterpart E S (x >>= f) (y >>= g) := by
  intro next
  have h := hxy next
  show Outcome.Counterpart E S (Run.bind x f next) (Run.bind y g next)
  unfold Run.bind
  generalize x next = o, y next = o' at h
  cases h with
  | value next h => exact hfg _ _ h next
  | error h => exact .error h
  | exhausted => exact .exhausted

end Run

/-! ## Operators -/

variable {N : ν → μ → Prop}

namespace Value.Counterpart

theorem kind_eq {v : Value ν} {v' : Value μ} (h : v.Counterpart N v') :
    v.kind = v'.kind := by
  cases h <;> rfl

theorem text_eq {v : Value ν} {v' : Value μ} (h : v.Counterpart N v') :
    v.text = v'.text := by
  cases h with
  | boolean b => cases b <;> rfl
  | number | string | primitive | closure => rfl

theorem contentsEqual_eq {v w : Value ν} {v' w' : Value μ}
    (hv : v.Counterpart N v') (hw : w.Counterpart N w') :
    v.contentsEqual w = v'.contentsEqual w' := by
  cases hv <;> cases hw <;> rfl

end Value.Counterpart

namespace Primitive

theorem number_counterpart (op : Primitive) {v : Value ν} {v' : Value μ}
    (h : v.Counterpart N v') :
    AnswersAlike (EvalError.Counterpart N) Eq (op.number v) (op.number v') := by
  cases h with
  | number x => exact .ok rfl
  | string | primitive | closure => exact .error (.typeMismatch _)
  | boolean b => cases b <;> exact .error (.typeMismatch _)

theorem arithmetic_counterpart (op : Primitive)
    {f : Float → Float → Except (EvalError ν) (Value ν)}
    {g : Float → Float → Except (EvalError μ) (Value μ)}
    (hfg : ∀ x y, AnswersAlike (EvalError.Counterpart N) (Value.Counterpart N)
      (f x y) (g x y))
    {v w : Value ν} {v' w' : Value μ} (hv : v.Counterpart N v')
    (hw : w.Counterpart N w') :
    AnswersAlike (EvalError.Counterpart N) (Value.Counterpart N)
      (op.arithmetic f v w) (op.arithmetic g v' w') := by
  refine (op.number_counterpart hv).bind fun x x' hx => ?_
  refine (op.number_counterpart hw).bind fun y y' hy => ?_
  rw [hx, hy]
  exact hfg x' y'

theorem apply_counterpart (op : Primitive) {vs : List (Value ν)}
    {vs' : List (Value μ)} (h : List.Forall₂ (Value.Counterpart N) vs vs') :
    AnswersAlike (EvalError.Counterpart N) (Value.Counterpart N)
      (op.apply vs) (op.apply vs') := by
  cases h with
  | nil => exact .error (.arity _ _ _)
  | cons hv h =>
      cases h with
      | nil => exact .error (.arity _ _ _)
      | cons hw h =>
          cases h with
          | nil =>
              cases op with
              | add | sub | mul =>
                  exact arithmetic_counterpart _ (fun x y => .ok (.number _))
                    hv hw
              | div =>
                  refine arithmetic_counterpart _ (fun x y => ?_) hv hw
                  split
                  · exact .error .divideByZero
                  · exact .ok (.number _)
              | le =>
                  exact arithmetic_counterpart _ (fun x y => .ok (.boolean _))
                    hv hw
              | equal =>
                  refine .ok ?_
                  rw [hv.contentsEqual_eq hw]
                  exact .boolean _
          | cons _ h =>
              have hlen := h.length_eq
              simp only [apply, List.length_cons, hlen]
              exact .error (.arity _ _ _)

end Primitive

/-! ## Environments -/

namespace Env.Counterpart

theorem boundNames {env : Env ν} {env' : Env μ} (h : env.Counterpart N env') :
    List.Forall₂ N env.boundNames env'.boundNames := by
  induction env using Env.rec (motive_1 := fun _ => True) generalizing env' with
  | empty => cases h; exact .nil
  | bind rest x v ih _ =>
      cases h with
      | bind hrest hx hv => exact .cons hx (ih hrest)
  | _ => trivial

theorem bindAll {env : Env ν} {env' : Env μ} (h : env.Counterpart N env')
    {params : List ν} {params' : List μ}
    (hparams : List.Forall₂ N params params') {vs : List (Value ν)}
    {vs' : List (Value μ)} (hvs : List.Forall₂ (Value.Counterpart N) vs vs') :
    (env.bindAll params vs).Counterpart N (env'.bindAll params' vs') := by
  induction hparams generalizing env env' vs vs' with
  | nil => exact h
  | cons hp _ ih =>
      cases hvs with
      | nil => exact h
      | cons hv hvs => exact ih (h.bind hp hv) hvs

theorem extend {env : Env ν} {env' : Env μ} (h : env.Counterpart N env')
    {params : List ν} {params' : List μ}
    (hparams : List.Forall₂ N params params') {vs : List (Value ν)}
    {vs' : List (Value μ)} (hvs : List.Forall₂ (Value.Counterpart N) vs vs') :
    AnswersAlike (EvalError.Counterpart N) (Env.Counterpart N)
      (env.extend params vs) (env'.extend params' vs') := by
  rw [Env.extend, Env.extend, hparams.length_eq, hvs.length_eq]
  split
  · exact .ok (h.bindAll hparams hvs)
  · exact .error (.arity _ _ _)

variable [DecidableEq ν] [DecidableEq μ] (hN : BiUnique N)

include hN

theorem find? {env : Env ν} {env' : Env μ} (h : env.Counterpart N env') {x : ν}
    {y : μ} (hxy : N x y) :
    Option.Rel (Value.Counterpart N) (env.find? x) (env'.find? y) := by
  induction env using Env.rec (motive_1 := fun _ => True) generalizing env' with
  | empty => cases h; exact .none
  | bind rest z v ih _ =>
      cases h with
      | @bind _ rest' _ z' _ v' hrest hz hv =>
          have heq : z = x ↔ z' = y := rel_eq hN hz hxy
          rw [Env.find?, Env.find?]
          by_cases hzx : z = x
          · rw [if_pos hzx, if_pos (heq.mp hzx)]
            exact .some hv
          · rw [if_neg hzx, if_neg (mt heq.mpr hzx)]
            exact ih hrest
  | _ => trivial

theorem lookup {env : Env ν} {env' : Env μ} (h : env.Counterpart N env')
    {x : ν} {y : μ} (hxy : N x y) :
    AnswersAlike (EvalError.Counterpart N) (Value.Counterpart N)
      (env.lookup x) (env'.lookup y) := by
  have hfind := h.find? hN hxy
  rw [Env.lookup, Env.lookup]
  generalize env.find? x = o, env'.find? y = o' at hfind
  cases hfind with
  | none => exact .error (.unboundName hxy)
  | some hv => exact .ok hv

end Env.Counterpart

theorem forall₂_eraseDups [DecidableEq ν] [DecidableEq μ] (hN : BiUnique N)
    {xs : List ν} {ys : List μ} (h : List.Forall₂ N xs ys) :
    List.Forall₂ N xs.eraseDups ys.eraseDups := by
  match xs, ys, h with
  | [], [], .nil => exact .nil
  | x :: xs, y :: ys, .cons hxy h =>
      rw [List.eraseDups_cons, List.eraseDups_cons]
      refine .cons hxy (forall₂_eraseDups hN (List.rel_filter ?_ h))
      intro z z' hz
      have heq : z = x ↔ z' = y := rel_eq hN hz hxy
      simp [heq]
termination_by xs.length
decreasing_by
  exact Nat.lt_succ_of_le (List.length_filter_le _ _)

theorem Env.Counterpart.names [DecidableEq ν] [DecidableEq μ]
    (hN : BiUnique N) {env : Env ν} {env' : Env μ}
    (h : env.Counterpart N env') : List.Forall₂ N env.names env'.names :=
  forall₂_eraseDups hN h.boundNames

/-! ## Evaluation -/

/-- Related values, or related failures. -/
abbrev EvalM.Counterpart (N : ν → μ → Prop) (x : EvalM ν (Value ν))
    (y : EvalM μ (Value μ)) : Prop :=
  Run.Counterpart (EvalError.Counterpart N) (Value.Counterpart N) x y

theorem testMismatch_counterpart {v : Value ν} {v' : Value μ}
    (h : v.Counterpart N v') :
    (testMismatch v).Counterpart N (testMismatch v') := by
  rw [testMismatch, testMismatch, h.kind_eq, h.text_eq]
  exact .typeMismatch _

theorem Value.Counterpart.applyWith
    {run : Expr ν → Env ν → EvalM ν (Value ν)}
    {run' : Expr μ → Env μ → EvalM μ (Value μ)}
    (hrun : ∀ {e e' env env'}, e.Counterpart N e' → env.Counterpart N env' →
      EvalM.Counterpart N (run e env) (run' e' env'))
    {f : Value ν} {f' : Value μ} (hf : f.Counterpart N f') {vs : List (Value ν)}
    {vs' : List (Value μ)} (hvs : List.Forall₂ (Value.Counterpart N) vs vs') :
    EvalM.Counterpart N (f.applyWith run vs) (f'.applyWith run' vs') := by
  cases hf with
  | number x => exact .fail (.notCallable _)
  | string s => exact .fail (.notCallable _)
  | boolean b => cases b <;> exact .fail (.notCallable _)
  | primitive op => exact .ofExcept (op.apply_counterpart hvs)
  | closure i hparams hbody henv =>
      exact .bind (.ofExcept (henv.extend hparams hvs)) fun env env' henv =>
        hrun hbody henv

theorem Expr.evalEach_counterpart {run : Expr ν → EvalM ν (Value ν)}
    {run' : Expr μ → EvalM μ (Value μ)} {es : List (Expr ν)}
    {es' : List (Expr μ)}
    (h : List.Forall₂
      (fun e e' => EvalM.Counterpart N (run e) (run' e')) es es') :
    Run.Counterpart (EvalError.Counterpart N)
      (List.Forall₂ (Value.Counterpart N)) (evalEach run es)
      (evalEach run' es') := by
  induction h with
  | nil => exact .pure .nil
  | cons he _ ih =>
      exact .bind he fun v v' hv => .bind ih fun vs vs' hvs =>
        .pure (.cons hv hvs)

/-- Evaluation takes the same course whatever its names are. -/
theorem Expr.eval_counterpart [DecidableEq ν] [DecidableEq μ]
    (hN : BiUnique N) (depth : Nat) {e : Expr ν} {e' : Expr μ} {env : Env ν}
    {env' : Env μ} (he : e.Counterpart N e') (henv : env.Counterpart N env') :
    EvalM.Counterpart N (e.eval depth env) (e'.eval depth env') := by
  induction depth generalizing e e' env env' with
  | zero => exact .exhausted
  | succ depth ih =>
      cases he with
      | number x => exact .pure (.number x)
      | string s => exact .pure (.string s)
      | ident hxy => exact .ofExcept (henv.lookup hN hxy)
      | lam hparams hbody =>
          refine .bind .fresh fun i j hij => .pure ?_
          rw [hij]
          exact .closure j hparams hbody henv
      | cond ht ha hb =>
          refine .bind (ih ht henv) fun v v' hv => ?_
          have hmismatch := testMismatch_counterpart hv
          cases hv with
          | boolean b =>
              cases b
              · exact ih hb henv
              · exact ih ha henv
          | number | string | primitive | closure => exact .fail hmismatch
      | app hf hargs =>
          refine .bind (ih hf henv) fun g g' hg => ?_
          have hvalues := evalEach_counterpart
            (hargs.imp fun _ _ h => ih h henv)
          exact .bind hvalues fun vs vs' hvs => hg.applyWith ih hvs

end BraceLisp
