import BraceLisp.Proofs.Faces
import BraceLisp.Proofs.Lockstep
import Mathlib.Data.List.Forall2

/-!
# Evaluations that take the same turns

Most laws about two evaluations relate the values that come out by some relation
of their own, and the two expressions with their environments by another. That
the evaluations keep in step is then always the same induction. `Simulation` is
what it needs: numbers, strings and booleans are related to themselves, related
values show alike, related expressions are of one kind and so are their parts,
and a call of related closures with related arguments evaluates related bodies.
-/

namespace BraceLisp

variable {ν : Type}

/-- Equal values, or two closures: two values of one face. -/
inductive Value.Resembles : Value ν → Value ν → Prop where
  | number (x : Float) : Resembles (.number x) (.number x)
  | string (s : String) : Resembles (.string s) (.string s)
  | boolean (b : Bool) : Resembles (.boolean b) (.boolean b)
  | primitive (op : Primitive) : Resembles (.primitive op) (.primitive op)
  | closure {i j : Nat} {params params' : List ν} {body body' : Expr ν}
      {env env' : Env ν} : Resembles (.closure i params body env)
        (.closure j params' body' env')

theorem Value.resembles_of_face_eq {v v' : Value ν} (h : v.face = v'.face) :
    v.Resembles v' := by
  cases v <;> cases v' <;> cases h <;> constructor

/-- To an operator, arguments of the same faces are the same. -/
theorem Primitive.apply_eq_of_face_eq (op : Primitive)
    {vs vs' : List (Value ν)}
    (h : List.Forall₂ (fun v v' => v.face = v'.face) vs vs') :
    op.apply vs = op.apply vs' := by
  have hfaces : vs.map Value.face = vs'.map Value.face := by
    induction h with
    | nil => rfl
    | cons hv _ ih => rw [List.map_cons, List.map_cons, hv, ih]
  rw [← op.apply_map_face vs, hfaces, op.apply_map_face]

theorem Expr.evalEach_matches {V : Value ν → Value ν → Prop}
    {run run' : Expr ν → EvalM ν (Value ν)} {es es' : List (Expr ν)}
    (h : List.Forall₂ (fun e e' => (run e).Matches V (run' e')) es es') :
    (evalEach run es).Matches (List.Forall₂ V) (evalEach run' es') := by
  induction h with
  | nil => exact .pure .nil
  | cons he _ ih =>
      exact .bind he fun v v' hv => .bind ih fun vs vs' hvs =>
        .pure (.cons hv hvs)

variable [DecidableEq ν] {V : Value ν → Value ν → Prop}
  {E : Expr ν → Env ν → Expr ν → Env ν → Prop}

/-- One step of the relation of expressions in their environments: two of one
kind, and their parts, or the values of their names, or the closures made of
them, are related. -/
inductive Expr.StepsAlike (V : Value ν → Value ν → Prop)
    (E : Expr ν → Env ν → Expr ν → Env ν → Prop) :
    Expr ν → Env ν → Expr ν → Env ν → Prop where
  | number {env env' : Env ν} (x : Float) :
      StepsAlike V E (.number x) env (.number x) env'
  | string {env env' : Env ν} (s : String) :
      StepsAlike V E (.string s) env (.string s) env'
  | bound {env env' : Env ν} {x y : ν} {v v' : Value ν}
      (h : env.find? x = some v) (h' : env'.find? y = some v') (hv : V v v') :
      StepsAlike V E (.ident x) env (.ident y) env'
  | unbound {env env' : Env ν} {x : ν} (h : env.find? x = none)
      (h' : env'.find? x = none) :
      StepsAlike V E (.ident x) env (.ident x) env'
  | lam {env env' : Env ν} {params params' : List ν} {body body' : Expr ν}
      (h : ∀ i j, V (.closure i params body env)
        (.closure j params' body' env')) :
      StepsAlike V E (.lam params body) env (.lam params' body') env'
  | cond {env env' : Env ν} {t t' a a' b b' : Expr ν} (ht : E t env t' env')
      (ha : E a env a' env') (hb : E b env b' env') :
      StepsAlike V E (.cond t a b) env (.cond t' a' b') env'
  | app {env env' : Env ν} {f f' : Expr ν} {args args' : List (Expr ν)}
      (hf : E f env f' env')
      (hargs : List.Forall₂ (E · env · env') args args') :
      StepsAlike V E (.app f args) env (.app f' args') env'

/-- Relations of values and of expressions in their environments under which
evaluations keep in step. -/
structure Simulation (V : Value ν → Value ν → Prop)
    (E : Expr ν → Env ν → Expr ν → Env ν → Prop) : Prop where
  number (x : Float) : V (.number x) (.number x)
  string (s : String) : V (.string s) (.string s)
  boolean (b : Bool) : V (.boolean b) (.boolean b)
  face_eq {v v' : Value ν} (h : V v v') : v.face = v'.face
  step {e e' : Expr ν} {env env' : Env ν} (h : E e env e' env') :
    Expr.StepsAlike V E e env e' env'
  call {i j : Nat} {params params' : List ν} {body body' : Expr ν}
    {env env' : Env ν}
    (h : V (.closure i params body env) (.closure j params' body' env')) :
    params.length = params'.length ∧
      ∀ {vs vs' : List (Value ν)}, List.Forall₂ V vs vs' →
        params.length = vs.length →
        E body (env.bindAll params vs) body' (env'.bindAll params' vs')

namespace Simulation

variable (S : Simulation V E)

include S

theorem apply_matches (op : Primitive) {vs vs' : List (Value ν)}
    (hvs : List.Forall₂ V vs vs') :
    (Run.ofExcept (op.apply vs)).Matches V (.ofExcept (op.apply vs')) := by
  rw [op.apply_eq_of_face_eq (hvs.imp fun _ _ => S.face_eq)]
  cases h : op.apply vs' with
  | error e => exact .fail e
  | ok v =>
      rcases Primitive.apply_eq_ok h with ⟨x, rfl⟩ | ⟨b, rfl⟩
      · exact .pure (S.number x)
      · exact .pure (S.boolean b)

theorem applyWith_matches {run : Expr ν → Env ν → EvalM ν (Value ν)}
    (hrun : ∀ {e e' env env'}, E e env e' env' →
      (run e env).Matches V (run e' env'))
    {f f' : Value ν} (hf : V f f') {vs vs' : List (Value ν)}
    (hvs : List.Forall₂ V vs vs') :
    (f.applyWith run vs).Matches V (f'.applyWith run vs') := by
  cases Value.resembles_of_face_eq (S.face_eq hf) with
  | number | string | boolean => exact .fail _
  | primitive op => exact S.apply_matches op hvs
  | @closure i j params params' body body' env env' =>
      obtain ⟨hparams, hbody⟩ := S.call hf
      show (Run.ofExcept (env.extend params vs) >>= run body).Matches _
        (Run.ofExcept (env'.extend params' vs') >>= run body')
      rw [Env.extend, Env.extend, ← hvs.length_eq, ← hparams]
      by_cases hlen : params.length = vs.length
      · rw [if_pos hlen, if_pos hlen]
        exact hrun (hbody hvs hlen)
      · rw [if_neg hlen, if_neg hlen]
        exact .fail _

/-- Related expressions take the same turns. -/
theorem eval_matches (depth : Nat) {e e' : Expr ν} {env env' : Env ν}
    (h : E e env e' env') :
    (e.eval depth env).Matches V (e'.eval depth env') := by
  induction depth generalizing e e' env env' with
  | zero => exact .exhausted
  | succ depth ih =>
      cases S.step h with
      | number x => exact .pure (S.number x)
      | string s => exact .pure (S.string s)
      | @bound _ _ x y v v' hx hy hv =>
          show (Run.ofExcept (env.lookup x)).Matches _
            (.ofExcept (env'.lookup y))
          rw [Env.lookup, Env.lookup, hx, hy]
          exact .pure hv
      | @unbound _ _ x hx hx' =>
          show (Run.ofExcept (env.lookup x)).Matches _
            (.ofExcept (env'.lookup x))
          rw [Env.lookup, Env.lookup, hx, hx']
          exact .fail _
      | lam hclosure =>
          exact .bind .fresh fun i j _ => .pure (hclosure i j)
      | cond ht ha hb =>
          refine .bind (ih ht) fun v v' hv => ?_
          cases Value.resembles_of_face_eq (S.face_eq hv) with
          | boolean b =>
              cases b
              · exact ih hb
              · exact ih ha
          | number | string | primitive | closure => exact .fail _
      | app hf hargs =>
          refine .bind (ih hf) fun g g' hg => ?_
          have hvalues := Expr.evalEach_matches (hargs.imp fun _ _ h => ih h)
          exact .bind hvalues fun vs vs' hvs => S.applyWith_matches ih hg hvs

end Simulation

end BraceLisp
