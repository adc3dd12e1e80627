import BraceLisp.Proofs.Simulation

/-!
# Identities do not matter

Two evaluations of one expression draw different identities for the closures
that they make. `Value.anonymous` forgets the identities of a value and of
everything that it holds; what is left is the parameters, the bodies and the
environments, binding by binding, hidden ones included. Values that are equal
up to this are `Alike`.

Looking a name up, binding names and forgetting identities can be done in any
order, so evaluations in environments that are alike keep in step
(`Value.alike_simulation`), whatever identities they draw.
-/

namespace BraceLisp

variable {ν : Type}

mutual

/-- The value without the identities of closures. -/
def Value.anonymous : Value ν → Value ν
  | .closure _ params body env => .closure 0 params body env.anonymous
  | .number x => .number x
  | .string s => .string s
  | .boolean b => .boolean b
  | .primitive op => .primitive op

/-- The environment without the identities of the closures in it. -/
def Env.anonymous : Env ν → Env ν
  | .empty => .empty
  | .bind rest x v => .bind rest.anonymous x v.anonymous

end

/-- Equal up to the identities of closures. -/
def Value.Alike (v v' : Value ν) : Prop := v.anonymous = v'.anonymous

theorem Value.Alike.face_eq {v v' : Value ν} (h : v.Alike v') :
    v.face = v'.face := by
  have hface : ∀ w : Value ν, w.anonymous.face = w.face := by
    intro w
    cases w <;> simp only [anonymous, face]
  rw [← hface v, ← hface v', h]

/-- Whatever differs in identities only shows alike. -/
theorem Value.Alike.shows_alike {v v' : Value ν} (h : v.Alike v') :
    v.kind = v'.kind ∧ v.text = v'.text ∧
      ∀ {w w' : Value ν}, w.Alike w' →
        v.contentsEqual w = v'.contentsEqual w' := by
  refine ⟨?_, ?_, fun hw => ?_⟩
  · rw [← v.kind_face, h.face_eq, v'.kind_face]
  · rw [← v.text_face, h.face_eq, v'.text_face]
  · rw [← contentsEqual_face, h.face_eq, hw.face_eq, contentsEqual_face]

theorem Value.map_anonymous_eq {vs vs' : List (Value ν)}
    (h : List.Forall₂ Alike vs vs') :
    vs.map anonymous = vs'.map anonymous := by
  induction h with
  | nil => rfl
  | cons hv _ ih => rw [List.map_cons, List.map_cons, hv, ih]

namespace Env

theorem anonymous_bindAll (env : Env ν) (params : List ν)
    (vs : List (Value ν)) :
    (env.bindAll params vs).anonymous =
      env.anonymous.bindAll params (vs.map Value.anonymous) := by
  induction params generalizing env vs with
  | nil => rfl
  | cons p params ih =>
      match vs with
      | [] => rfl
      | v :: vs => rw [bindAll, ih, anonymous, List.map_cons, bindAll]

theorem find?_anonymous [DecidableEq ν] (env : Env ν) (x : ν) :
    env.anonymous.find? x = (env.find? x).map Value.anonymous := by
  induction env using Env.rec (motive_1 := fun _ => True) with
  | empty => rfl
  | bind rest y v ih _ =>
      rw [anonymous, find?, find?, ih]
      split <;> rfl
  | _ => trivial

end Env

variable [DecidableEq ν]

/-- One expression twice, in environments that are equal up to identities. -/
def Expr.AlikeIn (e : Expr ν) (env : Env ν) (e' : Expr ν) (env' : Env ν) :
    Prop :=
  e = e' ∧ env.anonymous = env'.anonymous

theorem Expr.AlikeIn.step {e e' : Expr ν} {env env' : Env ν}
    (h : e.AlikeIn env e' env') :
    StepsAlike Value.Alike AlikeIn e env e' env' := by
  obtain ⟨rfl, henv⟩ := h
  cases e with
  | number x => exact .number x
  | string s => exact .string s
  | ident x =>
      have hfind : (env.find? x).map Value.anonymous =
          (env'.find? x).map Value.anonymous := by
        rw [← env.find?_anonymous, henv, env'.find?_anonymous]
      cases hx : env.find? x with
      | none =>
          rw [hx, Option.map_none] at hfind
          exact .unbound hx (Option.map_eq_none_iff.mp hfind.symm)
      | some v =>
          rw [hx, Option.map_some] at hfind
          obtain ⟨v', hx', hv⟩ := Option.map_eq_some_iff.mp hfind.symm
          exact .bound hx hx' hv.symm
  | lam params body =>
      refine .lam fun i j => ?_
      rw [Value.Alike, Value.anonymous, Value.anonymous, henv]
  | cond t a b => exact .cond ⟨rfl, henv⟩ ⟨rfl, henv⟩ ⟨rfl, henv⟩
  | app f args =>
      exact .app ⟨rfl, henv⟩ (List.forall₂_same.mpr fun _ _ => ⟨rfl, henv⟩)

theorem Value.alike_simulation :
    Simulation (ν := ν) Value.Alike Expr.AlikeIn where
  number _ := rfl
  string _ := rfl
  boolean _ := rfl
  face_eq := Alike.face_eq
  step := Expr.AlikeIn.step
  call h := by
    rw [Alike, anonymous, anonymous] at h
    injection h with _ hparams hbody henv
    subst hparams hbody
    refine ⟨rfl, fun hvs _ => ⟨rfl, ?_⟩⟩
    rw [Env.anonymous_bindAll, Env.anonymous_bindAll, henv,
      map_anonymous_eq hvs]

/-- An expression has one course in one environment, whatever identities are
drawn. -/
theorem Expr.eval_matches_alike (depth : Nat) (e : Expr ν) (env : Env ν) :
    (e.eval depth env).Matches Value.Alike (e.eval depth env) :=
  Value.alike_simulation.eval_matches depth ⟨rfl, rfl⟩

end BraceLisp
