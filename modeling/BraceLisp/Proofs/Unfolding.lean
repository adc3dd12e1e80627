import BraceLisp.Proofs.Bindings
import BraceLisp.Proofs.Closures
import BraceLisp.Proofs.Faces
import BraceLisp.Proofs.FreeNames
import BraceLisp.Proofs.Lockstep
import BraceLisp.Proofs.Substitution

/-!
# Environments are substitutions that have not been made yet

A closure is a procedure whose free names still have to be looked up. Putting
what its environment gives in their place, and doing the same inside what is
put there, unfolds it into closed code: `Value.code`. An environment unfolds
into a substitution, `Env.code?`.

Evaluating an expression in an environment and evaluating its code after that
substitution then take the same course, and unfolding relates their results
(`Expr.eval_matches_code`). The one step with a thought in it is the call: the
environment of a call is a substitution made in two rounds, first what the
closure holds and then the arguments, and two rounds of closed code are one.
-/

namespace BraceLisp

variable {ν : Type} [DecidableEq ν]

mutual

/-- The code that a value stands for: in a closure the values that its
environment gives to the free names of the body are put in their place. -/
def Value.code : Value ν → Code ν
  | .number x => .number x
  | .string s => .string s
  | .boolean b => .boolean b
  | .primitive op => .primitive op
  | .closure _ params body env =>
    .lam params
      ((Code.ofExpr body).subst (Code.hide params fun x => env.code? x))

/-- An environment as a substitution. -/
def Env.code? : Env ν → ν → Option (Code ν)
  | .empty, _ => none
  | .bind rest name v, x => if name = x then some v.code else rest.code? x

end

theorem Env.code?_eq_map (env : Env ν) (x : ν) :
    env.code? x = (env.find? x).map Value.code := by
  induction env using Env.rec (motive_1 := fun _ => True) with
  | empty => rfl
  | bind rest name v ih _ =>
      rw [Env.code?, Env.find?]
      split
      · rfl
      · exact ih
  | _ => trivial

theorem Env.code?_bindAll (env : Env ν) (params : List ν)
    (vs : List (Value ν)) (x : ν) :
    (env.bindAll params vs).code? x =
      (Code.bindings params (vs.map Value.code) x).or (env.code? x) := by
  induction params generalizing env vs with
  | nil => rfl
  | cons p params ih =>
      match vs with
      | [] => rfl
      | v :: vs =>
          rw [Env.bindAll, ih, List.map_cons, Code.bindings, Env.code?,
            Option.or_assoc]
          congr 1
          split <;> rfl

theorem Value.face_code (v : Value ν) : v.code.face = v.face := by
  cases v <;> rfl

theorem Value.map_face_code (vs : List (Value ν)) :
    (vs.map Value.code).map Code.face = vs.map Value.face := by
  rw [List.map_map]
  exact List.map_congr_left fun v _ => face_code v

namespace Code

theorem bindings_eq_none {params : List ν} {cs : List (Code ν)} {x : ν}
    (hx : x ∉ params) : bindings params cs x = none := by
  induction params generalizing cs with
  | nil => rfl
  | cons p params ih =>
      rw [List.mem_cons, not_or] at hx
      match cs with
      | [] => rfl
      | c :: cs => rw [bindings, ih hx.2, if_neg (Ne.symm hx.1)]; rfl

theorem bindings_isSome {params : List ν} {cs : List (Code ν)} {x : ν}
    (hlen : params.length = cs.length) (hx : x ∈ params) :
    (bindings params cs x).isSome := by
  induction params generalizing cs with
  | nil => cases hx
  | cons p params ih =>
      match cs with
      | c :: cs =>
          rw [bindings, Option.isSome_or, Bool.or_eq_true]
          by_cases hp : x ∈ params
          · exact .inl (ih (by simpa using hlen) hp)
          · rw [List.mem_cons] at hx
            rw [if_pos (hx.resolve_right hp).symm]
            exact .inr rfl

theorem freeNames_ofExpr (e : Expr ν) {x : ν} :
    x ∈ (ofExpr e).freeNames ↔ x ∈ e.freeNames := by
  induction e using Expr.induction with
  | number | string => exact Iff.rfl
  | ident => exact Iff.rfl
  | cond t a b iht iha ihb =>
      simp only [ofExpr, freeNames, Expr.freeNames, List.mem_append, iht, iha,
        ihb]
  | lam params body ih =>
      simp only [ofExpr, freeNames, Expr.freeNames, List.mem_filter, ih]
  | app f args ihf ihargs =>
      simp only [ofExpr, freeNames, ofExprs_eq_map, mem_freeNamesAll,
        Expr.mem_freeNames_app, List.mem_append, ihf, List.mem_map,
        exists_exists_and_eq_and]
      refine or_congr_right (exists_congr fun a => ?_)
      exact and_congr_right fun ha => ihargs a ha

end Code

/-! ## Nothing free is left -/

/-- A closure whose environment binds every free name of its body that is no
parameter. -/
def Value.Bound (_ : Nat) (params : List ν) (body : Expr ν) (env : Env ν) :
    Prop :=
  ∀ x ∈ body.freeNames, x ∉ params → env.find? x ≠ none

mutual

theorem Value.closed_code : ∀ {v : Value ν}, v.All Value.Bound → v.code.Closed
  | .number _, _ | .string _, _ | .boolean _, _ | .primitive _, _ =>
    fun _ h => absurd h List.not_mem_nil
  | .closure _ params body env, h => by
      rw [Value.All] at h
      intro x hx
      rw [Value.code, Code.freeNames, List.mem_filter, Code.mem_freeNames_subst
        ((Env.closedSubst_code? h.2).hide params), Code.freeNames_ofExpr,
        Code.hide_eq_none, decide_eq_true_eq] at hx
      obtain ⟨⟨hbody, hx⟩, hp⟩ := hx
      refine h.1 x hbody hp ?_
      have hnone := hx.resolve_left hp
      rw [Env.code?_eq_map] at hnone
      exact Option.map_eq_none_iff.mp hnone

theorem Env.closedSubst_code? :
    ∀ {env : Env ν}, env.All Value.Bound → Code.ClosedSubst env.code?
  | .empty, _ => by intro x c h; cases h
  | .bind rest y v, h => by
      rw [Env.All] at h
      intro x c hc
      rw [Env.code?] at hc
      split at hc
      · cases hc
        exact Value.closed_code h.2
      · exact Env.closedSubst_code? h.1 x c hc

end

/-! ## Lockstep -/

/-- The code that a value stands for, when nothing in it is left free. -/
def Value.UnfoldsTo (v : Value ν) (c : Code ν) : Prop :=
  v.code = c ∧ v.All Bound

def Value.UnfoldToAll (vs : List (Value ν)) (cs : List (Code ν)) : Prop :=
  vs.map Value.code = cs ∧ ∀ v ∈ vs, v.All Bound

/-- The code of an expression in an environment: its free names replaced by
the codes of their values. -/
def Expr.codeIn (e : Expr ν) (env : Env ν) : Code ν :=
  (Code.ofExpr e).subst env.code?

/-- What a closure holds, put in first, and the arguments, put in then, are
together the environment of the call. -/
theorem Expr.codeIn_bindAll {env : Env ν} (henv : env.All Value.Bound)
    {params : List ν} {vs : List (Value ν)} (hlen : params.length = vs.length)
    (body : Expr ν) :
    ((Code.ofExpr body).subst (Code.hide params env.code?)).subst
      (Code.bindings params (vs.map Value.code)) =
    body.codeIn (env.bindAll params vs) := by
  rw [Code.subst_subst _ ((Env.closedSubst_code? henv).hide params), codeIn]
  congr 1
  funext x
  rw [Env.code?_bindAll, Code.hide]
  split
  · next hx =>
      have hlen' : params.length = (vs.map Value.code).length := by
        rw [List.length_map, hlen]
      obtain ⟨c, hc⟩ :=
        Option.isSome_iff_exists.mp (Code.bindings_isSome hlen' hx)
      rw [hc]
      rfl
  · next hx =>
      rw [Code.bindings_eq_none hx]
      cases env.code? x <;> rfl

theorem Value.applyWith_matches_code
    {run : Expr ν → Env ν → EvalM ν (Value ν)}
    {run' : Code ν → EvalM ν (Code ν)}
    (hrun : ∀ e env, env.All Bound → (∀ x ∈ e.freeNames, env.find? x ≠ none) →
      (run e env).Matches UnfoldsTo (run' (e.codeIn env)))
    {f : Value ν} {c : Code ν} (hf : f.UnfoldsTo c) {vs : List (Value ν)}
    {cs : List (Code ν)} (hvs : UnfoldToAll vs cs) :
    (f.applyWith run vs).Matches UnfoldsTo (c.applyWith run' cs) := by
  obtain ⟨rfl, hf⟩ := hf
  obtain ⟨rfl, hvs⟩ := hvs
  cases f with
  | number | string | boolean => exact .fail _
  | primitive op =>
      show (Run.ofExcept (op.apply vs)).Matches _
        (Run.ofExcept (op.apply ((vs.map code).map Code.face)) >>= fun v =>
          pure (Code.ofAnswer v))
      rw [map_face_code, op.apply_map_face]
      cases h : op.apply vs with
      | error e => exact .fail e
      | ok v =>
          rcases Primitive.apply_eq_ok h with ⟨x, rfl⟩ | ⟨b, rfl⟩
          · exact .pure ⟨rfl, trivial⟩
          · exact .pure ⟨rfl, trivial⟩
  | closure i params body env =>
      rw [All] at hf
      show (Run.ofExcept (env.extend params vs) >>= run body).Matches _
        (if params.length = (vs.map code).length then _ else _)
      rw [Env.extend, List.length_map]
      by_cases hlen : params.length = vs.length
      · rw [if_pos hlen, if_pos hlen, Expr.codeIn_bindAll hf.2 hlen]
        exact hrun body _ (hf.2.bindAll hvs params) fun x hx =>
          Env.find?_bindAll_ne_none hlen (hf.1 x hx)
      · rw [if_neg hlen, if_neg hlen]
        exact .fail _

theorem Value.eval_code (depth : Nat) (v : Value ν) :
    Code.eval (depth + 1) v.code = pure v.code := by
  cases v <;> rfl

namespace Expr

theorem codeIn_app (f : Expr ν) (args : List (Expr ν)) (env : Env ν) :
    (app f args).codeIn env =
      .app (f.codeIn env) (args.map fun a => a.codeIn env) := by
  rw [codeIn, Code.ofExpr, Code.subst, Code.ofExprs_eq_map,
    Code.substAll_eq_map, List.map_map]
  rfl

theorem evalEach_matches_code {run : Expr ν → EvalM ν (Value ν)}
    {run' : Code ν → EvalM ν (Code ν)} {g : Expr ν → Code ν} :
    ∀ {es : List (Expr ν)},
      (∀ e ∈ es, (run e).Matches Value.UnfoldsTo (run' (g e))) →
      (evalEach run es).Matches Value.UnfoldToAll
        (Code.evalEach run' (es.map g))
  | [], _ => .pure ⟨rfl, fun _ h => absurd h List.not_mem_nil⟩
  | e :: es, h => by
      refine .bind (h e List.mem_cons_self) fun v c hv => ?_
      refine .bind (evalEach_matches_code fun e he =>
        h e (List.mem_cons_of_mem _ he)) fun vs cs hvs => ?_
      refine .pure ⟨by rw [List.map_cons, hv.1, hvs.1], fun w hw => ?_⟩
      rcases List.mem_cons.mp hw with rfl | hw
      · exact hv.2
      · exact hvs.2 w hw

/-- An expression in an environment and its code take the same course. -/
theorem eval_matches_code (depth : Nat) (e : Expr ν) (env : Env ν)
    (henv : env.All Value.Bound)
    (he : ∀ x ∈ e.freeNames, env.find? x ≠ none) :
    (e.eval depth env).Matches Value.UnfoldsTo
      (Code.eval depth (e.codeIn env)) := by
  induction depth generalizing e env with
  | zero => exact .exhausted
  | succ depth ih =>
      cases e with
      | number x => exact .pure ⟨rfl, trivial⟩
      | string s => exact .pure ⟨rfl, trivial⟩
      | ident x =>
          show (Run.ofExcept (env.lookup x)).Matches _
            (Code.eval (depth + 1) ((env.code? x).getD (.ident x)))
          rw [Env.lookup, Env.code?_eq_map]
          cases hx : env.find? x with
          | none => exact absurd hx (he x (mem_freeNames_ident.mpr rfl))
          | some v =>
              -- A name evaluates to its value, and the value's code to itself.
              rw [Option.map_some, Option.getD_some, Value.eval_code]
              exact .pure ⟨rfl, henv.of_find? hx⟩
      | lam params body =>
          intro m n
          refine .value (m + 1) n ⟨rfl, ?_⟩
          rw [Value.All]
          refine ⟨fun x hx hp => ?_, henv⟩
          exact he x (mem_freeNames_lam.mpr ⟨hx, hp⟩)
      | cond t a b =>
          refine .bind (ih t env henv fun x hx =>
            he x (mem_freeNames_cond.mpr (.inl hx))) fun v c hv => ?_
          have ha := ih a env henv fun x hx =>
            he x (mem_freeNames_cond.mpr (.inr (.inl hx)))
          have hb := ih b env henv fun x hx =>
            he x (mem_freeNames_cond.mpr (.inr (.inr hx)))
          obtain ⟨rfl, -⟩ := hv
          cases v with
          | boolean c => cases c <;> assumption
          | number | string | primitive | closure => exact .fail _
      | app f args =>
          rw [codeIn_app]
          refine .bind (ih f env henv fun x hx =>
            he x (mem_freeNames_app.mpr (.inl hx))) fun g c hg => ?_
          refine .bind (evalEach_matches_code fun a ha => ih a env henv
            fun x hx => he x (mem_freeNames_app.mpr (.inr ⟨a, ha, hx⟩)))
            fun vs cs hvs => ?_
          exact Value.applyWith_matches_code ih hg hvs

end Expr

/-! ## The law -/

/-- A program of the top-level environment ends if and only if its code does,
where the names of the environment are replaced by their values, and then both
fail alike or the value stands for the code. -/
theorem Expr.ends_alike_as_code (e : Expr String)
    (he : ∀ x ∈ e.freeNames, x ∈ Env.top.names) :
    ((∃ r, e.Ends .top 0 r) ↔ ∃ s, (e.codeIn .top).Ends s) ∧
      ∀ r s, e.Ends .top 0 r → (e.codeIn .top).Ends s →
        EndsAlike (fun v c => v.code = c) r s := by
  have hfind : ∀ x ∈ e.freeNames, Env.top.find? x ≠ none := fun x hx =>
    Env.mem_names.mp (he x hx)
  obtain ⟨hends, halike⟩ := Run.ends_alike_of_matches (e.eval_deepens .top)
    (fun depth => e.eval_matches_code depth .top Env.all_top hfind) 0 0
  refine ⟨hends, fun r s hr hs => ?_⟩
  cases halike r s hr hs with
  | ok h => exact .ok h.1
  | error err => exact .error err

/-- The law at a procedure that returns a procedure, where one parameter is
captured and the other hides a name of the environment. -/
theorem Expr.curried_ends_alike_as_code :
    let e : Expr String :=
      .app (.app (.lam ["x"] (.lam ["true"] (.app (.ident "+")
        [.ident "x", .ident "true"]))) [.number 1]) [.number 2]
    (∀ x ∈ e.freeNames, x ∈ Env.top.names) ∧
      ((∃ r, e.Ends .top 0 r) ↔ ∃ s, (e.codeIn .top).Ends s) ∧
      ∀ r s, e.Ends .top 0 r → (e.codeIn .top).Ends s →
        EndsAlike (fun v c => v.code = c) r s := by
  intro e
  have he : ∀ x ∈ e.freeNames, x ∈ Env.top.names := by decide
  exact ⟨he, e.ends_alike_as_code he⟩

end BraceLisp
