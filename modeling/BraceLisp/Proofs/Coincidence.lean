import BraceLisp.Proofs.Bindings
import BraceLisp.Proofs.FreeNames
import BraceLisp.Proofs.Simulation
import Mathlib.Logic.Relation

/-!
# Evaluation depends only on the free names

Two environments may differ in everything that an expression cannot mention.
Closures hold whole environments, so values that come out of two such runs need
not be equal: `Value.Related` compares closures by their text and by what their
environments give to the free names of their bodies, and goes on like this
inside the values found there.

The two evaluations keep in step, since a call extends two related environments
by related arguments (`Env.RelatedAt.bindAll`) and the parts of an expression
have no other free names (`Expr.RelatedIn.step`).

Bindings that are hidden, or that the expression does not name, can be taken
out and put back anywhere. `Env.Drops` is one such step, and it changes no
lookup that the expression can make.
-/

namespace BraceLisp

variable {ν : Type} [DecidableEq ν]

mutual

/-- The same value to every program: the same number, string, boolean or
operator, or closures of one text whose environments agree on every name that
is free in it. -/
inductive Value.Related : Value ν → Value ν → Prop where
  | number (x : Float) : Value.Related (.number x) (.number x)
  | string (s : String) :
      Value.Related (.string s) (.string s)
  | boolean (b : Bool) : Value.Related (.boolean b) (.boolean b)
  | primitive (op : Primitive) :
      Value.Related (.primitive op) (.primitive op)
  | closure {i j : Nat} {params : List ν} {body : Expr ν} {env env' : Env ν}
      (h : ∀ x ∈ body.freeNames, x ∉ params → Env.RelatedAt x env env') :
      Value.Related (.closure i params body env) (.closure j params body env')

/-- Both environments bind the name, to related values, or neither does. -/
inductive Env.RelatedAt : ν → Env ν → Env ν → Prop where
  | bound {x : ν} {env env' : Env ν} {v v' : Value ν}
      (h : env.find? x = some v) (h' : env'.find? x = some v')
      (hv : Value.Related v v') : Env.RelatedAt x env env'
  | unbound {x : ν} {env env' : Env ν}
      (h : env.find? x = none) (h' : env'.find? x = none) :
      Env.RelatedAt x env env'

end

namespace Value.Related

theorem face_eq {v v' : Value ν} (h : v.Related v') : v.face = v'.face := by
  cases h <;> rfl

mutual

theorem refl : ∀ v : Value ν, v.Related v
  | .number x => .number x
  | .string s => .string s
  | .boolean b => .boolean b
  | .primitive op => .primitive op
  | .closure _ _ _ env => .closure fun x _ _ => refl_at x env

theorem refl_at (x : ν) : ∀ env : Env ν, Env.RelatedAt x env env
  | .empty => .unbound rfl rfl
  | .bind rest y v => by
      by_cases hyx : y = x
      · have hfind : (rest.bind y v).find? x = some v := if_pos hyx
        exact .bound hfind hfind (refl v)
      · have hfind : (rest.bind y v).find? x = rest.find? x := if_neg hyx
        cases refl_at x rest with
        | bound h h' hv => exact .bound (hfind.trans h) (hfind.trans h') hv
        | unbound h h' => exact .unbound (hfind.trans h) (hfind.trans h')

end

end Value.Related

abbrev Value.RelatedAll : List (Value ν) → List (Value ν) → Prop :=
  List.Forall₂ Value.Related

namespace Env.RelatedAt

theorem of_find?_eq {x : ν} {env env' : Env ν}
    (h : env.find? x = env'.find? x) : RelatedAt x env env' := by
  cases hx : env.find? x with
  | none => exact .unbound hx (h ▸ hx)
  | some v => exact .bound hx (h ▸ hx) (Value.Related.refl v)

theorem bind {x y : ν} {env env' : Env ν} {v v' : Value ν}
    (hv : v.Related v') (h : x ≠ y → RelatedAt x env env') :
    RelatedAt x (env.bind y v) (env'.bind y v') := by
  by_cases hyx : y = x
  · exact .bound (if_pos hyx) (if_pos hyx) hv
  · cases h (Ne.symm hyx) with
    | bound hf hf' hw =>
        exact .bound ((if_neg hyx).trans hf) ((if_neg hyx).trans hf') hw
    | unbound hf hf' =>
        exact .unbound ((if_neg hyx).trans hf) ((if_neg hyx).trans hf')

/-- A call binds every parameter, so its environments need to agree only on
the names that are none. -/
theorem bindAll {x : ν} {params : List ν} {env env' : Env ν}
    {vs vs' : List (Value ν)} (hvs : Value.RelatedAll vs vs')
    (hlen : params.length = vs.length)
    (h : x ∉ params → RelatedAt x env env') :
    RelatedAt x (env.bindAll params vs) (env'.bindAll params vs') := by
  induction hvs generalizing params env env' with
  | nil =>
      obtain rfl := List.length_eq_zero_iff.mp hlen
      exact h List.not_mem_nil
  | cons hv _ ih =>
      match params with
      | p :: params =>
          refine ih (by simpa using hlen) fun hx => ?_
          refine .bind hv fun hxp => h ?_
          simp [hxp, hx]

end Env.RelatedAt

/-! ## Lockstep -/

/-- One expression twice, in environments that agree on its free names. -/
def Expr.RelatedIn (e : Expr ν) (env : Env ν) (e' : Expr ν) (env' : Env ν) :
    Prop :=
  e = e' ∧ ∀ x ∈ e.freeNames, Env.RelatedAt x env env'

theorem Expr.RelatedIn.step {e e' : Expr ν} {env env' : Env ν}
    (h : e.RelatedIn env e' env') :
    StepsAlike Value.Related RelatedIn e env e' env' := by
  obtain ⟨rfl, h⟩ := h
  -- A part of the expression has no other free names.
  have hpart : ∀ f : Expr ν, (∀ x ∈ f.freeNames, x ∈ e.freeNames) →
      f.RelatedIn env f env' :=
    fun f hf => ⟨rfl, fun x hx => h x (hf x hx)⟩
  cases e with
  | number x => exact .number x
  | string s => exact .string s
  | ident x =>
      cases h x (mem_freeNames_ident.mpr rfl) with
      | bound hf hf' hv => exact .bound hf hf' hv
      | unbound hf hf' => exact .unbound hf hf'
  | lam params body =>
      -- The closures hold the environments as they are, differences too.
      refine .lam fun i j => .closure fun x hx hp => ?_
      exact h x (mem_freeNames_lam.mpr ⟨hx, hp⟩)
  | cond t a b =>
      refine .cond (hpart t fun x hx => ?_) (hpart a fun x hx => ?_)
        (hpart b fun x hx => ?_)
      · exact mem_freeNames_cond.mpr (.inl hx)
      · exact mem_freeNames_cond.mpr (.inr (.inl hx))
      · exact mem_freeNames_cond.mpr (.inr (.inr hx))
  | app f args =>
      refine .app (hpart f fun x hx => mem_freeNames_app.mpr (.inl hx)) ?_
      refine List.forall₂_same.mpr fun a ha => hpart a fun x hx => ?_
      exact mem_freeNames_app.mpr (.inr ⟨a, ha, hx⟩)

theorem Value.related_simulation :
    Simulation (ν := ν) Value.Related Expr.RelatedIn where
  number := .number
  string := .string
  boolean := .boolean
  face_eq := Related.face_eq
  step := Expr.RelatedIn.step
  call h := by
    cases h with
    | closure h =>
        refine ⟨rfl, fun hvs hlen => ⟨rfl, fun x hx => ?_⟩⟩
        exact .bindAll hvs hlen (h x hx)

theorem Expr.eval_matches (depth : Nat) (e : Expr ν) (env env' : Env ν)
    (h : ∀ x ∈ e.freeNames, Env.RelatedAt x env env') :
    (e.eval depth env).Matches Value.Related (e.eval depth env') :=
  Value.related_simulation.eval_matches depth ⟨rfl, h⟩

/-! ## Bindings that do not matter -/

namespace Env

/-- One binding less: one that a later binding hides, or whose name is not
wanted. -/
def Drops (wanted : List ν) (env env' : Env ν) : Prop :=
  ∃ (older : Env ν) (x : ν) (v : Value ν) (names : List ν)
    (values : List (Value ν)), names.length = values.length ∧
    (x ∈ names ∨ x ∉ wanted) ∧
    env = (older.bind x v).bindAll names values ∧
    env' = older.bindAll names values

theorem Drops.find?_eq {wanted : List ν} {env env' : Env ν}
    (h : Drops wanted env env') {x : ν} (hx : x ∈ wanted) :
    env.find? x = env'.find? x := by
  obtain ⟨older, y, v, names, values, hlen, hy, rfl, rfl⟩ := h
  refine find?_bindAll_congr hlen fun hnames => if_neg ?_
  rintro rfl
  rcases hy with hy | hy
  · exact hnames hy
  · exact hy hx

theorem find?_eq_of_eqvGen {wanted : List ν} {env env' : Env ν}
    (h : Relation.EqvGen (Drops wanted) env env') {x : ν} (hx : x ∈ wanted) :
    env.find? x = env'.find? x := by
  induction h with
  | rel _ _ h => exact h.find?_eq hx
  | refl => rfl
  | symm _ _ _ ih => exact ih.symm
  | trans _ _ _ _ _ ih₁ ih₂ => exact ih₁.trans ih₂

end Env

/-! ## The law -/

/-- An evaluation depends only on what its environment gives to the free names
of the expression: in two environments that agree on these, or that differ in
bindings that are hidden or not named, it ends alike. -/
theorem Expr.ends_alike_of_free_names (e : Expr ν) (env env' : Env ν)
    (h : (∀ x ∈ e.freeNames, Env.RelatedAt x env env') ∨
      Relation.EqvGen (Env.Drops e.freeNames) env env') (m n : Nat) :
    ((∃ r, e.Ends env m r) ↔ ∃ r, e.Ends env' n r) ∧
      ∀ r r', e.Ends env m r → e.Ends env' n r' →
        EndsAlike Value.Related r r' := by
  have hrel : ∀ x ∈ e.freeNames, Env.RelatedAt x env env' := by
    rcases h with h | h
    · exact h
    · intro x hx
      exact .of_find?_eq (Env.find?_eq_of_eqvGen h hx)
  exact Run.ends_alike_of_matches (e.eval_deepens env)
    (fun depth => e.eval_matches depth env env' hrel) m n

/-- The law at a call whose procedure keeps a binding that it never names, in
environments of different order and size. -/
theorem Expr.call_ends_alike :
    let e : Expr String := .app (.ident "f") [.ident "x"]
    let env : Env String := .ofList
      [("x", .number 1), ("f", .closure 0 ["y"] (.ident "y") .empty)]
    let env' : Env String := .ofList
      [("f", .closure 3 ["y"] (.ident "y") (.ofList [("z", .boolean true)])),
        ("z", .string ""), ("x", .number 1)]
    (∀ x ∈ e.freeNames, Env.RelatedAt x env env') ∧
      ((∃ r, e.Ends env 0 r) ↔ ∃ r, e.Ends env' 5 r) ∧
      ∀ r r', e.Ends env 0 r → e.Ends env' 5 r' →
        EndsAlike Value.Related r r' := by
  intro e env env'
  have h : ∀ x ∈ e.freeNames, Env.RelatedAt x env env' := by
    intro x hx
    have hx : x = "f" ∨ x = "x" := by
      simpa [e, freeNames, freeNamesAll] using hx
    rcases hx with rfl | rfl
    · refine .bound rfl rfl (.closure fun x hx hp => ?_)
      exact absurd (mem_freeNames_ident.mp hx ▸ List.mem_cons_self) hp
    · exact .bound rfl rfl (.number 1)
  exact ⟨h, e.ends_alike_of_free_names env env' (.inl h) 0 5⟩

end BraceLisp
