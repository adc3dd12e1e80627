import BraceLisp.Program

/-!
# What holds of every closure

A closure holds an environment, the environment holds values, and some of these
are closures again. `Value.All` says that a property holds of every closure
that a value is or holds, at any depth, and `Env.All` of every closure in an
environment. Looking names up and binding them lose nothing of it.
-/

namespace BraceLisp

variable {ν : Type}

/-- A set of closures, each with its identity. -/
abbrev Closures (ν : Type) := Nat → List ν → Expr ν → Env ν → Prop

mutual

/-- Every closure that a value is or holds, at any depth, has the property. -/
def Value.All (P : Nat → List ν → Expr ν → Env ν → Prop) : Value ν → Prop
  | .closure i params body env => P i params body env ∧ env.All P
  | .number _ | .string _ | .boolean _ | .primitive _ => True

/-- Every closure in an environment, at any depth, has the property. -/
def Env.All (P : Nat → List ν → Expr ν → Env ν → Prop) : Env ν → Prop
  | .empty => True
  | .bind rest _ v => rest.All P ∧ v.All P

end

mutual

theorem Value.All.mono {P Q : Nat → List ν → Expr ν → Env ν → Prop}
    (hPQ : ∀ i params body env, P i params body env → Q i params body env) :
    ∀ {v : Value ν}, v.All P → v.All Q
  | .number _, _ | .string _, _ | .boolean _, _ | .primitive _, _ => trivial
  | .closure i params body env, h => by
      rw [Value.All] at h ⊢
      exact ⟨hPQ i params body env h.1, Env.All.mono hPQ h.2⟩

theorem Env.All.mono {P Q : Nat → List ν → Expr ν → Env ν → Prop}
    (hPQ : ∀ i params body env, P i params body env → Q i params body env) :
    ∀ {env : Env ν}, env.All P → env.All Q
  | .empty, _ => trivial
  | .bind rest _ v, h => by
      rw [Env.All] at h ⊢
      exact ⟨Env.All.mono hPQ h.1, Value.All.mono hPQ h.2⟩

end

namespace Env.All

variable {P : Nat → List ν → Expr ν → Env ν → Prop}

theorem bindAll {env : Env ν} (henv : env.All P) {vs : List (Value ν)}
    (hvs : ∀ v ∈ vs, v.All P) (params : List ν) :
    (env.bindAll params vs).All P := by
  induction params generalizing env vs with
  | nil => exact henv
  | cons p params ih =>
      match vs with
      | [] => exact henv
      | v :: vs =>
          have henv' : (env.bind p v).All P := by
            rw [Env.All]
            exact ⟨henv, hvs v List.mem_cons_self⟩
          exact ih henv' fun w hw => hvs w (List.mem_cons_of_mem _ hw)

theorem of_find? [DecidableEq ν] {env : Env ν} (henv : env.All P) {x : ν}
    {v : Value ν} (h : env.find? x = some v) : v.All P := by
  match env with
  | .empty => cases h
  | .bind rest y w =>
      rw [Env.All] at henv
      rw [Env.find?] at h
      split at h
      · cases h; exact henv.2
      · exact of_find? henv.1 h

theorem of_lookup [DecidableEq ν] {env : Env ν} (henv : env.All P) {x : ν}
    {v : Value ν} (h : env.lookup x = .ok v) : v.All P := by
  rw [Env.lookup] at h
  split at h
  · next hx => cases h; exact henv.of_find? hx
  · cases h

theorem of_extend {env env' : Env ν} (henv : env.All P) {vs : List (Value ν)}
    (hvs : ∀ v ∈ vs, v.All P) {params : List ν}
    (h : env.extend params vs = .ok env') : env'.All P := by
  rw [Env.extend] at h
  split at h
  · cases h; exact henv.bindAll hvs params
  · cases h

end Env.All

/-- There are no closures at the top level. -/
theorem Env.all_top
    {P : Nat → List String → Expr String → Env String → Prop} :
    Env.top.All P := by
  simp only [top, ofList, topBindings, Primitive.all, List.map_cons,
    List.map_nil, List.cons_append, List.nil_append, List.foldl_cons,
    List.foldl_nil, All, Value.All, and_self]

end BraceLisp
