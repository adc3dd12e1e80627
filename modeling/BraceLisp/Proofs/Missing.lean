import BraceLisp.Proofs.Bindings
import BraceLisp.Proofs.Closures
import BraceLisp.Proofs.Faces
import BraceLisp.Proofs.FreeNames
import BraceLisp.Proofs.Sequencing

/-!
# Names that are missing

A name is missing for an expression in an environment if it occurs free there
and is not bound. A closure is an expression and an environment, and so is every
closure in that environment: `Value.Missing` looks for the name in all of them.

Closures leave the scope that they were made in and are called from anywhere, so
a fact about the scopes of a program has to be one about every value. That no
value misses a name is such a fact, and it is kept: a call binds the parameters
and adds nothing to the free names of the body (`Expr.Misses.of_call`), and a
closure that is made holds the environment in which its `lam` is no worse off.
So an evaluation that misses a name nowhere returns no value that misses it, and
does not fail over it (`Expr.eval_spares`), at any depth.
-/

namespace BraceLisp

variable {ν : Type} [DecidableEq ν]

/-! ## Missing names -/

/-- The name occurs free in the expression, and the environment does not bind
it. -/
def Expr.Missing (x : ν) (e : Expr ν) (env : Env ν) : Prop :=
  x ∈ e.freeNames ∧ x ∉ env.boundNames

mutual

/-- The value is a closure for which the name is missing: it is missing for the
body in the environment that the closure holds, where it is no parameter, or for
a closure stored there. -/
inductive Value.Missing (x : ν) : Value ν → Prop where
  | body {i : Nat} {params : List ν} {body : Expr ν} {env : Env ν}
      (hx : body.Missing x env) (hparams : x ∉ params) :
      Value.Missing x (.closure i params body env)
  | held {i : Nat} {params : List ν} {body : Expr ν} {env : Env ν}
      (h : Env.Missing x env) : Value.Missing x (.closure i params body env)

/-- The name is missing for a closure that the environment stores. -/
inductive Env.Missing (x : ν) : Env ν → Prop where
  | here {rest : Env ν} {y : ν} {v : Value ν} (h : Value.Missing x v) :
      Env.Missing x (.bind rest y v)
  | older {rest : Env ν} {y : ν} {v : Value ν} (h : Env.Missing x rest) :
      Env.Missing x (.bind rest y v)

end

variable {x : ν}

theorem Env.Missing.of_find? {env : Env ν} {y : ν} {v : Value ν}
    (h : env.find? y = some v) (hv : v.Missing x) : env.Missing x := by
  match env with
  | .empty => cases h
  | .bind rest z w =>
      rw [Env.find?] at h
      split at h
      · cases h; exact .here hv
      · exact .older (of_find? h hv)

theorem Env.Missing.of_bindAll {env : Env ν} {params : List ν}
    {vs : List (Value ν)} (h : (env.bindAll params vs).Missing x) :
    env.Missing x ∨ ∃ v ∈ vs, v.Missing x := by
  induction params generalizing env vs with
  | nil => exact .inl h
  | cons p params ih =>
      match vs with
      | [] => exact .inl h
      | v :: vs =>
          rcases ih h with h | ⟨w, hw, h⟩
          · cases h with
            | here h => exact .inr ⟨v, List.mem_cons_self, h⟩
            | older h => exact .inl h
          · exact .inr ⟨w, List.mem_cons_of_mem v hw, h⟩

/-- The name is missing for the expression in the environment, or for a closure
stored there. -/
def Expr.Misses (x : ν) (e : Expr ν) (env : Env ν) : Prop :=
  e.Missing x env ∨ env.Missing x

theorem Expr.Misses.mono {e f : Expr ν} {env : Env ν} (h : e.Misses x env)
    (hsub : x ∈ e.freeNames → x ∈ f.freeNames) : f.Misses x env :=
  h.imp_left fun h => ⟨hsub h.1, h.2⟩

theorem Expr.Misses.of_call {i : Nat} {params : List ν} {body : Expr ν}
    {env : Env ν} {vs : List (Value ν)} (hlen : params.length = vs.length)
    (h : body.Misses x (env.bindAll params vs)) :
    (Value.closure i params body env).Missing x ∨ ∃ v ∈ vs, v.Missing x := by
  rcases h with ⟨hx, hbound⟩ | h
  · have hbound' : x ∉ env.boundInOrder ++ params := by
      rw [← Env.boundInOrder_bindAll hlen, Env.boundInOrder, List.mem_reverse]
      exact hbound
    rw [List.mem_append, not_or, Env.boundInOrder, List.mem_reverse] at hbound'
    exact .inl (.body ⟨hx, hbound'.1⟩ hbound'.2)
  · rcases Env.Missing.of_bindAll h with h | h
    · exact .inl (.held h)
    · exact .inr h

/-! ## One step and a whole run -/

/-- Nothing comes of a computation for which the name would be missing: it does
not fail over the name, and no closure that it returns misses it. -/
abbrev Run.Spares (x : ν) (m : EvalM ν (Value ν)) : Prop :=
  m.Ensures (fun v => ¬v.Missing x) (· ≠ .unboundName x)

theorem Value.applyWith_spares {run : Expr ν → Env ν → EvalM ν (Value ν)}
    (hrun : ∀ e env, ¬e.Misses x env → Run.Spares x (run e env))
    {f : Value ν} (hf : ¬f.Missing x) {vs : List (Value ν)}
    (hvs : ∀ v ∈ vs, ¬v.Missing x) : Run.Spares x (f.applyWith run vs) := by
  cases f with
  | number | string | boolean => exact .fail (by simp)
  | primitive op =>
      refine .ofExcept (fun v hv hmissing => ?_) (fun e he => ?_)
      · rcases Primitive.apply_eq_ok hv with ⟨y, rfl⟩ | ⟨b, rfl⟩ <;>
          cases hmissing
      · rcases Primitive.apply_eq_error he with
          ⟨d, rfl⟩ | ⟨c, m, n, rfl⟩ | rfl <;> simp
  | closure i params body env =>
      show Run.Spares x (Run.ofExcept (env.extend params vs) >>= run body)
      rw [Env.extend]
      by_cases hlen : params.length = vs.length
      · rw [if_pos hlen]
        refine hrun body _ fun h => ?_
        rcases h.of_call hlen with h | ⟨v, hv, h⟩
        · exact hf h
        · exact hvs v hv h
      · rw [if_neg hlen]
        exact .fail (by simp)

theorem Expr.eval_spares (depth : Nat) (e : Expr ν) (env : Env ν)
    (h : ¬e.Misses x env) : Run.Spares x (e.eval depth env) := by
  induction depth generalizing e env with
  | zero => exact .exhausted
  | succ depth ih =>
      have hpart : ∀ f : Expr ν, (x ∈ f.freeNames → x ∈ e.freeNames) →
          Run.Spares x (f.eval depth env) :=
        fun f hf => ih f env fun hmisses => h (hmisses.mono hf)
      cases e with
      | number | string => exact .pure fun hmissing => by cases hmissing
      | ident y =>
          refine .ofExcept (fun v hv => ?_) (fun err herr => ?_)
          · rw [Env.lookup] at hv
            split at hv
            · next hfind =>
                cases hv
                exact fun hmissing => h (.inr (.of_find? hfind hmissing))
            · cases hv
          · rw [Env.lookup] at herr
            split at herr
            · cases herr
            · next hfind =>
                cases herr
                rintro ⟨⟩
                refine h (.inl ⟨mem_freeNames_ident.mpr rfl, fun hbound => ?_⟩)
                exact Env.find?_ne_none_iff.mpr hbound hfind
      | lam params body =>
          refine .bind .fresh fun i _ => .pure fun hmissing => ?_
          cases hmissing with
          | body hx hparams =>
              exact h (.inl ⟨mem_freeNames_lam.mpr ⟨hx.1, hparams⟩, hx.2⟩)
          | held henv => exact h (.inr henv)
      | cond t a b =>
          refine .bind (hpart t fun hx => mem_freeNames_cond.mpr (.inl hx))
            fun v hv => ?_
          split
          · exact hpart a fun hx => mem_freeNames_cond.mpr (.inr (.inl hx))
          · exact hpart b fun hx => mem_freeNames_cond.mpr (.inr (.inr hx))
          · exact .fail (by simp [testMismatch])
      | app f args =>
          refine .bind (hpart f fun hx => mem_freeNames_app.mpr (.inl hx))
            fun g hg => ?_
          have hargs := evalEach_ensures fun a ha => hpart a fun hx =>
            mem_freeNames_app.mpr (.inr ⟨a, ha, hx⟩)
          exact .bind hargs fun vs hvs => Value.applyWith_spares ih hg hvs

/-! ## The law -/

theorem Env.All.not_missing {env : Env ν}
    (henv : env.All fun _ _ _ _ => False) : ¬env.Missing x := by
  intro h
  match h with
  | .here hv =>
      rw [Env.All] at henv
      cases hv with
      | body | held => rw [Value.All] at henv; exact henv.2.1
  | .older h =>
      rw [Env.All] at henv
      exact henv.1.not_missing h

theorem Expr.not_misses_top {e : Expr String} {x : String}
    (he : ∀ y ∈ e.freeNames, y ∈ Env.top.names) : ¬e.Misses x .top := by
  rintro (⟨hx, hbound⟩ | h)
  · exact hbound (Env.find?_ne_none_iff.mp (Env.mem_names.mp (he x hx)))
  · exact Env.all_top.not_missing h

/-- An evaluation fails over an unbound name only if the name is missing for the
expression or for a closure that the environment stores, and a closure that is
returned misses no other names. So a program whose free names are those of the
top level never fails over a name, however long it runs. -/
theorem Expr.unboundName_is_missing :
    (∀ (e : Expr String) (env : Env String) (next : Nat) (x : String),
      e.Ends env next (.error (.unboundName x)) →
        e.Missing x env ∨ env.Missing x) ∧
    (∀ (e : Expr String) (env : Env String) (next : Nat) (v : Value String)
        (x : String), e.Ends env next (.ok v) → v.Missing x →
      e.Missing x env ∨ env.Missing x) ∧
    (∀ e : Expr String, (∀ y ∈ e.freeNames, y ∈ Env.top.names) →
      ∀ next x, ¬e.Ends .top next (.error (.unboundName x))) ∧
    ∀ (source : String) (es : List (Expr String)),
      Program.exprs source = .ok es →
      (∀ e ∈ es, ∀ y ∈ e.freeNames, y ∈ Env.top.names) →
      ∀ next x, ¬Program.RunEnds source next
        (.error (.runtime (.unboundName x))) := by
  have hspares : ∀ (e : Expr String) (env : Env String) (x : String),
      ¬e.Misses x env → ∀ depth, Run.Spares x (e.eval depth env) :=
    fun e env x h depth => e.eval_spares depth env h
  refine ⟨?_, ?_, ?_, ?_⟩
  · intro e env next x h
    refine Classical.byContradiction fun hmisses => ?_
    exact (Run.Ensures.of_ends (hspares e env x hmisses) h).2 _ rfl rfl
  · intro e env next v x h hv
    refine Classical.byContradiction fun hmisses => ?_
    exact (Run.Ensures.of_ends (hspares e env x hmisses) h).1 v rfl hv
  · intro e he next x h
    have hspares := hspares e .top x (not_misses_top he)
    exact (Run.Ensures.of_ends hspares h).2 _ rfl rfl
  · intro source es hes hnames next x h
    have hrun : ∀ depth, (Program.run depth source).Ensures
        (fun last => ∀ v ∈ last, ¬v.Missing x)
        (· ≠ .runtime (.unboundName x)) := by
      intro depth
      have heval : ∀ e ∈ es, Run.Spares x (e.eval depth .top) := fun e he =>
        hspares e .top x (not_misses_top (hnames e he)) depth
      exact Program.run_ensures hes heval fun err herr h =>
        herr (Error.runtime.inj h)
    exact (Run.Ensures.of_ends hrun h).2 _ rfl rfl

/-- A procedure that was made where its name is not bound: it does not find the
name where it is called, and returned it misses it still. -/
theorem Expr.name_of_caller_is_missing :
    let g : Expr String := .lam [] (.ident "y")
    let e : Expr String := .app (.lam ["f"] (.app (.lam ["y"]
      (.app (.ident "f") [])) [.string "a"])) [g]
    (e.Ends .empty 0 (.error (.unboundName "y")) ∧
        (e.Missing "y" .empty ∨ Env.Missing "y" .empty)) ∧
      g.Ends .empty 0 (.ok (.closure 0 [] (.ident "y") .empty)) ∧
        (g.Missing "y" .empty ∨ Env.Missing "y" .empty) := by
  intro g e
  have he : e.Ends .empty 0 (.error (.unboundName "y")) := ⟨5, rfl⟩
  have hg : g.Ends .empty 0 (.ok (.closure 0 [] (.ident "y") .empty)) :=
    ⟨1, rfl⟩
  have hy : (Value.closure 0 [] (.ident "y") .empty).Missing "y" :=
    .body ⟨mem_freeNames_ident.mpr rfl, List.not_mem_nil⟩ List.not_mem_nil
  obtain ⟨hfails, hreturns, -, -⟩ := unboundName_is_missing
  exact ⟨⟨he, hfails e .empty 0 "y" he⟩, hg, hreturns g .empty 0 _ "y" hg hy⟩

end BraceLisp
