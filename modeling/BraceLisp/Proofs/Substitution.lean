import BraceLisp.Proofs.Lockstep
import Mathlib.Tactic.Tauto

/-!
# Evaluation by substitution

A second account of the language, without environments. A program is closed
code: where a name was bound, its value stands in the code itself, and a call
puts the arguments into the body of the procedure, all at once. Only closed
code is ever put anywhere, so nothing can be captured and no parameter has to
be renamed.

`Code.subst` is simultaneous substitution and `Code.eval` is call by value on
code: a test runs before one branch, the callee before the arguments, the
arguments from left to right, and the first failure is the outcome.

The laws of substitution below are the two that a change of machine needs: what
stays free (`Code.mem_freeNames_subst`), and that two substitutions one after
the other are one (`Code.subst_subst`).
-/

namespace BraceLisp

variable {ν : Type}

/-- An expression in which values may stand where names stood. -/
inductive Code (ν : Type) where
  | number (value : Float)
  | string (contents : String)
  | boolean (value : Bool)
  | primitive (op : Primitive)
  | ident (name : ν)
  | cond (test thenBranch elseBranch : Code ν)
  | lam (params : List ν) (body : Code ν)
  | app (callee : Code ν) (args : List (Code ν))

namespace Code

/-- Induction where the arguments of an application are taken one by one. -/
@[elab_as_elim]
theorem induction {P : Code ν → Prop} (number : ∀ x, P (number x))
    (string : ∀ s, P (string s)) (boolean : ∀ b, P (boolean b))
    (primitive : ∀ op, P (primitive op)) (ident : ∀ x, P (ident x))
    (cond : ∀ t a b, P t → P a → P b → P (cond t a b))
    (lam : ∀ params body, P body → P (lam params body))
    (app : ∀ f args, P f → (∀ a ∈ args, P a) → P (app f args)) :
    ∀ c, P c := by
  intro c
  match c with
  | .number x => exact number x
  | .string s => exact string s
  | .boolean b => exact boolean b
  | .primitive op => exact primitive op
  | .ident x => exact ident x
  | .cond t a b =>
      exact cond t a b
        (induction number string boolean primitive ident cond lam app t)
        (induction number string boolean primitive ident cond lam app a)
        (induction number string boolean primitive ident cond lam app b)
  | .lam params body =>
      exact lam params body
        (induction number string boolean primitive ident cond lam app body)
  | .app f args =>
      exact app f args
        (induction number string boolean primitive ident cond lam app f)
        fun a _ =>
          induction number string boolean primitive ident cond lam app a
termination_by c => sizeOf c
decreasing_by
  all_goals
    simp only [Code.cond.sizeOf_spec, Code.lam.sizeOf_spec,
      Code.app.sizeOf_spec]
    first
      | omega
      | (have h := List.sizeOf_lt_of_mem ‹_ ∈ _›; omega)

mutual

/-- An expression as code in which no value stands yet. -/
def ofExpr : Expr ν → Code ν
  | .number x => number x
  | .string s => string s
  | .ident x => ident x
  | .cond t a b => cond (ofExpr t) (ofExpr a) (ofExpr b)
  | .lam params body => lam params (ofExpr body)
  | .app f args => app (ofExpr f) (ofExprs args)

def ofExprs : List (Expr ν) → List (Code ν)
  | [] => []
  | e :: es => ofExpr e :: ofExprs es

end

theorem ofExprs_eq_map (es : List (Expr ν)) : ofExprs es = es.map ofExpr := by
  induction es with
  | nil => rfl
  | cons e es ih => rw [ofExprs, ih, List.map_cons]

variable [DecidableEq ν]

/-- A substitution that leaves the parameters of a procedure alone. -/
def hide (params : List ν) (σ : ν → Option (Code ν)) : ν → Option (Code ν) :=
  fun x => if x ∈ params then none else σ x

mutual

/-- Puts code in the place of free names, all at once. -/
def subst (σ : ν → Option (Code ν)) : Code ν → Code ν
  | ident x => (σ x).getD (ident x)
  | cond t a b => cond (t.subst σ) (a.subst σ) (b.subst σ)
  | lam params body => lam params (body.subst (hide params σ))
  | app f args => app (f.subst σ) (substAll σ args)
  | number x => number x
  | string s => string s
  | boolean b => boolean b
  | primitive op => primitive op

def substAll (σ : ν → Option (Code ν)) : List (Code ν) → List (Code ν)
  | [] => []
  | c :: cs => c.subst σ :: substAll σ cs

end

theorem substAll_eq_map (σ : ν → Option (Code ν)) (cs : List (Code ν)) :
    substAll σ cs = cs.map (subst σ) := by
  induction cs with
  | nil => rfl
  | cons c cs ih => rw [substAll, ih, List.map_cons]

/-- The substitution of values for parameters. Of equal parameters the last
one counts. -/
def bindings : List ν → List (Code ν) → ν → Option (Code ν)
  | p :: params, c :: cs, x =>
    (bindings params cs x).or (if p = x then some c else none)
  | _, _, _ => none

/-- What an operator or a message sees of code that is a value. -/
def face : Code ν → Value ν
  | number x => .number x
  | string s => .string s
  | boolean b => .boolean b
  | primitive op => .primitive op
  | _ => .closure 0 [] (.string "") .empty

/-- The answer of an operator as code. -/
def ofAnswer : Value ν → Code ν
  | .number x => number x
  | .string s => string s
  | .boolean b => boolean b
  | .primitive op => primitive op
  | .closure _ params body _ => lam params (ofExpr body)

/-- Applies code that is a value to values. `run` evaluates the body of a
procedure. -/
def applyWith (run : Code ν → EvalM ν (Code ν)) :
    Code ν → List (Code ν) → EvalM ν (Code ν)
  | lam params body, args =>
    if params.length = args.length then run (body.subst (bindings params args))
    else .fail (.arity "closure" params.length args.length)
  | primitive op, args => do
    return ofAnswer (← .ofExcept (op.apply (args.map face)))
  | c, _ => .fail (.notCallable c.face.text)

def evalEach (run : Code ν → EvalM ν (Code ν)) :
    List (Code ν) → EvalM ν (List (Code ν))
  | [] => return []
  | c :: cs => return (← run c) :: (← evalEach run cs)

/-- Evaluates code to at most the given depth. -/
def eval : (depth : Nat) → Code ν → EvalM ν (Code ν)
  | 0, _ => .exhausted
  | _ + 1, ident x => .fail (.unboundName x)
  | depth + 1, cond t a b => do
    match ← eval depth t with
    | boolean true => eval depth a
    | boolean false => eval depth b
    | c => .fail (testMismatch c.face)
  | depth + 1, app f args => do
    let g ← eval depth f
    let cs ← evalEach (eval depth) args
    g.applyWith (eval depth) cs
  | _ + 1, c => return c

/-- How the evaluation of code ends. No closures are made, so no identities
are drawn. -/
def Ends (c : Code ν) (r : Except (EvalError ν) (Code ν)) : Prop :=
  Run.Ends (fun depth => eval depth c) 0 r

/-! ## Laws of substitution -/

mutual

def freeNames : Code ν → List ν
  | ident x => [x]
  | cond t a b => t.freeNames ++ a.freeNames ++ b.freeNames
  | lam params body => body.freeNames.filter (· ∉ params)
  | app f args => f.freeNames ++ freeNamesAll args
  | number _ | string _ | boolean _ | primitive _ => []

def freeNamesAll : List (Code ν) → List ν
  | [] => []
  | c :: cs => c.freeNames ++ freeNamesAll cs

end

theorem mem_freeNamesAll {x : ν} {cs : List (Code ν)} :
    x ∈ freeNamesAll cs ↔ ∃ c ∈ cs, x ∈ c.freeNames := by
  induction cs with
  | nil => simp [freeNamesAll]
  | cons c cs ih => simp [freeNamesAll, ih]

def Closed (c : Code ν) : Prop := ∀ x, x ∉ c.freeNames

/-- A substitution that puts closed code wherever it puts any. -/
def ClosedSubst (σ : ν → Option (Code ν)) : Prop :=
  ∀ x c, σ x = some c → c.Closed

theorem ClosedSubst.hide {σ : ν → Option (Code ν)} (hσ : ClosedSubst σ)
    (params : List ν) : ClosedSubst (hide params σ) := by
  intro x c h
  rw [Code.hide] at h
  split at h
  · cases h
  · exact hσ x c h

theorem hide_eq_none {params : List ν} {σ : ν → Option (Code ν)} {x : ν} :
    hide params σ x = none ↔ x ∈ params ∨ σ x = none := by
  rw [hide]
  split <;> simp [*]

/-- A substitution that has nothing for the free names changes nothing. -/
theorem subst_eq_self {c : Code ν} {σ : ν → Option (Code ν)}
    (h : ∀ x ∈ c.freeNames, σ x = none) : c.subst σ = c := by
  induction c using Code.induction generalizing σ with
  | number | string | boolean | primitive => rfl
  | ident x => rw [subst, h x (by simp [freeNames])]; rfl
  | cond t a b iht iha ihb =>
      simp only [freeNames, List.mem_append] at h
      rw [subst, iht fun x hx => h x (.inl (.inl hx)),
        iha fun x hx => h x (.inl (.inr hx)), ihb fun x hx => h x (.inr hx)]
  | lam params body ih =>
      rw [subst, ih]
      intro x hx
      rw [hide_eq_none]
      by_cases hp : x ∈ params
      · exact .inl hp
      · exact .inr (h x (by simp [freeNames, hx, hp]))
  | app f args ihf ihargs =>
      simp only [freeNames, List.mem_append, mem_freeNamesAll] at h
      rw [subst, ihf fun x hx => h x (.inl hx), substAll_eq_map]
      congr 1
      conv => rhs; rw [← List.map_id args]
      exact List.map_congr_left fun a ha =>
        ihargs a ha fun x hx => h x (.inr ⟨a, ha, hx⟩)

/-- What is free after a substitution of closed code is what was free and was
not replaced. -/
theorem mem_freeNames_subst {c : Code ν} {σ : ν → Option (Code ν)}
    (hσ : ClosedSubst σ) {x : ν} :
    x ∈ (c.subst σ).freeNames ↔ x ∈ c.freeNames ∧ σ x = none := by
  induction c using Code.induction generalizing σ with
  | number | string | boolean | primitive => simp [subst, freeNames]
  | ident y =>
      rw [subst]
      cases hy : σ y with
      | some c =>
          have hc := hσ y c hy x
          simp only [Option.getD_some, freeNames, List.mem_singleton]
          refine ⟨fun h => absurd h hc, ?_⟩
          rintro ⟨rfl, h⟩
          rw [hy] at h
          cases h
      | none =>
          simp only [Option.getD_none, freeNames, List.mem_singleton]
          refine ⟨?_, And.left⟩
          rintro rfl
          exact ⟨rfl, hy⟩
  | cond t a b iht iha ihb =>
      simp only [subst, freeNames, List.mem_append, iht hσ, iha hσ, ihb hσ]
      tauto
  | lam params body ih =>
      simp only [subst, freeNames, List.mem_filter, ih (hσ.hide params),
        hide_eq_none, decide_eq_true_eq]
      tauto
  | app f args ihf ihargs =>
      simp only [subst, freeNames, List.mem_append, ihf hσ, substAll_eq_map,
        mem_freeNamesAll, List.mem_map]
      constructor
      · rintro (h | ⟨c, ⟨a, ha, rfl⟩, h⟩)
        · exact ⟨.inl h.1, h.2⟩
        · obtain ⟨h, hx⟩ := (ihargs a ha hσ).mp h
          exact ⟨.inr ⟨a, ha, h⟩, hx⟩
      · rintro ⟨h | ⟨a, ha, h⟩, hx⟩
        · exact .inl ⟨h, hx⟩
        · exact .inr ⟨_, ⟨a, ha, rfl⟩, (ihargs a ha hσ).mpr ⟨h, hx⟩⟩

/-- Two substitutions of closed code, one after the other, are one. -/
theorem subst_subst (c : Code ν) {σ τ : ν → Option (Code ν)}
    (hσ : ClosedSubst σ) :
    (c.subst σ).subst τ = c.subst fun x => (σ x).or (τ x) := by
  induction c using Code.induction generalizing σ τ with
  | number | string | boolean | primitive => rfl
  | ident x =>
      rw [subst, subst]
      cases hx : σ x with
      | none => rfl
      | some c => exact subst_eq_self fun y hy => absurd hy (hσ x c hx y)
  | cond t a b iht iha ihb =>
      rw [subst, subst, subst, iht hσ, iha hσ, ihb hσ]
  | lam params body ih =>
      rw [subst, subst, subst, ih (hσ.hide params)]
      congr 2
      funext x
      simp only [hide]
      split <;> rfl
  | app f args ihf ihargs =>
      simp only [subst, substAll_eq_map, List.map_map, ihf hσ]
      congr 1
      exact List.map_congr_left fun a ha => ihargs a ha hσ

end Code

end BraceLisp
