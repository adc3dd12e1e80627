import BraceLisp.Program
import BraceLisp.Proofs.Identities
import BraceLisp.Proofs.Postconditions

/-!
# One expression after another

A program whose expressions are known is their evaluation one after another. It
can be cut anywhere: what comes before only matters for its last value, and for
that only if nothing comes behind.
-/

namespace BraceLisp

theorem Run.bind_assoc {ε α β γ : Type} (x : Run ε α) (f : α → Run ε β)
    (g : β → Run ε γ) : x >>= f >>= g = x >>= fun a => f a >>= g := by
  funext next
  show Run.bind (Run.bind x f) g next =
    Run.bind x (fun a => Run.bind (f a) g) next
  unfold Run.bind
  cases x next <;> rfl

namespace Program

/-- How a source of any number of expressions ends. -/
def RunEnds (source : String) (next : Nat)
    (r : Except Error (Option (Value String))) : Prop :=
  Run.Ends (fun depth => run depth source) next r

/-! ## One after another -/

theorem evalLast_append (depth : Nat) (last : Option (Value String))
    (es fs : List (Expr String)) :
    evalLast depth last (es ++ fs) =
      evalLast depth last es >>= fun last => evalLast depth last fs := by
  induction es generalizing last with
  | nil => rfl
  | cons e es ih =>
      rw [List.cons_append, evalLast, evalLast, Run.bind_assoc]
      exact congrArg _ (funext fun v => ih (some v))

theorem evalLast_deepens (last : Option (Value String))
    (es : List (Expr String)) :
    Run.Deepens (fun depth => evalLast depth last es) := by
  intro d d' h
  induction es generalizing last with
  | nil => exact .refl _
  | cons e es ih =>
      exact .bind (e.eval_deepens .top d d' h) fun v => ih (some v)

theorem evalLast_ensures {depth : Nat} {P : Value String → Prop}
    {Q : EvalError String → Prop} {es : List (Expr String)}
    (h : ∀ e ∈ es, (e.eval depth .top).Ensures P Q)
    {last : Option (Value String)} (hlast : ∀ v ∈ last, P v) :
    (evalLast depth last es).Ensures (fun last => ∀ v ∈ last, P v) Q := by
  induction es generalizing last with
  | nil => exact .pure hlast
  | cons e es ih =>
      rw [List.forall_mem_cons] at h
      refine .bind h.1 fun v hv => ih h.2 ?_
      rintro _ ⟨⟩
      exact hv

/-- What is evaluated before decides the last value only if nothing comes
behind. -/
theorem evalLast_matches {depth : Nat}
    {R : Option (Value String) → Option (Value String) → Prop}
    (hR : ∀ v v', v.Alike v' → R (some v) (some v'))
    {last last' : Option (Value String)} (h : R last last')
    (es : List (Expr String)) :
    (evalLast depth last es).Matches R (evalLast depth last' es) := by
  induction es generalizing last last' with
  | nil => exact .pure h
  | cons e es ih =>
      exact .bind (e.eval_matches_alike depth .top) fun v v' hv =>
        ih (hR v v' hv)

/-! ## Sources -/

theorem run_of_exprs {source : String} {es : List (Expr String)}
    (h : exprs source = .ok es) (depth : Nat) :
    run depth source = Run.mapError .runtime (evalLast depth none es) := by
  rw [run, h]
  rfl

theorem run_of_fault {source : String} {e : SyntaxError}
    (h : exprs source = .error e) (depth : Nat) :
    run depth source = Run.fail (.illFormed e) := by
  rw [run, h]
  rfl

theorem run_deepens (source : String) :
    Run.Deepens (fun depth => run depth source) :=
  fun d d' h => .bind (.refl _) fun es =>
    (evalLast_deepens none es).mapError Error.runtime d d' h

theorem runEnds_of_exprs {source : String} {es : List (Expr String)}
    (h : exprs source = .ok es) {next : Nat}
    {r : Except Error (Option (Value String))} :
    RunEnds source next r ↔
      ∃ s, Run.Ends (fun depth => evalLast depth none es) next s ∧
        r = s.mapError .runtime := by
  rw [RunEnds, ← Run.ends_mapError_iff]
  simp only [run_of_exprs h]

theorem exists_runEnds_of_exprs {source : String} {es : List (Expr String)}
    (h : exprs source = .ok es) {next : Nat} :
    (∃ r, RunEnds source next r) ↔
      ∃ s, Run.Ends (fun depth => evalLast depth none es) next s := by
  simp only [runEnds_of_exprs h]
  constructor
  · rintro ⟨_, s, hs, -⟩
    exact ⟨s, hs⟩
  · rintro ⟨s, hs⟩
    exact ⟨_, s, hs, rfl⟩

theorem runEnds_of_fault {source : String} {e : SyntaxError}
    (h : exprs source = .error e) {next : Nat}
    {r : Except Error (Option (Value String))} :
    RunEnds source next r ↔ r = .error (.illFormed e) := by
  rw [RunEnds]
  simp only [run_of_fault h]
  constructor
  · rintro ⟨depth, hr⟩
    exact (Option.some.inj hr).symm
  · rintro rfl
    exact ⟨0, rfl⟩

theorem run_ensures {source : String} {es : List (Expr String)}
    (hes : exprs source = .ok es) {depth : Nat} {P : Value String → Prop}
    {Q : EvalError String → Prop}
    (h : ∀ e ∈ es, (e.eval depth .top).Ensures P Q) {R : Error → Prop}
    (hR : ∀ e, Q e → R (.runtime e)) :
    (run depth source).Ensures (fun last => ∀ v ∈ last, P v) R := by
  rw [run_of_exprs hes]
  exact .mapError (evalLast_ensures h nofun) hR

end Program

end BraceLisp
