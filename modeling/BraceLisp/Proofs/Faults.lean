import BraceLisp.Proofs.Forms

/-!
# What the parser rejects

A sequence of steps fails where its first failing step does. So each fault of a
form is one of its own, in its parameters, or that of one of its parts
(`Expr.ofForm_eq_error`), and a list of terms is rejected for one of its members.
-/

namespace BraceLisp

theorem bind_eq_error_iff {ε α β : Type} {x : Except ε α} {f : α → Except ε β}
    {e : ε} : (x >>= f) = .error e ↔
      x = .error e ∨ ∃ a, x = .ok a ∧ f a = .error e := by
  cases x with
  | error e' =>
      have hbind : ((Except.error e' : Except ε α) >>= f) = .error e' := rfl
      simp [hbind]
  | ok a =>
      have hbind : ((Except.ok a : Except ε α) >>= f) = f a := rfl
      simp [hbind]

theorem pure_ne_error {ε α : Type} {a : α} {e : ε} :
    (pure a : Except ε α) ≠ .error e :=
  nofun

/-- The place that a fault is reported at, if it is reported at one. -/
def SyntaxError.place? : SyntaxError → Option Position
  | unexpectedClose p | unclosedGroup p | unterminatedString p
  | unknownEscape _ p | trailingInput p => some p
  | unexpectedEnd | malformedIf | malformedLam | malformedVar
  | duplicateParameter _ | reservedWord _ | invalidParameter _
  | emptyApplication => none

namespace Expr

theorem ofTerms_eq_error {terms : List Term} {e : SyntaxError}
    (h : ofTerms terms = .error e) : ∃ t ∈ terms, ofTerm t = .error e := by
  induction terms with
  | nil => rw [ofTerms_nil] at h; cases h
  | cons t terms ih =>
      rw [ofTerms_cons] at h
      rcases bind_eq_error_iff.mp h with h | ⟨_, -, h⟩
      · exact ⟨t, List.mem_cons_self, h⟩
      · rcases bind_eq_error_iff.mp h with h | ⟨_, -, h⟩
        · obtain ⟨u, hu, hfault⟩ := ih h
          exact ⟨u, List.mem_cons_of_mem t hu, hfault⟩
        · cases h

/-- A form is rejected for its parameters or for one of its parts. -/
theorem ofForm_eq_error {form : Form} {e : SyntaxError}
    (h : ofForm form = .error e) :
    paramsOf form.params = .error e ∨
      ∃ t ∈ form.parts, ofTerm t = .error e := by
  cases form with
  | cond test thenBranch elseBranch =>
      simp only [ofForm, bind_eq_error_iff, pure_ne_error, and_false,
        exists_false, or_false] at h
      rcases h with h | ⟨_, -, h | ⟨_, -, h⟩⟩
      · exact .inr ⟨test, by simp [Form.parts], h⟩
      · exact .inr ⟨thenBranch, by simp [Form.parts], h⟩
      · exact .inr ⟨elseBranch, by simp [Form.parts], h⟩
  | lam params body =>
      simp only [ofForm, bind_eq_error_iff, pure_ne_error, and_false,
        exists_false, or_false] at h
      rcases h with h | ⟨_, -, h⟩
      · exact .inl h
      · exact .inr ⟨body, List.mem_cons_self, h⟩
  | var clauses body =>
      simp only [ofForm, bind_eq_error_iff, pure_ne_error, and_false,
        exists_false, or_false] at h
      rcases h with h | ⟨_, -, h | ⟨_, -, h⟩⟩
      · exact .inl h
      · exact .inr ⟨body, List.mem_cons_self, h⟩
      · obtain ⟨t, ht, hfault⟩ := ofTerms_eq_error h
        exact .inr ⟨t, List.mem_cons_of_mem body ht, hfault⟩
  | app callee args =>
      simp only [ofForm, bind_eq_error_iff, pure_ne_error, and_false,
        exists_false, or_false] at h
      rcases h with h | ⟨_, -, h⟩
      · exact .inr ⟨callee, List.mem_cons_self, h⟩
      · obtain ⟨t, ht, hfault⟩ := ofTerms_eq_error h
        exact .inr ⟨t, List.mem_cons_of_mem callee ht, hfault⟩

end Expr

end BraceLisp
