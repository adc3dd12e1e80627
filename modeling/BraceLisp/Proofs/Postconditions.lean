import BraceLisp.Proofs.Lockstep

/-!
# What a run ends with

`Run.Ensures` says what holds of the values that a computation may end with, and
what of its failures. Sequencing hands it on, so a property of all ends of an
evaluation is one induction on the depth. A computation that is cut short
ensures everything: what is ensured at every depth holds of the end itself,
if there is one (`Run.Ensures.of_ends`).
-/

namespace BraceLisp

variable {ε δ α β : Type}

/-- A value with the one property, a failure with the other, or neither. -/
inductive Outcome.Satisfies (P : α → Prop) (Q : ε → Prop) :
    Outcome ε (α × Nat) → Prop where
  | value {a : α} (m : Nat) (h : P a) : Satisfies P Q (.value (a, m))
  | error {e : ε} (h : Q e) : Satisfies P Q (.error e)
  | exhausted : Satisfies P Q .exhausted

namespace Run

def Ensures (P : α → Prop) (Q : ε → Prop) (x : Run ε α) : Prop :=
  ∀ n, (x n).Satisfies P Q

namespace Ensures

variable {P : α → Prop} {Q : ε → Prop}

theorem pure {a : α} (h : P a) : Ensures P Q (Pure.pure a : Run ε α) :=
  fun n => .value n h

theorem fail {e : ε} (h : Q e) : Ensures P Q (Run.fail e : Run ε α) :=
  fun _ => .error h

theorem exhausted : Ensures P Q (Run.exhausted : Run ε α) :=
  fun _ => .exhausted

theorem fresh : Ensures (fun _ => True) Q (Run.fresh : Run ε Nat) :=
  fun n => .value (n + 1) trivial

theorem ofExcept {x : Except ε α} (hok : ∀ a, x = .ok a → P a)
    (herror : ∀ e, x = .error e → Q e) : Ensures P Q (Run.ofExcept x) := by
  cases x with
  | ok a => exact .pure (hok a rfl)
  | error e => exact .fail (herror e rfl)

theorem bind {R : β → Prop} {x : Run ε α} {f : α → Run ε β}
    (hx : Ensures P Q x) (hf : ∀ a, P a → Ensures R Q (f a)) :
    Ensures R Q (x >>= f) := by
  intro n
  have h := hx n
  show Outcome.Satisfies R Q (Run.bind x f n)
  unfold Run.bind
  generalize x n = o at h
  cases h with
  | value m h => exact hf _ h m
  | error h => exact .error h
  | exhausted => exact .exhausted

theorem mapError {f : ε → δ} {R : δ → Prop} {x : Run ε α}
    (hx : Ensures P Q x) (hf : ∀ e, Q e → R (f e)) :
    Ensures P R (x.mapError f) := by
  intro n
  have h := hx n
  unfold Run.mapError
  generalize x n = o at h
  cases h with
  | value m h => exact .value m h
  | error h => exact .error (hf _ h)
  | exhausted => exact .exhausted

theorem of_value {x : Run ε α} (hx : Ensures P Q x) {n m : Nat} {a : α}
    (h : x n = .value (a, m)) : P a := by
  have hn := hx n
  rw [h] at hn
  cases hn with
  | value m h => exact h

theorem of_ends {x : Nat → Run ε α} (hx : ∀ depth, Ensures P Q (x depth))
    {n : Nat} {r : Except ε α} (hr : Ends x n r) :
    (∀ a, r = .ok a → P a) ∧ ∀ e, r = .error e → Q e := by
  obtain ⟨depth, hr⟩ := hr
  have h := hx depth n
  generalize x depth n = o at h hr
  cases h with
  | value m h =>
      cases hr
      refine ⟨?_, nofun⟩
      rintro _ ⟨⟩
      exact h
  | error h =>
      cases hr
      refine ⟨nofun, ?_⟩
      rintro _ ⟨⟩
      exact h
  | exhausted => cases hr

end Ensures

end Run

variable {ν : Type}

theorem Expr.evalEach_ensures {P : Value ν → Prop} {Q : EvalError ν → Prop}
    {run : Expr ν → EvalM ν (Value ν)} {es : List (Expr ν)}
    (h : ∀ e ∈ es, (run e).Ensures P Q) :
    (evalEach run es).Ensures (fun vs => ∀ v ∈ vs, P v) Q := by
  induction es with
  | nil => exact .pure (List.forall_mem_nil P)
  | cons e es ih =>
      rw [List.forall_mem_cons] at h
      refine .bind h.1 fun v hv => .bind (ih h.2) fun vs hvs => .pure ?_
      exact List.forall_mem_cons.mpr ⟨hv, hvs⟩

end BraceLisp
