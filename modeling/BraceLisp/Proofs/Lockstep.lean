import BraceLisp.Eval.Depth

/-!
# Two evaluations in lockstep

Several laws of evaluation compare two runs: of one expression in two
environments, or of one program on two machines. The runs are compared at the
same depth, where they take the same turns: both go on with related results,
both fail with the same error, or both are cut short. `Run.Matches` says this
of two computations and sequencing respects it, so a law of this kind is one
induction on the depth with a case for each kind of expression.

The identities that closures are given never decide anything, so the two runs
may start from any two counters.

What a reader wants to know does not mention a depth: whether an evaluation
ends at all, and with what. `Run.Ends` is that judgment, and
`Run.ends_alike_of_matches` takes a comparison at every depth to it.
-/

namespace BraceLisp

variable {ε δ α β α' β' : Type}

namespace Outcome

/-- Related results, the same failure, or both cut short. -/
inductive Matches (R : α → β → Prop) :
    Outcome ε (α × Nat) → Outcome ε (β × Nat) → Prop where
  | value {a : α} {b : β} (m n : Nat) (h : R a b) :
      Matches R (.value (a, m)) (.value (b, n))
  | error (e : ε) : Matches R (.error e) (.error e)
  | exhausted : Matches R .exhausted .exhausted

/-- The value or the failure, unless the computation was cut short. -/
def answer? : Outcome ε (α × Nat) → Option (Except ε α)
  | value (a, _) => some (.ok a)
  | error e => some (.error e)
  | exhausted => none

theorem answer?_eq_none {o : Outcome ε (α × Nat)} :
    o.answer? = none ↔ o = .exhausted := by
  cases o <;> simp [answer?]

end Outcome

namespace Run

/-- Two computations that match from any two counters of identities. -/
def Matches (R : α → β → Prop) (x : Run ε α) (y : Run ε β) : Prop :=
  ∀ m n, (x m).Matches R (y n)

theorem Matches.pure {R : α → β → Prop} {a : α} {b : β} (h : R a b) :
    Matches R (Pure.pure a : Run ε α) (Pure.pure b) :=
  fun m n => .value m n h

theorem Matches.fail {R : α → β → Prop} (e : ε) :
    Matches R (Run.fail e) (Run.fail e) :=
  fun _ _ => .error e

theorem Matches.exhausted {R : α → β → Prop} :
    Matches R (Run.exhausted : Run ε α) (Run.exhausted : Run ε β) :=
  fun _ _ => .exhausted

theorem Matches.fresh :
    Matches (fun _ _ => True) (Run.fresh : Run ε Nat) Run.fresh :=
  fun m n => .value (m + 1) (n + 1) trivial

theorem Matches.bind {R : α → β → Prop} {S : α' → β' → Prop}
    {x : Run ε α} {y : Run ε β} {f : α → Run ε α'} {g : β → Run ε β'}
    (hxy : Matches R x y) (hfg : ∀ a b, R a b → Matches S (f a) (g b)) :
    Matches S (x >>= f) (y >>= g) := by
  intro m n
  have h := hxy m n
  show Outcome.Matches S (Run.bind x f m) (Run.bind y g n)
  unfold Run.bind
  generalize x m = o, y n = o' at h
  cases h with
  | value m' n' h => exact hfg _ _ h m' n'
  | error e => exact .error e
  | exhausted => exact .exhausted

theorem Matches.mapError {R : α → β → Prop} {x : Run ε α} {y : Run ε β}
    (h : Matches R x y) (f : ε → δ) :
    Matches R (x.mapError f) (y.mapError f) := by
  intro m n
  have hxy := h m n
  unfold Run.mapError
  generalize x m = o, y n = o' at hxy
  cases hxy with
  | value m' n' h => exact .value m' n' h
  | error e => exact .error (f e)
  | exhausted => exact .exhausted

end Run

/-! ## Without depth -/

/-- Two ways to end: with related values or with the same failure. -/
inductive EndsAlike (R : α → β → Prop) : Except ε α → Except ε β → Prop where
  | ok {a : α} {b : β} (h : R a b) : EndsAlike R (.ok a) (.ok b)
  | error (e : ε) : EndsAlike R (.error e) (.error e)

theorem Outcome.Matches.answer? {R : α → β → Prop}
    {o : Outcome ε (α × Nat)} {o' : Outcome ε (β × Nat)}
    (h : o.Matches R o') :
    Option.Rel (EndsAlike R) o.answer? o'.answer? := by
  cases h with
  | value m n h => exact .some (.ok h)
  | error e => exact .some (.error e)
  | exhausted => exact .none

namespace Run

/-- How a computation that is given ever more depth ends, with `next` as the
first identity that it may draw. -/
def Ends (x : Nat → Run ε α) (next : Nat) (r : Except ε α) : Prop :=
  ∃ depth, (x depth next).answer? = some r

/-- A computation that takes the same course when it is given more depth. -/
def Deepens (x : Nat → Run ε α) : Prop :=
  ∀ d d', d ≤ d' → (x d).Extends (x d')

theorem Deepens.eq_of_answer? {x : Nat → Run ε α} (hx : Deepens x)
    {d d' next : Nat} {r : Except ε α} (hle : d ≤ d')
    (hr : (x d next).answer? = some r) : x d' next = x d next := by
  refine hx d d' hle next ?_
  rw [ne_eq, ← Outcome.answer?_eq_none, hr]
  exact Option.some_ne_none r

/-- There is one way to end, whatever depths show it. -/
theorem Deepens.ends_unique {x : Nat → Run ε α} (hx : Deepens x) {next : Nat}
    {r s : Except ε α} (hr : Ends x next r) (hs : Ends x next s) : r = s := by
  obtain ⟨d, hr⟩ := hr
  obtain ⟨d', hs⟩ := hs
  have h₁ := hx.eq_of_answer? (Nat.le_max_left d d') hr
  have h₂ := hx.eq_of_answer? (Nat.le_max_right d d') hs
  rw [← h₁] at hr
  rw [← h₂, hr] at hs
  exact Option.some.inj hs

/-- Depth to spare changes no end. -/
theorem Deepens.ends_add_iff {x : Nat → Run ε α} (hx : Deepens x) (spare : Nat)
    {next : Nat} {r : Except ε α} :
    Ends (fun depth => x (depth + spare)) next r ↔ Ends x next r := by
  constructor
  · rintro ⟨depth, hr⟩
    exact ⟨depth + spare, hr⟩
  · rintro ⟨depth, hr⟩
    refine ⟨depth, ?_⟩
    show (x (depth + spare) next).answer? = some r
    rw [hx.eq_of_answer? (Nat.le_add_right depth spare) hr, hr]

theorem Deepens.add {x : Nat → Run ε α} (hx : Deepens x) (spare : Nat) :
    Deepens (fun depth => x (depth + spare)) :=
  fun d d' h => hx (d + spare) (d' + spare) (Nat.add_le_add_right h spare)

theorem Deepens.mapError {x : Nat → Run ε α} (hx : Deepens x) (f : ε → δ) :
    Deepens (fun depth => (x depth).mapError f) := by
  intro d d' h next hnext
  have hle := hx d d' h next
  show (x d').mapError f next = (x d).mapError f next
  replace hnext : (x d).mapError f next ≠ .exhausted := hnext
  unfold Run.mapError at hnext ⊢
  cases hd : x d next with
  | exhausted => rw [hd] at hnext; exact absurd rfl hnext
  | value | error =>
      rw [hd] at hle
      rw [hle nofun]

/-- The computation returns a value with the property, from every counter. -/
def Returns (P : α → Prop) (x : Run ε α) : Prop :=
  ∀ n, ∃ a m, x n = .value (a, m) ∧ P a

theorem Returns.bind_matches {P : α → Prop} {R : α' → β' → Prop}
    {x : Run ε α} (hx : Returns P x) {y : Run ε α'} {f : α → Run ε β'}
    (hf : ∀ a, P a → Matches R y (f a)) : Matches R y (x >>= f) := by
  intro m n
  obtain ⟨a, n', ha, hP⟩ := hx n
  show Outcome.Matches R (y m) (Run.bind x f n)
  rw [Run.bind, ha]
  exact hf a hP m n'

/-- A computation that matches itself and once ended with a value returns a
related one from every counter, as soon as it has depth enough. -/
theorem Deepens.returns {R : α → α → Prop} {x : Nat → Run ε α}
    (hx : Deepens x) (hself : ∀ depth, Matches R (x depth) (x depth))
    {next : Nat} {a : α} (ha : Ends x next (.ok a)) :
    ∃ spare, ∀ depth, Returns (R a) (x (depth + spare)) := by
  obtain ⟨spare, hspare⟩ := ha
  refine ⟨spare, fun depth n => ?_⟩
  have hvalue := hx.eq_of_answer? (Nat.le_add_left spare depth) hspare
  have h := hself (depth + spare) next n
  generalize x (depth + spare) n = o' at h ⊢
  rw [hvalue] at h
  generalize x spare next = o at h hspare
  cases h with
  | @value _ b _ n' h => cases hspare; exact ⟨b, n', rfl, h⟩
  | error => cases hspare
  | exhausted => cases hspare

/-- What comes to an answer when another computation does, at the same depth,
ends when the other ends. -/
theorem ends_iff_of_answer? {x : Nat → Run ε α} {y : Nat → Run δ β} {next : Nat}
    {f : Except ε α → Except δ β}
    (h : ∀ depth, (y depth next).answer? = (x depth next).answer?.map f)
    {r : Except δ β} : Ends y next r ↔ ∃ s, Ends x next s ∧ r = f s := by
  simp only [Ends, h, Option.map_eq_some_iff]
  constructor
  · rintro ⟨depth, s, hs, rfl⟩
    exact ⟨s, ⟨depth, hs⟩, rfl⟩
  · rintro ⟨s, ⟨depth, hs⟩, rfl⟩
    exact ⟨depth, s, hs, rfl⟩

theorem ends_mapError_iff {x : Nat → Run ε α} {f : ε → δ} {next : Nat}
    {r : Except δ α} :
    Ends (fun depth => (x depth).mapError f) next r ↔
      ∃ s, Ends x next s ∧ r = s.mapError f := by
  refine ends_iff_of_answer? fun depth => ?_
  unfold Run.mapError
  cases x depth next <;> rfl

theorem ends_map_iff {x : Nat → Run ε α} {f : α → β} {next : Nat}
    {r : Except ε β} :
    Ends (fun depth => f <$> x depth) next r ↔
      ∃ s, Ends x next s ∧ r = s.map f := by
  refine ends_iff_of_answer? fun depth => ?_
  show (Run.bind (x depth) (fun a => Run.pure (f a)) next).answer? = _
  unfold Run.bind
  cases x depth next <;> rfl

/-- Computations that match at every depth end alike: one ends if and only if
the other does, and then their ends agree. -/
theorem ends_alike_of_matches {R : α → β → Prop} {x : Nat → Run ε α}
    {y : Nat → Run ε β} (hx : Deepens x)
    (hxy : ∀ depth, Matches R (x depth) (y depth)) (m n : Nat) :
    ((∃ r, Ends x m r) ↔ ∃ s, Ends y n s) ∧
      ∀ r s, Ends x m r → Ends y n s → EndsAlike R r s := by
  have hxy' := fun depth => (hxy depth m n).answer?
  refine ⟨⟨?_, ?_⟩, ?_⟩
  · rintro ⟨r, depth, hr⟩
    have h := hxy' depth
    rw [hr] at h
    generalize hs : (y depth n).answer? = s at h
    cases h
    exact ⟨_, depth, hs⟩
  · rintro ⟨s, depth, hs⟩
    have h := hxy' depth
    rw [hs] at h
    generalize hr : (x depth m).answer? = r at h
    cases h
    exact ⟨_, depth, hr⟩
  · rintro r s hr ⟨depth, hs⟩
    have h := hxy' depth
    rw [hs] at h
    generalize hr' : (x depth m).answer? = r' at h
    cases h with
    | some h =>
        rw [hx.ends_unique hr ⟨depth, hr'⟩]
        exact h

/-- Computations that match with equal results end in the same ways. -/
theorem ends_iff_of_matches {x y : Nat → Run ε α}
    (hxy : ∀ depth, Matches Eq (x depth) (y depth)) (m n : Nat)
    (r : Except ε α) : Ends x m r ↔ Ends y n r := by
  have hanswer : ∀ depth, (x depth m).answer? = (y depth n).answer? := by
    intro depth
    have h := hxy depth m n
    generalize x depth m = o, y depth n = o' at h
    cases h with
    | value m' n' h => rw [Outcome.answer?, Outcome.answer?, h]
    | error e => rfl
    | exhausted => rfl
  simp only [Ends, hanswer]

end Run

variable {ν : Type} [DecidableEq ν]

/-- How the evaluation of an expression ends. -/
def Expr.Ends (e : Expr ν) (env : Env ν) (next : Nat)
    (r : Except (EvalError ν) (Value ν)) : Prop :=
  Run.Ends (fun depth => e.eval depth env) next r

theorem Expr.eval_deepens (e : Expr ν) (env : Env ν) :
    Run.Deepens (fun depth => e.eval depth env) :=
  fun _ _ h => eval_extends_of_le h e env

theorem Value.apply_deepens (f : Value ν) (args : List (Value ν)) :
    Run.Deepens (fun depth => f.apply depth args) :=
  fun _ _ h => f.applyWith_extends (Expr.eval_extends_of_le h) args

end BraceLisp
