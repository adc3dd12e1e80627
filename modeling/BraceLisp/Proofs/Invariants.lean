import BraceLisp.Proofs.Calls
import BraceLisp.Proofs.Closures
import BraceLisp.Proofs.Faces

/-!
# What a run keeps

Calls and closures depend on each other: a call into a body is as it should be
because the closure is, and the closure is because the call was that made it.
An invariant of a run is therefore a property of calls and one of closures
together (`Call.Invariant`). A call has its property because of the call that
makes it and, if it is into a body, of the closure; a closure has its property
because of the call of the `lam`.

That what calls come to holds such closures only is an induction on the depth
(`Invariant.returns`); that all calls of a run are as they should be, along the
ways that lead to them (`Invariant.reached`). One step of both is
`Invariant.step`.
-/

namespace BraceLisp.Call

variable {ν : Type} [DecidableEq ν] {R : List Way → Call ν → Prop}
  {Q : Nat → Closures ν} {ways : List Way} {way : Way} {c c' : Call ν}
  {d n m : Nat} {e : Expr ν} {env : Env ν}

/-- What calls hand on: `R` is a property of calls and of the ways that lead to
them, and `Q n` one of the closures that there may be at the counter `n`. -/
structure Invariant (R : List Way → Call ν → Prop) (Q : Nat → Closures ν) :
    Prop where
  mono {n m i : Nat} {params : List ν} {body : Expr ν} {env : Env ν}
    (hle : n ≤ m) (h : Q n i params body env) : Q m i params body env
  part {ways : List Way} {c c' : Call ν} {k : Nat} (h : R ways c)
    (hmakes : Makes c (.part k) c') : R (ways ++ [.part k]) c'
  body {ways : List Way} {c : Call ν} {d n i : Nat} {params : List ν}
    {body : Expr ν} {held : Env ν} {vs : List (Value ν)} (h : R ways c)
    (hmakes : Makes c (.body i) ⟨d, body, held.bindAll params vs, n⟩)
    (hlen : params.length = vs.length) (hclosure : Q n i params body held) :
    R (ways ++ [.body i]) ⟨d, body, held.bindAll params vs, n⟩
  lam {ways : List Way} {d n : Nat} {params : List ν} {body : Expr ν}
    {env : Env ν} (h : R ways ⟨d + 1, .lam params body, env, n⟩) :
    Q (n + 1) n params body env

/-- Calls of the depth come to values that hold closures of `Q` only, if what
they begin with does. -/
def Returns (R : List Way → Call ν → Prop) (Q : Nat → Closures ν)
    (d : Nat) : Prop :=
  ∀ ways e env n, R ways ⟨d, e, env, n⟩ → env.All (Q n) →
    ∀ v m, e.eval d env n = .value (v, m) → v.All (Q m)

namespace Invariant

variable (I : Invariant R Q)

include I

theorem operands (hd : Returns R Q d) {f : Expr ν} {args : List (Expr ν)}
    (h : R ways ⟨d + 1, .app f args, env, n⟩) (henv : env.All (Q n))
    {vs : List (Value ν)}
    (hvs : Expr.evalEach (Expr.eval d · env) (f :: args) n =
      .value (vs, m)) :
    ∀ v ∈ vs, v.All (Q m) := by
  intro v hv
  obtain ⟨before, a, after, us, n₁, n₂, hsplit, hbefore, ha⟩ :=
    Expr.mem_of_evalEach_eq_value hvs hv
  rw [hsplit] at hvs
  obtain ⟨v', n₃, ha', hn₃⟩ := operand_returns hbefore hvs
  cases ha.symm.trans ha'
  have hmakes : Makes ⟨d + 1, .app f args, env, n⟩ _ ⟨d, a, env, n₁⟩ :=
    .operand hsplit hbefore
  have henv₁ : env.All (Q n₁) :=
    henv.mono fun _ _ _ _ => I.mono hmakes.next_le
  exact (hd _ a env n₁ (I.part h hmakes) henv₁ v n₂ ha).mono
    fun _ _ _ _ => I.mono hn₃

/-- A call hands its property on to the calls that it makes. -/
theorem step (hd : Returns R Q d) (h : R ways ⟨d + 1, e, env, n⟩)
    (henv : env.All (Q n)) (hmakes : Makes ⟨d + 1, e, env, n⟩ way c') :
    R (ways ++ [way]) c' ∧ c'.env.All (Q c'.next) := by
  have hle := hmakes.next_le
  cases hmakes with
  | test => exact ⟨I.part h .test, henv⟩
  | branch c htest =>
      exact ⟨I.part h (.branch c htest),
        henv.mono fun _ _ _ _ => I.mono hle⟩
  | operand hsplit hbefore =>
      exact ⟨I.part h (.operand hsplit hbefore),
        henv.mono fun _ _ _ _ => I.mono hle⟩
  | body hall hlen =>
      have hvs := I.operands hd h henv hall
      -- The body is entered as the closure allows, whoever applies it.
      have hclosure := hvs _ List.mem_cons_self
      rw [Value.All] at hclosure
      exact ⟨I.body h (.body hall hlen) hlen hclosure.1, hclosure.2.bindAll
        (fun v hv => hvs v (List.mem_cons_of_mem _ hv)) _⟩

theorem returns (d : Nat) : Returns R Q d := by
  induction d with
  | zero => intro ways e env n h henv v m hv; cases hv
  | succ d ih =>
      intro ways e env n h henv v m hv
      cases e with
      | number x => cases hv; trivial
      | string s => cases hv; trivial
      | ident x =>
          replace hv : Run.ofExcept (env.lookup x) n = .value (v, m) := hv
          rw [Env.lookup] at hv
          cases hx : env.find? x with
          | none => rw [hx] at hv; cases hv
          | some w => rw [hx] at hv; cases hv; exact henv.of_find? hx
      | lam params body =>
          cases hv
          rw [Value.All]
          exact ⟨I.lam h, henv.mono fun _ _ _ _ => I.mono (Nat.le_succ n)⟩
      | cond t a b =>
          obtain ⟨u, k, hu, hv⟩ := Run.bind_eq_value hv
          cases u with
          | boolean c =>
              obtain ⟨hc, henv'⟩ := I.step ih h henv (.branch c hu)
              refine ih _ _ env k hc henv' v m ?_
              cases c <;> exact hv
          | number | string | primitive | closure => cases hv
      | app f args =>
          obtain ⟨g, vs, k, hall, hg⟩ := Expr.eval_app_eq_value hv
          cases g with
          | number | string | boolean => cases hg
          | primitive op =>
              replace hg : Run.ofExcept (op.apply vs) k = .value (v, m) := hg
              cases hop : op.apply vs with
              | error e => rw [hop] at hg; cases hg
              | ok w =>
                  rw [hop] at hg
                  cases hg
                  rcases Primitive.apply_eq_ok hop with ⟨x, rfl⟩ | ⟨b, rfl⟩
                  · trivial
                  · trivial
          | closure i params body held =>
              rw [Value.applyWith, Env.extend] at hg
              split at hg
              · next hlen =>
                  obtain ⟨hc, henv'⟩ := I.step ih h henv (.body hall hlen)
                  exact ih _ body _ k hc henv' v m hg
              · cases hg

/-- All calls of a run have what the first one has. -/
theorem reached {root : Call ν} (hroot : R [] root)
    (henv : root.env.All (Q root.next)) (h : Reached root ways c) :
    R ways c ∧ c.env.All (Q c.next) := by
  induction h with
  | root => exact ⟨hroot, henv⟩
  | @step ways way c c' h hmakes ih =>
      obtain ⟨d, hd⟩ : ∃ d, c.depth = d + 1 := by
        cases hmakes <;> exact ⟨_, rfl⟩
      obtain ⟨depth, e, env, n⟩ := c
      cases hd
      exact I.step (I.returns d) ih.1 ih.2 hmakes

end Invariant

end BraceLisp.Call
