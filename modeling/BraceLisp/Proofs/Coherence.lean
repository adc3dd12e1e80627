import BraceLisp.Proofs.Bindings
import BraceLisp.Proofs.Identities
import BraceLisp.Proofs.Invariants

/-!
# One closure, one identity

To a host two closures are one if they have one identity, so an identity must
tell which closure it was given to. A set of closures is `Coherent` if it does,
and if all identities in it have been drawn.

What keeps a set of closures coherent is that an identity is never drawn twice.
`Call.Existing` are the closures that exist when a run has come to some counter:
those from before, and those that a `lam` of the run has made by then. Two of
the latter with one identity come from one call (`Call.Reached.draws_once`), and
none of them has an identity from before. The environments of a run and what
its calls come to hold no other closures (`Call.existing_invariant`).

What a host can tell by identities no program can: `equal?` answers false for
all procedures, and evaluations that differ in identities only keep in step.
-/

namespace BraceLisp

variable {ν : Type}

/-- All identities have been drawn before `next`, and each belongs to one
closure. -/
structure Coherent (P : Closures ν) (next : Nat) : Prop where
  drawn {i : Nat} {params : List ν} {body : Expr ν} {env : Env ν}
    (h : P i params body env) : i < next
  same {i : Nat} {params params' : List ν} {body body' : Expr ν}
    {env env' : Env ν} (h : P i params body env)
    (h' : P i params' body' env') :
    params = params' ∧ body = body' ∧ env = env'

/-- From the closures that existed at the counter `n` on, closures have been
added, and all of the new ones have identities that were drawn since. -/
structure Grown (P : Closures ν) (n : Nat) (P' : Closures ν) (m : Nat) :
    Prop where
  kept {i : Nat} {params : List ν} {body : Expr ν} {env : Env ν}
    (h : P i params body env) : P' i params body env
  fresh {i : Nat} {params : List ν} {body : Expr ν} {env : Env ν}
    (h : P' i params body env) : P i params body env ∨ n ≤ i
  coherent : Coherent P' m

namespace Coherent

variable {P : Closures ν} {next : Nat}

theorem grown (h : Coherent P next) : Grown P next P next :=
  ⟨id, .inl, h⟩

/-- A closure is one with itself to a host, and with nothing else. -/
theorem identical_iff (h : Coherent P next) {i : Nat} {params : List ν}
    {body : Expr ν} {env : Env ν} {w : Value ν}
    (hv : (Value.closure i params body env).All P) (hw : w.All P) :
    (Value.closure i params body env).identical w ↔
      w = .closure i params body env := by
  constructor
  · intro hsame
    cases w with
    | number | string | boolean | primitive => cases hsame
    | closure j params' body' env' =>
        obtain rfl : i = j := beq_iff_eq.mp hsame
        rw [Value.All] at hv hw
        obtain ⟨rfl, rfl, rfl⟩ := h.same hv.1 hw.1
        rfl
  · rintro rfl
    exact beq_self_eq_true i

/-- A closure with the next identity is no closure that exists. -/
theorem not_identical (h : Coherent P next) (params : List ν) (body : Expr ν)
    (env : Env ν) {w : Value ν} (hw : w.All P) :
    (Value.closure next params body env).identical w = false ∧
      w.identical (.closure next params body env) = false := by
  cases w with
  | number | string | boolean | primitive => exact ⟨rfl, rfl⟩
  | closure j params' body' env' =>
      rw [Value.All] at hw
      have hj := h.drawn hw.1
      exact ⟨beq_eq_false_iff_ne.mpr (Nat.ne_of_gt hj),
        beq_eq_false_iff_ne.mpr (Nat.ne_of_lt hj)⟩

end Coherent

/-! ## The closures of a run -/

namespace Call

variable [DecidableEq ν] {P : Closures ν} {root c : Call ν}
  {ways : List Way} {n m : Nat}

/-- The closures that exist when the run has come to the counter `n`: those of
`P`, and those that a `lam` of the run has made. -/
def Existing (P : Closures ν) (root : Call ν) (n : Nat) : Closures ν :=
  fun i params body env => P i params body env ∨ i < n ∧
    ∃ ways d, Reached root ways ⟨d + 1, .lam params body, env, i⟩

theorem Existing.mono (hle : n ≤ m) {i : Nat} {params : List ν}
    {body : Expr ν} {env : Env ν} (h : Existing P root n i params body env) :
    Existing P root m i params body env :=
  h.imp_right fun h => ⟨Nat.lt_of_lt_of_le h.1 hle, h.2⟩

theorem coherent_existing (hP : Coherent P root.next) (hn : root.next ≤ n) :
    Coherent (Existing P root n) n := by
  -- What the run makes has no identity from before.
  have hapart : ∀ {i ways d params body env}, i < root.next →
      ¬Reached root ways ⟨d + 1, .lam params body, env, i⟩ :=
    fun hi h => absurd h.next_le (Nat.not_le_of_lt hi)
  refine ⟨fun h => ?_, fun h h' => ?_⟩
  · rcases h with h | ⟨hi, -⟩
    · exact Nat.lt_of_lt_of_le (hP.drawn h) hn
    · exact hi
  · rcases h with h | ⟨-, ways, d, hmade⟩ <;>
      rcases h' with h' | ⟨-, ways', d', hmade'⟩
    · exact hP.same h h'
    · exact absurd hmade' (hapart (hP.drawn h))
    · exact absurd hmade (hapart (hP.drawn h'))
    · obtain rfl := hmade.draws_once hmade' ⟨_, _, _, _, _, rfl⟩
        ⟨_, _, _, _, _, rfl⟩ rfl
      cases hmade.unique hmade'
      exact ⟨rfl, rfl, rfl⟩

/-- What exists in a run has been there before, or has an identity of the run. -/
theorem grown_start (hP : Coherent P root.next) (hn : root.next ≤ n) :
    Grown P root.next (Existing P root n) n := by
  refine ⟨.inl, fun h => h.imp_right ?_, coherent_existing hP hn⟩
  rintro ⟨-, ways, d, hmade⟩
  exact hmade.next_le

theorem grown_existing (hP : Coherent P root.next) (hn : root.next ≤ n)
    (hm : n ≤ m) : Grown (Existing P root n) n (Existing P root m) m := by
  refine ⟨.mono hm, fun h => ?_, coherent_existing hP (Nat.le_trans hn hm)⟩
  rcases h with h | ⟨-, hmade⟩
  · exact .inl (.inl h)
  · rename_i i _ _ _
    by_cases hi : i < n
    · exact .inl (.inr ⟨hi, hmade⟩)
    · exact .inr (Nat.not_lt.mp hi)

/-- A run hands on existing closures only. -/
theorem existing_invariant (P : Closures ν) (root : Call ν) :
    Invariant (Reached root) (Existing P root) where
  mono hle := .mono hle
  part h hmakes := .step h hmakes
  body h hmakes _ _ := .step h hmakes
  lam h := .inr ⟨Nat.lt_succ_self _, _, _, h⟩

/-- Wherever a run has come to, the environment holds existing closures. -/
theorem Reached.existing (h : Reached root ways c) (hroot : root.env.All P) :
    c.env.All (Existing P root c.next) :=
  ((existing_invariant P root).reached .root
    (hroot.mono fun _ _ _ _ => .inl) h).2

end Call

variable [DecidableEq ν]

/-- A call keeps the closures of a coherent set coherent, those that it makes
included. -/
theorem Value.apply_grows {P : Closures ν} {next m depth : Nat}
    (hP : Coherent P next) {f v : Value ν} {args : List (Value ν)}
    (hf : f.All P) (hargs : ∀ a ∈ args, a.All P)
    (h : f.apply depth args next = .value (v, m)) :
    ∃ Q, Grown P next Q m ∧ v.All Q := by
  cases f with
  | number | string | boolean => cases h
  | primitive op =>
      replace h : Run.ofExcept (op.apply args) next = .value (v, m) := h
      cases hop : op.apply args with
      | error e => rw [hop] at h; cases h
      | ok w =>
          rw [hop] at h
          cases h
          refine ⟨P, hP.grown, ?_⟩
          rcases Primitive.apply_eq_ok hop with ⟨x, rfl⟩ | ⟨b, rfl⟩
          · trivial
          · trivial
  | closure i params body held =>
      rw [apply, applyWith, Env.extend] at h
      split at h
      · let root : Call ν := ⟨depth, body, held.bindAll params args, next⟩
        replace h : body.eval depth (held.bindAll params args) next =
          .value (v, m) := h
        rw [All] at hf
        have henv : root.env.All (Call.Existing P root root.next) :=
          Call.Reached.root.existing (hf.2.bindAll hargs params)
        have hgrown : Grown P root.next (Call.Existing P root m) m :=
          Call.grown_start hP (body.eval_counts depth _ next m v h)
        exact ⟨_, hgrown, (Call.existing_invariant P root).returns depth [] _ _
          _ .root henv v m h⟩
      · cases h

/-- Identities are neither lost nor given twice, and programs cannot tell them.
Begun with closures that their identities tell apart, evaluations and calls have
such closures throughout, with those made meanwhile among them; a `lam` makes a
closure that is none of those before. Environments and calls hand on the very
values that they were given. And evaluations and calls that differ in
identities, of closures they begin with or of closures they make, end alike. -/
theorem Value.identities_kept_unseen {P : Closures ν} {next : Nat}
    (hP : Coherent P next) :
    (∀ (depth : Nat) (e : Expr ν) (env : Env ν), env.All P →
      let root : Call ν := ⟨depth, e, env, next⟩
      ∀ ways c, Call.Reached root ways c →
        Grown P next (Call.Existing P root c.next) c.next ∧
        c.env.All (Call.Existing P root c.next) ∧
        ∀ v m, c.outcome = .value (v, m) →
          Grown (Call.Existing P root c.next) c.next
            (Call.Existing P root m) m ∧
          v.All (Call.Existing P root m)) ∧
    (∀ (depth : Nat) (f : Value ν) (args : List (Value ν)),
      f.All P → (∀ a ∈ args, a.All P) →
        ∀ v m, f.apply depth args next = .value (v, m) →
          ∃ Q, Grown P next Q m ∧ v.All Q) ∧
    (∀ (depth : Nat) (params : List ν) (body : Expr ν) (env : Env ν),
      (Expr.lam params body).eval (depth + 1) env next =
          .value (closure next params body env, next + 1) ∧
        ∀ w : Value ν, w.All P →
          (closure next params body env).identical w = false ∧
            w.identical (closure next params body env) = false) ∧
    (∀ (i : Nat) (params : List ν) (body : Expr ν) (env : Env ν)
      (w : Value ν), (closure i params body env).All P → w.All P →
        ((closure i params body env).identical w ↔
          w = closure i params body env)) ∧
    ((∀ (env : Env ν) (x : ν) (v : Value ν),
      (env.bind x v).lookup x = .ok v ∧
        ∀ y, y ≠ x → (env.bind x v).lookup y = env.lookup y) ∧
    (∀ (env env' : Env ν) (params : List ν) (args : List (Value ν)),
      env.extend params args = .ok env' → ∀ x,
        (∃ (i : Nat) (v : Value ν), params[i]? = some x ∧
          args[i]? = some v ∧ env'.lookup x = .ok v) ∨
        x ∉ params ∧ env'.lookup x = env.lookup x) ∧
    (∀ (depth n k i : Nat) (f body : Expr ν) (args : List (Expr ν))
      (env held env' : Env ν) (params : List ν) (vs : List (Value ν)),
      Expr.evalEach (Expr.eval depth · env) (f :: args) n =
        .value (closure i params body held :: vs, k) →
      held.extend params vs = .ok env' →
        (Expr.app f args).eval (depth + 1) env n = body.eval depth env' k)) ∧
    ((∀ (e : Expr ν) (env env' : Env ν), env.anonymous = env'.anonymous →
      ∀ m n, ((∃ r, e.Ends env m r) ↔ ∃ s, e.Ends env' n s) ∧
        ∀ r s, e.Ends env m r → e.Ends env' n s → EndsAlike Alike r s) ∧
    (∀ (f f' : Value ν) (args args' : List (Value ν)),
      f.Alike f' → List.Forall₂ Alike args args' →
      ∀ m n, ((∃ r, Run.Ends (f.apply · args) m r) ↔
          ∃ s, Run.Ends (f'.apply · args') n s) ∧
        ∀ r s, Run.Ends (f.apply · args) m r →
          Run.Ends (f'.apply · args') n s → EndsAlike Alike r s) ∧
    (∀ v v' : Value ν, v.Alike v' → v.kind = v'.kind ∧ v.text = v'.text ∧
      ∀ w w' : Value ν, w.Alike w' →
        v.contentsEqual w = v'.contentsEqual w') ∧
    ∀ v w : Value ν, v.kind = "procedure" ∨ v.kind = "primop" →
      Primitive.equal.apply [v, w] = .ok (.boolean false) ∧
      Primitive.equal.apply [w, v] = .ok (.boolean false)) := by
  refine ⟨?_, fun depth f args hf hargs v m h => apply_grows hP hf hargs h,
    fun depth params body env =>
      ⟨rfl, fun w hw => hP.not_identical params body env hw⟩,
    fun i params body env w hv hw => hP.identical_iff hv hw,
    ⟨?_, fun env env' params args h x => Env.lookup_extend_cases h x, ?_⟩,
    ?_, ?_, ?_, fun v w h => Primitive.apply_equal_of_kind h w⟩
  · intro depth e env henv root ways c hc
    have hn : root.next ≤ c.next := hc.next_le
    have hheld := hc.existing henv
    refine ⟨Call.grown_start hP hn, hheld, fun v m hv => ⟨?_, ?_⟩⟩
    · exact Call.grown_existing hP hn
        (c.expr.eval_counts c.depth c.env c.next m v hv)
    · exact (Call.existing_invariant P root).returns c.depth ways c.expr c.env
        c.next hc hheld v m hv
  · intro env x v
    refine ⟨by rw [Env.lookup, Env.find?, if_pos rfl], fun y hy => ?_⟩
    rw [Env.lookup, Env.find?, if_neg (Ne.symm hy), ← Env.lookup]
  · intro depth n k i f body args env held env' params vs hall hextend
    obtain ⟨g, n₁, ws, hg, hws, hcons⟩ := Expr.evalEach_cons_eq_value hall
    cases hcons
    rw [Expr.eval_succ, Expr.evalWith, Run.bind_of_value hg,
      Run.bind_of_value hws, applyWith, hextend]
    rfl
  · intro e env env' henv m n
    exact Run.ends_alike_of_matches (e.eval_deepens env)
      (fun depth => alike_simulation.eval_matches depth ⟨rfl, henv⟩) m n
  · intro f f' args args' hf hargs m n
    exact Run.ends_alike_of_matches (f.apply_deepens args)
      (fun depth => alike_simulation.applyWith_matches
        (alike_simulation.eval_matches depth) hf hargs) m n
  · intro v v' h
    exact ⟨h.shows_alike.1, h.shows_alike.2.1,
      fun w w' hw => h.shows_alike.2.2 hw⟩

/-- A procedure goes into a call and comes to be held by the closure that the
call makes, and is the same procedure there. -/
theorem Value.held_procedure_kept :
    let f : Value String := .closure 0 ["x"] (.ident "x") .empty
    let P : Closures String := fun i params body env =>
      i = 0 ∧ params = ["x"] ∧ body = .ident "x" ∧ env = .empty
    let env : Env String := .bind .empty "f" f
    let made : Value String :=
      .closure 2 [] (.ident "g") (.bind env "g" f)
    let e : Expr String :=
      .app (.lam ["g"] (.lam [] (.ident "g"))) [.ident "f"]
    Coherent P 1 ∧ env.All P ∧ e.eval 3 env 1 = .value (made, 3) ∧
      Grown P 1 (Call.Existing P ⟨3, e, env, 1⟩ 1) 1 ∧
      Grown (Call.Existing P ⟨3, e, env, 1⟩ 1) 1
        (Call.Existing P ⟨3, e, env, 1⟩ 3) 3 ∧
      made.All (Call.Existing P ⟨3, e, env, 1⟩ 3) ∧
      made.apply 1 [] 3 = .value (f, 3) ∧
      (∃ Q, Grown P 1 Q 1 ∧ f.All Q) ∧
      ((Value.closure 1 [] e env).identical f = false ∧
        f.identical (.closure 1 [] e env) = false) ∧
      (f.identical f ↔ f = f) ∧
      Primitive.equal.apply [f, f] = .ok (.boolean false) := by
  intro f P env made e
  have hP : Coherent P 1 := by
    refine ⟨fun h => ?_, fun h h' => ?_⟩
    · obtain ⟨rfl, -⟩ := h
      exact Nat.one_pos
    · obtain ⟨-, rfl, rfl, rfl⟩ := h
      obtain ⟨-, rfl, rfl, rfl⟩ := h'
      exact ⟨rfl, rfl, rfl⟩
  have hf : f.All P := ⟨⟨rfl, rfl, rfl, rfl⟩, trivial⟩
  have henv : env.All P := ⟨trivial, hf⟩
  have he : e.eval 3 env 1 = .value (made, 3) := rfl
  obtain ⟨hrun, hcall, hlam, hone, -, -, -, -, hequal⟩ :=
    identities_kept_unseen hP
  obtain ⟨hstart, -, hends⟩ := hrun 3 e env henv [] _ .root
  obtain ⟨hgrown, hmade⟩ := hends made 3 he
  refine ⟨hP, henv, he, hstart, hgrown, hmade, rfl, ?_, ?_, ?_, ?_⟩
  · exact hcall 1 f [f] hf (List.forall_mem_singleton.mpr hf) f 1 rfl
  · exact (hlam 0 [] e env).2 f hf
  · exact hone 0 ["x"] (.ident "x") .empty f hf hf
  · exact (hequal f f (.inl rfl)).1

end BraceLisp
