import BraceLisp.Program
import BraceLisp.Proofs.Bindings
import BraceLisp.Proofs.Invariants

/-!
# Lexical addressing

A run evaluates occurrences in one program text. `Call.At` says at which place
of the text a call of the run is: a part of an expression is below the
expression, and the body of a closure is below the `lam` that the closure was
made from, which its identity tells.

The main statement, `Call.Reached.addressed`, is that every call of a run has
one place, wherever it comes from, and that its environment binds the names of
the top level and then the parameters around that place, in this order. So a
name could be looked up by its address in the text.

Calls and closures depend on each other: a call into a body is placed because
the closure is, and the closure is because the call was that made it. So both
are kept together (`Call.placed_invariant`).
-/

namespace BraceLisp

variable {ν : Type}

/-! ## Places in a text -/

namespace Expr

/-- The parts of an expression, numbered from left to right. -/
def part? : Expr ν → Nat → Option (Expr ν)
  | cond t _ _, 0 => some t
  | cond _ a _, 1 => some a
  | cond _ _ b, 2 => some b
  | lam _ body, 0 => some body
  | app f args, k => (f :: args)[k]?
  | _, _ => none

/-- The occurrence at a place, which is the way down to it. -/
def at? : Expr ν → List Nat → Option (Expr ν)
  | e, [] => some e
  | e, k :: p => (e.part? k).bind fun f => f.at? p

def params : Expr ν → List ν
  | lam params _ => params
  | _ => []

/-- The parameters of all `lam`s around a place, outermost first. -/
def paramsTo : Expr ν → List Nat → List ν
  | _, [] => []
  | e, k :: p => e.params ++ ((e.part? k).elim [] fun f => f.paramsTo p)

theorem at?_snoc {e f : Expr ν} {p : List Nat} (h : e.at? p = some f)
    (k : Nat) : e.at? (p ++ [k]) = f.part? k := by
  induction p generalizing e with
  | nil =>
      cases h
      show (f.part? k).bind (fun f => some f) = f.part? k
      cases f.part? k <;> rfl
  | cons j p ih =>
      rw [at?] at h
      obtain ⟨g, hg, h⟩ := Option.bind_eq_some_iff.mp h
      rw [List.cons_append, at?, hg, Option.bind_some]
      exact ih h

theorem paramsTo_snoc {e f : Expr ν} {p : List Nat} (h : e.at? p = some f)
    (k : Nat) : e.paramsTo (p ++ [k]) = e.paramsTo p ++ f.params := by
  induction p generalizing e with
  | nil =>
      cases h
      rw [List.nil_append, paramsTo, paramsTo, List.nil_append]
      cases f.part? k <;> exact List.append_nil _
  | cons j p ih =>
      rw [at?] at h
      obtain ⟨g, hg, h⟩ := Option.bind_eq_some_iff.mp h
      rw [List.cons_append, paramsTo, paramsTo, hg, Option.elim_some,
        Option.elim_some, ih h, List.append_assoc]

end Expr

/-! ## Places of calls -/

namespace Call

variable [DecidableEq ν] {root c c' : Call ν} {ways : List Way} {way : Way}

/-- The place of a call, reached by the given ways, in the text that the run
begins with. The body of a closure is below the `lam` whose evaluation drew
the closure's identity. -/
inductive At (root : Call ν) : List Way → List Nat → Call ν → Prop where
  | root : At root [] [] root
  | part {ways : List Way} {p : List Nat} {c c' : Call ν} {k : Nat}
      (h : At root ways p c) (hmakes : Makes c (.part k) c') :
      At root (ways ++ [.part k]) (p ++ [k]) c'
  | body {ways ways' : List Way} {p q : List Nat} {c c' : Call ν} {d i : Nat}
      {params : List ν} {body : Expr ν} {held : Env ν}
      (h : At root ways p c) (hmakes : Makes c (.body i) c')
      (hlam : At root ways' q ⟨d + 1, .lam params body, held, i⟩) :
      At root (ways ++ [.body i]) (q ++ [0]) c'

theorem At.reached {p : List Nat} (h : At root ways p c) :
    Reached root ways c := by
  induction h with
  | root => exact .root
  | part h hmakes ih => exact .step ih hmakes
  | body h hmakes hlam ih ihlam => exact .step ih hmakes

/-- A call that is reached in one way has at most one place. -/
theorem At.unique {p q : List Nat} (h : At root ways p c)
    (h' : At root ways q c') : p = q := by
  induction h generalizing q c' with
  | root =>
      generalize hways : [] = ways at h'
      cases h' with
      | root => rfl
      | part => simp at hways
      | body => simp at hways
  | @part ways p c₀ c k h hmakes ih =>
      generalize hways : ways ++ [.part k] = ways' at h'
      cases h' with
      | root => simp at hways
      | part h' hmakes' =>
          obtain ⟨rfl, hway⟩ := List.append_inj' hways rfl
          cases hway
          rw [ih h']
      | body h' hmakes' hlam' => simp at hways
  | @body ways ways₁ p p₁ c₀ c d i params body held h hmakes hlam ih ihlam =>
      generalize hways : ways ++ [.body i] = ways' at h'
      cases h' with
      | root => simp at hways
      | part h' hmakes' => simp at hways
      | body h' hmakes' hlam' =>
          obtain ⟨rfl, hway⟩ := List.append_inj' hways rfl
          cases hway
          -- One identity, so both went back to one evaluation of the `lam`.
          obtain rfl := hlam.reached.draws_once hlam'.reached
            ⟨_, _, _, _, _, rfl⟩ ⟨_, _, _, _, _, rfl⟩ rfl
          rw [ihlam hlam']

/-- A call at a place, with what a place tells: the expression is the
occurrence there, and behind the names that the run begins with the
environment binds the parameters around it. -/
structure Placed (root : Call ν) (ways : List Way) (p : List Nat)
    (c : Call ν) : Prop where
  at_place : At root ways p c
  expr_eq : root.expr.at? p = some c.expr
  bound_eq : c.env.boundInOrder =
    root.env.boundInOrder ++ root.expr.paramsTo p

/-- A closure that a call of the run made, at its place. -/
def MadeIn (root : Call ν) (i : Nat) (params : List ν) (body : Expr ν)
    (held : Env ν) : Prop :=
  ∃ ways p d, Placed root ways p ⟨d + 1, .lam params body, held, i⟩

theorem Placed.self : Placed root [] [] root :=
  ⟨.root, rfl, (List.append_nil _).symm⟩

theorem Placed.part {p : List Nat} {k : Nat} (h : Placed root ways p c)
    (hmakes : Makes c (.part k) c') (hpart : c.expr.part? k = some c'.expr)
    (hparams : c.expr.params = []) (henv : c'.env = c.env) :
    Placed root (ways ++ [.part k]) (p ++ [k]) c' := by
  refine ⟨.part h.at_place hmakes, ?_, ?_⟩
  · rw [Expr.at?_snoc h.expr_eq, hpart]
  · rw [Expr.paramsTo_snoc h.expr_eq, hparams, List.append_nil, henv,
      h.bound_eq]

theorem Placed.body {p q : List Nat} {d d' i n : Nat} {params : List ν}
    {body : Expr ν} {held : Env ν} {vs : List (Value ν)}
    (h : Placed root ways p c) {ways' : List Way}
    (hlam : Placed root ways' q ⟨d + 1, .lam params body, held, i⟩)
    (hmakes : Makes c (.body i) ⟨d', body, held.bindAll params vs, n⟩)
    (hlen : params.length = vs.length) :
    Placed root (ways ++ [.body i]) (q ++ [0])
      ⟨d', body, held.bindAll params vs, n⟩ := by
  refine ⟨.body h.at_place hmakes hlam.at_place, ?_, ?_⟩
  · rw [Expr.at?_snoc hlam.expr_eq]
    rfl
  · rw [Expr.paramsTo_snoc hlam.expr_eq, Env.boundInOrder_bindAll hlen,
      hlam.bound_eq, List.append_assoc]
    rfl

/-! ## One step and a whole run -/

/-- What placed calls of a depth come to holds only closures that the run
made. -/
def Sound (root : Call ν) (d : Nat) : Prop :=
  ∀ ways p e env n, Placed root ways p ⟨d, e, env, n⟩ →
    env.All (MadeIn root) → ∀ v m, e.eval d env n = .value (v, m) →
      v.All (MadeIn root)

/-- A part of an expression is placed below it. -/
theorem Placed.of_makes {p : List Nat} {k : Nat} (h : Placed root ways p c)
    (hmakes : Makes c (.part k) c') :
    Placed root (ways ++ [.part k]) (p ++ [k]) c' := by
  generalize hway : Way.part k = way at hmakes
  cases hmakes with
  | test => cases hway; exact h.part .test rfl rfl rfl
  | branch c htest =>
      cases hway
      refine h.part (.branch c htest) ?_ rfl rfl
      cases c <;> rfl
  | @operand d n m f a args before after env us hsplit hbefore =>
      cases hway
      refine h.part (.operand hsplit hbefore) ?_ rfl rfl
      show (f :: args)[before.length]? = some a
      rw [hsplit]
      simp
  | body => cases hway

/-- Calls are placed and closures made in a run, because of each other: the
place of a body comes with the closure, whoever applies it. -/
theorem placed_invariant (root : Call ν) :
    Invariant (fun ways c => ∃ p, Placed root ways p c)
      (fun _ => MadeIn root) where
  mono _ h := h
  part h hmakes := h.imp' _ fun _ hp => hp.of_makes hmakes
  body := by
    rintro ways c d n i params body held vs ⟨p, hp⟩ hmakes hlen
      ⟨ways', q, d', hlam⟩
    exact ⟨_, hp.body hlam hmakes hlen⟩
  lam := by
    rintro ways d n params body env ⟨p, hp⟩
    exact ⟨ways, p, d, hp⟩

theorem sound (root : Call ν) (d : Nat) : Sound root d :=
  fun ways p e env n h henv =>
    (placed_invariant root).returns d ways e env n ⟨p, h⟩ henv

theorem Reached.placed (h : Reached root ways c)
    (hroot : root.env.All (MadeIn root)) :
    ∃ p, Placed root ways p c ∧ c.env.All (MadeIn root) := by
  obtain ⟨⟨p, hp⟩, henv⟩ :=
    (placed_invariant root).reached ⟨[], .self⟩ hroot h
  exact ⟨p, hp, henv⟩

end Call

/-! ## Programs -/

theorem Env.boundInOrder_top : Env.top.boundInOrder =
    ["+", "-", "*", "/", "<=", "equal?", "true", "false"] :=
  rfl

namespace Call

/-- A closure that a `lam` of the text made in this run, with one binding for
each name of the top level and each parameter around the `lam`. -/
def OverLam (root : Call String) (i : Nat) (params : List String)
    (body : Expr String) (held : Env String) : Prop :=
  ∃ ways p d, At root ways p ⟨d + 1, .lam params body, held, i⟩ ∧
    root.expr.at? p = some (.lam params body) ∧
    held.size = 8 + (root.expr.paramsTo p).length

theorem MadeIn.overLam {depth i : Nat} {e body : Expr String}
    {params : List String} {held : Env String}
    (h : MadeIn ⟨depth, e, .top, 0⟩ i params body held) :
    OverLam ⟨depth, e, .top, 0⟩ i params body held := by
  obtain ⟨ways, p, d, hp⟩ := h
  refine ⟨ways, p, d, hp.at_place, hp.expr_eq, ?_⟩
  rw [← Env.length_boundInOrder, hp.bound_eq, List.length_append,
    Env.boundInOrder_top]
  rfl

/-- Every call of a program's run has one place in its text. The occurrence at
the place is evaluated, in an environment that binds the names of the top level
and then the parameters around the place, and whatever the environment holds or
the call comes to, its closures are over `lam`s of the text.

No call of the run is left out: a call is one level of the evaluator, with the
evaluator for the calls that it makes, and any other in its place comes to the
same if only it agrees on those that `Makes` lists. -/
theorem Reached.addressed {depth : Nat} {e : Expr String} {ways : List Way}
    {c : Call String} (h : Reached ⟨depth, e, .top, 0⟩ ways c) :
    ∃ p, (∀ q, At ⟨depth, e, .top, 0⟩ ways q c ↔ q = p) ∧
      e.at? p = some c.expr ∧
      c.env.boundInOrder =
        ["+", "-", "*", "/", "<=", "equal?", "true", "false"] ++
          e.paramsTo p ∧
      c.env.All (OverLam ⟨depth, e, .top, 0⟩) ∧
      (∀ v m, c.outcome = .value (v, m) →
        v.All (OverLam ⟨depth, e, .top, 0⟩)) ∧
      ∀ d, c.depth = d + 1 →
        c.outcome = c.expr.evalWith (Expr.eval d) c.env c.next ∧
        ∀ run, (∀ way c', Makes c way c' →
            run c'.expr c'.env c'.next = c'.outcome) →
          c.expr.evalWith run c.env c.next = c.outcome := by
  obtain ⟨p, hp, henv⟩ := h.placed Env.all_top
  have hover : ∀ i params body held,
      MadeIn ⟨depth, e, .top, 0⟩ i params body held →
        OverLam ⟨depth, e, .top, 0⟩ i params body held :=
    fun _ _ _ _ h => h.overLam
  refine ⟨p, fun q => ⟨fun hq => hq.unique hp.at_place, ?_⟩, hp.expr_eq, ?_,
    henv.mono hover, fun v m hv => ?_, fun d hd => ?_⟩
  · rintro rfl
    exact hp.at_place
  · rw [hp.bound_eq, Env.boundInOrder_top]
  · exact (sound _ c.depth ways p c.expr c.env c.next hp henv v m hv).mono hover
  · obtain ⟨_, e', env, n⟩ := c
    cases hd
    exact ⟨by rw [outcome, Expr.eval_succ], fun run => outcome_of_makes⟩

/-- The address of the inner body in a procedure that returns a procedure, where
the call comes from outside of both. -/
theorem curried_body_addressed :
    let e : Expr String :=
      .app (.app (.lam ["x"] (.lam ["y"] (.app (.ident "equal?")
        [.ident "x", .ident "y"]))) [.string "a"]) [.string "b"]
    let root : Call String := ⟨4, e, .top, 0⟩
    let c : Call String := ⟨3, .app (.ident "equal?") [.ident "x", .ident "y"],
      (Env.top.bind "x" (.string "a")).bind "y" (.string "b"), 2⟩
    Reached root [.body 1] c ∧
      ∃ p, (∀ q, At root [.body 1] q c ↔ q = p) ∧
        e.at? p = some c.expr ∧
        c.env.boundInOrder =
          ["+", "-", "*", "/", "<=", "equal?", "true", "false"] ++
            e.paramsTo p ∧
        c.env.All (OverLam root) ∧
        (∀ v m, c.outcome = .value (v, m) → v.All (OverLam root)) ∧
        ∀ d, c.depth = d + 1 →
          c.outcome = c.expr.evalWith (Expr.eval d) c.env c.next ∧
          ∀ run, (∀ way c', Makes c way c' →
              run c'.expr c'.env c'.next = c'.outcome) →
            c.expr.evalWith run c.env c.next = c.outcome := by
  intro e root c
  have hall : Expr.evalEach (Expr.eval 3 · Env.top)
      [.app (.lam ["x"] (.lam ["y"] (.app (.ident "equal?")
        [.ident "x", .ident "y"]))) [.string "a"], .string "b"] 0 =
      .value ([.closure 1 ["y"] (.app (.ident "equal?")
        [.ident "x", .ident "y"]) (Env.top.bind "x" (.string "a")),
        .string "b"], 2) := rfl
  have h : Reached root [.body 1] c := .step .root (.body hall rfl)
  exact ⟨h, h.addressed⟩

end Call

end BraceLisp
