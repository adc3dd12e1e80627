import BraceLisp.Proofs.Closures
import BraceLisp.Proofs.Faces
import BraceLisp.Proofs.Forms
import BraceLisp.Proofs.Nesting
import BraceLisp.Proofs.Postconditions

/-!
# Programs without procedures as values

Where a `lam` only ever stands as a callee, a procedure is applied as soon as it
is made and never seen again. If there were no procedures in the environment to
begin with, none gets into one, and none is what an expression comes to
(`Expr.FirstOrder.eval_ensures`): the operators return numbers and booleans.

The body of a closure is no part of the expression that applies it, so in
general nothing gets smaller when it is entered. Here it does: the procedure
that is applied is the `lam` in front of the arguments, and its body is nested
in the application. So every call is of lower height than the call that makes
it (`Call.FirstOrder.step`), calls nest no deeper than the expression is high
(`Call.FirstOrder.reached`), and this much depth is always enough.

All this holds of programs that bind names by `var` alone
(`Expr.first_order_of_term`), since that is how a `var` is parsed.
-/

namespace BraceLisp

variable {ν : Type}

/-- No closure. -/
def Closures.none : Closures ν := fun _ _ _ _ => False

theorem Value.all_none_iff {v : Value ν} :
    v.All Closures.none ↔
      ∀ i params body env, v ≠ .closure i params body env := by
  cases v with
  | closure i params body env =>
      refine ⟨fun h => ?_, fun h => absurd rfl (h i params body env)⟩
      rw [All] at h
      exact h.1.elim
  | number | string | boolean | primitive => simp [All]

/-- What is no closure is applied as an operator, or not at all. -/
theorem Value.All.applyWith_ensures {f : Value ν} (hf : f.All Closures.none)
    (run : Expr ν → Env ν → EvalM ν (Value ν)) (vs : List (Value ν)) :
    (f.applyWith run vs).Ensures (·.All Closures.none) fun _ => True := by
  cases f with
  | number | string | boolean => exact .fail trivial
  | primitive op =>
      refine .ofExcept (fun v hv => ?_) fun _ _ => trivial
      rcases Primitive.apply_eq_ok hv with ⟨x, rfl⟩ | ⟨b, rfl⟩
      · trivial
      · trivial
  | closure i params body held =>
      exact absurd rfl (all_none_iff.mp hf i params body held)

namespace Expr

mutual

/-- Every `lam` in the expression is the callee of an application. -/
inductive FirstOrder : Expr ν → Prop where
  | number (x : Float) : FirstOrder (.number x)
  | string (s : String) : FirstOrder (.string s)
  | ident (x : ν) : FirstOrder (.ident x)
  | cond {t a b : Expr ν} (ht : FirstOrder t) (ha : FirstOrder a)
      (hb : FirstOrder b) : FirstOrder (.cond t a b)
  | app {f : Expr ν} {args : List (Expr ν)} (hf : FirstOrderCallee f)
      (hargs : ∀ a ∈ args, FirstOrder a) : FirstOrder (.app f args)

/-- The same, where the expression itself is such a callee. -/
inductive FirstOrderCallee : Expr ν → Prop where
  | lam {params : List ν} {body : Expr ν} (hbody : FirstOrder body) :
      FirstOrderCallee (.lam params body)
  | other {e : Expr ν} (he : FirstOrder e) : FirstOrderCallee e

end

theorem FirstOrderCallee.cond {t a b : Expr ν}
    (h : (cond t a b).FirstOrderCallee) :
    t.FirstOrder ∧ a.FirstOrder ∧ b.FirstOrder := by
  cases h with
  | other h => cases h with | cond ht ha hb => exact ⟨ht, ha, hb⟩

theorem FirstOrderCallee.app {f : Expr ν} {args : List (Expr ν)}
    (h : (app f args).FirstOrderCallee) :
    f.FirstOrderCallee ∧ ∀ a ∈ args, a.FirstOrder := by
  cases h with
  | other h => cases h with | app hf hargs => exact ⟨hf, hargs⟩

/-! ## Height -/

mutual

/-- How many expressions are nested in each other, the outermost included. -/
def height : Expr ν → Nat
  | number _ | string _ | ident _ => 1
  | cond t a b => max t.height (max a.height b.height) + 1
  | lam _ body => body.height + 1
  | app f args => max f.height (heightAll args) + 1

def heightAll : List (Expr ν) → Nat
  | [] => 0
  | e :: es => max e.height (heightAll es)

end

theorem height_pos (e : Expr ν) : 0 < e.height := by
  cases e <;> simp only [height] <;> omega

theorem height_le_heightAll {e : Expr ν} {es : List (Expr ν)} (h : e ∈ es) :
    e.height ≤ heightAll es := by
  induction es with
  | nil => cases h
  | cons a es ih =>
      rw [heightAll]
      rcases List.mem_cons.mp h with rfl | h
      · exact Nat.le_max_left _ _
      · exact Nat.le_trans (ih h) (Nat.le_max_right _ _)

theorem height_lt_cond {t a b e : Expr ν} (h : e ∈ [t, a, b]) :
    e.height < (cond t a b).height := by
  simp only [List.mem_cons, List.not_mem_nil, or_false] at h
  rw [height]
  rcases h with rfl | rfl | rfl <;> omega

theorem height_lt_app {f e : Expr ν} {args : List (Expr ν)}
    (h : e ∈ f :: args) : e.height < (app f args).height := by
  have hle := height_le_heightAll h
  rw [heightAll] at hle
  rw [height]
  exact Nat.lt_succ_of_le hle

/-! ## No closures come of it -/

variable [DecidableEq ν]

theorem eval_lam_ensures (depth : Nat) (params : List ν) (body : Expr ν)
    (env : Env ν) : ((lam params body).eval depth env).Ensures
      (fun g => ∃ i, g = .closure i params body env) fun _ => True := by
  cases depth with
  | zero => exact .exhausted
  | succ depth => exact .bind .fresh fun i _ => .pure ⟨i, rfl⟩

theorem FirstOrder.eval_ensures {e : Expr ν} (he : e.FirstOrder) {env : Env ν}
    (henv : env.All Closures.none) (depth : Nat) :
    (e.eval depth env).Ensures (·.All Closures.none) fun _ => True := by
  induction depth generalizing e env with
  | zero => exact .exhausted
  | succ depth ih =>
      cases he with
      | number | string => exact .pure trivial
      | ident x =>
          exact .ofExcept (fun v hv => henv.of_lookup hv) fun _ _ => trivial
      | cond ht ha hb =>
          refine .bind (ih ht henv) fun v _ => ?_
          split
          · exact ih ha henv
          · exact ih hb henv
          · exact .fail trivial
      | @app f args hf hargs =>
          have hvalues := evalEach_ensures fun a ha => ih (hargs a ha) henv
          cases hf with
          | @lam params body hbody =>
              -- The closure holds the environment of the application itself.
              refine .bind (eval_lam_ensures depth params body env) ?_
              rintro _ ⟨i, rfl⟩
              refine .bind hvalues fun vs hvs => ?_
              have hextend : (Run.ofExcept (env.extend params vs)).Ensures
                  (·.All Closures.none) fun _ => True :=
                .ofExcept (fun _ h => henv.of_extend hvs h) fun _ _ => trivial
              exact .bind hextend fun held hheld => ih hbody hheld
          | other hf =>
              exact .bind (ih hf henv) fun g hg => .bind hvalues fun vs _ =>
                hg.applyWith_ensures (eval depth) vs

end Expr

/-! ## One call and a whole run -/

namespace Call

variable [DecidableEq ν] {root c c' : Call ν} {way : Way} {ways : List Way}

/-- A call for an expression without procedures as values, in an environment
without any; or for the `lam` of such a call. -/
structure FirstOrder (c : Call ν) : Prop where
  expr : c.expr.FirstOrderCallee
  env : c.env.All Closures.none

theorem FirstOrder.step (h : c.FirstOrder) (hmakes : Makes c way c') :
    c'.FirstOrder ∧ c'.expr.height < c.expr.height := by
  obtain ⟨hexpr, henv⟩ := h
  cases hmakes with
  | test =>
      exact ⟨⟨.other hexpr.cond.1, henv⟩, Expr.height_lt_cond (by simp)⟩
  | branch c htest =>
      obtain ⟨-, ha, hb⟩ := hexpr.cond
      refine ⟨⟨.other ?_, henv⟩, Expr.height_lt_cond ?_⟩
      · cases c
        · exact hb
        · exact ha
      · cases c <;> simp
  | @operand d n m f a args before after env vs hsplit hbefore =>
      obtain ⟨hf, hargs⟩ := hexpr.app
      have ha : a ∈ f :: args := by
        rw [hsplit]
        exact List.mem_append_cons_self
      refine ⟨⟨?_, henv⟩, Expr.height_lt_app ha⟩
      rcases List.mem_cons.mp ha with rfl | ha
      · exact hf
      · exact .other (hargs a ha)
  | @body d n m i f body args env held params vs hall hlen =>
      obtain ⟨hf, hargs⟩ := hexpr.app
      obtain ⟨g, k, ws, hg, hws, h⟩ := Expr.evalEach_cons_eq_value hall
      cases h
      have hvs := (Expr.evalEach_ensures fun a ha =>
        (hargs a ha).eval_ensures henv d).of_value hws
      cases hf with
      | @lam params' body' hbody =>
          -- What is applied was made of the callee just before.
          obtain ⟨j, h⟩ :=
            (Expr.eval_lam_ensures d params' body' env).of_value hg
          cases h
          refine ⟨⟨.other hbody, henv.bindAll hvs params⟩, ?_⟩
          simp only [Expr.height]
          omega
      | other hf =>
          have hclosure := (hf.eval_ensures henv d).of_value hg
          exact absurd rfl (Value.all_none_iff.mp hclosure i params body held)

/-- Calls nest no deeper than the expression is high. -/
theorem FirstOrder.reached (hroot : root.FirstOrder)
    (h : Reached root ways c) :
    c.FirstOrder ∧ ways.length + c.expr.height ≤ root.expr.height := by
  induction h with
  | root => exact ⟨hroot, Nat.le_of_eq (Nat.zero_add _)⟩
  | step h hmakes ih =>
      obtain ⟨hc, hle⟩ := ih
      obtain ⟨hc', hlt⟩ := hc.step hmakes
      refine ⟨hc', ?_⟩
      rw [List.length_append, List.length_singleton]
      omega

theorem FirstOrder.length_lt_height (hroot : root.FirstOrder)
    (h : Reached root ways c) : ways.length < root.expr.height := by
  have hle := (hroot.reached h).2
  have hpos := c.expr.height_pos
  omega

theorem FirstOrder.outcome_ne_exhausted (hroot : root.FirstOrder)
    (hdepth : root.expr.height ≤ root.depth) : root.outcome ≠ .exhausted := by
  intro h
  obtain ⟨ways, c, hc, hlen⟩ := outcome_eq_exhausted_iff.mp h
  have hlt := hroot.length_lt_height hc
  omega

end Call

/-! ## Programs that bind by `var` -/

/-- No `lam` form is among the expressions that the term is made of. -/
inductive Term.BindsByVar : Term → Prop where
  | atom (a : Atom) : BindsByVar (.atom a)
  | form {items : List Term} {form : Form} (h : Form.ofItems items = .ok form)
      (hlam : ∀ params body, form ≠ .lam params body)
      (hparts : ∀ t ∈ form.parts, BindsByVar t) : BindsByVar (.list items)

namespace Expr

theorem first_order_of_terms {ts : List Term} {es : List (Expr String)}
    (ih : ∀ t ∈ ts, ∀ e, ofTerm t = .ok e → e.FirstOrder)
    (h : ofTerms ts = .ok es) : ∀ e ∈ es, e.FirstOrder := by
  have hes := ofTerms_eq_ok_iff.mp h
  clear h
  induction hes with
  | nil => exact nofun
  | cons he _ ih' =>
      rw [List.forall_mem_cons] at ih ⊢
      exact ⟨ih.1 _ he, ih' ih.2⟩

theorem first_order_of_term {t : Term} (h : t.BindsByVar) {e : Expr String}
    (he : ofTerm t = .ok e) : e.FirstOrder := by
  induction h generalizing e with
  | atom a =>
      cases a with
      | number x => rw [ofTerm_number] at he; cases he; exact .number x
      | string s => rw [ofTerm_string] at he; cases he; exact .string s
      | symbol s =>
          rw [ofTerm_symbol] at he
          split at he
          · cases he
          · cases he; exact .ident s
  | @form items form hitems hlam _ ih =>
      rw [ofTerm_list, hitems] at he
      replace he : ofForm form = .ok e := he
      cases form with
      | cond test thenBranch elseBranch =>
          simp only [ofForm, bind_eq_ok_iff] at he
          obtain ⟨t, ht, a, ha, b, hb, ⟨⟩⟩ := he
          simp only [Form.parts, List.forall_mem_cons] at ih
          exact .cond (ih.1 ht) (ih.2.1 ha) (ih.2.2.1 hb)
      | lam params body => exact absurd rfl (hlam params body)
      | var clauses body =>
          simp only [ofForm, bind_eq_ok_iff] at he
          obtain ⟨names, -, b, hb, es, hes, ⟨⟩⟩ := he
          rw [Form.parts, List.forall_mem_cons] at ih
          exact .app (.lam (ih.1 hb))
            (first_order_of_terms (fun t ht _ => ih.2 t ht) hes)
      | app callee args =>
          simp only [ofForm, bind_eq_ok_iff] at he
          obtain ⟨f, hf, es, hes, ⟨⟩⟩ := he
          rw [Form.parts, List.forall_mem_cons] at ih
          exact .app (.other (ih.1 hf))
            (first_order_of_terms (fun t ht _ => ih.2 t ht) hes)

/-! ## The law -/

/-- Where every `lam` is a callee and the environment holds no closure, an
evaluation ends: the height of the expression is depth enough, and a call is
reached through fewer ways than this, at any depth. What it ends with is no
closure. Terms that bind by `var` alone are such expressions, and the top-level
environment is such an environment. -/
theorem first_order_ends [DecidableEq ν] :
    (∀ (e : Expr ν) (env : Env ν) (next : Nat), e.FirstOrder →
      env.All Closures.none → ∃ r,
        (∀ depth, e.height ≤ depth →
          (e.eval depth env next).answer? = some r) ∧
        (∀ v, r = .ok v → ∀ i params body held,
          v ≠ .closure i params body held) ∧
        ∀ depth ways c, Call.Reached ⟨depth, e, env, next⟩ ways c →
          ways.length < e.height) ∧
    (∀ (t : Term) (e : Expr String), t.BindsByVar → ofTerm t = .ok e →
      e.FirstOrder) ∧
    Env.top.All Closures.none := by
  refine ⟨fun e env next he henv => ?_, fun t e h => first_order_of_term h,
    Env.all_top⟩
  have hroot : ∀ depth, Call.FirstOrder ⟨depth, e, env, next⟩ :=
    fun depth => ⟨.other he, henv⟩
  have hanswer : (e.eval e.height env next).answer? ≠ none := by
    rw [ne_eq, Outcome.answer?_eq_none]
    exact (hroot e.height).outcome_ne_exhausted (Nat.le_refl e.height)
  obtain ⟨r, hr⟩ := Option.ne_none_iff_exists'.mp hanswer
  refine ⟨r, fun depth hle => ?_, fun v hv => ?_,
    fun depth ways c hc => (hroot depth).length_lt_height hc⟩
  · rw [(e.eval_deepens env).eq_of_answer? hle hr, hr]
  · have hends : e.Ends env next r := ⟨e.height, hr⟩
    have hv := (Run.Ensures.of_ends (he.eval_ensures henv) hends).1 v hv
    exact Value.all_none_iff.mp hv

/-- A `var` whose body compares the name with itself. -/
theorem first_order_ends_var :
    let t : Term := .list [.symbol "var",
      .list [.symbol "x", .symbol "=", .atom (.string "a")],
      .list [.symbol "equal?", .symbol "x", .symbol "x"]]
    let e : Expr String := .app (.lam ["x"]
      (.app (.ident "equal?") [.ident "x", .ident "x"])) [.string "a"]
    t.BindsByVar ∧ ofTerm t = .ok e ∧ e.FirstOrder ∧ e.height = 4 ∧
      Env.top.All Closures.none ∧
      ∀ depth, 4 ≤ depth →
        (e.eval depth .top 0).answer? = some (.ok (.boolean true)) := by
  intro t e
  obtain ⟨hlaw, hparse, htop⟩ := @first_order_ends String _
  have hbody : Term.BindsByVar
      (.list [.symbol "equal?", .symbol "x", .symbol "x"]) := by
    refine .form rfl (by simp) ?_
    simp only [Form.parts, List.forall_mem_cons]
    exact ⟨.atom _, .atom _, .atom _, List.forall_mem_nil _⟩
  have hvar : t.BindsByVar := by
    refine .form rfl (by simp) ?_
    simp only [Form.parts, List.map_cons, List.forall_mem_cons]
    exact ⟨hbody, .atom _, List.forall_mem_nil _⟩
  have he : ofTerm t = .ok e := by with_unfolding_all rfl
  have hfirst := hparse t e hvar he
  obtain ⟨r, hends, -⟩ := hlaw e .top 0 hfirst htop
  have hr : some r = some (.ok (.boolean true)) :=
    (hends 4 (Nat.le_refl 4)).symm
  rw [hr] at hends
  exact ⟨hvar, he, hfirst, rfl, htop, hends⟩

end Expr

end BraceLisp
