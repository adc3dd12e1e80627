import BraceLisp.Proofs.Faults
import BraceLisp.Proofs.Grammar
import Mathlib.Data.List.Nodup
import Mathlib.Logic.Relation

/-!
# Faults have evidence

When a term does not parse, the fault that is reported is there to be seen:
some term that stands in the place of an expression is evidence of it. Places
and evidence are told rule by rule and without a parser. `Term.StandsIn` goes
from a form into its parts and does not look into groups that are no form, where
nothing is an expression; `Term.Evidence` has a rule for each way in which one
group or one symbol is at fault.

The parser leaves a form early, and the body of a `var` comes before the values
of its clauses, so which evidence is met first is a matter of its order. That
the reported fault has some is not: a form is rejected for its own parameters or
for one of its parts (`Expr.ofForm_eq_error`), and the parts stand in the term.
So what holds of every fault that has evidence, such as that terms bear no
places, holds of what the parser reports (`Expr.place?_of_ofTerm`).
-/

namespace BraceLisp

namespace Term

/-! ## Places of expressions -/

/-- The terms in the places of parameters: those of a `lam` over a list, or the
names of a `var` that has clauses and then a body. -/
inductive HasParams : Term → List Term → Prop where
  | lam {params : List Term} {body : Term} :
      HasParams (.list [.symbol "lam", .list params, body]) params
  | var {clauses : List Clause} {body : Term} (hne : clauses ≠ []) :
      HasParams
        (.list (.symbol "var" :: (clauses.map Clause.term ++ [body])))
        (clauses.map Clause.name)

/-- The first term is a part of the second, in the place of an expression. -/
inductive ExprPart : Term → Term → Prop where
  | cond {test thenBranch elseBranch t : Term}
      (ht : t ∈ [test, thenBranch, elseBranch]) :
      ExprPart t (.list [.symbol "if", test, thenBranch, elseBranch])
  | lam {params : List Term} {body : Term} :
      ExprPart body (.list [.symbol "lam", .list params, body])
  | varBody {clauses : List Clause} {body : Term} (hne : clauses ≠ []) :
      ExprPart body
        (.list (.symbol "var" :: (clauses.map Clause.term ++ [body])))
  | varValue {clauses : List Clause} {body : Term} {c : Clause}
      (hc : c ∈ clauses) :
      ExprPart c.value
        (.list (.symbol "var" :: (clauses.map Clause.term ++ [body])))
  | app {callee t : Term} {args : List Term}
      (hhead : ∀ s ∈ ["if", "lam", "var"], callee ≠ .symbol s)
      (ht : t ∈ callee :: args) : ExprPart t (.list (callee :: args))

/-- The first term stands somewhere in the second in the place of an
expression, or is all of it. -/
def StandsIn : Term → Term → Prop := Relation.ReflTransGen ExprPart

/-! ## Evidence -/

/-- The term is, by itself, at fault in this way. -/
inductive Evidence : Term → SyntaxError → Prop where
  | malformedIf {rest : List Term} (h : rest.length ≠ 3) :
      Evidence (.list (.symbol "if" :: rest)) .malformedIf
  | malformedLam {rest : List Term}
      (h : ∀ params body, rest ≠ [.list params, body]) :
      Evidence (.list (.symbol "lam" :: rest)) .malformedLam
  | shortVar {rest : List Term} (h : rest.length < 2) :
      Evidence (.list (.symbol "var" :: rest)) .malformedVar
  | malformedClause {before behind : List Term} {t : Term}
      (ht : ∀ name value, t ≠ .list [name, .symbol "=", value])
      (hbehind : behind ≠ []) :
      Evidence (.list (.symbol "var" :: (before ++ t :: behind))) .malformedVar
  | emptyApplication : Evidence (.list []) .emptyApplication
  | duplicateParameter {t : Term} {params : List Term} {s : String}
      (ht : t.HasParams params)
      (hs : List.Sublist [.symbol s, .symbol s] params) :
      Evidence t (.duplicateParameter s)
  | reservedName {s : String} (hs : s ∈ ["var", "if", "lam", "="]) :
      Evidence (.symbol s) (.reservedWord s)
  | reservedParameter {t : Term} {params : List Term} {s : String}
      (ht : t.HasParams params) (hmem : .symbol s ∈ params)
      (hs : s ∈ ["var", "if", "lam", "="]) : Evidence t (.reservedWord s)
  | invalidParameter {t p : Term} {params : List Term}
      (ht : t.HasParams params) (hmem : p ∈ params)
      (hp : ∀ s, p ≠ .symbol s) : Evidence t (.invalidParameter p.text)

end Term

/-! ## The shape of a group -/

theorem Clause.exists_malformed {items : List Term}
    (h : splitBody? items = none) :
    items = [] ∨ ∃ before t behind, items = before ++ t :: behind ∧
      behind ≠ [] ∧ ofTerm? t = none := by
  fun_induction splitBody? items with
  | case1 => exact .inl rfl
  | case2 => cases h
  | case3 => cases h
  | case4 t rest hne hnone ih =>
      cases ht : ofTerm? t with
      | none => exact .inr ⟨[], t, rest, rfl, hne, ht⟩
      | some c =>
          cases hrest : splitBody? rest with
          | some s => exact absurd hrest (hnone c s.1 s.2 ht)
          | none =>
              obtain rfl | ⟨before, u, behind, rfl, hbehind, hu⟩ := ih hrest
              · exact absurd rfl hne
              · exact .inr ⟨t :: before, u, behind, rfl, hbehind, hu⟩

theorem Clause.ne_of_ofTerm?_eq_none {t : Term} (h : ofTerm? t = none)
    (name value : Term) : t ≠ .list [name, .symbol "=", value] := by
  intro ht
  have hsome : ofTerm? t = some ⟨name, value⟩ := ofTerm?_eq_some_iff.mpr ht
  rw [h] at hsome
  cases hsome

/-- A group that is no form is evidence of what is wrong with it. -/
theorem Form.evidence_of_ofItems {items : List Term} {e : SyntaxError}
    (h : ofItems items = .error e) : (Term.list items).Evidence e := by
  unfold ofItems at h
  split at h
  · cases h
    exact .emptyApplication
  · next head rest =>
      split at h
      · next hhead =>
          obtain rfl := Keyword.ofTerm?_eq_some_iff.mp hhead
          split at h
          · cases h
          · next hrest =>
              cases h
              refine .malformedIf fun hlen => ?_
              obtain ⟨a, b, c, rfl⟩ := List.length_eq_three.mp hlen
              exact hrest a b c rfl
      · next hhead =>
          obtain rfl := Keyword.ofTerm?_eq_some_iff.mp hhead
          split at h
          · cases h
          · next hrest =>
              cases h
              exact .malformedLam hrest
      · next hhead =>
          obtain rfl := Keyword.ofTerm?_eq_some_iff.mp hhead
          split at h
          · cases h
          · next hsplit =>
              cases h
              cases hrest : Clause.splitBody? rest with
              | none =>
                  obtain rfl | ⟨before, t, behind, rfl, hbehind, ht⟩ :=
                    Clause.exists_malformed hrest
                  · exact .shortVar (Nat.zero_lt_succ 1)
                  · exact .malformedClause (Clause.ne_of_ofTerm?_eq_none ht)
                      hbehind
              | some s =>
                  obtain ⟨clauses, body⟩ := s
                  cases clauses with
                  | cons c clauses => exact absurd hrest (hsplit c clauses body)
                  | nil =>
                      obtain rfl := Clause.splitBody?_eq_some_iff.mp hrest
                      exact .shortVar (Nat.lt_succ_self 1)
      · cases h

namespace Form

theorem length_of_ofItems_if {rest : List Term} {form : Form}
    (h : ofItems (.symbol "if" :: rest) = .ok form) : rest.length = 3 := by
  have hhead : Keyword.ofTerm? (.symbol "if") = some .cond := rfl
  simp only [ofItems, hhead] at h
  split at h
  · rfl
  · cases h

theorem exists_of_ofItems_lam {rest : List Term} {form : Form}
    (h : ofItems (.symbol "lam" :: rest) = .ok form) :
    ∃ params body, rest = [.list params, body] := by
  have hhead : Keyword.ofTerm? (.symbol "lam") = some .lam := rfl
  simp only [ofItems, hhead] at h
  split at h
  · next params body => exact ⟨params, body, rfl⟩
  · cases h

theorem exists_of_ofItems_var {rest : List Term} {form : Form}
    (h : ofItems (.symbol "var" :: rest) = .ok form) :
    ∃ c clauses body, rest = (c :: clauses).map Clause.term ++ [body] := by
  have hhead : Keyword.ofTerm? (.symbol "var") = some .var := rfl
  simp only [ofItems, hhead] at h
  split at h
  · next hsplit => exact ⟨_, _, _, Clause.splitBody?_eq_some_iff.mp hsplit⟩
  · cases h

end Form

/-! ## Parameters -/

/-- The terms are evidence of a fault in a parameter list. -/
inductive ParamFault (params : List Term) : SyntaxError → Prop where
  | duplicate {s : String} (hs : List.Sublist [.symbol s, .symbol s] params) :
      ParamFault params (.duplicateParameter s)
  | reserved {s : String} (hmem : .symbol s ∈ params) (hs : Reserved s) :
      ParamFault params (.reservedWord s)
  | invalid {p : Term} (hmem : p ∈ params) (hp : ∀ s, p ≠ .symbol s) :
      ParamFault params (.invalidParameter p.text)

theorem ParamFault.evidence {params : List Term} {e : SyntaxError}
    (h : ParamFault params e) {t : Term} (ht : t.HasParams params) :
    t.Evidence e := by
  cases h with
  | duplicate hs => exact .duplicateParameter ht hs
  | reserved hmem hs => exact .reservedParameter ht hmem hs
  | invalid hmem hp => exact .invalidParameter ht hmem hp

namespace Expr

theorem paramFault_of_paramsFrom {seen : List String} {terms : List Term}
    {e : SyntaxError} (h : paramsFrom seen terms = .error e) :
    ParamFault (seen.reverse.map .symbol ++ terms) e := by
  induction terms generalizing seen with
  | nil => cases h
  | cons t terms ih =>
      have ht : t ∈ seen.reverse.map .symbol ++ t :: terms :=
        List.mem_append_right _ List.mem_cons_self
      by_cases hsymbol : ∃ s, t = .symbol s
      · obtain ⟨s, rfl⟩ := hsymbol
        rw [paramsFrom_symbol] at h
        split at h
        · next hs => cases h; exact .reserved ht hs
        · split at h
          · next hseen =>
              cases h
              have hleft : .symbol s ∈ seen.reverse.map Term.symbol :=
                List.mem_map_of_mem (List.mem_reverse.mpr hseen)
              exact .duplicate (.append (List.singleton_sublist.mpr hleft)
                (List.singleton_sublist.mpr List.mem_cons_self))
          · rcases bind_eq_error_iff.mp h with h | ⟨names, -, h⟩
            · have hfault := ih h
              rw [List.reverse_cons, List.map_append, List.append_assoc]
                at hfault
              exact hfault
            · cases h
      · rw [not_exists] at hsymbol
        rw [paramsFrom_other seen terms hsymbol] at h
        cases h
        exact .invalid ht hsymbol

theorem paramFault_of_paramsOf {terms : List Term} {e : SyntaxError}
    (h : paramsOf terms = .error e) : ParamFault terms e :=
  paramFault_of_paramsFrom h

/-- Parameters that are in order show no fault. -/
theorem not_paramFault_of_paramsOf {terms : List Term} {names : List String}
    (h : paramsOf terms = .ok names) (e : SyntaxError) :
    ¬ParamFault terms e := by
  obtain ⟨rfl, hnodup, hnames⟩ := paramsOf_eq_ok_iff.mp h
  have hsymbol : Function.Injective Term.symbol := by
    intro s s' h
    injection h with h
    injection h
  intro hfault
  cases hfault with
  | @duplicate s hs =>
      have hsub : List.Sublist ([s, s].map Term.symbol)
        (names.map Term.symbol) := hs
      have htwice := (List.Nodup.map hsymbol hnodup).sublist hsub
      simp at htwice
  | @reserved s hmem hs =>
      obtain ⟨s', hs', h⟩ := List.mem_map.mp hmem
      exact hnames s' hs' (hsymbol h ▸ hs)
  | invalid hmem hp =>
      obtain ⟨s, -, h⟩ := List.mem_map.mp hmem
      exact hp s h.symm

end Expr

/-! ## Forms -/

namespace Form

theorem exprPart_items {form : Form} (hshaped : form.Shaped) {t : Term}
    (ht : t ∈ form.parts) : t.ExprPart (.list form.items) := by
  cases form with
  | cond test thenBranch elseBranch => exact .cond ht
  | lam params body =>
      obtain rfl := List.mem_singleton.mp ht
      exact .lam
  | var clauses body =>
      rcases List.mem_cons.mp ht with rfl | ht
      · exact .varBody hshaped
      · obtain ⟨c, hc, rfl⟩ := List.mem_map.mp ht
        exact .varValue hc
  | app callee args => exact .app (Term.ofTerm?_eq_none_iff.mp hshaped) ht

/-- A form whose parameters are at fault has parameters. -/
theorem hasParams_items {form : Form} (hshaped : form.Shaped)
    {e : SyntaxError} (h : Expr.paramsOf form.params = .error e) :
    (Term.list form.items).HasParams form.params := by
  cases form with
  | cond | app => cases h
  | lam params body => exact .lam
  | var clauses body => exact .var hshaped

end Form

namespace Term

theorem ExprPart.exists_form {t u : Term} (h : t.ExprPart u) :
    ∃ form : Form, form.Shaped ∧ u = .list form.items ∧ t ∈ form.parts := by
  cases h with
  | @cond test thenBranch elseBranch _ ht =>
      exact ⟨.cond test thenBranch elseBranch, trivial, rfl, ht⟩
  | @lam params body =>
      exact ⟨.lam params t, trivial, rfl, List.mem_singleton_self t⟩
  | @varBody clauses _ hne =>
      exact ⟨.var clauses t, hne, rfl, List.mem_cons_self⟩
  | @varValue clauses body c hc =>
      refine ⟨.var clauses body, List.ne_nil_of_mem hc, rfl, ?_⟩
      exact List.mem_cons_of_mem body (List.mem_map_of_mem hc)
  | @app callee _ args hhead ht =>
      exact ⟨.app callee args, ofTerm?_eq_none_iff.mpr hhead, rfl, ht⟩

theorem HasParams.exists_form {t : Term} {params : List Term}
    (h : t.HasParams params) :
    ∃ form : Form, form.Shaped ∧ t = .list form.items ∧
      form.params = params := by
  cases h with
  | @lam _ body => exact ⟨.lam params body, trivial, rfl, rfl⟩
  | @var clauses body hne => exact ⟨.var clauses body, hne, rfl, rfl⟩

end Term

namespace Expr

/-- A fault of a term has evidence in it. -/
theorem exists_evidence {t : Term} {e : SyntaxError}
    (h : ofTerm t = .error e) : ∃ u : Term, u.StandsIn t ∧ u.Evidence e := by
  induction t using Term.form_induction with
  | atom a =>
      refine ⟨.atom a, .refl, ?_⟩
      cases a with
      | number => rw [ofTerm_number] at h; cases h
      | string => rw [ofTerm_string] at h; cases h
      | symbol s =>
          rw [← Term.symbol, ofTerm_symbol] at h
          split at h
          · next hs => cases h; exact .reservedName hs
          · cases h
  | malformed items e' hitems =>
      rw [ofTerm_list, hitems] at h
      cases h
      exact ⟨.list items, .refl, Form.evidence_of_ofItems hitems⟩
  | form items form hform ih =>
      obtain ⟨rfl, hshaped⟩ := Form.ofItems_eq_ok_iff.mp hform
      rw [ofTerm_items hshaped] at h
      rcases ofForm_eq_error h with h | ⟨t, ht, h⟩
      · refine ⟨.list form.items, .refl, ?_⟩
        exact (paramFault_of_paramsOf h).evidence
          (Form.hasParams_items hshaped h)
      · obtain ⟨u, hu, hevidence⟩ := ih t ht h
        exact ⟨u, hu.tail (Form.exprPart_items hshaped ht), hevidence⟩

/-- What the parser finds wrong bears no place. -/
theorem place?_of_ofTerm {t : Term} {e : SyntaxError}
    (h : ofTerm t = .error e) : e.place? = none := by
  obtain ⟨u, -, hevidence⟩ := exists_evidence h
  cases hevidence <;> rfl

/-! ## Evidence stands in no expression -/

theorem isOk_of_exprPart {t u : Term} (htu : t.ExprPart u)
    (h : ∃ e, ofTerm u = .ok e) : ∃ e, ofTerm t = .ok e := by
  obtain ⟨form, hshaped, rfl, ht⟩ := htu.exists_form
  rw [ofTerm_items hshaped] at h
  exact (ofForm_isOk_iff.mp h).2 t ht

theorem isOk_of_standsIn {t u : Term} (htu : t.StandsIn u)
    (h : ∃ e, ofTerm u = .ok e) : ∃ e, ofTerm t = .ok e := by
  induction htu with
  | refl => exact h
  | tail _ hpart ih => exact ih (isOk_of_exprPart hpart h)

theorem not_paramFault_of_isOk {t : Term} {params : List Term}
    (ht : t.HasParams params) (h : ∃ e, ofTerm t = .ok e) (e : SyntaxError) :
    ¬ParamFault params e := by
  obtain ⟨form, hshaped, rfl, rfl⟩ := ht.exists_form
  rw [ofTerm_items hshaped] at h
  obtain ⟨names, hnames⟩ := (ofForm_isOk_iff.mp h).1
  exact not_paramFault_of_paramsOf hnames e

theorem exists_form_of_isOk {items : List Term}
    (h : ∃ e, ofTerm (.list items) = .ok e) :
    ∃ form, Form.ofItems items = .ok form := by
  obtain ⟨e, h⟩ := h
  rw [ofTerm_list] at h
  obtain ⟨form, hform, -⟩ := bind_eq_ok_iff.mp h
  exact ⟨form, hform⟩

theorem not_isOk_of_evidence {t : Term} {e : SyntaxError}
    (h : t.Evidence e) : ¬∃ x, ofTerm t = .ok x := by
  intro hok
  cases h with
  | @malformedIf rest h =>
      obtain ⟨form, hform⟩ := exists_form_of_isOk hok
      exact h (Form.length_of_ofItems_if hform)
  | @malformedLam rest h =>
      obtain ⟨form, hform⟩ := exists_form_of_isOk hok
      obtain ⟨params, body, hrest⟩ := Form.exists_of_ofItems_lam hform
      exact h params body hrest
  | @shortVar rest h =>
      obtain ⟨form, hform⟩ := exists_form_of_isOk hok
      obtain ⟨c, clauses, body, rfl⟩ := Form.exists_of_ofItems_var hform
      simp only [List.map_cons, List.length_append, List.length_cons] at h
      omega
  | @malformedClause before behind t ht hbehind =>
      obtain ⟨form, hform⟩ := exists_form_of_isOk hok
      obtain ⟨c, clauses, body, hrest⟩ := Form.exists_of_ofItems_var hform
      have hinit : before ++ t :: behind.dropLast =
          (c :: clauses).map Clause.term := by
        have hdrop := congrArg List.dropLast hrest
        rw [List.dropLast_concat, List.dropLast_append_cons,
          List.dropLast_cons_of_ne_nil hbehind] at hdrop
        exact hdrop
      have hmem : t ∈ (c :: clauses).map Clause.term := by
        rw [← hinit]
        exact List.mem_append_right _ List.mem_cons_self
      obtain ⟨c', -, rfl⟩ := List.mem_map.mp hmem
      exact ht c'.name c'.value rfl
  | emptyApplication =>
      obtain ⟨form, hform⟩ := exists_form_of_isOk hok
      cases hform
  | duplicateParameter ht hs =>
      exact not_paramFault_of_isOk ht hok _ (.duplicate hs)
  | @reservedName s hs =>
      obtain ⟨x, h⟩ := hok
      rw [ofTerm_symbol, if_pos (show Reserved s from hs)] at h
      cases h
  | reservedParameter ht hmem hs =>
      exact not_paramFault_of_isOk ht hok _ (.reserved hmem hs)
  | invalidParameter ht hmem hp =>
      exact not_paramFault_of_isOk ht hok _ (.invalid hmem hp)

/-! ## The law -/

/-- Every fault that the parser reports has evidence in the term: some term in
the place of an expression is at fault in just this way. And what the parser
accepts has no evidence of any fault in it. -/
theorem reported_fault_is_evident (t : Term) :
    (∀ e, ofTerm t = .error e → ∃ u : Term, u.StandsIn t ∧ u.Evidence e) ∧
      ((∃ e, ofTerm t = .error e) ↔
        ∃ (u : Term) (e : SyntaxError), u.StandsIn t ∧ u.Evidence e) := by
  refine ⟨fun e h => exists_evidence h, ?_, ?_⟩
  · rintro ⟨e, h⟩
    obtain ⟨u, hu, hevidence⟩ := exists_evidence h
    exact ⟨u, e, hu, hevidence⟩
  · rintro ⟨u, e, hu, hevidence⟩
    cases h : ofTerm t with
    | error e' => exact ⟨e', rfl⟩
    | ok x =>
        exact absurd (isOk_of_standsIn hu ⟨x, h⟩)
          (not_isOk_of_evidence hevidence)

/-- A `var` whose body names a parameter twice, before a value that is no
expression either. -/
theorem body_before_value_is_evident :
    let t : Term := .list [.symbol "var",
      .list [.symbol "x", .symbol "=", .list [.symbol "if", .symbol "x"]],
      .list [.symbol "lam", .list [.symbol "y", .symbol "y"], .symbol "x"]]
    ofTerm t = .error (.duplicateParameter "y") ∧
      ∃ u : Term, u.StandsIn t ∧ u.Evidence (.duplicateParameter "y") := by
  intro t
  have h : ofTerm t = .error (.duplicateParameter "y") := by
    with_unfolding_all rfl
  exact ⟨h, (reported_fault_is_evident t).1 _ h⟩

end Expr

end BraceLisp
