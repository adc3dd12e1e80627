import BraceLisp.Proofs.Forms

/-!
# `var` is a way of writing applications

`Term.desugar` rewrites every `var` form of a term into the application that it
stands for: a `lam` over the names of the clauses, applied to their values. It
works on terms and knows nothing of the parser. The parser cannot tell the two
ways of writing apart, not even by the fault that it reports
(`Expr.ofTerm_desugar`).

Both ways lead through the same checks in the same order: first the parameters,
then the body, then the values from left to right. What is left to see is that
rewriting the parts of a form keeps its shape, and for that only callees matter,
since a callee that became a keyword, or was one before, would change the form.
-/

namespace BraceLisp

namespace Term

/-! ## Rewriting -/

mutual

/-- The term with its `var` forms rewritten, wherever an expression stands. A
group that is no form has no expressions in it and stays as it is, and so do
the terms in the places of names. -/
def desugar : Term → Term
  | atom a => atom a
  | list [atom (.symbol "if"), test, thenBranch, elseBranch] =>
    list [symbol "if", test.desugar, thenBranch.desugar, elseBranch.desugar]
  | list [atom (.symbol "lam"), list params, body] =>
    list [symbol "lam", list params, body.desugar]
  | list (atom (.symbol "var") :: rest) =>
    match desugarVar rest with
    | some (name :: names, values, body) =>
      list (list [symbol "lam", list (name :: names), body] :: values)
    | _ => list (symbol "var" :: rest)
  | list (atom (.symbol "if") :: rest) => list (symbol "if" :: rest)
  | list (atom (.symbol "lam") :: rest) => list (symbol "lam" :: rest)
  | list items => list (desugarAll items)

def desugarAll : List Term → List Term
  | [] => []
  | t :: items => t.desugar :: desugarAll items

/-- The names, the rewritten values and the rewritten body behind a `var`, if
all but the last member are clauses `{name = value}`. -/
def desugarVar : List Term → Option (List Term × List Term × Term)
  | [] => none
  | [body] => some ([], [], body.desugar)
  | list [name, atom (.symbol "="), value] :: rest =>
    match desugarVar rest with
    | some (names, values, body) =>
      some (name :: names, value.desugar :: values, body)
    | none => none
  | _ => none

end

theorem desugarAll_eq_map (ts : List Term) :
    desugarAll ts = ts.map desugar := by
  induction ts with
  | nil => rfl
  | cons t ts ih => rw [desugarAll, ih, List.map_cons]

theorem desugarVar_eq (rest : List Term) :
    desugarVar rest = (Clause.splitBody? rest).map fun s =>
      (s.1.map Clause.name, s.1.map (·.value.desugar), s.2.desugar) := by
  fun_induction Clause.splitBody? rest with
  | case1 => rfl
  | case2 body => rfl
  | case3 t rest hne c clauses body hrest hc ih =>
      obtain rfl := Clause.ofTerm?_eq_some_iff.mp hc
      rw [hrest, Option.map_some] at ih
      rw [Clause.term, bindingMark, desugarVar, ih]
      · rfl
      · exact hne
  | case4 t rest hne hnone ih =>
      cases hc : Clause.ofTerm? t with
      | none =>
          rw [desugarVar]
          · rfl
          · simp
          · intro body h
            exact hne (List.cons.inj h).2
          · intro name value rest' h
            rw [(List.cons.inj h).1] at hc
            cases hc
      | some c =>
          obtain rfl := Clause.ofTerm?_eq_some_iff.mp hc
          cases hrest : Clause.splitBody? rest with
          | some s => exact absurd hrest (hnone c s.1 s.2 hc)
          | none =>
              rw [hrest, Option.map_none] at ih
              rw [Clause.term, bindingMark, desugarVar, ih]
              · rfl
              · exact hne

end Term

/-- The form rewritten. -/
def Form.desugar : Form → Term
  | cond test thenBranch elseBranch =>
    .list (cond test.desugar thenBranch.desugar elseBranch.desugar).items
  | lam params body => .list (lam params body.desugar).items
  | var clauses body =>
    .list (app (.list (lam (clauses.map Clause.name) body.desugar).items)
      (clauses.map (·.value.desugar))).items
  | app callee args => .list (app callee.desugar (args.map Term.desugar)).items

namespace Term

theorem desugar_malformed {items : List Term} {e : SyntaxError}
    (h : Form.ofItems items = .error e) :
    (list items).desugar = list items := by
  unfold Form.ofItems at h
  split at h
  · rfl
  · next head rest =>
      split at h
      · next hhead =>
          obtain rfl := Keyword.ofTerm?_eq_some_iff.mp hhead
          split at h
          · cases h
          · next hrest =>
              rw [Keyword.name, desugar]
              exact hrest
      · next hhead =>
          obtain rfl := Keyword.ofTerm?_eq_some_iff.mp hhead
          split at h
          · cases h
          · next hrest =>
              rw [Keyword.name, desugar]
              exact hrest
      · next hhead =>
          obtain rfl := Keyword.ofTerm?_eq_some_iff.mp hhead
          split at h
          · cases h
          · next hsplit =>
              rw [Keyword.name, desugar, desugarVar_eq]
              cases hrest : Clause.splitBody? rest with
              | none => rfl
              | some s =>
                  obtain ⟨clauses, body⟩ := s
                  cases clauses with
                  | nil => rfl
                  | cons c clauses => exact absurd hrest (hsplit c clauses body)
      · cases h

theorem desugar_items {form : Form} (h : form.Shaped) :
    (list form.items).desugar = form.desugar := by
  cases form with
  | cond | lam => rfl
  | var clauses body =>
      obtain ⟨c, clauses, rfl⟩ := List.exists_cons_of_ne_nil h
      have hsplit := Clause.splitBody?_eq_some_iff.mpr
        (rfl : (c :: clauses).map Clause.term ++ [body] = _)
      rw [Form.items, Keyword.name, desugar, desugarVar_eq, hsplit]
      rfl
  | app callee args =>
      have hcallee : ∀ k : Keyword, callee = symbol k.name → False := by
        intro k hk
        have hsome := Keyword.ofTerm?_eq_some_iff.mpr hk
        rw [show Keyword.ofTerm? callee = none from h] at hsome
        cases hsome
      rw [Form.items, desugar, desugarAll_eq_map]
      · rfl
      · intro t a b hitems
        exact hcallee .cond (List.cons.inj hitems).1
      · intro params body hitems
        exact hcallee .lam (List.cons.inj hitems).1
      · intro rest hitems
        exact hcallee .var (List.cons.inj hitems).1
      · intro rest hitems
        exact hcallee .cond (List.cons.inj hitems).1
      · intro rest hitems
        exact hcallee .lam (List.cons.inj hitems).1

/-- Rewriting makes no keywords. -/
theorem ofTerm?_desugar {t : Term} (h : Keyword.ofTerm? t = none) :
    Keyword.ofTerm? t.desugar = none := by
  cases t with
  | atom a => exact h
  | list items =>
      cases hform : Form.ofItems items with
      | error e => rw [desugar_malformed hform]; rfl
      | ok form =>
          obtain ⟨rfl, hshaped⟩ := Form.ofItems_eq_ok_iff.mp hform
          rw [desugar_items hshaped]
          cases form <;> rfl

end Term

/-! ## Parsing -/

namespace Expr

theorem ofTerms_map_congr {α : Type} {f g : α → Term} {as : List α}
    (h : ∀ a ∈ as, ofTerm (f a) = ofTerm (g a)) :
    ofTerms (as.map f) = ofTerms (as.map g) := by
  induction as with
  | nil => rfl
  | cons a as ih =>
      rw [List.forall_mem_cons] at h
      rw [List.map_cons, List.map_cons, ofTerms_cons, ofTerms_cons, h.1, ih h.2]

/-- A form and what it is rewritten to come to the same if their parts do. -/
theorem ofTerm_form_desugar {form : Form} (hshaped : form.Shaped)
    (h : ∀ t ∈ form.parts, ofTerm t.desugar = ofTerm t) :
    ofTerm form.desugar = ofForm form := by
  have hlam : ∀ params body, (Form.lam params body).Shaped :=
    fun _ _ => trivial
  cases form with
  | cond test thenBranch elseBranch =>
      have hcond : (Form.cond test.desugar thenBranch.desugar
        elseBranch.desugar).Shaped := trivial
      simp only [Form.parts, List.forall_mem_cons] at h
      rw [Form.desugar, ofTerm_items hcond, ofForm, ofForm, h.1, h.2.1, h.2.2.1]
  | lam params body =>
      simp only [Form.parts, List.forall_mem_cons] at h
      rw [Form.desugar, ofTerm_items (hlam ..), ofForm, ofForm, h.1]
  | var clauses body =>
      simp only [Form.parts, List.forall_mem_cons, List.forall_mem_map] at h
      have happ : (Form.app
        (.list (Form.lam (clauses.map Clause.name) body.desugar).items)
        (clauses.map (·.value.desugar))).Shaped := rfl
      rw [Form.desugar, ofTerm_items happ, ofForm, ofForm,
        ofTerm_items (hlam ..), ofForm, h.1, ofTerms_map_congr h.2]
      simp only [bind_assoc, pure_bind]
  | app callee args =>
      simp only [Form.parts, List.forall_mem_cons] at h
      have happ : (Form.app callee.desugar (args.map Term.desugar)).Shaped :=
        Term.ofTerm?_desugar hshaped
      have hargs := ofTerms_map_congr (g := id) h.2
      rw [List.map_id] at hargs
      rw [Form.desugar, ofTerm_items happ, ofForm, ofForm, h.1, hargs]

/-- Rewriting the `var` forms of a term changes neither the expression that the
term is nor, where it is none, the fault that is found. -/
theorem ofTerm_desugar (t : Term) : ofTerm t.desugar = ofTerm t := by
  induction t using Term.form_induction with
  | atom a => rfl
  | malformed items e h => rw [Term.desugar_malformed h]
  | form items form hform ih =>
      obtain ⟨rfl, hshaped⟩ := Form.ofItems_eq_ok_iff.mp hform
      rw [Term.desugar_items hshaped, ofTerm_items hshaped]
      exact ofTerm_form_desugar hshaped ih

/-- The value of a clause is rewritten, and its name is not. -/
example (x : Float) :
    (Term.list [.symbol "var", .list [.list [.symbol "var"], .symbol "=",
      .list [.symbol "var", .list [.symbol "y", .symbol "=", .atom (.number x)],
        .symbol "y"]], .symbol "z"]).desugar =
    .list [.list [.symbol "lam", .list [.list [.symbol "var"]], .symbol "z"],
      .list [.list [.symbol "lam", .list [.symbol "y"], .symbol "y"],
        .atom (.number x)]] :=
  rfl

end Expr

end BraceLisp
