import BraceLisp.Expr.OfTerm
import Mathlib.Data.List.Forall2

/-!
# Forms taken apart and put together

Recognising a form is undone by writing it: `Form.items` are the members of the
group that a form makes, and a group is recognised as a form exactly if it has
these members (`Form.ofItems_eq_ok_iff`). The terms that a form has in the
places of expressions are its `Form.parts`. They are smaller than the group, so
what holds of a group when it holds of the parts of its form holds of every term
(`Term.form_induction`).

Parsing a group is recognising its form and parsing the form
(`Expr.ofTerm_list`).
-/

namespace BraceLisp

theorem bind_eq_ok_iff {ε α β : Type} {x : Except ε α} {f : α → Except ε β}
    {b : β} : (x >>= f) = .ok b ↔ ∃ a, x = .ok a ∧ f a = .ok b := by
  cases x with
  | error e =>
      refine ⟨nofun, ?_⟩
      rintro ⟨a, h, -⟩
      cases h
  | ok a =>
      refine ⟨fun h => ⟨a, rfl, h⟩, ?_⟩
      rintro ⟨_, ⟨⟩, h⟩
      exact h

/-! ## Shapes -/

theorem Keyword.ofTerm?_eq_some_iff {t : Term} {k : Keyword} :
    ofTerm? t = some k ↔ t = .symbol k.name := by
  constructor
  · intro h
    unfold ofTerm? at h
    split at h
    · split at h
      · next hs => cases h; rw [hs]
      · split at h
        · next hs => cases h; rw [hs]
        · split at h
          · next hs => cases h; rw [hs]
          · cases h
    · cases h
  · rintro rfl
    cases k <;> rfl

namespace Clause

/-- The term that a clause is written as. -/
def term (c : Clause) : Term := .list [c.name, .symbol bindingMark, c.value]

theorem ofTerm?_eq_some_iff {t : Term} {c : Clause} :
    ofTerm? t = some c ↔ t = c.term := by
  constructor
  · intro h
    unfold ofTerm? at h
    split at h
    · split at h
      · next hmark => cases h; rw [hmark]; rfl
      · cases h
    · cases h
  · rintro rfl
    rfl

theorem splitBody?_eq_some_iff {items : List Term} {clauses : List Clause}
    {body : Term} :
    splitBody? items = some (clauses, body) ↔
      items = clauses.map term ++ [body] := by
  constructor
  · intro h
    fun_induction splitBody? items generalizing clauses body with
    | case1 => cases h
    | case2 => cases h; rfl
    | case3 t rest _ c clauses body hrest hc ih =>
        cases h
        rw [ofTerm?_eq_some_iff.mp hc, ih hrest]
        rfl
    | case4 => cases h
  · intro h
    induction clauses generalizing items with
    | nil => rw [h]; rfl
    | cons c clauses ih =>
        have hne : clauses.map term ++ [body] ≠ [] :=
          List.append_ne_nil_of_right_ne_nil _ (List.cons_ne_nil body [])
        rw [h, List.map_cons, List.cons_append, splitBody?]
        · rw [ofTerm?_eq_some_iff.mpr rfl, ih rfl]
        · exact hne

end Clause

namespace Form

/-- The members of the group that a form is written as. -/
def items : Form → List Term
  | cond test thenBranch elseBranch =>
    [.symbol Keyword.cond.name, test, thenBranch, elseBranch]
  | lam params body => [.symbol Keyword.lam.name, .list params, body]
  | var clauses body =>
    .symbol Keyword.var.name :: (clauses.map Clause.term ++ [body])
  | app callee args => callee :: args

/-- What the shape of a form does not show: a `var` has a clause, and a callee
is no keyword. -/
def Shaped : Form → Prop
  | var clauses _ => clauses ≠ []
  | app callee _ => Keyword.ofTerm? callee = none
  | _ => True

theorem ofItems_eq_ok_iff {items : List Term} {form : Form} :
    ofItems items = .ok form ↔ items = form.items ∧ form.Shaped := by
  constructor
  · intro h
    unfold ofItems at h
    split at h
    · cases h
    · next head rest =>
        split at h
        · next hhead =>
            obtain rfl := Keyword.ofTerm?_eq_some_iff.mp hhead
            split at h
            · cases h; exact ⟨rfl, trivial⟩
            · cases h
        · next hhead =>
            obtain rfl := Keyword.ofTerm?_eq_some_iff.mp hhead
            split at h
            · cases h; exact ⟨rfl, trivial⟩
            · cases h
        · next hhead =>
            obtain rfl := Keyword.ofTerm?_eq_some_iff.mp hhead
            split at h
            · next hsplit =>
                cases h
                rw [Clause.splitBody?_eq_some_iff.mp hsplit]
                exact ⟨rfl, List.cons_ne_nil _ _⟩
            · cases h
        · next hhead => cases h; exact ⟨rfl, hhead⟩
  · rintro ⟨rfl, hshaped⟩
    cases form with
    | cond => rfl
    | lam => rfl
    | var clauses body =>
        obtain ⟨c, clauses, rfl⟩ := List.exists_cons_of_ne_nil hshaped
        have hhead : Keyword.ofTerm? (.symbol Keyword.var.name) = some .var := rfl
        have hsplit := Clause.splitBody?_eq_some_iff.mpr
          (rfl : (c :: clauses).map Clause.term ++ [body] = _)
        unfold ofItems Form.items
        simp only [hhead, hsplit]
    | app callee args =>
        have hhead : Keyword.ofTerm? callee = none := hshaped
        unfold ofItems Form.items
        simp only [hhead]

/-- The terms in the places of parameters. -/
def params : Form → List Term
  | lam params _ => params
  | var clauses _ => clauses.map Clause.name
  | cond .. | app .. => []

/-- The terms in the places of expressions, in the order in which they are
parsed. -/
def parts : Form → List Term
  | cond test thenBranch elseBranch => [test, thenBranch, elseBranch]
  | lam _ body => [body]
  | var clauses body => body :: clauses.map Clause.value
  | app callee args => callee :: args

theorem sizeOf_lt_of_mem_parts {items : List Term} {form : Form}
    (h : ofItems items = .ok form) {t : Term} (ht : t ∈ form.parts) :
    sizeOf t < sizeOf (Term.list items) := by
  have hlist := Term.list.sizeOf_spec items
  cases form with
  | cond a b c =>
      have := sizeOf_cond_lt h
      simp only [parts, List.mem_cons, List.not_mem_nil, or_false] at ht
      rcases ht with rfl | rfl | rfl <;> omega
  | lam params body =>
      have := sizeOf_lam_lt h
      obtain rfl := List.mem_singleton.mp ht
      omega
  | var clauses body =>
      have := sizeOf_var_lt h
      rcases List.mem_cons.mp ht with rfl | ht
      · omega
      · have := List.sizeOf_lt_of_mem ht
        omega
  | app callee args =>
      have := sizeOf_app_lt h
      rcases List.mem_cons.mp ht with rfl | ht
      · omega
      · have := List.sizeOf_lt_of_mem ht
        omega

end Form

/-- Induction over terms as they are parsed: a group is no form, or it is one
and its parts come first. -/
@[elab_as_elim]
theorem Term.form_induction {P : Term → Prop} (atom : ∀ a, P (.atom a))
    (malformed : ∀ items e, Form.ofItems items = .error e → P (.list items))
    (form : ∀ items form, Form.ofItems items = .ok form →
      (∀ t ∈ form.parts, P t) → P (.list items)) : ∀ t, P t := by
  intro t
  match t with
  | .atom a => exact atom a
  | .list items =>
      cases h : Form.ofItems items with
      | error e => exact malformed items e h
      | ok f =>
          exact form items f h fun u hu => form_induction atom malformed form u
termination_by t => sizeOf t
decreasing_by exact Form.sizeOf_lt_of_mem_parts h hu

/-! ## Parsing -/

namespace Expr

/-- The expressions that terms are, left to right. -/
def ofTerms (terms : List Term) : Except SyntaxError (List (Expr String)) :=
  ofTermsWith pure terms

/-- The names of parameters that follow those in `seen`. -/
def paramsFrom (seen : List String) (terms : List Term) :
    Except SyntaxError (List String) :=
  parametersFrom pure seen terms

/-- The names of a parameter list, which must be distinct symbols. -/
def paramsOf (terms : List Term) : Except SyntaxError (List String) :=
  paramsFrom [] terms

/-- The expression that a form is. -/
def ofForm : Form → Except SyntaxError (Expr String)
  | .cond test thenBranch elseBranch =>
    return .cond (← ofTerm test) (← ofTerm thenBranch) (← ofTerm elseBranch)
  | .lam params body => return .lam (← paramsOf params) (← ofTerm body)
  | .var clauses body => do
    let params ← paramsOf (clauses.map Clause.name)
    let body ← ofTerm body
    return .app (.lam params body) (← ofTerms (clauses.map Clause.value))
  | .app callee args => return .app (← ofTerm callee) (← ofTerms args)

theorem ofTerm_list (items : List Term) :
    ofTerm (.list items) = Form.ofItems items >>= ofForm := by
  rw [ofTerm, ofTermWith]
  split
  all_goals
    next h => exact (congrArg (· >>= ofForm) h).symm

theorem ofTerm_items {form : Form} (h : form.Shaped) :
    ofTerm (.list form.items) = ofForm form := by
  rw [ofTerm_list, Form.ofItems_eq_ok_iff.mpr ⟨rfl, h⟩]
  rfl

theorem ofTerm_number (x : Float) :
    ofTerm (.atom (.number x)) = .ok (.number x) := by
  rw [ofTerm, ofTermWith]
  rfl

theorem ofTerm_string (s : String) :
    ofTerm (.atom (.string s)) = .ok (.string s) := by
  rw [ofTerm, ofTermWith]
  rfl

theorem ofTerm_symbol (name : String) :
    ofTerm (.symbol name) =
      if Reserved name then .error (.reservedWord name)
      else .ok (.ident name) := by
  rw [ofTerm, ofTermWith, identifier]
  split <;> rfl

theorem ofTerms_nil : ofTerms [] = .ok [] := by
  rw [ofTerms, ofTermsWith]
  rfl

theorem ofTerms_cons (t : Term) (terms : List Term) :
    ofTerms (t :: terms) = do
      return (← ofTerm t) :: (← ofTerms terms) := by
  rw [ofTerms, ofTermsWith]
  rfl

/-! ## Where parsing succeeds -/

theorem ofTerms_isOk_iff {terms : List Term} :
    (∃ es, ofTerms terms = .ok es) ↔
      ∀ t ∈ terms, ∃ e, ofTerm t = .ok e := by
  induction terms with
  | nil => exact ⟨nofun, fun _ => ⟨[], ofTerms_nil⟩⟩
  | cons t terms ih =>
      rw [List.forall_mem_cons, ← ih, ofTerms_cons]
      simp only [bind_eq_ok_iff]
      constructor
      · rintro ⟨es, e, he, es', hes, -⟩
        exact ⟨⟨e, he⟩, es', hes⟩
      · rintro ⟨⟨e, he⟩, es, hes⟩
        exact ⟨e :: es, e, he, es, hes, rfl⟩

theorem ofTerms_eq_ok_iff {terms : List Term} {es : List (Expr String)} :
    ofTerms terms = .ok es ↔
      List.Forall₂ (fun t e => ofTerm t = .ok e) terms es := by
  induction terms generalizing es with
  | nil =>
      rw [ofTerms_nil, List.forall₂_nil_left_iff]
      exact ⟨fun h => (Except.ok.inj h).symm, fun h => h ▸ rfl⟩
  | cons t terms ih =>
      rw [ofTerms_cons, List.forall₂_cons_left_iff]
      simp only [bind_eq_ok_iff, ih]
      constructor
      · rintro ⟨e, he, es', hes, ⟨⟩⟩
        exact ⟨e, es', he, hes, rfl⟩
      · rintro ⟨e, es', he, hes, rfl⟩
        exact ⟨e, he, es', hes, rfl⟩

/-- A form is an expression if its parameters are in order and its parts are
expressions. -/
theorem ofForm_isOk_iff {form : Form} :
    (∃ e, ofForm form = .ok e) ↔
      (∃ names, paramsOf form.params = .ok names) ∧
        ∀ t ∈ form.parts, ∃ e, ofTerm t = .ok e := by
  cases form with
  | cond test thenBranch elseBranch =>
      simp only [Form.params, Form.parts, List.forall_mem_cons, ofForm,
        bind_eq_ok_iff]
      constructor
      · rintro ⟨e, t, ht, a, ha, b, hb, -⟩
        exact ⟨⟨[], rfl⟩, ⟨t, ht⟩, ⟨a, ha⟩, ⟨b, hb⟩, nofun⟩
      · rintro ⟨-, ⟨t, ht⟩, ⟨a, ha⟩, ⟨b, hb⟩, -⟩
        exact ⟨_, t, ht, a, ha, b, hb, rfl⟩
  | lam params body =>
      simp only [Form.params, Form.parts, List.forall_mem_cons, ofForm,
        bind_eq_ok_iff]
      constructor
      · rintro ⟨e, names, hnames, b, hb, -⟩
        exact ⟨⟨names, hnames⟩, ⟨b, hb⟩, nofun⟩
      · rintro ⟨⟨names, hnames⟩, ⟨b, hb⟩, -⟩
        exact ⟨_, names, hnames, b, hb, rfl⟩
  | var clauses body =>
      simp only [Form.params, Form.parts, List.forall_mem_cons, ofForm,
        bind_eq_ok_iff, ← ofTerms_isOk_iff]
      constructor
      · rintro ⟨e, names, hnames, b, hb, es, hes, -⟩
        exact ⟨⟨names, hnames⟩, ⟨b, hb⟩, es, hes⟩
      · rintro ⟨⟨names, hnames⟩, ⟨b, hb⟩, es, hes⟩
        exact ⟨_, names, hnames, b, hb, es, hes, rfl⟩
  | app callee args =>
      simp only [Form.params, Form.parts, List.forall_mem_cons, ofForm,
        bind_eq_ok_iff, ← ofTerms_isOk_iff]
      constructor
      · rintro ⟨e, f, hf, es, hes, -⟩
        exact ⟨⟨[], rfl⟩, ⟨f, hf⟩, es, hes⟩
      · rintro ⟨-, ⟨f, hf⟩, es, hes⟩
        exact ⟨_, f, hf, es, hes, rfl⟩

/-! ## Parameters -/

theorem paramsFrom_symbol (seen : List String) (s : String)
    (terms : List Term) :
    paramsFrom seen (.symbol s :: terms) =
      if Reserved s then .error (.reservedWord s)
      else if s ∈ seen then .error (.duplicateParameter s)
      else do return s :: (← paramsFrom (s :: seen) terms) := by
  rw [paramsFrom, parametersFrom, identifier]
  by_cases hs : Reserved s
  · rw [if_pos hs, if_pos hs]
    rfl
  · rw [if_neg hs, if_neg hs, pure_bind]
    by_cases hseen : s ∈ seen
    · rw [if_pos hseen, if_pos hseen]
      rfl
    · rw [if_neg hseen, if_neg hseen]
      rfl

theorem paramsFrom_other (seen : List String) {t : Term} (terms : List Term)
    (h : ∀ s, t ≠ .symbol s) :
    paramsFrom seen (t :: terms) = .error (.invalidParameter t.text) := by
  rw [paramsFrom, parametersFrom]
  · rfl
  · exact h

theorem paramsFrom_eq_ok_iff {seen : List String} {terms : List Term}
    {names : List String} :
    paramsFrom seen terms = .ok names ↔
      terms = names.map .symbol ∧ names.Nodup ∧
        ∀ s ∈ names, s ∉ seen ∧ ¬Reserved s := by
  constructor
  · intro h
    induction terms generalizing seen names with
    | nil => cases h; exact ⟨rfl, .nil, nofun⟩
    | cons t terms ih =>
        by_cases hsymbol : ∃ s, t = .symbol s
        · obtain ⟨s, rfl⟩ := hsymbol
          rw [paramsFrom_symbol] at h
          split at h
          · cases h
          · next hreserved =>
              split at h
              · cases h
              · next hseen =>
                  obtain ⟨rest, hrest, h⟩ := bind_eq_ok_iff.mp h
                  cases h
                  obtain ⟨rfl, hnodup, hnames⟩ := ih hrest
                  refine ⟨rfl, List.nodup_cons.mpr ⟨?_, hnodup⟩, ?_⟩
                  · intro hs
                    exact (hnames s hs).1 List.mem_cons_self
                  · rw [List.forall_mem_cons]
                    refine ⟨⟨hseen, hreserved⟩, fun x hx => ?_⟩
                    have hx := hnames x hx
                    exact ⟨fun h => hx.1 (List.mem_cons_of_mem s h), hx.2⟩
        · rw [not_exists] at hsymbol
          rw [paramsFrom_other seen terms hsymbol] at h
          cases h
  · rintro ⟨rfl, hnodup, hnames⟩
    induction names generalizing seen with
    | nil => rfl
    | cons s names ih =>
        rw [List.nodup_cons] at hnodup
        rw [List.forall_mem_cons] at hnames
        obtain ⟨⟨hseen, hreserved⟩, hnames⟩ := hnames
        have hrest : paramsFrom (s :: seen) (names.map .symbol) =
            .ok names := by
          refine ih hnodup.2 fun x hx => ⟨?_, (hnames x hx).2⟩
          rw [List.mem_cons, not_or]
          refine ⟨?_, (hnames x hx).1⟩
          rintro rfl
          exact hnodup.1 hx
        rw [List.map_cons, paramsFrom_symbol, if_neg hreserved, if_neg hseen,
          hrest]
        rfl

theorem paramsOf_eq_ok_iff {terms : List Term} {names : List String} :
    paramsOf terms = .ok names ↔
      terms = names.map .symbol ∧ names.Nodup ∧ ∀ s ∈ names, ¬Reserved s := by
  rw [paramsOf, paramsFrom_eq_ok_iff]
  simp

end Expr

end BraceLisp
