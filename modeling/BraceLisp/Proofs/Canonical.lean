import BraceLisp.Proofs.FreeNames
import BraceLisp.Proofs.Grammar
import BraceLisp.Proofs.Sugar

/-!
# Expressions written as terms

`Expr.toTerm` writes an expression with `if`, `lam` and applications, and needs
no `var`. What is written is parsed back if the expression is `WellFormed`: no
name in it is a reserved word, and the parameters of each `lam` are distinct.
Reserved words cannot be names, so no application that is written begins like a
special form (`WellFormed.ofTerm?_toTerm`).

The parser returns only such expressions, and writing one that it returned gives
the term that was parsed with its `var` forms rewritten. So every expression in
order has one way of being written, and terms are the same expression if they
are the same but for `var` (`Expr.parsed_iff_wellFormed`).

Equality of programs is decided by `Expr.same` and `Term.same`, which compare
numbers as numbers. Writing keeps apart what they keep apart.
-/

namespace BraceLisp.Expr

/-! ## Writing expressions -/

/-- No name is a reserved word, and no parameter list names anything twice. -/
inductive WellFormed : Expr String → Prop where
  | number (x : Float) : WellFormed (.number x)
  | string (s : String) : WellFormed (.string s)
  | ident {x : String} (hx : Term.IsName x) : WellFormed (.ident x)
  | cond {test thenBranch elseBranch : Expr String} (ht : WellFormed test)
      (ha : WellFormed thenBranch) (hb : WellFormed elseBranch) :
      WellFormed (.cond test thenBranch elseBranch)
  | lam {params : List String} {body : Expr String}
      (hparams : Term.AreParams params) (hbody : WellFormed body) :
      WellFormed (.lam params body)
  | app {callee : Expr String} {args : List (Expr String)}
      (hcallee : WellFormed callee) (hargs : ∀ a ∈ args, WellFormed a) :
      WellFormed (.app callee args)

mutual

/-- The expression written as a term. -/
def toTerm : Expr String → Term
  | number x => .atom (.number x)
  | string s => .atom (.string s)
  | ident x => .symbol x
  | cond test thenBranch elseBranch =>
    .list [.symbol "if", test.toTerm, thenBranch.toTerm, elseBranch.toTerm]
  | lam params body =>
    .list [.symbol "lam", .list (params.map .symbol), body.toTerm]
  | app callee args => .list (callee.toTerm :: toTerms args)

def toTerms : List (Expr String) → List Term
  | [] => []
  | e :: es => e.toTerm :: toTerms es

end

theorem WellFormed.ofTerm?_toTerm {e : Expr String} (h : e.WellFormed) :
    Keyword.ofTerm? e.toTerm = none := by
  cases h with
  | ident hx =>
      have hreserved : ["if", "lam", "var"] ⊆ ["var", "if", "lam", "="] := by
        decide
      rw [Term.ofTerm?_eq_none_iff]
      intro s hs heq
      cases heq
      exact hx (hreserved hs)
  | number | string | cond | lam | app => rfl

/-! ## Written and parsed -/

theorem ofTerms_toTerms {es : List (Expr String)}
    (h : ∀ e ∈ es, ofTerm e.toTerm = .ok e) :
    ofTerms (toTerms es) = .ok es := by
  induction es with
  | nil => exact ofTerms_nil
  | cons e es ih =>
      rw [List.forall_mem_cons] at h
      rw [toTerms, ofTerms_cons, h.1, ih h.2]
      rfl

theorem WellFormed.ofTerm_toTerm {e : Expr String} (h : e.WellFormed) :
    ofTerm e.toTerm = .ok e := by
  induction h with
  | number x => exact ofTerm_number x
  | string s => exact ofTerm_string s
  | ident hx => exact (ofTerm_symbol _).trans (if_neg hx)
  | @cond t a b _ _ _ iht iha ihb =>
      have hshaped : (Form.cond t.toTerm a.toTerm b.toTerm).Shaped := trivial
      refine (ofTerm_items hshaped).trans ?_
      rw [ofForm, iht, iha, ihb]
      rfl
  | @lam params body hparams _ ih =>
      have hshaped : (Form.lam (params.map .symbol) body.toTerm).Shaped :=
        trivial
      have hnames : paramsOf (params.map .symbol) = .ok params :=
        paramsOf_eq_ok_iff.mpr ⟨rfl, Term.areParams_iff.mp hparams⟩
      refine (ofTerm_items hshaped).trans ?_
      rw [ofForm, hnames, ih]
      rfl
  | @app f args hf _ ihf ihargs =>
      have hshaped : (Form.app f.toTerm (toTerms args)).Shaped :=
        hf.ofTerm?_toTerm
      refine (ofTerm_items hshaped).trans ?_
      rw [ofForm, ihf, ofTerms_toTerms ihargs]
      rfl

/-! ## Parsed and written -/

theorem wellFormed_of_ofTerms {ts : List Term} {es : List (Expr String)}
    (ih : ∀ t ∈ ts, ∀ e, ofTerm t = .ok e →
      e.WellFormed ∧ e.toTerm = t.desugar)
    (h : ofTerms ts = .ok es) :
    (∀ e ∈ es, e.WellFormed) ∧ toTerms es = ts.map Term.desugar := by
  induction ts generalizing es with
  | nil => rw [ofTerms_nil] at h; cases h; exact ⟨nofun, rfl⟩
  | cons t ts ihts =>
      rw [List.forall_mem_cons] at ih
      rw [ofTerms_cons] at h
      obtain ⟨e, he, h⟩ := bind_eq_ok_iff.mp h
      obtain ⟨es, hes, h⟩ := bind_eq_ok_iff.mp h
      cases h
      obtain ⟨hwell, hterm⟩ := ih.1 e he
      obtain ⟨hwells, hterms⟩ := ihts ih.2 hes
      refine ⟨List.forall_mem_cons.mpr ⟨hwell, hwells⟩, ?_⟩
      rw [toTerms, hterm, hterms, List.map_cons]

theorem wellFormed_of_ofForm {form : Form} {e : Expr String}
    (ih : ∀ t ∈ form.parts, ∀ e, ofTerm t = .ok e →
      e.WellFormed ∧ e.toTerm = t.desugar)
    (h : ofForm form = .ok e) : e.WellFormed ∧ e.toTerm = form.desugar := by
  cases form with
  | cond test thenBranch elseBranch =>
      simp only [Form.parts, List.forall_mem_cons] at ih
      obtain ⟨t, ht, h⟩ := bind_eq_ok_iff.mp h
      obtain ⟨a, ha, h⟩ := bind_eq_ok_iff.mp h
      obtain ⟨b, hb, h⟩ := bind_eq_ok_iff.mp h
      cases h
      obtain ⟨hwt, htt⟩ := ih.1 t ht
      obtain ⟨hwa, hta⟩ := ih.2.1 a ha
      obtain ⟨hwb, htb⟩ := ih.2.2.1 b hb
      refine ⟨.cond hwt hwa hwb, ?_⟩
      rw [toTerm, htt, hta, htb]
      rfl
  | lam params body =>
      simp only [Form.parts, List.forall_mem_cons] at ih
      obtain ⟨names, hnames, h⟩ := bind_eq_ok_iff.mp h
      obtain ⟨b, hb, h⟩ := bind_eq_ok_iff.mp h
      cases h
      obtain ⟨rfl, hparams⟩ := paramsOf_eq_ok_iff.mp hnames
      obtain ⟨hwell, hterm⟩ := ih.1 b hb
      refine ⟨.lam (Term.areParams_iff.mpr hparams) hwell, ?_⟩
      rw [toTerm, hterm]
      rfl
  | var clauses body =>
      simp only [Form.parts, List.forall_mem_cons] at ih
      obtain ⟨names, hnames, h⟩ := bind_eq_ok_iff.mp h
      obtain ⟨b, hb, h⟩ := bind_eq_ok_iff.mp h
      obtain ⟨es, hes, h⟩ := bind_eq_ok_iff.mp h
      cases h
      obtain ⟨hterms, hparams⟩ := paramsOf_eq_ok_iff.mp hnames
      obtain ⟨hwell, hterm⟩ := ih.1 b hb
      obtain ⟨hwells, hvalues⟩ := wellFormed_of_ofTerms ih.2 hes
      refine ⟨.app (.lam (Term.areParams_iff.mpr hparams) hwell) hwells, ?_⟩
      rw [toTerm, toTerm, ← hterms, hterm, hvalues, List.map_map]
      rfl
  | app callee args =>
      simp only [Form.parts, List.forall_mem_cons] at ih
      obtain ⟨f, hf, h⟩ := bind_eq_ok_iff.mp h
      obtain ⟨es, hes, h⟩ := bind_eq_ok_iff.mp h
      cases h
      obtain ⟨hwell, hterm⟩ := ih.1 f hf
      obtain ⟨hwells, hterms⟩ := wellFormed_of_ofTerms ih.2 hes
      refine ⟨.app hwell hwells, ?_⟩
      rw [toTerm, hterm, hterms]
      rfl

theorem wellFormed_of_ofTerm {t : Term} {e : Expr String}
    (h : ofTerm t = .ok e) : e.WellFormed ∧ e.toTerm = t.desugar := by
  induction t using Term.form_induction generalizing e with
  | atom a =>
      cases a with
      | number x => rw [ofTerm_number] at h; cases h; exact ⟨.number x, rfl⟩
      | string s => rw [ofTerm_string] at h; cases h; exact ⟨.string s, rfl⟩
      | symbol s =>
          rw [ofTerm_symbol] at h
          split at h
          · cases h
          · next hs => cases h; exact ⟨.ident hs, rfl⟩
  | malformed items err herr => rw [ofTerm_list, herr] at h; cases h
  | form items form hform ih =>
      obtain ⟨rfl, hshaped⟩ := Form.ofItems_eq_ok_iff.mp hform
      rw [ofTerm_items hshaped] at h
      rw [Term.desugar_items hshaped]
      exact wellFormed_of_ofForm (fun t ht e he => ih t ht he) h

/-! ## Equality -/

theorem same_symbol_of_ne {t : Term} {s : String} (h : t ≠ .symbol s) :
    t.same (.symbol s) = false ∧ (Term.symbol s).same t = false := by
  match t with
  | .atom (.symbol s') =>
      have hne : s' ≠ s := by rintro rfl; exact h rfl
      exact ⟨beq_false_of_ne hne, beq_false_of_ne hne.symm⟩
  | .atom (.number _) | .atom (.string _) | .list _ => exact ⟨rfl, rfl⟩

theorem WellFormed.toTerm_ne_keyword {e : Expr String} (h : e.WellFormed)
    (k : Keyword) : e.toTerm ≠ .symbol k.name := by
  intro heq
  have hk := Keyword.ofTerm?_eq_some_iff.mpr heq
  rw [h.ofTerm?_toTerm] at hk
  cases hk

theorem sameAll_map_symbol (params params' : List String) :
    Term.sameAll (params.map .symbol) (params'.map .symbol) =
      (params == params') := by
  induction params generalizing params' with
  | nil => cases params' <;> rfl
  | cons p params ih =>
      cases params' with
      | nil => rfl
      | cons q params' =>
          rw [List.map_cons, List.map_cons, Term.sameAll, ih]
          rfl

theorem sameAll_toTerms {es fs : List (Expr String)}
    (h : ∀ e ∈ es, ∀ f ∈ fs, e.toTerm.same f.toTerm = e.same f) :
    Term.sameAll (toTerms es) (toTerms fs) = sameAll es fs := by
  induction es generalizing fs with
  | nil => cases fs <;> rfl
  | cons e es ih =>
      cases fs with
      | nil => rfl
      | cons f fs =>
          rw [toTerms, toTerms, Term.sameAll, sameAll, h _ (.head _) _ (.head _),
            ih fun e he f hf => h e (.tail _ he) f (.tail _ hf)]

/-- Writing keeps apart what is not the same. -/
theorem WellFormed.same_toTerm {e f : Expr String} (he : e.WellFormed)
    (hf : f.WellFormed) : e.toTerm.same f.toTerm = e.same f := by
  induction he generalizing f with
  | number | string | ident => cases hf <;> rfl
  | @cond t a b ht ha hb iht iha ihb =>
      cases hf with
      | number | string | ident | lam => rfl
      | cond ht' ha' hb' =>
          simp only [toTerm, Term.same, Term.sameAll, Atom.same, same, iht ht',
            iha ha', ihb hb', beq_self_eq_true, Bool.true_and, Bool.and_true,
            Bool.and_assoc]
      | app hf' =>
          have hhead := (same_symbol_of_ne (hf'.toTerm_ne_keyword .cond)).2
          show ((Term.symbol Keyword.cond.name).same _ && _) = false
          rw [hhead, Bool.false_and]
  | lam _ _ ih =>
      cases hf with
      | number | string | ident | cond => rfl
      | lam _ hbody' =>
          simp only [toTerm, Term.same, Term.sameAll, Atom.same, same,
            ih hbody', sameAll_map_symbol, beq_self_eq_true, Bool.true_and,
            Bool.and_true]
      | app hf' =>
          have hhead := (same_symbol_of_ne (hf'.toTerm_ne_keyword .lam)).2
          show ((Term.symbol Keyword.lam.name).same _ && _) = false
          rw [hhead, Bool.false_and]
  | app hcallee _ ihcallee ihargs =>
      cases hf with
      | number | string | ident => rfl
      | cond =>
          have hhead := (same_symbol_of_ne (hcallee.toTerm_ne_keyword .cond)).1
          show (Term.same _ (.symbol Keyword.cond.name) && _) = false
          rw [hhead, Bool.false_and]
      | lam =>
          have hhead := (same_symbol_of_ne (hcallee.toTerm_ne_keyword .lam)).1
          show (Term.same _ (.symbol Keyword.lam.name) && _) = false
          rw [hhead, Bool.false_and]
      | app hcallee' hargs' =>
          have hargs := sameAll_toTerms fun a ha b hb =>
            ihargs a ha (hargs' b hb)
          simp only [toTerm, Term.same, Term.sameAll, same, ihcallee hcallee',
            hargs]

/-! ## The law -/

/-- The expressions that terms are parsed as are those in order. An expression
in order is parsed back from the term that it is written as, and writing what a
term is parsed as gives the term with its `var` forms rewritten. So two terms
are the same expression if and only if they are the same after rewriting. -/
theorem parsed_iff_wellFormed :
    (∀ e, (∃ t, ofTerm t = .ok e) ↔ e.WellFormed) ∧
      (∀ e : Expr String, e.WellFormed → ofTerm e.toTerm = .ok e) ∧
      (∀ t e, ofTerm t = .ok e → e.toTerm = t.desugar) ∧
      ∀ t u e f, ofTerm t = .ok e → ofTerm u = .ok f →
        (e = f ↔ t.desugar = u.desugar) ∧
          e.same f = t.desugar.same u.desugar := by
  refine ⟨fun e => ⟨?_, fun h => ⟨_, h.ofTerm_toTerm⟩⟩,
    fun e h => h.ofTerm_toTerm, fun t e h => (wellFormed_of_ofTerm h).2, ?_⟩
  · rintro ⟨t, h⟩
    exact (wellFormed_of_ofTerm h).1
  · intro t u e f ht hu
    obtain ⟨he, hte⟩ := wellFormed_of_ofTerm ht
    obtain ⟨hf, huf⟩ := wellFormed_of_ofTerm hu
    rw [← hte, ← huf, he.same_toTerm hf]
    refine ⟨⟨congrArg toTerm, fun h => ?_⟩, rfl⟩
    have hfe := hf.ofTerm_toTerm
    rw [← h, he.ofTerm_toTerm] at hfe
    exact Except.ok.inj hfe

/-- A `var` in a clause of another one, and the same procedures applied without
it. -/
theorem nested_var_parsed :
    let t : Term := .list [.symbol "var", .list [.symbol "x", .symbol "=",
      .list [.symbol "var", .list [.symbol "y", .symbol "=",
        .atom (.string "a")], .symbol "y"]], .symbol "x"]
    let u : Term := .list [.list [.symbol "lam", .list [.symbol "x"],
      .symbol "x"], .list [.list [.symbol "lam", .list [.symbol "y"],
        .symbol "y"], .atom (.string "a")]]
    let e : Expr String := .app (.lam ["x"] (.ident "x"))
      [.app (.lam ["y"] (.ident "y")) [.string "a"]]
    ofTerm t = .ok e ∧ ofTerm u = .ok e ∧ e.WellFormed ∧
      ofTerm e.toTerm = .ok e ∧ e.toTerm = t.desugar ∧
      t.desugar = u.desugar := by
  intro t u e
  have ht : ofTerm t = .ok e := by with_unfolding_all rfl
  have hu : ofTerm u = .ok e := by with_unfolding_all rfl
  obtain ⟨hiff, hread, hwrite, hsame⟩ := parsed_iff_wellFormed
  have he := (hiff e).mp ⟨t, ht⟩
  exact ⟨ht, hu, he, hread e he, hwrite t e ht, (hsame t u e e ht hu).1.mp rfl⟩

end BraceLisp.Expr
